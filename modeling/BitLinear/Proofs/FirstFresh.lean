import BitLinear.Proofs.Calls
import BitLinear.Proofs.Selection

/-!
# The first row from outside the span

A script is read in blocks, and the rows in the span of a basis are dropped until one is outside it.
`DrawsFirst n basis bytes result count` says what such a draw answers and how many bytes it takes :
a complete basis refuses at once, the first block that is no sum of accepted rows is the answer, and
a script without such a block is used up. The loop comes to its end by itself, so a limit on the
draws that exceeds the number of blocks makes no difference (`Invariant.drawsFirst`).

The main statement is that a draw from any state that calls reach answers so, leaves the basis as it
is, and that the row it answers with is accepted.
-/

namespace BitLinear.RowBasis

/-- What a draw of a row from outside the span makes of a script, and the bytes that it takes. -/
inductive DrawsFirst (n : ℕ) (basis : RowBasis) (bytes : List Byte) :
    Except Error BitRow → ℕ → Prop
  /-- There is no row outside the span, and none is drawn. -/
  | complete : basis.isComplete = true →
      DrawsFirst n basis bytes (.error (.alreadyComplete n)) 0
  /-- The first block that is no sum of accepted rows is drawn, and nothing behind it. -/
  | found {before later : List BitRow} {row : BitRow} : basis.isComplete = false →
      BitRow.blocks n bytes = before ++ row :: later →
        (∀ block ∈ before, BitRow.IsSum n basis.accepted block) →
          ¬BitRow.IsSum n basis.accepted row →
            DrawsFirst n basis bytes (.ok row) ((before.length + 1) * (n / 8))
  /-- All blocks are sums of accepted rows, and all are drawn. -/
  | exhausted : basis.isComplete = false →
      (∀ block ∈ BitRow.blocks n bytes, BitRow.IsSum n basis.accepted block) →
        DrawsFirst n basis bytes (.error .sourceExhausted)
          ((BitRow.blocks n bytes).length * (n / 8))

variable {n : ℕ} {basis : RowBasis} {row : BitRow}

theorem Invariant.isSum_of_allSpanned (h : Invariant n basis) {spanned : List BitRow}
    (hall : AllSpanned n basis spanned) :
    ∀ block ∈ spanned, BitRow.IsSum n basis.accepted block := by
  intro block hblock
  obtain ⟨hlen, hmem⟩ := hall block hblock
  exact (BitRow.toVec_mem_rowSpan_iff h.aligned h.length_accepted hlen).mp hmem

/-- The draw from an incomplete basis, under any limit that exceeds the number of blocks. -/
theorem Invariant.drawsFirst (h : Invariant n basis) (hc : basis.isComplete = false)
    (bytes : List Byte) : ∃ result count, DrawsFirst n basis bytes result count ∧
      count ≤ bytes.length ∧
      basis.novel.runOn (.script bytes) = (result, .script (bytes.drop count)) ∧
        ∀ draws, (BitRow.blocks n bytes).length < draws →
          (basis.novelWithin draws).runOn (.script bytes) = basis.novel.runOn (.script bytes) := by
  have hn := h.aligned
  have hpos : 0 < n := by
    have hrank := mt h.isComplete_iff.mpr (Bool.eq_false_iff.mp hc)
    have hle := h.rank_le
    omega
  obtain ⟨rows, tail, hrows, htail, rfl⟩ := BitRow.exists_eq_bytesOf_append hn hpos bytes
  have hblocks := BitRow.blocks_bytesOf_append hn hpos hrows htail
  rcases allSpanned_cases n basis hrows with hall | ⟨spanned, row, later, rfl, hall, hout⟩
  · have hrun := h.novel_eq_error hc hall htail
    obtain ⟨hle, hafter⟩ := Draw.consumes_append (congrArg Prod.snd hrun)
    rw [BitRow.length_bytesOf hrows, ← congrArg List.length hblocks] at hle hafter
    refine ⟨_, _, .exhausted hc ?_, hle, Prod.ext (by rw [hrun]) hafter,
      fun draws hdraws => ?_⟩
    · rw [hblocks]
      exact h.isSum_of_allSpanned hall
    · rw [hblocks] at hdraws
      rw [hrun, h.novelWithin_eq_error hall hdraws htail]
  · have hrow : row.length = n := hrows row (by simp)
    have hsplit : BitRow.bytesOf (spanned ++ row :: later) ++ tail =
        BitRow.bytesOf (spanned ++ [row]) ++ (BitRow.bytesOf later ++ tail) := by simp
    have hfirst : ∀ block ∈ spanned ++ [row], block.length = n := by
      rw [List.append_cons] at hrows
      exact (List.forall_mem_append.mp hrows).1
    have hrun := h.novel_eq_ok hc hall hrow hout (BitRow.bytesOf later ++ tail)
    obtain ⟨hle, hafter⟩ := Draw.consumes_append (congrArg Prod.snd hrun)
    rw [BitRow.length_bytesOf hfirst, List.length_append, List.length_singleton] at hle hafter
    rw [hsplit] at hblocks ⊢
    refine ⟨_, _, .found hc hblocks (h.isSum_of_allSpanned hall) ?_, hle,
      Prod.ext (by rw [hrun]) hafter, fun draws hdraws => ?_⟩
    · exact mt (BitRow.toVec_mem_rowSpan_iff hn h.length_accepted hrow).mpr hout
    · rw [hblocks, List.length_append] at hdraws
      rw [hrun, h.novelWithin_eq_ok hall hrow hout (by omega)]

/-- Whatever was called before, a draw from a script answers with the first block that is no sum of
accepted rows and takes nothing behind it, or uses the script up, or refuses at a complete basis. It
changes nothing in the basis, which accepts the row. -/
theorem drawsFirst_respondAll (hn : n % 8 = 0) (calls : List Call) (bytes : List Byte) :
    ∃ start basis, empty n = .ok start ∧ basis = (start.respondAll calls).2 ∧
      ∃ result count, DrawsFirst n basis bytes result count ∧ count ≤ bytes.length ∧
        basis.respond (.novel (.script bytes)) =
          (.drawn result (.script (bytes.drop count)), basis) ∧
        (basis.isComplete = false → ∀ draws, (BitRow.blocks n bytes).length < draws →
          (basis.novelWithin draws).runOn (.script bytes) =
            (result, .script (bytes.drop count))) ∧
        ∀ row, result = .ok row → ∃ next, basis.offer row = (.ok true, next) := by
  have h := (invariant_empty hn).respondAll calls
  refine ⟨_, _, empty_eq_ok hn, rfl, ?_⟩
  generalize (respondAll ⟨n, [], []⟩ calls).2 = basis at h ⊢
  cases hc : basis.isComplete with
  | true =>
    have hrun := runOn_novel_of_isComplete hc (.script bytes)
    rw [h.dimension_eq] at hrun
    refine ⟨_, 0, .complete hc, Nat.zero_le _, ?_, fun hne => ?_, fun row hrow => ?_⟩
    · rw [respond, hrun, List.drop_zero]
    · exact absurd hne.symm Bool.false_ne_true
    · simp at hrow
  | false =>
    obtain ⟨result, count, hdraws, hle, hrun, hlimit⟩ := h.drawsFirst hc bytes
    refine ⟨result, count, hdraws, hle, ?_, fun _ draws hlt => (hlimit draws hlt).trans hrun, ?_⟩
    · rw [respond, hrun]
    · rintro row rfl
      obtain ⟨next, hoffer, -⟩ := h.offer_of_novel hrun
      exact ⟨next, hoffer⟩

/-- Two blocks are sums of the two rows that were accepted, the next one is drawn, and a byte is
left. -/
theorem drawsFirst_respondAll_eight : 8 % 8 = 0 ∧ ∃ start basis, empty 8 = .ok start ∧
    basis = (start.respondAll [.offer ⟨#[6]⟩, .offer ⟨#[5]⟩]).2 ∧
      basis.respond (.novel (.script [3, 0, 9, 7])) = (.drawn (.ok ⟨#[9]⟩) (.script [7]), basis) ∧
      ∃ next, basis.offer ⟨#[9]⟩ = (.ok true, next) := by
  obtain ⟨start, basis, hstart, rfl, result, count, -, -, hrespond, -, haccepted⟩ :=
    drawsFirst_respondAll (n := 8) rfl [.offer ⟨#[6]⟩, .offer ⟨#[5]⟩] [3, 0, 9, 7]
  obtain rfl : ⟨8, [], []⟩ = start := Except.ok.inj ((empty_eq_ok rfl).symm.trans hstart)
  have hrun : (respondAll ⟨8, [], []⟩ [.offer ⟨#[6]⟩, .offer ⟨#[5]⟩]).2.respond
      (.novel (.script [3, 0, 9, 7])) = (.drawn (.ok ⟨#[9]⟩) (.script [7]),
        (respondAll ⟨8, [], []⟩ [.offer ⟨#[6]⟩, .offer ⟨#[5]⟩]).2) := by
    cbv
  obtain ⟨hresult, -⟩ := Answer.drawn.inj (congrArg Prod.fst (hrespond.symm.trans hrun))
  exact ⟨rfl, _, _, hstart, rfl, hrun, haccepted _ hresult⟩

end BitLinear.RowBasis
