import BitLinear.Proofs.InverseAgreement
import BitLinear.Proofs.Offers
import BitLinear.Proofs.Supply

/-!
# Drawing row by row

The rows of a script are offered in order until the basis is complete. `Completes basis rows` says
that this takes exactly these rows. A row of the span is drawn and dropped, and the first one
outside it is drawn and accepted (`Invariant.novel_eq_ok`), which is what an offer does with them.
So a basis is filled by the rows that complete it (`Invariant.fill_eq_ok`), and the script runs out
when its rows do not (`Invariant.fill_eq_error`).

`randomInvertible_cases` puts this together for the basis without rows : the answer is the matrix of
the rows accepted on the way and its inverse, and what is left is the rest of the script.
-/

namespace BitLinear

namespace RowBasis

variable {n : ℕ} {basis last : RowBasis} {row : BitRow}

theorem empty_eq_error (hn : n % 8 ≠ 0) : empty n = .error (.unaligned n) := by
  rw [empty, checkAligned_eq_error hn]
  rfl

/-! ## Completing a basis -/

/-- Offering these rows completes the basis, and no fewer of them do. -/
def Completes (basis : RowBasis) : List BitRow → Prop
  | [] => basis.isComplete = true
  | row :: rows => basis.isComplete = false ∧ (basis.offer row).2.Completes rows

theorem Completes.isComplete : ∀ {basis : RowBasis} {rows : List BitRow},
    basis.Completes rows → (basis.offerAll rows).2.isComplete = true
  | _, [], h => h
  | basis, row :: rows, h => by
    have hrest : ((basis.offer row).2.offerAll rows).2.isComplete = true := Completes.isComplete h.2
    exact hrest

theorem Completes.eq_nil (hc : basis.isComplete = true) : ∀ {rows : List BitRow},
    basis.Completes rows → rows = []
  | [], _ => rfl
  | _ :: _, h => absurd (h.1.symm.trans hc) Bool.false_ne_true

/-- A basis that offers leave incomplete was incomplete before. -/
theorem Invariant.incomplete_of_offerAll (h : Invariant n basis) {rows : List BitRow}
    (hlast : (basis.offerAll rows).2.isComplete = false) : basis.isComplete = false := by
  cases hc : basis.isComplete with
  | false => rfl
  | true => rwa [h.offerAll_of_isComplete hc, hc] at hlast

/-- Some of the rows from the front complete a basis, unless all of them do not. -/
theorem completes_cases : ∀ (basis : RowBasis) (rows : List BitRow),
    (∃ used later, rows = used ++ later ∧ basis.Completes used) ∨
      (basis.offerAll rows).2.isComplete = false
  | basis, [] => by
    cases hc : basis.isComplete
    · exact Or.inr hc
    · exact Or.inl ⟨[], [], rfl, hc⟩
  | basis, row :: rows => by
    cases hc : basis.isComplete
    · rcases completes_cases (basis.offer row).2 rows with ⟨used, later, rfl, h⟩ | h
      · exact Or.inl ⟨row :: used, later, rfl, hc, h⟩
      · exact Or.inr h
    · exact Or.inl ⟨[], row :: rows, rfl, hc⟩

/-! ## Rows of the span -/

/-- Every row is of the width of the basis and in the span of its accepted rows. -/
def AllSpanned (n : ℕ) (basis : RowBasis) (rows : List BitRow) : Prop :=
  ∀ row ∈ rows, row.length = n ∧ row.toVec n ∈ BitRow.rowSpan n basis.accepted

theorem Invariant.isInSpan_of_mem (h : Invariant n basis) (hrow : row.length = n)
    (hmem : row.toVec n ∈ BitRow.rowSpan n basis.accepted) : basis.isInSpan row = .ok true := by
  obtain ⟨answer, hanswer, hiff⟩ := h.isInSpan_eq_ok hrow
  rw [hanswer, hiff.mpr hmem]

theorem Invariant.isInSpan_of_not_mem (h : Invariant n basis) (hrow : row.length = n)
    (hout : row.toVec n ∉ BitRow.rowSpan n basis.accepted) : basis.isInSpan row = .ok false := by
  obtain ⟨answer, hanswer, hiff⟩ := h.isInSpan_eq_ok hrow
  rw [hanswer, Bool.eq_false_iff.mpr (mt hiff.mp hout)]

/-- An offer of a row of the span changes nothing. -/
theorem Invariant.offer_of_mem (h : Invariant n basis) (hrow : row.length = n)
    (hmem : row.toVec n ∈ BitRow.rowSpan n basis.accepted) :
    basis.offer row = (.ok false, basis) := by
  rcases h.offer_cases row with ⟨hne, -⟩ | ⟨-, -, heq⟩ | ⟨-, hout, -⟩
  · exact absurd hrow hne
  · exact heq
  · exact absurd hmem hout

/-- An offer of a row from outside the span is accepted. -/
theorem Invariant.offer_of_not_mem (h : Invariant n basis) (hrow : row.length = n)
    (hout : row.toVec n ∉ BitRow.rowSpan n basis.accepted) :
    ∃ next, basis.offer row = (.ok true, next) ∧ next.accepted = basis.accepted ++ [row] ∧
      Invariant n next := by
  rcases h.offer_cases row with ⟨hne, -⟩ | ⟨-, hmem, -⟩ | ⟨-, -, hnext⟩
  · exact absurd hrow hne
  · exact absurd hmem hout
  · exact hnext

theorem Invariant.offerAll_of_allSpanned (h : Invariant n basis) : ∀ {rows : List BitRow},
    AllSpanned n basis rows → (basis.offerAll rows).2 = basis
  | [], _ => rfl
  | row :: rows, hrows => by
    obtain ⟨⟨hrow, hmem⟩, hrest⟩ := List.forall_mem_cons.mp hrows
    change ((basis.offer row).2.offerAll rows).2 = basis
    rw [h.offer_of_mem hrow hmem]
    exact h.offerAll_of_allSpanned hrest

/-- Rows of the span do not help to complete a basis. -/
theorem Invariant.completes_append (h : Invariant n basis) (hc : basis.isComplete = false)
    {rows : List BitRow} : ∀ {spanned : List BitRow}, AllSpanned n basis spanned →
      (basis.Completes (spanned ++ rows) ↔ basis.Completes rows)
  | [], _ => Iff.rfl
  | row :: spanned, hall => by
    obtain ⟨⟨hrow, hmem⟩, hrest⟩ := List.forall_mem_cons.mp hall
    rw [List.cons_append, Completes, h.offer_of_mem hrow hmem, h.completes_append hc hrest]
    exact and_iff_right hc

/-- Either all rows are in the span, or there is a first one that is not. -/
theorem allSpanned_cases (n : ℕ) (basis : RowBasis) : ∀ {rows : List BitRow},
    (∀ row ∈ rows, row.length = n) → AllSpanned n basis rows ∨
      ∃ spanned row later, rows = spanned ++ row :: later ∧ AllSpanned n basis spanned ∧
        row.toVec n ∉ BitRow.rowSpan n basis.accepted
  | [], _ => Or.inl fun _ h => absurd h List.not_mem_nil
  | row :: rows, h => by
    obtain ⟨hrow, hrows⟩ := List.forall_mem_cons.mp h
    by_cases hmem : row.toVec n ∈ BitRow.rowSpan n basis.accepted
    · rcases allSpanned_cases n basis hrows with hall | ⟨spanned, r, later, rfl, hall, hout⟩
      · exact Or.inl (List.forall_mem_cons.mpr ⟨⟨hrow, hmem⟩, hall⟩)
      · exact Or.inr ⟨row :: spanned, r, later, rfl,
          List.forall_mem_cons.mpr ⟨⟨hrow, hmem⟩, hall⟩, hout⟩
    · exact Or.inr ⟨[], row, rows, rfl, fun _ h => absurd h List.not_mem_nil, hmem⟩

/-! ## Drawing a row from outside the span -/

theorem Invariant.runOn_random (h : Invariant n basis) (hrow : row.length = n)
    (bytes : List Byte) : (BitRow.random basis.dimension).runOn (.script (row.toBytes ++ bytes)) =
      (.ok row, .script bytes) := by
  rw [h.dimension_eq, BitRow.random_eq_ok_iff h.aligned, ByteSource.take?_script_eq_some_iff]
  exact ⟨BitRow.length_toBytes hrow, bytes, rfl, rfl⟩

theorem Invariant.runOn_random_short (h : Invariant n basis) {tail : List Byte}
    (htail : tail.length < n / 8) : (BitRow.random basis.dimension).runOn (.script tail) =
      (.error .sourceExhausted, .script tail) := by
  rw [h.dimension_eq, BitRow.runOn_random h.aligned, ByteSource.take?_script_eq_none htail]

/-- Rows of the span are dropped. -/
theorem Invariant.novelWithin_of_allSpanned (h : Invariant n basis) {bytes : List Byte} {k : ℕ} :
    ∀ {spanned : List BitRow}, AllSpanned n basis spanned →
      (basis.novelWithin (spanned.length + k)).runOn (.script (BitRow.bytesOf spanned ++ bytes)) =
        (basis.novelWithin k).runOn (.script bytes)
  | [], _ => by rw [List.length_nil, Nat.zero_add]; rfl
  | row :: spanned, hall => by
    obtain ⟨⟨hrow, hmem⟩, hrest⟩ := List.forall_mem_cons.mp hall
    rw [List.length_cons, Nat.add_right_comm, novelWithin, Draw.runOn_bind, BitRow.bytesOf_cons,
      List.append_assoc, h.runOn_random hrow]
    dsimp only
    rw [Draw.runOn_bind, Draw.runOn_liftM, h.isInSpan_of_mem hrow hmem]
    exact h.novelWithin_of_allSpanned hrest

/-- The first row outside the span is drawn, and the rows before it are dropped. -/
theorem Invariant.novelWithin_eq_ok (h : Invariant n basis) {spanned : List BitRow}
    (hall : AllSpanned n basis spanned) (hrow : row.length = n)
    (hout : row.toVec n ∉ BitRow.rowSpan n basis.accepted) {draws : ℕ}
    (hdraws : spanned.length < draws) (rest : List Byte) :
    (basis.novelWithin draws).runOn (.script (BitRow.bytesOf (spanned ++ [row]) ++ rest)) =
      (.ok row, .script rest) := by
  obtain ⟨k, rfl⟩ := Nat.exists_eq_add_of_lt hdraws
  rw [BitRow.bytesOf_append, List.append_assoc, Nat.add_assoc, h.novelWithin_of_allSpanned hall,
    novelWithin, Draw.runOn_bind, BitRow.bytesOf_cons, BitRow.bytesOf_nil, List.append_nil,
    h.runOn_random hrow]
  dsimp only
  rw [Draw.runOn_bind, Draw.runOn_liftM, h.isInSpan_of_not_mem hrow hout]
  rfl

/-- A script that has no row from outside the span runs out. -/
theorem Invariant.novelWithin_eq_error (h : Invariant n basis) {spanned : List BitRow}
    (hall : AllSpanned n basis spanned) {draws : ℕ} (hdraws : spanned.length < draws)
    {tail : List Byte} (htail : tail.length < n / 8) :
    (basis.novelWithin draws).runOn (.script (BitRow.bytesOf spanned ++ tail)) =
      (.error .sourceExhausted, .script tail) := by
  obtain ⟨k, rfl⟩ := Nat.exists_eq_add_of_lt hdraws
  rw [Nat.add_assoc, h.novelWithin_of_allSpanned hall, novelWithin, Draw.runOn_bind,
    h.runOn_random_short htail]

/-- More rows than there are bytes are not drawn from a script. -/
theorem Invariant.length_lt_drawBound (h : Invariant n basis) (hc : basis.isComplete = false)
    {spanned : List BitRow} (hall : AllSpanned n basis spanned) (bytes : List Byte) :
    spanned.length < (ByteSource.script (BitRow.bytesOf spanned ++ bytes)).drawBound := by
  have hrank : basis.rank ≠ n := fun heq => by
    rw [h.isComplete_iff.mpr heq] at hc
    exact Bool.noConfusion hc
  have hwidth : 1 ≤ n / 8 := by
    have hle := h.rank_le
    have hn := h.aligned
    omega
  have hlen := BitRow.length_bytesOf fun row hrow => (hall row hrow).1
  have hle := Nat.le_mul_of_pos_right spanned.length hwidth
  rw [ByteSource.drawBound, List.length_append, hlen]
  omega

theorem runOn_novel (hc : basis.isComplete = false) (source : ByteSource) :
    basis.novel.runOn source = (basis.novelWithin source.drawBound).runOn source := by
  rw [novel, hc]
  rfl

theorem runOn_novel_of_isComplete (hc : basis.isComplete = true) (source : ByteSource) :
    basis.novel.runOn source = (.error (.alreadyComplete basis.dimension), source) := by
  rw [novel, hc]
  rfl

theorem Invariant.novel_eq_ok (h : Invariant n basis) (hc : basis.isComplete = false)
    {spanned : List BitRow} (hall : AllSpanned n basis spanned) (hrow : row.length = n)
    (hout : row.toVec n ∉ BitRow.rowSpan n basis.accepted) (rest : List Byte) :
    basis.novel.runOn (.script (BitRow.bytesOf (spanned ++ [row]) ++ rest)) =
      (.ok row, .script rest) := by
  have hbound := h.length_lt_drawBound hc hall (BitRow.bytesOf [row] ++ rest)
  rw [← List.append_assoc, ← BitRow.bytesOf_append] at hbound
  rw [runOn_novel hc, h.novelWithin_eq_ok hall hrow hout hbound]

theorem Invariant.novel_eq_error (h : Invariant n basis) (hc : basis.isComplete = false)
    {spanned : List BitRow} (hall : AllSpanned n basis spanned) {tail : List Byte}
    (htail : tail.length < n / 8) : basis.novel.runOn (.script (BitRow.bytesOf spanned ++ tail)) =
      (.error .sourceExhausted, .script tail) := by
  rw [runOn_novel hc, h.novelWithin_eq_error hall (h.length_lt_drawBound hc hall tail) htail]

/-! ## Filling a basis -/

theorem fill_of_isComplete (hc : basis.isComplete = true) (rounds : ℕ) (source : ByteSource) :
    (basis.fill rounds).runOn source = (.ok basis, source) := by
  cases rounds with
  | zero => rfl
  | succ rounds => rw [fill, if_pos hc, Draw.runOn_pure]

/-- One round drops the rows of the span and accepts the one after them. -/
theorem Invariant.fill_step (h : Invariant n basis) (hc : basis.isComplete = false)
    {spanned : List BitRow} (hall : AllSpanned n basis spanned) (hrow : row.length = n)
    (hout : row.toVec n ∉ BitRow.rowSpan n basis.accepted) :
    ∃ next, (∀ later, (basis.offerAll (spanned ++ row :: later)).2 = (next.offerAll later).2) ∧
      (∀ later, basis.Completes (spanned ++ row :: later) → next.Completes later) ∧
      Invariant n next ∧ next.rank = basis.rank + 1 ∧ ∀ rounds later (rest : List Byte),
        (basis.fill (rounds + 1)).runOn
            (.script (BitRow.bytesOf (spanned ++ row :: later) ++ rest)) =
          (next.fill rounds).runOn (.script (BitRow.bytesOf later ++ rest)) := by
  obtain ⟨next, hoffer, hacc, hnext⟩ := h.offer_of_not_mem hrow hout
  refine ⟨next, fun later => ?_, fun later hcomp => ?_, hnext, by simp [rank, hacc],
    fun rounds later rest => ?_⟩
  · rw [offerAll_append, h.offerAll_of_allSpanned hall]
    change ((basis.offer row).2.offerAll later).2 = _
    rw [hoffer]
  · have hdrop := (h.completes_append hc hall).mp hcomp
    rw [Completes, hoffer] at hdrop
    exact hdrop.2
  · have hnovel := h.novel_eq_ok hc hall hrow hout (BitRow.bytesOf later ++ rest)
    rw [← List.append_assoc, ← BitRow.bytesOf_append, List.append_assoc,
      List.singleton_append] at hnovel
    rw [fill, if_neg (by simp [hc]), Draw.runOn_bind, hnovel]
    dsimp only
    rw [Draw.runOn_bind, Draw.runOn_liftM, insert_eq_ok_iff.mpr hoffer]

/-- The rows that complete a basis fill it. -/
theorem Invariant.fill_eq_ok : ∀ {rounds : ℕ} {basis : RowBasis}, Invariant n basis →
    n ≤ basis.rank + rounds → ∀ {rows : List BitRow}, (∀ row ∈ rows, row.length = n) →
      basis.Completes rows → ∀ rest : List Byte,
        (basis.fill rounds).runOn (.script (BitRow.bytesOf rows ++ rest)) =
          (.ok (basis.offerAll rows).2, .script rest) := by
  -- every round accepts a row, so the rounds that are left suffice for the rows that are missing
  intro rounds
  induction rounds with
  | zero =>
    intro basis h hrounds rows _ hcomp rest
    have hc := h.isComplete_iff.mpr (le_antisymm h.rank_le hrounds)
    obtain rfl := hcomp.eq_nil hc
    exact fill_of_isComplete hc 0 _
  | succ rounds ih =>
    intro basis h hrounds rows hrows hcomp rest
    cases hc : basis.isComplete with
    | true =>
      obtain rfl := hcomp.eq_nil hc
      exact fill_of_isComplete hc _ _
    | false =>
      rcases allSpanned_cases n basis hrows with hall | ⟨spanned, row, later, rfl, hall, hout⟩
      · have hlast := hcomp.isComplete
        rw [h.offerAll_of_allSpanned hall, hc] at hlast
        exact absurd hlast Bool.false_ne_true
      · obtain ⟨hrow, hlater⟩ := List.forall_mem_cons.mp (List.forall_mem_append.mp hrows).2
        obtain ⟨next, hoffers, hcompletes, hnext, hrank, hfill⟩ := h.fill_step hc hall hrow hout
        rw [hfill, hoffers]
        exact ih hnext (by omega) hlater (hcompletes _ hcomp) rest

/-- If its rows do not complete the basis, a script runs out. -/
theorem Invariant.fill_eq_error : ∀ {rounds : ℕ} {basis : RowBasis}, Invariant n basis →
    n ≤ basis.rank + rounds → ∀ {rows : List BitRow}, (∀ row ∈ rows, row.length = n) →
      (basis.offerAll rows).2.isComplete = false → ∀ {tail : List Byte}, tail.length < n / 8 →
        (basis.fill rounds).runOn (.script (BitRow.bytesOf rows ++ tail)) =
          (.error .sourceExhausted, .script tail) := by
  intro rounds
  induction rounds with
  | zero =>
    intro basis h hrounds rows _ hlast tail _
    have hc := h.isComplete_iff.mpr (le_antisymm h.rank_le hrounds)
    exact absurd ((h.incomplete_of_offerAll hlast).symm.trans hc) Bool.false_ne_true
  | succ rounds ih =>
    intro basis h hrounds rows hrows hlast tail htail
    have hc := h.incomplete_of_offerAll hlast
    rcases allSpanned_cases n basis hrows with hall | ⟨spanned, row, later, rfl, hall, hout⟩
    · rw [fill, if_neg (by simp [hc]), Draw.runOn_bind, h.novel_eq_error hc hall htail]
    · obtain ⟨hrow, hlater⟩ := List.forall_mem_cons.mp (List.forall_mem_append.mp hrows).2
      obtain ⟨next, hoffers, -, hnext, hrank, hfill⟩ := h.fill_step hc hall hrow hout
      rw [hoffers] at hlast
      rw [hfill]
      exact ih hnext (by omega) hlater hlast htail

/-- Whatever the source is, what is filled is a basis as any other. -/
theorem Invariant.of_fill_eq_ok : ∀ {rounds : ℕ} {basis : RowBasis} {source after : ByteSource},
    Invariant n basis → (basis.fill rounds).runOn source = (.ok last, after) → Invariant n last
  | 0, basis, source, after, h, hfill => by
    obtain ⟨rfl, -⟩ : basis = last ∧ source = after := by simpa [fill] using hfill
    exact h
  | rounds + 1, basis, source, after, h, hfill => by
    cases hc : basis.isComplete with
    | true =>
      rw [fill_of_isComplete hc] at hfill
      obtain ⟨rfl, -⟩ : basis = last ∧ source = after := by simpa using hfill
      exact h
    | false =>
      rw [fill, if_neg (by simp [hc]), Draw.runOn_bind_eq_ok_iff] at hfill
      obtain ⟨row, mid, -, hfill⟩ := hfill
      rw [Draw.runOn_bind_eq_ok_iff] at hfill
      obtain ⟨⟨fresh, next⟩, mid', hinsert, hfill⟩ := hfill
      rw [Draw.runOn_liftM, Prod.mk.injEq] at hinsert
      have hnext : (basis.offer row).2 = next := by rw [insert_eq_ok_iff.mp hinsert.1]
      exact (hnext ▸ h.offer row).of_fill_eq_ok hfill

/-! ## The matrix of a complete basis -/

/-- A complete basis has the inverse of its matrix at hand. -/
theorem Invariant.invert_matrix (h : Invariant n basis) (hc : basis.isComplete = true) :
    ∃ inv, basis.inverse = .ok inv ∧ basis.matrix.HasShape n n ∧
      basis.matrix.invert = .ok (some inv) := by
  have hrank := h.isComplete_iff.mp hc
  have hshape : basis.matrix.HasShape n n := by
    rw [matrix, h.dimension_eq]
    exact BitMatrix.hasShape_mk h.aligned hrank h.length_accepted
  obtain ⟨inv, hinverse, hinv, hmul⟩ := h.inverse_eq_ok hrank
  exact ⟨inv, hinverse, hshape, (BitMatrix.invert_eq_some_iff hshape).mpr ⟨hinv, hmul⟩⟩

end RowBasis

namespace BitMatrix

open RowBasis

variable {n : ℕ} {m inv : BitMatrix} {source after : ByteSource}

theorem runOn_randomInvertible (hn : n % 8 = 0) (source : ByteSource) :
    (randomInvertible n).runOn source =
      match (RowBasis.fill ⟨n, [], []⟩ n).runOn source with
      | (.ok last, after) => (last.inverse.map fun inv => (last.matrix, inv), after)
      | (.error cause, after) => (.error cause, after) := by
  rw [randomInvertible, empty_eq_ok hn, Draw.runOn_bind, Draw.runOn_liftM]
  dsimp only
  rw [Draw.runOn_bind]
  rcases (RowBasis.fill ⟨n, [], []⟩ n).runOn source with ⟨_ | last, after⟩
  · rfl
  · dsimp only
    rw [Draw.runOn_bind, Draw.runOn_liftM]
    cases last.inverse <;> rfl

/-- No matrix is drawn whose width does not fill whole bytes. -/
theorem runOn_randomInvertible_of_unaligned (hn : n % 8 ≠ 0) (source : ByteSource) :
    (randomInvertible n).runOn source = (.error (.unaligned n), source) := by
  rw [randomInvertible, empty_eq_error hn, Draw.runOn_bind, Draw.runOn_liftM]

/-- What is drawn row by row is an invertible matrix with its inverse, whatever the source is. -/
theorem of_randomInvertible_eq_ok
    (h : (randomInvertible n).runOn source = (.ok (m, inv), after)) :
    m.HasShape n n ∧ m.invert = .ok (some inv) := by
  by_cases hn : n % 8 = 0
  · rw [runOn_randomInvertible hn] at h
    rcases hfill : (RowBasis.fill ⟨n, [], []⟩ n).runOn source with ⟨_ | last, mid⟩
    · simp [hfill] at h
    · have hlast := (invariant_empty hn).of_fill_eq_ok hfill
      rw [hfill] at h
      cases hc : last.isComplete with
      | false => simp [inverse, hc, Except.map] at h
      | true =>
        obtain ⟨inv', hinverse, hshape, hinvert⟩ := hlast.invert_matrix hc
        simp only [hinverse, Except.map, Prod.mk.injEq, Except.ok.injEq] at h
        obtain ⟨⟨rfl, rfl⟩, -⟩ := h
        exact ⟨hshape, hinvert⟩
  · rw [runOn_randomInvertible_of_unaligned hn] at h
    simp at h

/-- The rows that complete the basis are drawn, and the matrix is made of those accepted. -/
theorem randomInvertible_eq_ok (hn : n % 8 = 0) {used : List BitRow}
    (hused : ∀ row ∈ used, row.length = n) (hcomp : RowBasis.Completes ⟨n, [], []⟩ used)
    (rest : List Byte) : ∃ m inv,
      (randomInvertible n).runOn (.script (BitRow.bytesOf used ++ rest)) =
          (.ok (m, inv), .script rest) ∧
        m.rows = (RowBasis.offerAll ⟨n, [], []⟩ used).2.accepted ∧ m.HasShape n n ∧
          m.invert = .ok (some inv) := by
  have hempty := invariant_empty hn
  have hfill := hempty.fill_eq_ok (Nat.le_add_left n _) hused hcomp rest
  obtain ⟨inv, hinverse, hshape, hinvert⟩ := (hempty.offerAll used).invert_matrix hcomp.isComplete
  refine ⟨_, inv, ?_, rfl, hshape, hinvert⟩
  rw [runOn_randomInvertible hn, hfill]
  dsimp only
  rw [hinverse]
  rfl

/-- Rows that do not complete the basis are used up, and the script runs out. -/
theorem randomInvertible_eq_error (hn : n % 8 = 0) {rows : List BitRow}
    (hrows : ∀ row ∈ rows, row.length = n)
    (hlast : (RowBasis.offerAll ⟨n, [], []⟩ rows).2.isComplete = false) {tail : List Byte}
    (htail : tail.length < n / 8) :
    (randomInvertible n).runOn (.script (BitRow.bytesOf rows ++ tail)) =
      (.error .sourceExhausted, .script tail) := by
  have hfill := (invariant_empty hn).fill_eq_error (Nat.le_add_left n _) hrows hlast htail
  rw [runOn_randomInvertible hn, hfill]

/-- A script either begins with rows that complete the basis, or is rows that do not and fewer bytes
than a row has. -/
theorem randomInvertible_cases (hn : n % 8 = 0) (bytes : List Byte) :
    (∃ used rest, bytes = BitRow.bytesOf used ++ rest ∧ (∀ row ∈ used, row.length = n) ∧
      RowBasis.Completes ⟨n, [], []⟩ used) ∨
    ∃ rows tail, bytes = BitRow.bytesOf rows ++ tail ∧ (∀ row ∈ rows, row.length = n) ∧
      (RowBasis.offerAll ⟨n, [], []⟩ rows).2.isComplete = false ∧ tail.length < n / 8 := by
  rcases Nat.eq_zero_or_pos n with rfl | hpos
  · exact Or.inl ⟨[], bytes, rfl, by simp, rfl⟩
  · obtain ⟨rows, tail, hrows, htail, rfl⟩ := BitRow.exists_eq_bytesOf_append hn hpos bytes
    rcases completes_cases ⟨n, [], []⟩ rows with ⟨used, later, rfl, hcomp⟩ | hlast
    · refine Or.inl ⟨used, BitRow.bytesOf later ++ tail, ?_, ?_, hcomp⟩
      · rw [BitRow.bytesOf_append, List.append_assoc]
      · exact (List.forall_mem_append.mp hrows).1
    · exact Or.inr ⟨rows, tail, rfl, hrows, hlast, htail⟩

/-- What is drawn from a script is made of the rows that it begins with. -/
theorem exists_of_randomInvertible_eq_ok (hn : n % 8 = 0) {bytes : List Byte}
    (h : (randomInvertible n).runOn (.script bytes) = (.ok (m, inv), after)) :
    ∃ used rest, bytes = BitRow.bytesOf used ++ rest ∧ after = .script rest ∧
      (∀ row ∈ used, row.length = n) ∧ RowBasis.Completes ⟨n, [], []⟩ used ∧
        m.rows = (RowBasis.offerAll ⟨n, [], []⟩ used).2.accepted := by
  rcases randomInvertible_cases hn bytes with
    ⟨used, rest, rfl, hused, hcomp⟩ | ⟨rows, tail, rfl, hrows, hlast, htail⟩
  · obtain ⟨m', inv', hrun, haccepted, -⟩ := randomInvertible_eq_ok hn hused hcomp rest
    rw [hrun] at h
    obtain ⟨⟨rfl, rfl⟩, rfl⟩ : (m' = m ∧ inv' = inv) ∧ .script rest = after := by simpa using h
    exact ⟨used, rest, rfl, rfl, hused, hcomp, haccepted⟩
  · rw [randomInvertible_eq_error hn hrows hlast htail] at h
    simp at h

end BitMatrix

end BitLinear
