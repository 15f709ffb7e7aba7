import BitLinear.Proofs.Selection

/-!
# Drawing from a keystream

A keystream fills every request, so drawing a row from it succeeds (`runOn_random_keystream`). The
rows of a given width that it yields repeat after `period` of them (`periodic_row`), which is why a
limit on the draws stands for none : if no row outside the span is among the first `period`, there
is none at all (`Invariant.novelWithin_of_novel_eq_error`).

So drawing an invertible matrix from a keystream has two ends. Either it succeeds and leaves a
keystream (`exists_keystream_of_randomInvertible`), or it comes to a state from where no number of
draws gives the next row (`stalls_of_randomInvertible`).
-/

namespace BitLinear

namespace Keystream

/-! ## The rows of a stream -/

/-- The stream behind so many words. -/
def skip (stream : Keystream) (count : ℕ) : Keystream :=
  ⟨stream.key, stream.position + count⟩

/-- The number of words that a row of `n` bits takes. -/
def rowWords (n : ℕ) : ℕ :=
  (n / 8 + 3) / 4

/-- Row `k` of those of `n` bits that are drawn one after the other. -/
def row (n : ℕ) (stream : Keystream) (k : ℕ) : BitRow :=
  BitRow.ofBytes ((stream.skip (k * rowWords n)).take (n / 8)).1

variable {n : ℕ}

theorem length_row (hn : n % 8 = 0) (stream : Keystream) (k : ℕ) : (stream.row n k).length = n :=
  BitRow.length_ofBytes hn (length_take _ _)

theorem row_skip (stream : Keystream) (k : ℕ) :
    (stream.skip (rowWords n)).row n k = stream.row n (k + 1) := by
  unfold row skip
  rw [Nat.succ_mul, Nat.add_assoc, Nat.add_comm (rowWords n)]

/-- Only the position within the period counts. -/
theorem words_mod_period (key : Vector UInt32 8) (start count : ℕ) :
    words key (start % period) count = words key start count := by
  have hword : start % period % 16 = start % 16 := Nat.mod_mul_right_mod start 16 _
  have hblock (k : ℕ) : UInt64.ofNat (start % period / 16 + k) = UInt64.ofNat (start / 16 + k) := by
    rw [period, Nat.mod_mul_right_div_self, UInt64.ofNat_eq_iff_mod_eq_toNat, UInt64.toNat_ofNat']
    exact Nat.mod_add_mod _ _ _
  simp only [words, hword, hblock]

theorem periodic_row (stream : Keystream) : Function.Periodic (stream.row n) period := by
  intro k
  have hposition : (stream.position + (k + period) * rowWords n) % period =
      (stream.position + k * rowWords n) % period := by
    rw [Nat.add_mul, ← Nat.add_assoc, Nat.add_mul_mod_self_left]
  unfold row skip take
  dsimp only
  rw [← words_mod_period, hposition, words_mod_period]

end Keystream

open Keystream

variable {n : ℕ} {stream : Keystream}

theorem BitRow.runOn_random_keystream (hn : n % 8 = 0) (stream : Keystream) :
    (random n).runOn (.keystream stream) =
      (.ok (stream.row n 0), .keystream (stream.skip (rowWords n))) := by
  rw [runOn_random hn]
  unfold Keystream.row
  rw [Nat.zero_mul]
  rfl

/-! ## Rows from outside the span -/

namespace RowBasis

variable {basis : RowBasis} {cause : Error} {after : ByteSource}

/-- The first row outside the span is drawn, if there is one among the first `draws` rows. -/
theorem Invariant.novelWithin_keystream (h : Invariant n basis) : ∀ (draws : ℕ)
    (stream : Keystream), ∃ rest,
      ((∃ k < draws, (stream.row n k).toVec n ∉ BitRow.rowSpan n basis.accepted ∧
        (basis.novelWithin draws).runOn (.keystream stream) =
          (.ok (stream.row n k), .keystream rest)) ∨
      (∀ k < draws, (stream.row n k).toVec n ∈ BitRow.rowSpan n basis.accepted) ∧
        (basis.novelWithin draws).runOn (.keystream stream) =
          (.error .sourceExhausted, .keystream rest))
  | 0, stream => ⟨stream, Or.inr ⟨fun _ hk => absurd hk (Nat.not_lt_zero _), rfl⟩⟩
  | draws + 1, stream => by
    have hlen := stream.length_row h.aligned 0
    rw [novelWithin, Draw.runOn_bind, h.dimension_eq, BitRow.runOn_random_keystream h.aligned]
    dsimp only
    rw [Draw.runOn_bind, Draw.runOn_liftM]
    by_cases hmem : (stream.row n 0).toVec n ∈ BitRow.rowSpan n basis.accepted
    · rw [h.isInSpan_of_mem hlen hmem]
      obtain ⟨rest, ⟨k, hk, hout, hrun⟩ | ⟨hall, hrun⟩⟩ :=
        h.novelWithin_keystream draws (stream.skip (rowWords n))
      · rw [row_skip] at hout hrun
        exact ⟨rest, Or.inl ⟨k + 1, Nat.succ_lt_succ hk, hout, hrun⟩⟩
      · refine ⟨rest, Or.inr ⟨fun k hk => ?_, hrun⟩⟩
        cases k with
        | zero => exact hmem
        | succ k => exact stream.row_skip k ▸ hall k (Nat.lt_of_succ_lt_succ hk)
    · rw [h.isInSpan_of_not_mem hlen hmem]
      exact ⟨_, Or.inl ⟨0, Nat.succ_pos _, hmem, rfl⟩⟩

/-- A row that is not drawn within the period is never drawn. -/
theorem Invariant.novelWithin_of_novel_eq_error (h : Invariant n basis)
    (hc : basis.isComplete = false)
    (hnovel : basis.novel.runOn (.keystream stream) = (.error cause, after)) (draws : ℕ) :
    ∃ rest, (basis.novelWithin draws).runOn (.keystream stream) =
      (.error .sourceExhausted, .keystream rest) := by
  rw [runOn_novel hc] at hnovel
  obtain ⟨_, ⟨_, -, -, hrun⟩ | ⟨hspanned, -⟩⟩ := h.novelWithin_keystream period stream
  · rw [ByteSource.drawBound, hrun] at hnovel
    simp at hnovel
  have hall (k : ℕ) : (stream.row n k).toVec n ∈ BitRow.rowSpan n basis.accepted := by
    rw [← stream.periodic_row.map_mod_nat k]
    exact hspanned _ (Nat.mod_lt k (by decide))
  obtain ⟨rest, ⟨k, -, hout, -⟩ | ⟨-, hrun⟩⟩ := h.novelWithin_keystream draws stream
  · exact absurd (hall k) hout
  · exact ⟨rest, hrun⟩

theorem Invariant.exists_keystream_of_novel (h : Invariant n basis) (hc : basis.isComplete = false)
    (stream : Keystream) : ∃ rest, (basis.novel.runOn (.keystream stream)).2 = .keystream rest := by
  rw [runOn_novel hc]
  obtain ⟨rest, ⟨_, -, -, hrun⟩ | ⟨-, hrun⟩⟩ := h.novelWithin_keystream period stream
  · exact ⟨rest, congrArg Prod.snd hrun⟩
  · exact ⟨rest, congrArg Prod.snd hrun⟩

/-- Filling draws from a keystream all the way. -/
theorem Visits.exists_keystream {last : RowBasis} {source mid : ByteSource}
    (hvisits : Visits basis source last mid) : Invariant n basis →
      (∃ stream, source = .keystream stream) → ∃ rest, mid = .keystream rest := by
  induction hvisits with
  | start => exact fun _ hsource => hsource
  | round hc hnovel hoffer _ ih =>
    rintro hbasis ⟨stream, rfl⟩
    obtain ⟨rest, hrest⟩ := hbasis.exists_keystream_of_novel hc stream
    rw [hnovel] at hrest
    obtain ⟨next, hnext, -, hinv⟩ := hbasis.offer_of_novel hnovel
    obtain ⟨-, rfl⟩ : _ ∧ next = _ := by simpa using hnext.symm.trans hoffer
    exact ih hinv ⟨rest, hrest⟩

/-- Filling comes to a state from where no number of draws gives the next row. -/
def Stalls (n : ℕ) (source : ByteSource) : Prop :=
  ∃ basis mid, Visits ⟨n, [], []⟩ source basis mid ∧ basis.isComplete = false ∧
    ∀ draws, ∃ cause, ((basis.novelWithin draws).runOn mid).1 = .error cause

end RowBasis

namespace BitMatrix

open RowBasis

variable {m inv : BitMatrix} {cause : Error} {after : ByteSource}

theorem exists_keystream_of_randomInvertible (hn : n % 8 = 0)
    (h : (randomInvertible n).runOn (.keystream stream) = (.ok (m, inv), after)) :
    ∃ rest, after = .keystream rest := by
  obtain ⟨last, hvisits, -⟩ := exists_visits_of_randomInvertible_eq_ok hn h
  exact hvisits.exists_keystream (invariant_empty hn) ⟨stream, rfl⟩

/-- No invertible matrix is drawn from a keystream only if drawing one has no end. -/
theorem stalls_of_randomInvertible (hn : n % 8 = 0)
    (h : (randomInvertible n).runOn (.keystream stream) = (.error cause, after)) :
    Stalls n (.keystream stream) := by
  obtain ⟨basis, mid, hvisits, hc, hnovel⟩ := exists_visits_of_randomInvertible_eq_error hn h
  have hbasis := hvisits.invariant (invariant_empty hn)
  obtain ⟨rest, rfl⟩ := hvisits.exists_keystream (invariant_empty hn) ⟨stream, rfl⟩
  refine ⟨basis, _, hvisits, hc, fun draws => ?_⟩
  obtain ⟨last, hlast⟩ := hbasis.novelWithin_of_novel_eq_error hc hnovel draws
  exact ⟨.sourceExhausted, congrArg Prod.fst hlast⟩

end BitMatrix

end BitLinear
