import BitLinear.Proofs.Inversion
import BitLinear.Proofs.Supply

/-!
# Drawing by rejection

A matrix is drawn exactly when the source supplies its rows (`uniform_eq_ok_iff`). Rejection answers
with a matrix and its inverse exactly when the source supplies the rows of some singular matrices,
fewer than the limit, and then the rows of that matrix (`firstInvertible_eq_some_iff`,
`rejectionSample_eq_ok_iff`). The limit and the singular matrices before it are all that the answer
depends on, whatever the source is.
-/

namespace BitLinear.BitMatrix

variable {n attempts : ℕ} {m inv : BitMatrix} {source after : ByteSource}

theorem uniform_eq_ok_iff (hn : n % 8 = 0) : (uniform n).runOn source = (.ok m, after) ↔
    m.HasShape n n ∧ source.Supplies n m.rows after := by
  simp only [uniform, Draw.runOn_bind_eq_ok_iff, BitRow.randomList_eq_ok_iff hn, Draw.runOn_pure,
    Prod.mk.injEq, Except.ok.injEq]
  refine ⟨?_, ?_⟩
  · rintro ⟨rows, _, ⟨hlen, hrows⟩, rfl, rfl⟩
    exact ⟨hasShape_mk hn hlen (hrows.length_eq hn), hrows⟩
  · rintro ⟨hshape, hrows⟩
    refine ⟨m.rows, after, ⟨hshape.length_rows, hrows⟩, ?_, rfl⟩
    rw [← hshape.cols_eq]

/-- No matrix is drawn whose width does not fill whole bytes. -/
theorem runOn_uniform_of_unaligned (hn : n % 8 ≠ 0) (source : ByteSource) :
    (uniform n).runOn source = (.error (.unaligned n), source) := by
  obtain ⟨k, hk⟩ : ∃ k, n = k + 1 := ⟨n - 1, by omega⟩
  have hlist : (BitRow.randomList n n).runOn source = (.error (.unaligned n), source) := by
    rw [congrArg (BitRow.randomList n) hk, BitRow.randomList, BitRow.random,
      checkAligned_eq_error hn]
    rfl
  rw [uniform, Draw.runOn_bind, hlist]

/-- The first invertible matrix comes after fewer singular ones than there are attempts. -/
theorem firstInvertible_eq_some_iff (hn : n % 8 = 0) : ∀ {attempts : ℕ} {source : ByteSource},
    (firstInvertible n attempts).runOn source = (.ok (some (m, inv)), after) ↔
      ∃ failed : List BitMatrix, failed.length < attempts ∧
        (∀ c ∈ failed, c.HasShape n n ∧ c.invert = .ok none) ∧
          m.HasShape n n ∧ m.invert = .ok (some inv) ∧
            source.Supplies n (failed.flatMap (·.rows) ++ m.rows) after
  | 0, source => by simp [firstInvertible]
  | attempts + 1, source => by
    rw [firstInvertible, Draw.runOn_bind_eq_ok_iff]
    refine ⟨?_, ?_⟩
    · rintro ⟨c, mid, hc, h⟩
      obtain ⟨hshape, hrows⟩ := (uniform_eq_ok_iff hn).mp hc
      rw [Draw.runOn_bind_eq_ok_iff] at h
      obtain ⟨result, _, hinvert, h⟩ := h
      rw [Draw.runOn_liftM, Prod.mk.injEq] at hinvert
      obtain ⟨hinvert, rfl⟩ := hinvert
      cases result with
      | some inverse =>
        obtain ⟨⟨rfl, rfl⟩, rfl⟩ : (c = m ∧ inverse = inv) ∧ mid = after := by simpa using h
        exact ⟨[], Nat.succ_pos _, by simp, hshape, hinvert, hrows⟩
      | none =>
        obtain ⟨failed, hlen, hfailed, hm, hinv, hrest⟩ := (firstInvertible_eq_some_iff hn).mp h
        refine ⟨c :: failed, Nat.succ_lt_succ hlen,
          List.forall_mem_cons.mpr ⟨⟨hshape, hinvert⟩, hfailed⟩, hm, hinv, ?_⟩
        rw [List.flatMap_cons, List.append_assoc]
        exact ByteSource.supplies_append.mpr ⟨mid, hrows, hrest⟩
    · rintro ⟨failed, hlen, hfailed, hm, hinv, h⟩
      cases failed with
      | nil =>
        refine ⟨m, after, (uniform_eq_ok_iff hn).mpr ⟨hm, h⟩, ?_⟩
        rw [Draw.runOn_bind, Draw.runOn_liftM, hinv]
        rfl
      | cons c failed =>
        obtain ⟨⟨hshape, hinvert⟩, hfailed⟩ := List.forall_mem_cons.mp hfailed
        rw [List.flatMap_cons, List.append_assoc] at h
        obtain ⟨mid, hrows, hrest⟩ := ByteSource.supplies_append.mp h
        refine ⟨c, mid, (uniform_eq_ok_iff hn).mpr ⟨hshape, hrows⟩, ?_⟩
        rw [Draw.runOn_bind, Draw.runOn_liftM, hinvert]
        exact (firstInvertible_eq_some_iff hn).mpr
          ⟨failed, Nat.lt_of_succ_lt_succ hlen, hfailed, hm, hinv, hrest⟩

theorem rejectionSample_eq_ok_iff_firstInvertible {maxAttempts : ℕ} :
    (rejectionSample n maxAttempts).runOn source = (.ok (m, inv), after) ↔
      (firstInvertible n maxAttempts).runOn source = (.ok (some (m, inv)), after) := by
  rw [rejectionSample, Draw.runOn_bind]
  rcases (firstInvertible n maxAttempts).runOn source with ⟨_ | _ | pair, mid⟩
  · simp
  · simp
  · simp

/-- Rejection answers with the first invertible matrix, if the limit is not reached before. -/
theorem rejectionSample_eq_ok_iff (hn : n % 8 = 0) {maxAttempts : ℕ} :
    (rejectionSample n maxAttempts).runOn source = (.ok (m, inv), after) ↔
      ∃ failed : List BitMatrix, failed.length < maxAttempts ∧
        (∀ c ∈ failed, c.HasShape n n ∧ c.invert = .ok none) ∧
          m.HasShape n n ∧ m.invert = .ok (some inv) ∧
            source.Supplies n (failed.flatMap (·.rows) ++ m.rows) after :=
  rejectionSample_eq_ok_iff_firstInvertible.trans (firstInvertible_eq_some_iff hn)

/-- What rejection answers is an invertible matrix with its inverse. -/
theorem of_rejectionSample_eq_ok {maxAttempts : ℕ}
    (h : (rejectionSample n maxAttempts).runOn source = (.ok (m, inv), after)) :
    m.HasShape n n ∧ m.invert = .ok (some inv) := by
  by_cases hn : n % 8 = 0
  · obtain ⟨_, -, -, hshape, hinv, -⟩ := (rejectionSample_eq_ok_iff hn).mp h
    exact ⟨hshape, hinv⟩
  · rw [rejectionSample_eq_ok_iff_firstInvertible] at h
    cases maxAttempts with
    | zero => simp [firstInvertible] at h
    | succ attempts =>
      rw [firstInvertible, Draw.runOn_bind, runOn_uniform_of_unaligned hn] at h
      simp at h

end BitLinear.BitMatrix
