import BitLinear.BitMatrix.Elimination
import BitLinear.Proofs.Checked
import Mathlib.Logic.Equiv.Basic

/-!
# Row operations on an array of tracked rows

`getRow` reads a row of an array, and `IsSquare n` says that there are `n` rows whose parts have
`n` bits. On such arrays no operation fails, and each is described by the rows after it : `swap`
exchanges two rows, `addRow` changes one row only, and `clearColumn` adds the pivot row to exactly
the other rows that have the bit of the column.
-/

namespace BitLinear.Elimination

/-- Row `i`, and empty parts past the end. -/
def getRow (rows : Array TrackedRow) (i : Nat) : TrackedRow :=
  rows.getD i ⟨⟨#[]⟩, ⟨#[]⟩⟩

/-- There are `n` rows, and each part of a row has `n` bits. -/
structure IsSquare (n : Nat) (rows : Array TrackedRow) : Prop where
  size_eq : rows.size = n
  hasLength : ∀ i < n, (getRow rows i).HasLength n

variable {n : Nat} {rows : Array TrackedRow}

theorem getRow_setIfInBounds {i : Nat} (hi : i < rows.size) (t : TrackedRow) (k : Nat) :
    getRow (rows.setIfInBounds i t) k = if k = i then t else getRow rows k := by
  by_cases h : k = i
  · subst h
    simp [getRow, hi]
  · simp [getRow, h, Ne.symm h]

theorem rowAt_eq_ok {i : Nat} (hi : i < rows.size) : rowAt rows i = .ok (getRow rows i) := by
  simp [rowAt, getRow, hi]

theorem IsSquare.set (h : IsSquare n rows) {i : Nat} (hi : i < n) {t : TrackedRow}
    (ht : t.HasLength n) : IsSquare n (rows.setIfInBounds i t) := by
  refine ⟨by rw [Array.size_setIfInBounds, h.size_eq], fun k hk => ?_⟩
  rw [getRow_setIfInBounds (h.size_eq.symm ▸ hi)]
  split
  · exact ht
  · exact h.hasLength k hk

/-! ## Exchange and addition -/

/-- Exchanging two rows exchanges what is read at their places. -/
theorem swap_eq_ok (h : IsSquare n rows) {i j : Nat} (hi : i < n) (hj : j < n) :
    ∃ out, swap rows i j = .ok out ∧ IsSquare n out ∧
      ∀ k, getRow out k = getRow rows (Equiv.swap i j k) := by
  have hsize := h.size_eq
  refine ⟨(rows.setIfInBounds i (getRow rows j)).setIfInBounds j (getRow rows i), ?_, ?_, ?_⟩
  · rw [swap, rowAt_eq_ok (hsize.symm ▸ hi), rowAt_eq_ok (hsize.symm ▸ hj)]
    rfl
  · exact (h.set hi (h.hasLength j hj)).set hj (h.hasLength i hi)
  · intro k
    rw [getRow_setIfInBounds (by simpa [hsize] using hj),
      getRow_setIfInBounds (hsize.symm ▸ hi), Equiv.swap_apply_def]
    split_ifs with hkj hki hki
    · rw [← hkj, hki]
    · rfl
    · rfl
    · rfl

/-- Adding a row to another changes that other row only. -/
theorem addRow_eq_ok (h : IsSquare n rows) {target source : Nat} (ht : target < n)
    (hs : source < n) (hne : target ≠ source) : addRow rows target source =
      .ok (rows.setIfInBounds target ((getRow rows target).sum (getRow rows source))) := by
  have hsize := h.size_eq
  rw [addRow, if_neg hne, rowAt_eq_ok (hsize.symm ▸ ht), ok_bind, rowAt_eq_ok (hsize.symm ▸ hs),
    ok_bind, TrackedRow.add_eq_ok (h.hasLength target ht) (h.hasLength source hs)]
  rfl

/-! ## The search for a pivot -/

theorem findPivot_eq_ok (h : IsSquare n rows) {col : Nat} (hcol : col < n) :
    findPivot rows col = .ok ((List.range' col (n - col)).find? fun i =>
      (getRow rows i).vector.testBit col) := by
  rw [findPivot, h.size_eq]
  refine findM?_eq_ok fun i hi => ?_
  have hin : i < n := by
    have := (List.mem_range'_1.mp hi).2
    omega
  rw [rowAt_eq_ok (h.size_eq.symm ▸ hin)]
  exact BitRow.getBit_eq_ok ((h.hasLength i hin).1.symm ▸ hcol)

/-! ## Clearing a column -/

/-- A visit adds the row of the pivot to another row that has the bit, or does nothing. -/
theorem clearEntry_eq (h : IsSquare n rows) {col i : Nat} (hcol : col < n) (hi : i < n) :
    clearEntry col rows i = if i ≠ col ∧ (getRow rows i).vector.testBit col = true then
      addRow rows i col else .ok rows := by
  by_cases hic : i = col
  · rw [clearEntry, if_pos hic, if_neg fun h => h.1 hic]
  · have hbit : (getRow rows i).vector.getBit col = .ok ((getRow rows i).vector.testBit col) :=
      BitRow.getBit_eq_ok ((h.hasLength i hi).1.symm ▸ hcol)
    rw [clearEntry, if_neg hic, rowAt_eq_ok (h.size_eq.symm ▸ hi), ok_bind, hbit, ok_bind]
    simp only [ne_eq, hic, not_false_eq_true, true_and]
    rfl

theorem clearEntry_eq_ok (h : IsSquare n rows) {col i : Nat} (hcol : col < n) (hi : i < n) :
    ∃ out, clearEntry col rows i = .ok out ∧ IsSquare n out ∧ ∀ k, getRow out k =
      if k = i ∧ k ≠ col then (getRow rows k).cleared (getRow rows col) col else getRow rows k := by
  rw [clearEntry_eq h hcol hi]
  by_cases hadd : i ≠ col ∧ (getRow rows i).vector.testBit col = true
  · have hsum := (h.hasLength i hi).sum (h.hasLength col hcol)
    rw [if_pos hadd]
    refine ⟨_, addRow_eq_ok h hi hcol hadd.1, h.set hi hsum, fun k => ?_⟩
    rw [getRow_setIfInBounds (h.size_eq.symm ▸ hi)]
    by_cases hk : k = i
    · rw [if_pos hk, if_pos ⟨hk, hk ▸ hadd.1⟩, hk, TrackedRow.cleared, if_pos hadd.2]
    · rw [if_neg hk, if_neg fun h => hk h.1]
  · rw [if_neg hadd]
    refine ⟨rows, rfl, h, fun k => ?_⟩
    split_ifs with hk
    · rw [hk.1, TrackedRow.cleared, if_neg fun hbit => hadd ⟨hk.1 ▸ hk.2, hbit⟩]
    · rfl

/-- The column after the first `m` rows were visited : the row of the pivot is as before, and so
are the rows still to come. -/
theorem clearRows_eq_ok (h : IsSquare n rows) {col : Nat} (hcol : col < n) :
    ∀ {m : Nat}, m ≤ n → ∃ out, (List.range m).foldlM (clearEntry col) rows = .ok out ∧
      IsSquare n out ∧ ∀ k, getRow out k =
        if k < m ∧ k ≠ col then (getRow rows k).cleared (getRow rows col) col else getRow rows k
  | 0, _ => ⟨rows, rfl, h, fun k => by simp⟩
  | m + 1, hm => by
    obtain ⟨mid, hmid, hsq, hget⟩ := clearRows_eq_ok h hcol (Nat.le_of_succ_le hm)
    obtain ⟨out, hout, hsq', hget'⟩ := clearEntry_eq_ok hsq hcol (Nat.lt_of_succ_le hm)
    refine ⟨out, ?_, hsq', fun k => ?_⟩
    · rw [List.range_succ, List.foldlM_append, hmid, ok_bind, List.foldlM_cons, hout]
      rfl
    · have hpivot : getRow mid col = getRow rows col := by
        rw [hget, if_neg fun h => h.2 rfl]
      have hnext : getRow mid m = getRow rows m := by
        rw [hget, if_neg fun h => Nat.lt_irrefl m h.1]
      rw [hget', hpivot]
      by_cases hk : k = m
      · subst hk
        simp [hnext]
      · have hlt : k < m + 1 ↔ k < m := by omega
        simp only [hget k, hk, hlt, false_and, if_false]

theorem clearColumn_eq_ok (h : IsSquare n rows) {col : Nat} (hcol : col < n) :
    ∃ out, clearColumn rows col = .ok out ∧ IsSquare n out ∧ ∀ k < n, getRow out k =
      if k = col then getRow rows k else (getRow rows k).cleared (getRow rows col) col := by
  obtain ⟨out, hout, hsq, hget⟩ := clearRows_eq_ok h hcol (Nat.le_refl n)
  refine ⟨out, by rw [clearColumn, h.size_eq, hout], hsq, fun k hk => ?_⟩
  rw [hget k]
  by_cases hkc : k = col <;> simp [hk, hkc]

end BitLinear.Elimination
