import BitLinear.Proofs.Matrix
import BitLinear.Proofs.RowOperations
import Mathlib.LinearAlgebra.Matrix.NonsingularInverse
import Mathlib.LinearAlgebra.Matrix.ToLinearEquiv

/-!
# The invariant of the elimination

`Finished k L` says that the first `k` columns of a matrix are those of the identity. Exchanging
rows below keeps this, adding the row of a pivot to the rows that have its column finishes one
column more (`Finished.shear`), and a column that is zero from the diagonal on gives a vector that
the matrix maps to zero (`Finished.exists_mulVec_eq_zero`).

`left` and `right` are the vectors and the coefficients of the working rows. `Invariant m n k` says
that `right` times `m` is `left`, that `right` is invertible, and that `k` columns of `left` are
finished. The exchange keeps it (`Invariant.exchange`), and clearing a column brings it to the next
column (`Invariant.clear`).
-/

open Matrix

namespace BitLinear

namespace Elimination

/-! ## Matrices with finished columns -/

section Finished

variable {n k : ℕ} {L : Matrix (Fin n) (Fin n) (ZMod 2)}

/-- The first `k` columns are those of the identity. -/
def Finished (k : ℕ) (L : Matrix (Fin n) (Fin n) (ZMod 2)) : Prop :=
  ∀ i j : Fin n, (j : ℕ) < k → L i j = (1 : Matrix (Fin n) (Fin n) (ZMod 2)) i j

theorem Finished.eq_one (h : Finished n L) : L = 1 := by
  ext i j
  exact h i j j.isLt

/-- Permuting the rows below keeps the finished columns. -/
theorem Finished.submatrix (h : Finished k L) {e : Equiv.Perm (Fin n)}
    (he : ∀ j : Fin n, (j : ℕ) < k → e j = j) : Finished k (L.submatrix e id) := by
  intro i j hj
  have hiff : e i = j ↔ i = j := by
    refine ⟨?_, ?_⟩
    · intro hij
      exact e.injective (hij.trans (he j hj).symm)
    · rintro rfl
      exact he i hj
  rw [Matrix.submatrix_apply]
  refine (h (e i) j hj).trans ?_
  simp only [Matrix.one_apply, hiff]

/-- The row operation that adds `f l` times row `p` to every row `l`. -/
def shear (p : Fin n) (f : Fin n → ZMod 2) : Matrix (Fin n) (Fin n) (ZMod 2) :=
  1 + Matrix.vecMulVec f (Pi.single p 1)

theorem shear_mul_apply (p : Fin n) (f : Fin n → ZMod 2) (i j : Fin n) :
    (shear p f * L) i j = L i j + f i * L p j := by
  simp [shear, Matrix.add_mul, Matrix.vecMulVec_mul, Matrix.vecMulVec_apply]

/-- If the row that is added stays as it is, adding it again undoes the operation. -/
theorem isUnit_shear {p : Fin n} {f : Fin n → ZMod 2} (hf : f p = 0) : IsUnit (shear p f) := by
  have hp (j : Fin n) : shear p f p j = (1 : Matrix (Fin n) (Fin n) (ZMod 2)) p j := by
    simp [shear, Matrix.vecMulVec_apply, hf]
  refine IsUnit.of_mul_eq_one (shear p f) ?_
  ext i j
  rw [shear_mul_apply, hp]
  simp [shear, Matrix.vecMulVec_apply, add_assoc, Matrix.one_apply, Pi.single_apply, eq_comm,
    ZModModule.add_self]

/-- The multiple of the pivot row that clears column `p` in each other row. -/
def multiplier (p : Fin n) (L : Matrix (Fin n) (Fin n) (ZMod 2)) : Fin n → ZMod 2 :=
  fun l => if l = p then 0 else L l p

/-- A row at or below row `k` is zero in the finished columns, so adding it keeps these. -/
theorem Finished.shear_of_le {p : Fin n} (h : Finished k L) (hp : k ≤ p) (f : Fin n → ZMod 2) :
    Finished k (shear p f * L) := by
  intro i j hj
  have hne : p ≠ j := fun hpj => absurd (congrArg Fin.val hpj) (Nat.ne_of_gt (hj.trans_le hp))
  have hpj : L p j = 0 := (h p j hj).trans (Matrix.one_apply_ne hne)
  rw [shear_mul_apply, hpj, mul_zero, add_zero]
  exact h i j hj

theorem Finished.shear {p : Fin n} (h : Finished p L) (hp : L p p = 1) :
    Finished (p + 1) (shear p (multiplier p L) * L) := by
  intro i j hj
  rcases Nat.lt_succ_iff_lt_or_eq.mp hj with hlt | heq
  · exact h.shear_of_le le_rfl (multiplier p L) i j hlt
  · obtain rfl : j = p := Fin.ext heq
    rw [shear_mul_apply, hp, mul_one, multiplier]
    by_cases hij : i = j
    · subst hij
      rw [if_pos rfl, add_zero, hp, Matrix.one_apply_eq]
    · rw [if_neg hij, ZModModule.add_self, Matrix.one_apply_ne hij]

/-- If the next column is zero from its diagonal on, it is a sum of finished columns. -/
theorem Finished.exists_mulVec_eq_zero {p : Fin n} (h : Finished p L)
    (hlow : ∀ l : Fin n, p ≤ l → L l p = 0) : ∃ v : Fin n → ZMod 2, v ≠ 0 ∧ L *ᵥ v = 0 := by
  have hfix : L *ᵥ L.col p = L.col p := by
    have hmul (i j : Fin n) :
        L i j * L j p = (1 : Matrix (Fin n) (Fin n) (ZMod 2)) i j * L j p := by
      rcases lt_or_ge j p with hj | hj
      · rw [h i j hj]
      · rw [hlow j hj, mul_zero, mul_zero]
    calc L *ᵥ L.col p = (1 : Matrix (Fin n) (Fin n) (ZMod 2)) *ᵥ L.col p := by
          ext i
          change ∑ j, L i j * L j p = ∑ j, (1 : Matrix (Fin n) (Fin n) (ZMod 2)) i j * L j p
          exact Finset.sum_congr rfl fun j _ => hmul i j
      _ = L.col p := Matrix.one_mulVec _
  refine ⟨Pi.single p 1 + L.col p, fun hv => ?_, ?_⟩
  · have hp := congrFun hv p
    simp [hlow p le_rfl] at hp
  · rw [Matrix.mulVec_add, Matrix.mulVec_single_one, hfix, ZModModule.add_self]

end Finished

/-! ## Rows as matrices -/

/-- The vectors of the rows. -/
def left (n : ℕ) (rows : Array TrackedRow) : BitMatrix :=
  ⟨(rows.map TrackedRow.vector).toList, n⟩

/-- The coefficients of the rows. -/
def right (n : ℕ) (rows : Array TrackedRow) : BitMatrix :=
  ⟨(rows.map TrackedRow.coefficients).toList, n⟩

variable {m : BitMatrix} {n k : ℕ} {rows out : Array TrackedRow}

theorem left_apply (rows : Array TrackedRow) (i j : Fin n) :
    (left n rows).toMatrix n n i j = (getRow rows i).vector.toVec n j := by
  rw [BitMatrix.toMatrix_apply, BitMatrix.entry, left, getRow]
  by_cases hi : (i : ℕ) < rows.size <;> simp [hi, BitRow.toVec_apply]

theorem right_apply (rows : Array TrackedRow) (i j : Fin n) :
    (right n rows).toMatrix n n i j = (getRow rows i).coefficients.toVec n j := by
  rw [BitMatrix.toMatrix_apply, BitMatrix.entry, right, getRow]
  by_cases hi : (i : ℕ) < rows.size <;> simp [hi, BitRow.toVec_apply]

/-- One part of the rows is a square matrix. -/
theorem IsSquare.hasShape_map (h : IsSquare n rows) (hn : n % 8 = 0) {part : TrackedRow → BitRow}
    (hpart : ∀ t : TrackedRow, t.HasLength n → (part t).length = n) :
    (⟨(rows.map part).toList, n⟩ : BitMatrix).HasShape n n := by
  refine BitMatrix.hasShape_mk hn (by simp [h.size_eq]) fun row hrow => ?_
  have hmem : ∃ t ∈ rows, part t = row := by simpa using hrow
  obtain ⟨t, ht, rfl⟩ := hmem
  obtain ⟨i, hi, rfl⟩ := Array.mem_iff_getElem.mp ht
  have hlen := hpart _ (h.hasLength i (h.size_eq ▸ hi))
  simpa [getRow, hi] using hlen

theorem IsSquare.hasShape_left (h : IsSquare n rows) (hn : n % 8 = 0) :
    (left n rows).HasShape n n :=
  h.hasShape_map hn fun _ ht => ht.1

theorem IsSquare.hasShape_right (h : IsSquare n rows) (hn : n % 8 = 0) :
    (right n rows).HasShape n n :=
  h.hasShape_map hn fun _ ht => ht.2

/-! ## Adding multiples of one row -/

/-- Row `l` of `out` is row `l` of `rows` and `f l` times row `p`. -/
structure Sheared (p : Fin n) (f : Fin n → ZMod 2) (rows out : Array TrackedRow) : Prop where
  vector : ∀ l : Fin n, (getRow out l).vector.toVec n =
    (getRow rows l).vector.toVec n + f l • (getRow rows p).vector.toVec n
  coefficients : ∀ l : Fin n, (getRow out l).coefficients.toVec n =
    (getRow rows l).coefficients.toVec n + f l • (getRow rows p).coefficients.toVec n

section Sheared

variable {p : Fin n} {f : Fin n → ZMod 2}

theorem Sheared.left_eq (h : Sheared p f rows out) :
    (left n out).toMatrix n n = shear p f * (left n rows).toMatrix n n := by
  ext l c
  rw [shear_mul_apply, left_apply, left_apply, left_apply, h.vector]
  rfl

theorem Sheared.right_eq (h : Sheared p f rows out) :
    (right n out).toMatrix n n = shear p f * (right n rows).toMatrix n n := by
  ext l c
  rw [shear_mul_apply, right_apply, right_apply, right_apply, h.coefficients]
  rfl

/-- Clearing a column in some of the rows adds to each as much of row `p` as it has the column. -/
theorem IsSquare.sheared (h : IsSquare n rows)
    (hget : ∀ l : Fin n, getRow out l = getRow rows l ∧ f l = 0 ∨
      getRow out l = (getRow rows l).cleared (getRow rows p) p ∧
        f l = (left n rows).toMatrix n n l p) : Sheared p f rows out := by
  have hp := h.hasLength p p.isLt
  have hfactor (l : Fin n) : bitAt n p ((getRow rows l).vector.toVec n) =
      (left n rows).toMatrix n n l p := by
    rw [left_apply]
    exact bitAt_val p _
  refine ⟨fun l => ?_, fun l => ?_⟩
  · rcases hget l with ⟨heq, hf⟩ | ⟨heq, hf⟩
    · rw [heq, hf, zero_smul, add_zero]
    · rw [heq, hf, ← hfactor, TrackedRow.toVec_cleared_vector (h.hasLength l l.isLt) hp]
  · rcases hget l with ⟨heq, hf⟩ | ⟨heq, hf⟩
    · rw [heq, hf, zero_smul, add_zero]
    · rw [heq, hf, ← hfactor, TrackedRow.toVec_cleared_coefficients (h.hasLength l l.isLt) hp]

end Sheared

/-! ## The loop invariant -/

/-- The state before column `k` is brought into its final form. -/
structure Invariant (m : BitMatrix) (n k : ℕ) (rows : Array TrackedRow) : Prop where
  isSquare : IsSquare n rows
  mul_eq : (right n rows).toMatrix n n * m.toMatrix n n = (left n rows).toMatrix n n
  isUnit : IsUnit ((right n rows).toMatrix n n)
  finished : Finished k ((left n rows).toMatrix n n)

/-- Exchanging two rows at or below row `k` keeps the invariant. -/
theorem Invariant.exchange (h : Invariant m n k rows) (hout : IsSquare n out) {i j : ℕ}
    (hi : i < n) (hj : j < n) (hki : k ≤ i) (hkj : k ≤ j)
    (hget : ∀ l, getRow out l = getRow rows (Equiv.swap i j l)) : Invariant m n k out := by
  let e : Equiv.Perm (Fin n) := Equiv.swap ⟨i, hi⟩ ⟨j, hj⟩
  have hval (l : Fin n) : Equiv.swap i j (l : ℕ) = (e l : ℕ) := by
    simp only [e, Equiv.swap_apply_def, Fin.ext_iff]
    split_ifs <;> rfl
  have hleft : (left n out).toMatrix n n = ((left n rows).toMatrix n n).submatrix e id := by
    ext l c
    rw [left_apply, hget, hval]
    exact (left_apply rows (e l) c).symm
  have hright : (right n out).toMatrix n n = ((right n rows).toMatrix n n).submatrix e id := by
    ext l c
    rw [right_apply, hget, hval]
    exact (right_apply rows (e l) c).symm
  refine ⟨hout, ?_, ?_, ?_⟩
  · rw [hright, hleft, ← h.mul_eq]
    rfl
  · rw [hright]
    exact (Matrix.isUnit_submatrix_equiv e (Equiv.refl _)).mpr h.isUnit
  · rw [hleft]
    refine h.finished.submatrix fun c hc => ?_
    have hci : c ≠ ⟨i, hi⟩ := fun heq => by
      have := congrArg Fin.val heq
      dsimp only at this
      omega
    have hcj : c ≠ ⟨j, hj⟩ := fun heq => by
      have := congrArg Fin.val heq
      dsimp only at this
      omega
    exact Equiv.swap_apply_of_ne_of_ne hci hcj

/-- Adding multiples of a row at or below row `k` to the other rows keeps the invariant. -/
theorem Invariant.shear (h : Invariant m n k rows) (hout : IsSquare n out) {p : Fin n}
    {f : Fin n → ZMod 2} (hs : Sheared p f rows out) (hf : f p = 0) (hp : k ≤ p) :
    Invariant m n k out where
  isSquare := hout
  mul_eq := by rw [hs.right_eq, hs.left_eq, Matrix.mul_assoc, h.mul_eq]
  isUnit := by
    rw [hs.right_eq]
    exact (isUnit_shear hf).mul h.isUnit
  finished := by
    rw [hs.left_eq]
    exact h.finished.shear_of_le hp f

/-- Clearing the column of a pivot finishes it and leaves the finished columns as they are. -/
theorem Invariant.clear (h : Invariant m n k rows) (hout : IsSquare n out) (hk : k < n)
    (hpivot : (getRow rows k).vector.testBit k = true)
    (hget : ∀ l < n, getRow out l =
      if l = k then getRow rows l else (getRow rows l).cleared (getRow rows k) k) :
    Invariant m n (k + 1) out := by
  let p : Fin n := ⟨k, hk⟩
  have hs : Sheared p (multiplier p ((left n rows).toMatrix n n)) rows out := by
    refine h.isSquare.sheared fun l => ?_
    rw [hget l l.isLt, multiplier]
    by_cases hl : l = p
    · exact Or.inl ⟨if_pos (congrArg Fin.val hl), if_pos hl⟩
    · exact Or.inr ⟨if_neg fun heq => hl (Fin.ext heq), if_neg hl⟩
  have hkeep := h.shear hout hs (if_pos rfl) le_rfl
  refine ⟨hout, hkeep.mul_eq, hkeep.isUnit, ?_⟩
  rw [hs.left_eq]
  refine Finished.shear (p := p) h.finished ?_
  rw [left_apply, BitRow.toVec_apply, hpivot, ofBit_true]

/-- A column without a pivot gives a vector that the matrix maps to zero. -/
theorem Invariant.exists_kernel (h : Invariant m n k rows) (hk : k < n)
    (hnone : ∀ i, k ≤ i → i < n → (getRow rows i).vector.testBit k = false) :
    ∃ v : Fin n → ZMod 2, v ≠ 0 ∧ m.toMatrix n n *ᵥ v = 0 := by
  have hlow (l : Fin n) (hl : ⟨k, hk⟩ ≤ l) : (left n rows).toMatrix n n l ⟨k, hk⟩ = 0 := by
    rw [left_apply, BitRow.toVec_apply, hnone l hl l.isLt, ofBit_false]
  obtain ⟨v, hv, hzero⟩ := Finished.exists_mulVec_eq_zero (p := ⟨k, hk⟩) h.finished hlow
  refine ⟨v, hv, Matrix.mulVec_injective_of_isUnit h.isUnit ?_⟩
  rw [Matrix.mulVec_mulVec, h.mul_eq, hzero, Matrix.mulVec_zero]

end Elimination

end BitLinear
