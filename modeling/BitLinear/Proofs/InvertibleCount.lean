import BitLinear.Proofs.Inversion
import Mathlib.Data.Set.Card
import Mathlib.LinearAlgebra.Matrix.GeneralLinearGroup.Card

/-!
# How many matrices are invertible

Every matrix over the field of two elements is that of a bit matrix (`ofMatrix`) if its rows fill
whole bytes, so bit matrices of one shape are counted as the matrices over the field are
(`ncard_of_toMatrix`). The invertible ones are the units, and of these there is one for each choice
of rows of which none lies in the span of those before it : row `i` avoids `2 ^ i` of the `2 ^ n`
vectors.

The main statement counts the answers of the inversion over all square matrices of one size. A
matrix that is drawn at random is singular as often as the count says.
-/

namespace BitLinear.BitMatrix

variable {n r c : ℕ}

/-! ## Bit matrices from matrices -/

/-- The bit matrix with the entries of a matrix over the field. -/
def ofMatrix (M : Matrix (Fin r) (Fin c) (ZMod 2)) : BitMatrix :=
  ⟨List.ofFn fun i => BitRow.ofVec (M i), c⟩

theorem hasShape_ofMatrix (hc : c % 8 = 0) (M : Matrix (Fin r) (Fin c) (ZMod 2)) :
    (ofMatrix M).HasShape r c := by
  refine hasShape_mk hc (List.length_ofFn) fun row hrow => ?_
  obtain ⟨i, rfl⟩ := List.mem_ofFn.mp hrow
  exact BitRow.length_ofVec hc (M i)

theorem toMatrix_ofMatrix (hc : c % 8 = 0) (M : Matrix (Fin r) (Fin c) (ZMod 2)) :
    (ofMatrix M).toMatrix r c = M := by
  refine Matrix.ext_row fun i => ?_
  rw [row_toMatrix (by simp [ofMatrix])]
  simp only [ofMatrix, List.getElem_ofFn, BitRow.toVec_ofVec hc]
  rfl

theorem ofMatrix_toMatrix {m : BitMatrix} (hm : m.HasShape r c) :
    ofMatrix (m.toMatrix r c) = m := by
  have hc := hm.aligned
  rw [← toMatrix_inj (hasShape_ofMatrix hc _) hm, toMatrix_ofMatrix hc]

/-! ## Counting -/

/-- The bit matrices whose matrices lie in a set, as many as the elements of the set. -/
theorem ncard_of_toMatrix (hc : c % 8 = 0) (S : Set (Matrix (Fin r) (Fin c) (ZMod 2))) :
    {m : BitMatrix | m.HasShape r c ∧ m.toMatrix r c ∈ S}.ncard = S.ncard := by
  have hinj : Function.Injective (ofMatrix (r := r) (c := c)) :=
    Function.LeftInverse.injective (toMatrix_ofMatrix hc)
  have himage : {m : BitMatrix | m.HasShape r c ∧ m.toMatrix r c ∈ S} = ofMatrix '' S := by
    ext m
    refine ⟨fun ⟨hm, hmem⟩ => ⟨m.toMatrix r c, hmem, ofMatrix_toMatrix hm⟩, ?_⟩
    rintro ⟨M, hM, rfl⟩
    exact ⟨hasShape_ofMatrix hc M, (toMatrix_ofMatrix hc M).symm ▸ hM⟩
  rw [himage, Set.ncard_image_of_injective _ hinj]

/-- There is one matrix of a shape for each choice of its entries. -/
theorem ncard_hasShape (hc : c % 8 = 0) :
    {m : BitMatrix | m.HasShape r c}.ncard = 2 ^ (r * c) := by
  have hall := ncard_of_toMatrix (r := r) hc Set.univ
  simp only [Set.mem_univ, and_true] at hall
  rw [hall, Set.ncard_univ]
  change Nat.card (Fin r → Fin c → ZMod 2) = _
  rw [Nat.card_fun, Nat.card_fun, Nat.card_zmod, Nat.card_fin, Nat.card_fin, ← pow_mul, mul_comm]

/-- The units among the matrices over the field. -/
theorem ncard_isUnit (n : ℕ) : {M : Matrix (Fin n) (Fin n) (ZMod 2) | IsUnit M}.ncard =
    ∏ i ∈ Finset.range n, (2 ^ n - 2 ^ i) := by
  have hrange : {M : Matrix (Fin n) (Fin n) (ZMod 2) | IsUnit M} =
      Set.range (Units.val : GL (Fin n) (ZMod 2) → Matrix (Fin n) (Fin n) (ZMod 2)) := rfl
  rw [hrange, ← Nat.card_coe_set_eq, Nat.card_range_of_injective Units.val_injective,
    Matrix.card_GL_field, ZMod.card, Finset.prod_range]

theorem ncard_invert_eq_some (hn : n % 8 = 0) :
    {m : BitMatrix | m.HasShape n n ∧ ∃ b, m.invert = .ok (some b)}.ncard =
      ∏ i ∈ Finset.range n, (2 ^ n - 2 ^ i) := by
  rw [← ncard_isUnit, ← ncard_of_toMatrix hn]
  congr 1
  ext m
  exact and_congr_right fun hm => exists_invert_iff hm

theorem finite_hasShape (hc : c % 8 = 0) : {m : BitMatrix | m.HasShape r c}.Finite := by
  refine Set.finite_of_ncard_ne_zero ?_
  rw [ncard_hasShape hc]
  exact pow_ne_zero _ two_ne_zero

/-- The matrices without an inverse are the others. -/
theorem ncard_invert_eq_none_add (hn : n % 8 = 0) :
    {m : BitMatrix | m.HasShape n n ∧ m.invert = .ok none}.ncard +
      ∏ i ∈ Finset.range n, (2 ^ n - 2 ^ i) = 2 ^ (n * n) := by
  have hsub : {m : BitMatrix | m.HasShape n n ∧ ∃ b, m.invert = .ok (some b)} ⊆
      {m : BitMatrix | m.HasShape n n} := fun m hm => hm.1
  have hdiff : {m : BitMatrix | m.HasShape n n ∧ m.invert = .ok none} =
      {m : BitMatrix | m.HasShape n n} \
        {m : BitMatrix | m.HasShape n n ∧ ∃ b, m.invert = .ok (some b)} := by
    ext m
    refine and_congr_right fun hm => ?_
    change m.invert = .ok none ↔ ¬(m.HasShape n n ∧ ∃ b, m.invert = .ok (some b))
    rw [and_iff_right hm, exists_invert_iff hm, invert_eq_none_iff hm]
  rw [hdiff, ← ncard_invert_eq_some hn, ← ncard_hasShape hn]
  exact Set.ncard_sdiff_add_ncard_of_subset hsub (finite_hasShape hn)

/-- The product as a proportion of all matrices. -/
theorem natCast_prod_div (n : ℕ) :
    ((∏ i ∈ Finset.range n, (2 ^ n - 2 ^ i) : ℕ) : ℚ) / 2 ^ (n * n) =
      ∏ i ∈ Finset.range n, (1 - 2 ^ i / 2 ^ n) := by
  have hall : (2 : ℚ) ^ (n * n) = ∏ _i ∈ Finset.range n, 2 ^ n := by
    rw [Finset.prod_const, Finset.card_range, pow_mul]
  rw [Nat.cast_prod, hall, ← Finset.prod_div_distrib]
  refine Finset.prod_congr rfl fun i hi => ?_
  have hle : 2 ^ i ≤ 2 ^ n := Nat.pow_le_pow_right two_pos (Finset.mem_range.mp hi).le
  rw [Nat.cast_sub hle, sub_div]
  simp

/-- Of all square matrices of one size, inversion finds an inverse for as many as there are choices
of rows outside the span of those before, and none for the others. So this is how often a random
matrix is singular. -/
theorem ncard_invertible (hn : n % 8 = 0) :
    {m : BitMatrix | m.HasShape n n}.ncard = 2 ^ (n * n) ∧
      {m : BitMatrix | m.HasShape n n ∧ ∃ b, m.invert = .ok (some b)}.ncard =
        ∏ i ∈ Finset.range n, (2 ^ n - 2 ^ i) ∧
      (∀ m : BitMatrix, m.HasShape n n →
        (m.invert = .ok none ↔ ¬∃ b, m.invert = .ok (some b))) ∧
      {m : BitMatrix | m.HasShape n n ∧ m.invert = .ok none}.ncard =
        2 ^ (n * n) - ∏ i ∈ Finset.range n, (2 ^ n - 2 ^ i) ∧
      ({m : BitMatrix | m.HasShape n n ∧ m.invert = .ok none}.ncard : ℚ) / 2 ^ (n * n) =
        1 - ∏ i ∈ Finset.range n, (1 - 2 ^ i / 2 ^ n) := by
  have hadd := ncard_invert_eq_none_add hn
  refine ⟨ncard_hasShape hn, ncard_invert_eq_some hn, fun m hm => ?_, Nat.eq_sub_of_add_eq hadd, ?_⟩
  · rw [exists_invert_iff hm, invert_eq_none_iff hm]
  · rw [← natCast_prod_div, eq_sub_iff_add_eq, ← add_div, ← Nat.cast_add, hadd]
    simp

/-- More than two thirds of the matrices of eight rows are singular. -/
theorem ncard_invertible_eight : 8 % 8 = 0 ∧
    {m : BitMatrix | m.HasShape 8 8 ∧ ∃ b, m.invert = .ok (some b)}.ncard = 5348063769211699200 ∧
    {m : BitMatrix | m.HasShape 8 8 ∧ m.invert = .ok none}.ncard = 13098680304497852416 := by
  obtain ⟨-, hsome, -, hnone, -⟩ := ncard_invertible (n := 8) rfl
  exact ⟨rfl, hsome.trans (by decide), hnone.trans (by decide)⟩

end BitLinear.BitMatrix
