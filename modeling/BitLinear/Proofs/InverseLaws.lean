import BitLinear.Proofs.Composition
import BitLinear.Proofs.Inversion
import BitLinear.Proofs.Transpose

/-!
# Laws of inverses

Elimination on a product or on a transposed matrix has nothing to do with elimination on the factors
or on the matrix itself, but there is only one inverse (`invert_eq_some_iff`). So whatever is an
inverse by its entries is the answer : the inverses of the factors in reverse order
(`HasShape.invert_product`), the transposed inverse (`HasShape.invert_transposed`), and for an
inverse the matrix that it came from (`HasShape.invert_inverse`). A product is invertible only if
both factors are, as square matrices with a one-sided inverse have a two-sided one.
-/

open Matrix

namespace BitLinear.BitMatrix

variable {n : ℕ} {a b x y : BitMatrix}

/-- What a matrix makes of a row, its inverse takes back. -/
theorem HasShape.apply_inverse (ha : a.HasShape n n) (hinv : a.invert = .ok (some b))
    {v w : BitRow} (h : a.apply v = .ok w) : b.apply w = .ok v := by
  obtain ⟨hb, hmul⟩ := (invert_eq_some_iff ha).mp hinv
  have hn := ha.aligned
  have hv : v.length = n := by
    by_contra hne
    rw [apply, if_neg fun heq => hne (heq.trans ha.cols_eq)] at h
    cases h
  obtain rfl : a.image v = w := Except.ok.inj ((apply_eq_ok ha hn hv).symm.trans h)
  have hw := length_image ha hn v
  rw [apply_eq_ok hb hn hw, Except.ok.injEq, ← BitRow.toVec_inj (length_image hb hn _) hv,
    toVec_image hb hn hw, toVec_image ha hn hv, Matrix.mulVec_mulVec, hmul, Matrix.one_mulVec]

/-- The inverse of the inverse is the matrix. -/
theorem HasShape.invert_inverse (ha : a.HasShape n n) (hinv : a.invert = .ok (some b)) :
    b.HasShape n n ∧ b.invert = .ok (some a) := by
  obtain ⟨hb, hmul⟩ := (invert_eq_some_iff ha).mp hinv
  exact ⟨hb, (invert_eq_some_iff hb).mpr ⟨ha, mul_eq_one_symm hmul⟩⟩

/-! ## Products -/

theorem HasShape.exists_invert_product_iff (ha : a.HasShape n n) (hb : b.HasShape n n) :
    (∃ z, (a.product b).invert = .ok (some z)) ↔
      (∃ x, a.invert = .ok (some x)) ∧ ∃ y, b.invert = .ok (some y) := by
  rw [exists_invert_iff (ha.product hb), exists_invert_iff ha, exists_invert_iff hb,
    toMatrix_product ha hb, IsUnit.mul_iff]

/-- A product is undone by undoing its factors in reverse order. -/
theorem HasShape.invert_product (ha : a.HasShape n n) (hb : b.HasShape n n)
    (hx : a.invert = .ok (some x)) (hy : b.invert = .ok (some y)) :
    (a.product b).invert = .ok (some (y.product x)) := by
  obtain ⟨hxshape, hxa⟩ := (invert_eq_some_iff ha).mp hx
  obtain ⟨hyshape, hyb⟩ := (invert_eq_some_iff hb).mp hy
  refine (invert_eq_some_iff (ha.product hb)).mpr ⟨hyshape.product hxshape, ?_⟩
  rw [toMatrix_product hyshape hxshape, toMatrix_product ha hb]
  calc y.toMatrix n n * x.toMatrix n n * (a.toMatrix n n * b.toMatrix n n)
      = y.toMatrix n n * (x.toMatrix n n * a.toMatrix n n) * b.toMatrix n n := by
        simp only [Matrix.mul_assoc]
    _ = 1 := by rw [hxa, Matrix.mul_one, hyb]

/-! ## Transposed matrices -/

theorem HasShape.exists_invert_transposed_iff (ha : a.HasShape n n) :
    (∃ z, a.transposed.invert = .ok (some z)) ↔ ∃ x, a.invert = .ok (some x) := by
  rw [exists_invert_iff (ha.transposed ha.aligned), exists_invert_iff ha,
    toMatrix_transposed ha ha.aligned, Matrix.isUnit_transpose]

theorem HasShape.invert_transposed (ha : a.HasShape n n) (hx : a.invert = .ok (some x)) :
    a.transposed.invert = .ok (some x.transposed) := by
  have hn := ha.aligned
  obtain ⟨hxshape, hxa⟩ := (invert_eq_some_iff ha).mp hx
  refine (invert_eq_some_iff (ha.transposed hn)).mpr ⟨hxshape.transposed hn, ?_⟩
  rw [toMatrix_transposed hxshape hn, toMatrix_transposed ha hn, ← Matrix.transpose_mul,
    mul_eq_one_symm hxa, Matrix.transpose_one]

/-! ## The laws -/

/-- Inversion succeeds on a product exactly when it does on both factors, and on a transposed matrix
exactly when it does on the matrix. It answers with the product of the inverses in reverse order,
with the transposed inverse, and for an inverse with the matrix itself. -/
theorem invert_laws (ha : a.HasShape n n) (hb : b.HasShape n n) :
    ∃ ab t, a.compose b = .ok ab ∧ a.transpose = .ok t ∧
      ((∃ z, ab.invert = .ok (some z)) ↔
        (∃ x, a.invert = .ok (some x)) ∧ ∃ y, b.invert = .ok (some y)) ∧
      (∀ x y, a.invert = .ok (some x) → b.invert = .ok (some y) →
        ∃ z, y.compose x = .ok z ∧ ab.invert = .ok (some z)) ∧
      ((∃ z, t.invert = .ok (some z)) ↔ ∃ x, a.invert = .ok (some x)) ∧
      (∀ x, a.invert = .ok (some x) → ∃ z, x.transpose = .ok z ∧ t.invert = .ok (some z)) ∧
      ∀ x, a.invert = .ok (some x) → x.invert = .ok (some a) := by
  have hn := ha.aligned
  refine ⟨_, _, compose_eq_ok ha hb, transpose_eq_ok ha hn, ha.exists_invert_product_iff hb,
    fun x y hx hy => ⟨_, ?_, ha.invert_product hb hx hy⟩, ha.exists_invert_transposed_iff,
    fun x hx => ⟨_, ?_, ha.invert_transposed hx⟩, fun x hx => (ha.invert_inverse hx).2⟩
  · exact compose_eq_ok (hb.invert_inverse hy).1 (ha.invert_inverse hx).1
  · exact transpose_eq_ok (ha.invert_inverse hx).1 hn

/-- A cyclic shift of the eight bits, composed with a matrix whose elimination swaps rows. -/
theorem invert_laws_eight :
    let a : BitMatrix := ⟨[⟨#[2]⟩, ⟨#[4]⟩, ⟨#[8]⟩, ⟨#[16]⟩, ⟨#[32]⟩, ⟨#[64]⟩, ⟨#[128]⟩, ⟨#[1]⟩], 8⟩
    a.HasShape 8 8 ∧ sample.HasShape 8 8 ∧ ∃ ab t x y z z',
      a.compose sample = .ok ab ∧ a.transpose = .ok t ∧ a.invert = .ok (some x) ∧
        sample.invert = .ok (some y) ∧ y.compose x = .ok z ∧ ab.invert = .ok (some z) ∧
        x.transpose = .ok z' ∧ t.invert = .ok (some z') ∧ x.invert = .ok (some a) := by
  intro a
  have ha : a.HasShape 8 8 := by decide
  obtain ⟨ab, t, hab, ht, -, hproduct, -, htransposed, hback⟩ := invert_laws ha sample_hasShape
  have hx : a.invert = .ok (some
      ⟨[⟨#[128]⟩, ⟨#[1]⟩, ⟨#[2]⟩, ⟨#[4]⟩, ⟨#[8]⟩, ⟨#[16]⟩, ⟨#[32]⟩, ⟨#[64]⟩], 8⟩) := by cbv
  obtain ⟨z, hz, hzab⟩ := hproduct _ _ hx invert_sample
  obtain ⟨z', hz', hzt⟩ := htransposed _ hx
  exact ⟨ha, sample_hasShape, ab, t, _, _, z, z', hab, ht, hx, invert_sample, hz, hzab, hz', hzt,
    hback _ hx⟩

end BitLinear.BitMatrix
