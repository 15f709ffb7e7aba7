import BitLinear.Proofs.Bitwise
import BitLinear.Proofs.Matrix
import Mathlib.LinearAlgebra.Matrix.DotProduct

/-!
# The inner product as a form

The inner product of two rows is that of their vectors (`dot_eq_ok_iff`). Hence it is symmetric and
additive, and only the zero row has inner product zero with every row (`forall_dot_eq_false_iff`).
The bits of a sum and of a product are counted together : a position that is set in both rows is
missing from the sum and counts twice on the other side (`weight_sum_add`). The last statement says
this of the operations, and that the inner product tells whether the product has odd weight.
-/

open Matrix

namespace BitLinear.BitRow

variable {n : ℕ} {a b c : BitRow} {bit : Bool}

/-! ## Weights -/

/-- What is set in just one of two ways, and twice what is set in both. -/
theorem countP_xor_add {α : Type} (f g : α → Bool) : ∀ l : List α,
    l.countP (fun x => f x ^^ g x) + 2 * l.countP (fun x => f x && g x) = l.countP f + l.countP g
  | [] => rfl
  | x :: l => by
    have ih := countP_xor_add f g l
    simp only [List.countP_cons]
    cases f x <;> cases g x <;> simp <;> omega

theorem weight_sum (h : a.length = b.length) : (a.sum b).weight =
    (List.range a.length).countP fun i => a.testBit i ^^ b.testBit i := by
  rw [weight_eq_countP, length_sum h]
  exact List.countP_congr fun i _ => by rw [testBit_sum h]

theorem weight_sum_add (h : a.length = b.length) :
    (a.sum b).weight + 2 * (a.product b).weight = a.weight + b.weight := by
  rw [weight_sum h, weight_product h, countP_xor_add, weight_eq_countP a, weight_eq_countP b, h]

/-! ## The form -/

/-- The inner product of rows is that of their vectors. -/
theorem dot_eq_ok_iff (ha : a.length = n) (hb : b.length = n) :
    a.dot b = .ok bit ↔ ofBit bit = a.toVec n ⬝ᵥ b.toVec n := by
  rw [dot_eq_ok (ha.trans hb.symm), Except.ok.injEq, ← ofBit_inj,
    BitMatrix.ofBit_parity_product ha hb, eq_comm]

theorem dot_comm (ha : a.length = n) (hb : b.length = n) (h : a.dot b = .ok bit) :
    b.dot a = .ok bit := by
  rw [dot_eq_ok_iff ha hb] at h
  rw [dot_eq_ok_iff hb ha, h, dotProduct_comm]

theorem dot_sum (ha : a.length = n) (hb : b.length = n) (hc : c.length = n) {bit' : Bool}
    (hac : a.dot c = .ok bit) (hbc : b.dot c = .ok bit') :
    (a.sum b).dot c = .ok (bit ^^ bit') := by
  have hab := ha.trans hb.symm
  rw [dot_eq_ok_iff ha hc] at hac
  rw [dot_eq_ok_iff hb hc] at hbc
  rw [dot_eq_ok_iff ((length_sum hab).trans ha) hc, toVec_sum hab, add_dotProduct, ofBit_xor, hac,
    hbc]

/-- Only the zero row is orthogonal to all rows. -/
theorem forall_dot_eq_false_iff (ha : a.length = n) :
    (∀ x : BitRow, x.length = n → a.dot x = .ok false) ↔ a.isZero = true := by
  have hn : n % 8 = 0 := ha ▸ a.length_mod_eight
  rw [isZero_iff_toVec ha]
  refine ⟨fun h => dotProduct_eq_zero _ fun w => ?_, fun h x hx => ?_⟩
  · have hw := (dot_eq_ok_iff ha (length_ofVec hn w)).mp (h (ofVec w) (length_ofVec hn w))
    rw [toVec_ofVec hn] at hw
    exact hw.symm
  · rw [dot_eq_ok_iff ha hx, h, zero_dotProduct, ofBit_false]

/-- The inner product of rows of one length is symmetric, additive and zero with all rows for the
zero row alone. It is set when the product has odd weight, and the weights of the sum and of the
product, this one counted twice, add up to the weights of the rows. -/
theorem dot_form (hb : b.length = a.length) (hc : c.length = a.length) :
    ∃ p s bit u v, a.mul b = .ok p ∧ a.add b = .ok s ∧ a.dot b = .ok bit ∧ b.dot a = .ok bit ∧
      bit = decide (p.weight % 2 = 1) ∧
      a.dot c = .ok u ∧ b.dot c = .ok v ∧ s.dot c = .ok (u ^^ v) ∧
      s.weight + 2 * p.weight = a.weight + b.weight ∧
      ((∀ x : BitRow, x.length = a.length → a.dot x = .ok false) ↔ a.isZero = true) := by
  have hab := dot_eq_ok hb.symm
  have hac := dot_eq_ok hc.symm
  have hbc := dot_eq_ok (hb.trans hc.symm)
  exact ⟨_, _, _, _, _, mul_eq_ok hb.symm, add_eq_ok hb.symm, hab, dot_comm rfl hb hab,
    parity_eq_weight _, hac, hbc, dot_sum rfl hb hc hac hbc, weight_sum_add hb.symm,
    forall_dot_eq_false_iff rfl⟩

/-- Two rows of two bytes that meet in three positions, and a third that meets the first in two and
the second in one. -/
theorem dot_form_sixteen : let a : BitRow := ⟨#[7, 129]⟩
    let b : BitRow := ⟨#[21, 128]⟩
    let c : BitRow := ⟨#[12, 1]⟩
    b.length = a.length ∧ c.length = a.length ∧ a.dot b = .ok true ∧ b.dot a = .ok true ∧
      a.dot c = .ok false ∧ b.dot c = .ok true ∧
      (∃ s, a.add b = .ok s ∧ s.dot c = .ok true ∧ s.weight + 2 * 3 = 5 + 4) ∧
      ¬∀ x : BitRow, x.length = a.length → a.dot x = .ok false := by
  intro a b c
  have hb : b.length = a.length := rfl
  have hc : c.length = a.length := rfl
  have hab : a.dot b = .ok true := by decide +kernel
  have hac : a.dot c = .ok false := by decide +kernel
  have hbc : b.dot c = .ok true := by decide +kernel
  have hmul : a.mul b = .ok ⟨#[5, 128]⟩ := by cbv
  have hthree : (⟨#[5, 128]⟩ : BitRow).weight = 3 := by cbv
  have hrows : a.weight = 5 ∧ b.weight = 4 := ⟨by cbv, by cbv⟩
  have hne : a.isZero = false := by cbv
  obtain ⟨p, s, bit, u, v, hp, hs, hbit, hba, -, hu, hv, hsc, hweight, hzero⟩ := dot_form hb hc
  obtain rfl : p = ⟨#[5, 128]⟩ := Except.ok.inj (hp.symm.trans hmul)
  obtain rfl : bit = true := Except.ok.inj (hbit.symm.trans hab)
  obtain rfl : u = false := Except.ok.inj (hu.symm.trans hac)
  obtain rfl : v = true := Except.ok.inj (hv.symm.trans hbc)
  rw [hthree, hrows.1, hrows.2] at hweight
  rw [hne, iff_false_right Bool.false_ne_true] at hzero
  exact ⟨hb, hc, hab, hba, hac, hbc, ⟨s, hs, hsc, hweight⟩, hzero⟩

end BitLinear.BitRow
