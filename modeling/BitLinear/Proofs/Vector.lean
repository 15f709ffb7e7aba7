import BitLinear.Proofs.Checked
import BitLinear.Proofs.Measures
import Mathlib.Algebra.BigOperators.Fin
import Mathlib.Algebra.Field.ZMod
import Mathlib.LinearAlgebra.Pi

/-!
# Rows as vectors over the field of two elements

`ofBit` reads a bit as an element of `ZMod 2`, and `toVec n` reads the first `n` bits of a row as a
vector. Rows of `n` bits are determined by their vectors (`toVec_inj`), every vector is that of a
row (`toVec_ofVec`), and sums of rows are sums of vectors (`toVec_sum`). `bitAt` is the coordinate
at a position, zero past the end.
-/

namespace BitLinear

/-! ## Bits -/

/-- A bit as an element of the field of two elements. -/
def ofBit (b : Bool) : ZMod 2 :=
  if b then 1 else 0

@[simp] theorem ofBit_false : ofBit false = 0 :=
  rfl

@[simp] theorem ofBit_true : ofBit true = 1 :=
  rfl

@[simp] theorem ofBit_xor (a b : Bool) : ofBit (a ^^ b) = ofBit a + ofBit b := by
  revert a b
  decide

@[simp] theorem ofBit_and (a b : Bool) : ofBit (a && b) = ofBit a * ofBit b := by
  revert a b
  decide

@[simp] theorem ofBit_inj {a b : Bool} : ofBit a = ofBit b ↔ a = b := by
  revert a b
  decide

@[simp] theorem ofBit_eq_zero {b : Bool} : ofBit b = 0 ↔ b = false :=
  ofBit_inj (b := false)

@[simp] theorem ofBit_decide_eq_one (x : ZMod 2) : ofBit (decide (x = 1)) = x := by
  revert x
  decide

theorem ofBit_decide (p : Prop) [Decidable p] : ofBit (decide p) = if p then 1 else 0 := by
  by_cases h : p <;> simp [h]

/-! ## Vectors -/

/-- Vectors that add up to zero are equal, as there is no sign. -/
theorem add_eq_zero_iff_eq {n : ℕ} {v w : Fin n → ZMod 2} : v + w = 0 ↔ v = w := by
  rw [add_eq_zero_iff_eq_neg, ZModModule.neg_eq_self]

theorem add_add_self {n : ℕ} (v w : Fin n → ZMod 2) : v + w + w = v := by
  rw [add_assoc, ZModModule.add_self, add_zero]

theorem self_add_add {n : ℕ} (v w : Fin n → ZMod 2) : v + (v + w) = w := by
  rw [← add_assoc, ZModModule.add_self, zero_add]

/-- The coordinate at position `k`, and zero past the end. -/
def bitAt (n k : ℕ) : (Fin n → ZMod 2) →ₗ[ZMod 2] ZMod 2 :=
  if h : k < n then LinearMap.proj ⟨k, h⟩ else 0

@[simp] theorem bitAt_val {n : ℕ} (j : Fin n) (v : Fin n → ZMod 2) : bitAt n j v = v j := by
  simp [bitAt]

theorem bitAt_single {n : ℕ} (i : Fin n) (k : ℕ) :
    bitAt n k (Pi.single i 1) = if k = i then 1 else 0 := by
  by_cases hk : k < n
  · simp [bitAt, hk, Pi.single_apply, Fin.ext_iff]
  · simp [bitAt, hk, show k ≠ i by omega]

theorem eq_zero_of_bitAt {n : ℕ} {v : Fin n → ZMod 2} (h : ∀ k < n, bitAt n k v = 0) : v = 0 := by
  ext j
  rw [← bitAt_val j v, h j j.isLt, Pi.zero_apply]

namespace BitRow

/-- The first `n` bits of a row as a vector. -/
def toVec (n : ℕ) (r : BitRow) : Fin n → ZMod 2 :=
  fun j => ofBit (r.testBit j)

variable {n : ℕ}

theorem toVec_apply (r : BitRow) (j : Fin n) : r.toVec n j = ofBit (r.testBit j) :=
  rfl

theorem bitAt_toVec {r : BitRow} (h : r.length = n) (k : ℕ) :
    bitAt n k (r.toVec n) = ofBit (r.testBit k) := by
  by_cases hk : k < n
  · simp [bitAt, hk, toVec_apply]
  · rw [testBit_eq_false r (by omega)]
    simp [bitAt, hk]

theorem toVec_inj {a b : BitRow} (ha : a.length = n) (hb : b.length = n) :
    a.toVec n = b.toVec n ↔ a = b := by
  refine ⟨?_, ?_⟩
  · intro h
    refine ext_testBit (ha.trans hb.symm) fun i hi => ?_
    exact ofBit_inj.mp (congrFun h ⟨i, ha ▸ hi⟩)
  · rintro rfl
    rfl

theorem toVec_sum {a b : BitRow} (h : a.length = b.length) :
    (a.sum b).toVec n = a.toVec n + b.toVec n := by
  ext j
  simp [toVec_apply, testBit_sum h]

@[simp] theorem toVec_zeros (m : ℕ) : (zeros m).toVec n = 0 := by
  ext j
  simp [toVec_apply]

theorem toVec_unitRow (hn : n % 8 = 0) (i : Fin n) : (unitRow n i).toVec n = Pi.single i 1 := by
  ext j
  rw [toVec_apply, testBit_unitRow hn j.isLt, ofBit_decide, Pi.single_apply]
  simp [Fin.ext_iff]

/-- The row with the coordinates of a vector as its bits. -/
def ofVec (v : Fin n → ZMod 2) : BitRow :=
  pack (List.ofFn fun j => decide (v j = 1))

theorem length_ofVec (hn : n % 8 = 0) (v : Fin n → ZMod 2) : (ofVec v).length = n := by
  rw [ofVec, length_pack] <;> simp [hn]

@[simp] theorem toVec_ofVec (hn : n % 8 = 0) (v : Fin n → ZMod 2) : (ofVec v).toVec n = v := by
  ext j
  rw [toVec_apply, ofVec, testBit_pack (by simp [hn])]
  simp

theorem ofVec_toVec (hn : n % 8 = 0) {r : BitRow} (h : r.length = n) : ofVec (r.toVec n) = r := by
  rw [← toVec_inj (length_ofVec hn _) h, toVec_ofVec hn]

theorem ofVec_add (hn : n % 8 = 0) (v w : Fin n → ZMod 2) :
    ofVec (v + w) = (ofVec v).sum (ofVec w) := by
  have hlen := (length_ofVec hn v).trans (length_ofVec hn w).symm
  rw [← toVec_inj (length_ofVec hn _) ((length_sum hlen).trans (length_ofVec hn v)),
    toVec_sum hlen, toVec_ofVec hn, toVec_ofVec hn, toVec_ofVec hn]

theorem isZero_iff_toVec {r : BitRow} (h : r.length = n) : r.isZero = true ↔ r.toVec n = 0 := by
  rw [isZero_iff]
  refine ⟨?_, ?_⟩
  · intro hz
    funext j
    simp [toVec_apply, hz]
  · intro hz i
    have hbit := bitAt_toVec h i
    rw [hz, map_zero] at hbit
    exact ofBit_eq_zero.mp hbit.symm

/-! ## Parity -/

theorem ofBit_decide_odd (k : ℕ) : ofBit (decide (k % 2 = 1)) = k := by
  rw [← ZMod.natCast_mod k 2]
  rcases Nat.mod_two_eq_zero_or_one k with hk | hk <;> simp [hk]

/-- Positions are counted by summing their bits. -/
theorem natCast_countP_range (bit : ℕ → Bool) : ∀ count : ℕ,
    (((List.range count).countP bit : ℕ) : ZMod 2) = ∑ j : Fin count, ofBit (bit j)
  | 0 => rfl
  | count + 1 => by
    rw [List.range_succ, List.countP_append, Nat.cast_add, natCast_countP_range bit count,
      Fin.sum_univ_castSucc]
    cases hbit : bit count <;> simp [hbit]

theorem ofBit_parity {r : BitRow} (h : r.length = n) :
    ofBit r.parity = ∑ j : Fin n, r.toVec n j := by
  rw [parity_eq_weight, ofBit_decide_odd, weight_eq_countP, h, natCast_countP_range]
  rfl

end BitRow

namespace TrackedRow

variable {n : ℕ} {a b : TrackedRow}

theorem toVec_cleared_vector (ha : a.HasLength n) (hb : b.HasLength n) (col : ℕ) :
    (a.cleared b col).vector.toVec n =
      a.vector.toVec n + bitAt n col (a.vector.toVec n) • b.vector.toVec n := by
  rw [BitRow.bitAt_toVec ha.1, cleared]
  cases a.vector.testBit col
  · simp
  · simp [sum, BitRow.toVec_sum (ha.1.trans hb.1.symm)]

theorem toVec_cleared_coefficients (ha : a.HasLength n) (hb : b.HasLength n) (col : ℕ) :
    (a.cleared b col).coefficients.toVec n =
      a.coefficients.toVec n + bitAt n col (a.vector.toVec n) • b.coefficients.toVec n := by
  rw [BitRow.bitAt_toVec ha.1, cleared]
  cases a.vector.testBit col
  · simp
  · simp [sum, BitRow.toVec_sum (ha.2.trans hb.2.symm)]

end TrackedRow

end BitLinear
