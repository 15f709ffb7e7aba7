import BitLinear.Proofs.Matrix

/-!
# Composing is multiplying and applying in turn

On fitting shapes the matrices form what matrices over a field form. Equalities of bit matrices are
read off their entries (`toMatrix_inj`), so composing is associative, distributes over sums
(`HasShape.product_sum`) and has the identities as units, for every shape, those without rows or
columns included. Composing selects whole rows and applying takes inner products, but applying a
product is applying its factors one after the other (`HasShape.image_product`); both refuse a number
of rows that does not fill whole bytes (`apply_eq_error`).

The last statement says all this of the operations themselves, and of the single bits of a product
that each is the sum of the products of a row and a column.
-/

open Matrix

namespace BitLinear

/-! ## Sums of bits -/

/-- The sum of the bits at the positions below `count`. -/
def xorBelow (count : ℕ) (bit : ℕ → Bool) : Bool :=
  (List.range count).foldl (fun sum k => sum ^^ bit k) false

theorem ofBit_xorBelow (count : ℕ) (bit : ℕ → Bool) :
    ofBit (xorBelow count bit) = ∑ k : Fin count, ofBit (bit k) := by
  induction count with
  | zero => rfl
  | succ count ih =>
    have hlast : xorBelow (count + 1) bit = (xorBelow count bit ^^ bit count) := by
      simp [xorBelow, List.range_succ]
    rw [hlast, ofBit_xor, ih, Fin.sum_univ_castSucc]
    rfl

namespace BitRow

/-- Bits that do not fill whole bytes are no row. -/
theorem ofBits_eq_error {bits : List Bool} (h : bits.length % 8 ≠ 0) :
    ofBits bits = .error (.unaligned bits.length) := by
  rw [ofBits, zero, checkAligned_eq_error h]
  rfl

end BitRow

namespace BitMatrix

variable {r n c d : ℕ} {a b b' e : BitMatrix} {v : BitRow}

/-! ## Sums -/

/-- The sum row by row. -/
def sum (a b : BitMatrix) : BitMatrix :=
  ⟨(a.rows.zip b.rows).map fun (r, s) => r.sum s, a.cols⟩

theorem add_eq_ok (ha : a.HasShape r c) (hb : b.HasShape r c) : a.add b = .ok (a.sum b) := by
  have hrow : ∀ p ∈ a.rows.zip b.rows, p.1.add p.2 = .ok (p.1.sum p.2) := fun p hp =>
    BitRow.add_eq_ok ((ha.length_row _ (List.of_mem_zip hp).1).trans
      (hb.length_row _ (List.of_mem_zip hp).2).symm)
  rw [add, if_pos (ha.2.trans hb.2.symm), mapM_eq_ok hrow]
  rfl

theorem HasShape.sum (ha : a.HasShape r c) (hb : b.HasShape r c) : (a.sum b).HasShape r c := by
  rw [BitMatrix.sum, ha.cols_eq]
  refine hasShape_mk ha.aligned (by simp [ha.length_rows, hb.length_rows]) fun row hrow => ?_
  obtain ⟨⟨s, t⟩, hmem, rfl⟩ := List.mem_map.mp hrow
  have hs := ha.length_row s (List.of_mem_zip hmem).1
  have ht := hb.length_row t (List.of_mem_zip hmem).2
  exact (BitRow.length_sum (hs.trans ht.symm)).trans hs

theorem toMatrix_sum (ha : a.HasShape r c) (hb : b.HasShape r c) :
    (a.sum b).toMatrix r c = a.toMatrix r c + b.toMatrix r c := by
  refine Matrix.ext_row fun i => ?_
  have hi : (i : ℕ) < a.rows.length := ha.length_rows.symm ▸ i.isLt
  have hi' : (i : ℕ) < b.rows.length := hb.length_rows.symm ▸ i.isLt
  have hlen := (ha.length_row _ (List.getElem_mem hi)).trans
    (hb.length_row _ (List.getElem_mem hi')).symm
  rw [row_toMatrix (by simpa [BitMatrix.sum] using ⟨hi, hi'⟩)]
  simp only [BitMatrix.sum, List.getElem_map, List.getElem_zip]
  rw [BitRow.toVec_sum hlen, ← row_toMatrix hi, ← row_toMatrix hi']
  rfl

/-! ## Products -/

theorem HasShape.product_assoc (ha : a.HasShape r n) (hb : b.HasShape n c) (he : e.HasShape c d) :
    (a.product b).product e = a.product (b.product e) := by
  rw [← toMatrix_inj ((ha.product hb).product he) (ha.product (hb.product he)),
    toMatrix_product (ha.product hb) he, toMatrix_product ha hb,
    toMatrix_product ha (hb.product he), toMatrix_product hb he, Matrix.mul_assoc]

theorem HasShape.product_sum (ha : a.HasShape r n) (hb : b.HasShape n c) (hb' : b'.HasShape n c) :
    a.product (b.sum b') = (a.product b).sum (a.product b') := by
  rw [← toMatrix_inj (ha.product (hb.sum hb')) ((ha.product hb).sum (ha.product hb')),
    toMatrix_product ha (hb.sum hb'), toMatrix_sum hb hb',
    toMatrix_sum (ha.product hb) (ha.product hb'), toMatrix_product ha hb,
    toMatrix_product ha hb', Matrix.mul_add]

theorem HasShape.product_eye (ha : a.HasShape r n) : a.product (eye n) = a := by
  have heye := hasShape_eye ha.aligned
  rw [← toMatrix_inj (ha.product heye) ha, toMatrix_product ha heye, toMatrix_eye ha.aligned,
    Matrix.mul_one]

theorem HasShape.eye_product (ha : a.HasShape r n) (hr : r % 8 = 0) : (eye r).product a = a := by
  have heye := hasShape_eye hr
  rw [← toMatrix_inj (heye.product ha) ha, toMatrix_product heye ha, toMatrix_eye hr,
    Matrix.one_mul]

/-- A bit of a product is the sum over a row and a column. -/
theorem HasShape.entry_product (ha : a.HasShape r n) (hb : b.HasShape n c) {i j : ℕ} (hi : i < r)
    (hj : j < c) :
    (a.product b).entry i j = xorBelow n fun k => a.entry i k && b.entry k j := by
  have hmul := congrFun₂ (toMatrix_product ha hb) ⟨i, hi⟩ ⟨j, hj⟩
  rw [toMatrix_apply, Matrix.mul_apply] at hmul
  rw [← ofBit_inj, ofBit_xorBelow, hmul]
  exact Finset.sum_congr rfl fun k _ => (ofBit_and _ _).symm

/-! ## Application -/

/-- As many bits as there are rows make the result, so their number is checked last. -/
theorem apply_eq_error (ha : a.HasShape r c) (hr : r % 8 ≠ 0) (hv : v.length = c) :
    a.apply v = .error (.unaligned r) := by
  have hdot (row : BitRow) (h : row ∈ a.rows) : row.dot v = .ok (row.product v).parity :=
    BitRow.dot_eq_ok ((ha.length_row row h).trans hv.symm)
  have hlen : (a.rows.map fun row => (row.product v).parity).length = r := by
    rw [List.length_map, ha.length_rows]
  rw [apply, if_pos (hv.trans ha.cols_eq.symm), mapM_eq_ok hdot, ok_bind,
    BitRow.ofBits_eq_error (by rwa [hlen]), hlen]

/-- Applying a product is applying its factors one after the other. -/
theorem HasShape.image_product (ha : a.HasShape r n) (hb : b.HasShape n c) (hr : r % 8 = 0)
    (hv : v.length = c) : (a.product b).image v = a.image (b.image v) := by
  have hab := ha.product hb
  have hmid := length_image hb ha.aligned v
  rw [← BitRow.toVec_inj (length_image hab hr v) (length_image ha hr _), toVec_image hab hr hv,
    toVec_image ha hr hmid, toVec_image hb ha.aligned hv, toMatrix_product ha hb,
    Matrix.mulVec_mulVec]

/-- What applying a product does to a row: it goes through the second factor, and the first factor
decides. -/
structure AppliesInTurn (a b ab : BitMatrix) (r : ℕ) (v : BitRow) : Prop where
  /-- The second factor applies, and the first one makes of its result what the product makes. -/
  apply_eq : ∃ w, b.apply v = .ok w ∧ ab.apply v = a.apply w
  /-- This succeeds when the rows of the product fill whole bytes. -/
  aligned : r % 8 = 0 → ∃ out, ab.apply v = .ok out ∧ out.length = r
  /-- It fails when they do not. -/
  unaligned : r % 8 ≠ 0 → ab.apply v = .error (.unaligned r)

theorem HasShape.appliesInTurn (ha : a.HasShape r n) (hb : b.HasShape n c) (hv : v.length = c) :
    AppliesInTurn a b (a.product b) r v := by
  have hab := ha.product hb
  have hmid := length_image hb ha.aligned v
  refine ⟨⟨b.image v, apply_eq_ok hb ha.aligned hv, ?_⟩, fun hr => ?_, fun hr => ?_⟩
  · by_cases hr : r % 8 = 0
    · rw [apply_eq_ok hab hr hv, apply_eq_ok ha hr hmid, ha.image_product hb hr hv]
    · rw [apply_eq_error hab hr hv, apply_eq_error ha hr hmid]
  · exact ⟨_, apply_eq_ok hab hr hv, length_image hab hr v⟩
  · exact apply_eq_error hab hr hv

/-! ## The laws -/

/-- Composing matrices of fitting shapes is their product, bit by bit and applied to rows. It is
associative, distributes over sums and has the identities as units. -/
theorem compose_laws (ha : a.HasShape r n) (hb : b.HasShape n c) (hb' : b'.HasShape n c)
    (he : e.HasShape c d) : ∃ ab ab' be, a.compose b = .ok ab ∧ a.compose b' = .ok ab' ∧
      b.compose e = .ok be ∧ ab.HasShape r c ∧
      (∀ i < r, ∀ j < c, ab.entry i j = xorBelow n fun k => a.entry i k && b.entry k j) ∧
      (∀ v : BitRow, v.length = c → AppliesInTurn a b ab r v) ∧
      (∃ abe, ab.compose e = .ok abe ∧ a.compose be = .ok abe) ∧
      (∃ s t, b.add b' = .ok s ∧ a.compose s = .ok t ∧ ab.add ab' = .ok t) ∧
      (∃ i, identity n = .ok i ∧ a.compose i = .ok a) ∧
      (r % 8 = 0 → ∃ i, identity r = .ok i ∧ i.compose a = .ok a) := by
  have hab := ha.product hb
  have hab' := ha.product hb'
  have hn := ha.aligned
  refine ⟨_, _, _, compose_eq_ok ha hb, compose_eq_ok ha hb', compose_eq_ok hb he, hab,
    fun i hi j hj => ha.entry_product hb hi hj, fun v hv => ha.appliesInTurn hb hv,
    ⟨_, compose_eq_ok hab he, ?_⟩, ⟨_, _, add_eq_ok hb hb', compose_eq_ok ha (hb.sum hb'), ?_⟩,
    ⟨_, identity_eq_ok hn, ?_⟩, fun hr => ⟨_, identity_eq_ok hr, ?_⟩⟩
  · rw [compose_eq_ok ha (hb.product he), ha.product_assoc hb he]
  · rw [add_eq_ok hab hab', ha.product_sum hb hb']
  · rw [compose_eq_ok ha (hasShape_eye hn), ha.product_eye]
  · rw [compose_eq_ok (hasShape_eye hr) ha, ha.eye_product hr]

/-- Three rows of a byte, which no row can be the image of, and factors of two widths. -/
theorem compose_laws_three :
    let a : BitMatrix := ⟨[⟨#[3]⟩, ⟨#[80]⟩, ⟨#[255]⟩], 8⟩
    let b : BitMatrix := ⟨List.replicate 7 ⟨#[3, 255]⟩ ++ [⟨#[1, 6]⟩], 16⟩
    let e : BitMatrix := ⟨List.replicate 16 ⟨#[9]⟩, 8⟩
    a.HasShape 3 8 ∧ b.HasShape 8 16 ∧ e.HasShape 16 8 ∧
      ∃ ab be abe, a.compose b = .ok ab ∧ b.compose e = .ok be ∧ ab.compose e = .ok abe ∧
        a.compose be = .ok abe ∧ AppliesInTurn a b ab 3 ⟨#[5, 129]⟩ ∧
          ab.entry 1 0 = xorBelow 8 fun k => a.entry 1 k && b.entry k 0 := by
  intro a b e
  have ha : a.HasShape 3 8 := by decide
  have hb : b.HasShape 8 16 := by decide
  have he : e.HasShape 16 8 := by decide
  obtain ⟨ab, -, be, hab, -, hbe, -, hentry, happly, ⟨abe, hleft, hright⟩, -⟩ :=
    compose_laws ha hb hb he
  exact ⟨ha, hb, he, ab, be, abe, hab, hbe, hleft, hright, happly _ rfl,
    hentry 1 (by decide) 0 (by decide)⟩

end BitMatrix

end BitLinear
