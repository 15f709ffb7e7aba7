import BitLinear.Proofs.Matrix

/-!
# Columns as rows

Transposing makes every column a row (`transpose_eq_ok`). The number of rows must fill whole bytes,
and the shape and the entries are then those of the transposed matrix (`HasShape.transposed`,
`toMatrix_transposed`), also when there are no rows or no columns.

What transposing does to a product and to an inner product is read off the entries. The last
statement says of the operations that transposing twice gives the matrix back, that it reverses a
product, and that a matrix moves to the other side of an inner product as its transposed matrix.
-/

open Matrix

namespace BitLinear.BitMatrix

variable {r c d : ℕ} {a b m : BitMatrix} {x y : BitRow}

/-- The matrix whose rows are the columns. -/
def transposed (m : BitMatrix) : BitMatrix :=
  ⟨(List.range m.cols).map fun j => BitRow.pack (m.rows.map (·.testBit j)), m.rows.length⟩

theorem column_eq_ok (hm : m.HasShape r c) (hr : r % 8 = 0) {j : ℕ} (hj : j < c) :
    m.column j = .ok (BitRow.pack (m.rows.map (·.testBit j))) := by
  have hbit (row : BitRow) (h : row ∈ m.rows) : row.getBit j = .ok (row.testBit j) :=
    BitRow.getBit_eq_ok (hj.trans_eq (hm.length_row row h).symm)
  rw [column, mapM_eq_ok hbit]
  exact BitRow.ofBits_eq_ok (by rwa [List.length_map, hm.length_rows])

theorem transpose_eq_ok (hm : m.HasShape r c) (hr : r % 8 = 0) :
    m.transpose = .ok m.transposed := by
  have hcolumn (j : ℕ) (hj : j ∈ List.range m.cols) :
      m.column j = .ok (BitRow.pack (m.rows.map (·.testBit j))) :=
    column_eq_ok hm hr ((List.mem_range.mp hj).trans_eq hm.cols_eq)
  rw [transpose, checkAligned_eq_ok (by rwa [hm.length_rows]), ok_bind, mapM_eq_ok hcolumn]
  rfl

theorem HasShape.transposed (hm : m.HasShape r c) (hr : r % 8 = 0) :
    m.transposed.HasShape c r := by
  rw [BitMatrix.transposed, hm.length_rows]
  refine hasShape_mk hr (by simp [hm.cols_eq]) fun row hrow => ?_
  obtain ⟨j, -, rfl⟩ := List.mem_map.mp hrow
  rw [BitRow.length_pack] <;> simp [hm.length_rows, hr]

theorem toMatrix_transposed (hm : m.HasShape r c) (hr : r % 8 = 0) :
    m.transposed.toMatrix c r = (m.toMatrix r c)ᵀ := by
  ext j i
  have hj : (j : ℕ) < m.transposed.rows.length := (hm.transposed hr).length_rows.symm ▸ j.isLt
  have hi : (i : ℕ) < m.rows.length := hm.length_rows.symm ▸ i.isLt
  have hrow := congrFun (row_toMatrix (r := c) (c := r) hj) i
  rw [Matrix.row_apply] at hrow
  rw [hrow, BitRow.toVec_apply]
  simp only [BitMatrix.transposed, List.getElem_map, List.getElem_range]
  rw [BitRow.testBit_pack (by rwa [List.length_map, hm.length_rows]), Matrix.transpose_apply,
    toMatrix_apply, entry, List.getD_eq_getElem _ _ (by simpa using hi), List.getElem_map,
    List.getD_eq_getElem _ _ hi]

theorem HasShape.entry_transposed (hm : m.HasShape r c) (hr : r % 8 = 0) {i j : ℕ} (hi : i < r)
    (hj : j < c) : m.transposed.entry j i = m.entry i j := by
  have hentry := congrFun₂ (toMatrix_transposed hm hr) ⟨j, hj⟩ ⟨i, hi⟩
  rwa [Matrix.transpose_apply, toMatrix_apply, toMatrix_apply, ofBit_inj] at hentry

/-! ## The laws -/

theorem HasShape.transposed_transposed (hm : m.HasShape r c) (hr : r % 8 = 0) :
    m.transposed.transposed = m := by
  have ht := hm.transposed hr
  rw [← toMatrix_inj (ht.transposed hm.aligned) hm, toMatrix_transposed ht hm.aligned,
    toMatrix_transposed hm hr, Matrix.transpose_transpose]

theorem HasShape.transposed_product (ha : a.HasShape r c) (hr : r % 8 = 0) (hb : b.HasShape c d) :
    (a.product b).transposed = b.transposed.product a.transposed := by
  have hab := ha.product hb
  have hta := ha.transposed hr
  have htb := hb.transposed ha.aligned
  rw [← toMatrix_inj (hab.transposed hr) (htb.product hta), toMatrix_transposed hab hr,
    toMatrix_product ha hb, toMatrix_product htb hta, toMatrix_transposed hb ha.aligned,
    toMatrix_transposed ha hr, Matrix.transpose_mul]

/-- Inner products with an image are inner products with an image of the transposed matrix. -/
theorem HasShape.parity_image_product (hm : m.HasShape r c) (hr : r % 8 = 0) (hx : x.length = c)
    (hy : y.length = r) :
    ((m.image x).product y).parity = (x.product (m.transposed.image y)).parity := by
  have ht := hm.transposed hr
  rw [← ofBit_inj, ofBit_parity_product (length_image hm hr x) hy,
    ofBit_parity_product hx (length_image ht hm.aligned y), toVec_image hm hr hx,
    toVec_image ht hm.aligned hy, toMatrix_transposed hm hr, Matrix.dotProduct_mulVec,
    Matrix.vecMul_transpose]

/-- Transposing swaps the size and the entries, and twice it gives the matrix back. A product is
transposed to the product of the transposed factors in reverse order, and in an inner product a
matrix goes over to the other row as its transposed matrix. -/
theorem transpose_laws (ha : a.HasShape r c) (hr : r % 8 = 0) (hb : b.HasShape c d) :
    ∃ t u ab v, a.transpose = .ok t ∧ b.transpose = .ok u ∧ a.compose b = .ok ab ∧
      t.HasShape c r ∧ (∀ i < r, ∀ j < c, t.entry j i = a.entry i j) ∧ t.transpose = .ok a ∧
      ab.transpose = .ok v ∧ u.compose t = .ok v ∧
      ∀ x y : BitRow, x.length = c → y.length = r → ∃ p q bit, a.apply x = .ok p ∧
        t.apply y = .ok q ∧ p.dot y = .ok bit ∧ x.dot q = .ok bit := by
  have hc := ha.aligned
  have ht := ha.transposed hr
  have hu := hb.transposed hc
  refine ⟨_, _, _, _, transpose_eq_ok ha hr, transpose_eq_ok hb hc, compose_eq_ok ha hb, ht,
    fun i hi j hj => ha.entry_transposed hr hi hj, ?_, transpose_eq_ok (ha.product hb) hr, ?_,
    fun x y hx hy => ⟨_, _, _, apply_eq_ok ha hr hx, apply_eq_ok ht hc hy,
      BitRow.dot_eq_ok ((length_image ha hr x).trans hy.symm), ?_⟩⟩
  · rw [transpose_eq_ok ht hc, ha.transposed_transposed hr]
  · rw [compose_eq_ok hu ht, ha.transposed_product hr hb]
  · rw [BitRow.dot_eq_ok (hx.trans (length_image ht hc y).symm), ha.parity_image_product hr hx hy]

/-- Eight rows of two bytes, and sixteen rows of three. -/
theorem transpose_laws_eight :
    let a : BitMatrix := ⟨List.replicate 7 ⟨#[6, 129]⟩ ++ [⟨#[255, 8]⟩], 16⟩
    let b : BitMatrix := ⟨List.replicate 15 ⟨#[1, 0, 77]⟩ ++ [⟨#[3, 96, 255]⟩], 24⟩
    a.HasShape 8 16 ∧ b.HasShape 16 24 ∧ ∃ t u ab v, a.transpose = .ok t ∧ b.transpose = .ok u ∧
      a.compose b = .ok ab ∧ t.HasShape 16 8 ∧ t.transpose = .ok a ∧ ab.transpose = .ok v ∧
      u.compose t = .ok v ∧ ∃ p q bit, a.apply ⟨#[5, 129]⟩ = .ok p ∧ t.apply ⟨#[131]⟩ = .ok q ∧
        p.dot ⟨#[131]⟩ = .ok bit ∧ BitRow.dot ⟨#[5, 129]⟩ q = .ok bit := by
  intro a b
  have ha : a.HasShape 8 16 := by decide
  have hb : b.HasShape 16 24 := by decide
  obtain ⟨t, u, ab, v, hta, htb, hab, ht, -, hback, hv, hrev, hdot⟩ := transpose_laws ha rfl hb
  exact ⟨ha, hb, t, u, ab, v, hta, htb, hab, ht, hback, hv, hrev, hdot _ _ rfl rfl⟩

/-- The width of a matrix without rows becomes a number of rows without bits, and the other way
round. -/
example : transpose ⟨[], 8⟩ = .ok ⟨List.replicate 8 ⟨#[]⟩, 0⟩ ∧
    transpose ⟨List.replicate 8 ⟨#[]⟩, 0⟩ = .ok ⟨[], 8⟩ := by decide

end BitLinear.BitMatrix
