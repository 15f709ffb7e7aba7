import BitLinear.BitMatrix.Basic
import BitLinear.Proofs.Vector
import Mathlib.Data.List.GetD
import Mathlib.Data.Matrix.Mul

/-!
# Bit matrices as matrices over the field of two elements

`HasShape m r c` says that `m` is well formed and has `r` rows and `c` columns, and `toMatrix r c`
reads its entries; a row past the end is zero. Matrices of one shape with the same entries are
equal (`toMatrix_inj`). On matrices of fitting shapes composing is the matrix product
(`compose_eq_ok`, `toMatrix_product`), the identity is the unit matrix (`toMatrix_eye`), and
applying to a row is the product with a vector (`apply_eq_ok`, `toVec_image`).
-/

open Matrix

namespace BitLinear

/-! ## Combinations of rows -/

namespace BitRow

variable {n : ℕ}

theorem toVec_foldl_select (selector : BitRow) :
    ∀ (rows : List BitRow) (k : ℕ) (start : BitRow), start.length = n →
      (∀ row ∈ rows, row.length = n) →
      ((rows.zipIdx k).foldl (select selector) start).toVec n = start.toVec n +
        ∑ i ∈ Finset.range rows.length,
          ofBit (selector.testBit (k + i)) • (rows.getD i ⟨#[]⟩).toVec n
  | [], _, _, _, _ => by simp
  | row :: rows, k, start, hstart, hrows => by
    obtain ⟨hrow, hrest⟩ := List.forall_mem_cons.mp hrows
    have hlen : (select selector start (row, k)).length = n := by
      unfold select
      split
      · rw [length_sum (hstart.trans hrow.symm), hstart]
      · exact hstart
    have hvec : (select selector start (row, k)).toVec n =
        start.toVec n + ofBit (selector.testBit k) • row.toVec n := by
      unfold select
      cases selector.testBit k
      · simp
      · simp [toVec_sum (hstart.trans hrow.symm)]
    rw [List.zipIdx_cons, List.foldl_cons,
      toVec_foldl_select selector rows (k + 1) _ hlen hrest, hvec,
      List.length_cons, Finset.sum_range_succ', add_assoc]
    congr 1
    rw [add_comm]
    simp [Nat.add_assoc, Nat.add_comm 1]

end BitRow

namespace BitMatrix

/-- A well-formed matrix with `r` rows and `c` columns. -/
def HasShape (m : BitMatrix) (r c : ℕ) : Prop :=
  m.WellFormed ∧ m.size = (r, c)

instance (m : BitMatrix) (r c : ℕ) : Decidable (m.HasShape r c) :=
  inferInstanceAs (Decidable (_ ∧ _))

/-- The entries of the first `r` rows and `c` columns. -/
def toMatrix (r c : ℕ) (m : BitMatrix) : Matrix (Fin r) (Fin c) (ZMod 2) :=
  Matrix.of fun i => (m.rows.getD i ⟨#[]⟩).toVec c

variable {r c d n : ℕ} {a b m : BitMatrix}

/-! ## Shapes and entries -/

theorem WellFormed.hasShape (hm : m.WellFormed) : m.HasShape m.rows.length m.cols :=
  ⟨hm, rfl⟩

theorem WellFormed.hasShape_square (hm : m.WellFormed) (hsquare : m.rows.length = m.cols) :
    m.HasShape m.cols m.cols :=
  ⟨hm, by rw [size, hsquare]⟩

theorem HasShape.length_rows (h : m.HasShape r c) : m.rows.length = r :=
  congrArg Prod.fst h.2

theorem HasShape.cols_eq (h : m.HasShape r c) : m.cols = c :=
  congrArg Prod.snd h.2

theorem HasShape.aligned (h : m.HasShape r c) : c % 8 = 0 :=
  h.cols_eq ▸ h.1.1

theorem HasShape.length_row (h : m.HasShape r c) : ∀ row ∈ m.rows, row.length = c :=
  fun row hrow => (h.1.2 row hrow).trans h.cols_eq

theorem hasShape_mk {rows : List BitRow} (hc : c % 8 = 0) (hr : rows.length = r)
    (h : ∀ row ∈ rows, row.length = c) : (⟨rows, c⟩ : BitMatrix).HasShape r c :=
  ⟨⟨hc, h⟩, by rw [size, hr]⟩

theorem HasShape.checkSquare_eq_ok (h : m.HasShape n n) : m.checkSquare = .ok n := by
  rw [checkSquare, if_pos (h.length_rows.trans h.cols_eq.symm), h.cols_eq]

theorem checkSquare_eq_error (h : m.rows.length ≠ m.cols) :
    m.checkSquare = .error (.notSquare m.rows.length m.cols) :=
  if_neg h

theorem toMatrix_apply (m : BitMatrix) (i : Fin r) (j : Fin c) :
    m.toMatrix r c i j = ofBit (m.entry i j) :=
  rfl

theorem row_toMatrix {i : Fin r} (hi : (i : ℕ) < m.rows.length) :
    (m.toMatrix r c).row i = m.rows[(i : ℕ)].toVec c := by
  rw [← List.getD_eq_getElem _ ⟨#[]⟩ hi]
  rfl

theorem row_toMatrix_eq_get (m : BitMatrix) (c : ℕ) :
    (m.toMatrix m.rows.length c).row = fun i => (m.rows.get i).toVec c :=
  funext fun i => row_toMatrix i.isLt

theorem row_toMatrix_of_le {i : Fin r} (h : m.rows.length ≤ i) : (m.toMatrix r c).row i = 0 := by
  ext j
  rw [Matrix.row_apply, toMatrix_apply, entry, List.getD_eq_default _ _ h,
    BitRow.testBit_eq_false _ (Nat.zero_le _)]
  rfl

/-- One more row adds to a product what the selector takes of it. -/
theorem vecMul_toMatrix_append {rows : List BitRow} (hr : rows.length < r) (row : BitRow)
    (v : Fin r → ZMod 2) : v ᵥ* toMatrix r c ⟨rows ++ [row], d⟩ =
      v ᵥ* toMatrix r c ⟨rows, d⟩ + bitAt r rows.length v • row.toVec c := by
  have hrow (i : Fin r) : (toMatrix r c ⟨rows ++ [row], d⟩).row i =
      (toMatrix r c ⟨rows, d⟩).row i + if i = ⟨rows.length, hr⟩ then row.toVec c else 0 := by
    rcases lt_trichotomy (i : ℕ) rows.length with hlt | heq | hgt
    · rw [row_toMatrix (m := ⟨rows, d⟩) hlt, row_toMatrix (by simp; omega),
        if_neg (by simp [Fin.ext_iff, hlt.ne]), add_zero]
      simp [hlt]
    · rw [row_toMatrix_of_le (m := ⟨rows, d⟩) heq.ge, row_toMatrix (by simp [heq]),
        if_pos (Fin.ext heq), zero_add]
      simp [heq]
    · rw [row_toMatrix_of_le (m := ⟨rows, d⟩) hgt.le, row_toMatrix_of_le (by simp; omega),
        if_neg (by simp [Fin.ext_iff, hgt.ne']), add_zero]
  have hbit : bitAt r rows.length v = v ⟨rows.length, hr⟩ := bitAt_val ⟨rows.length, hr⟩ v
  rw [Matrix.vecMul_eq_sum, Matrix.vecMul_eq_sum, hbit]
  change ∑ i, v i • (toMatrix r c ⟨rows ++ [row], d⟩).row i =
    ∑ i, v i • (toMatrix r c ⟨rows, d⟩).row i + _
  simp only [hrow, smul_add, smul_ite, smul_zero, Finset.sum_add_distrib, Finset.sum_ite_eq',
    Finset.mem_univ, if_true]

theorem toMatrix_inj (ha : a.HasShape r c) (hb : b.HasShape r c) :
    a.toMatrix r c = b.toMatrix r c ↔ a = b := by
  refine ⟨?_, ?_⟩
  · intro h
    have hcols : a.cols = b.cols := ha.cols_eq.trans hb.cols_eq.symm
    have hrows : a.rows = b.rows := by
      refine List.ext_getElem (ha.length_rows.trans hb.length_rows.symm) fun i hi hi' => ?_
      have hrow := congrArg (fun M => Matrix.row M ⟨i, ha.length_rows ▸ hi⟩) h
      rw [row_toMatrix hi, row_toMatrix hi'] at hrow
      exact (BitRow.toVec_inj (ha.length_row _ (List.getElem_mem hi))
        (hb.length_row _ (List.getElem_mem hi'))).mp hrow
    cases a
    cases b
    simp_all
  · rintro rfl
    rfl

theorem HasShape.eq_of_rows_eq (ha : a.HasShape r c) (hb : b.HasShape r c)
    (h : a.rows = b.rows) : a = b :=
  (toMatrix_inj ha hb).mp (by rw [toMatrix, toMatrix, h])

/-! ## The identity -/

/-- The square matrix with ones on the diagonal. -/
def eye (n : ℕ) : BitMatrix :=
  ⟨(List.range n).map (BitRow.unitRow n), n⟩

theorem identity_eq_ok (hn : n % 8 = 0) : identity n = .ok (eye n) := by
  rw [identity, checkAligned_eq_ok hn, ok_bind,
    mapM_eq_ok fun i hi => BitRow.unit_eq_ok hn (List.mem_range.mp hi)]
  rfl

theorem hasShape_eye (hn : n % 8 = 0) : (eye n).HasShape n n := by
  refine hasShape_mk hn (by simp) fun row hrow => ?_
  obtain ⟨i, -, rfl⟩ := List.mem_map.mp hrow
  exact BitRow.length_unitRow hn i

theorem toMatrix_eye (hn : n % 8 = 0) : (eye n).toMatrix n n = 1 := by
  refine Matrix.ext_row fun i => ?_
  rw [row_toMatrix (by simp [eye])]
  simp only [eye, List.getElem_map, List.getElem_range]
  rw [BitRow.toVec_unitRow hn]
  ext j
  exact Matrix.one_eq_pi_single.symm

/-! ## Products -/

/-- A combination of rows is the product of the selector with their matrix. -/
theorem toVec_combination {selector : BitRow} {rows : List BitRow} (hc : c % 8 = 0)
    (hr : rows.length ≤ r) (hrows : ∀ row ∈ rows, row.length = c) :
    (selector.combination rows c).toVec c = selector.toVec r ᵥ* toMatrix r c ⟨rows, c⟩ := by
  rw [BitRow.combination, BitRow.toVec_foldl_select _ _ _ _ (BitRow.length_zeros hc) hrows,
    BitRow.toVec_zeros, zero_add]
  have hsub : Finset.range rows.length ⊆ Finset.range r := Finset.range_subset_range.mpr hr
  rw [Finset.sum_subset hsub, Finset.sum_range, Matrix.vecMul_eq_sum]
  · exact Finset.sum_congr rfl fun i _ => by rw [Nat.zero_add]; rfl
  · intro i hi hout
    have hle : rows.length ≤ i := Nat.le_of_not_lt fun h => hout (Finset.mem_range.mpr h)
    have hzero : (rows.getD i ⟨#[]⟩).toVec c = 0 :=
      row_toMatrix_of_le (m := ⟨rows, c⟩) (i := ⟨i, Finset.mem_range.mp hi⟩) hle
    rw [hzero, smul_zero]

/-- Each row selects rows of `b`. -/
def product (a b : BitMatrix) : BitMatrix :=
  ⟨a.rows.map (·.combination b.rows b.cols), b.cols⟩

theorem compose_eq_ok (ha : a.HasShape r c) (hb : b.HasShape c d) :
    a.compose b = .ok (a.product b) := by
  have hrow (row : BitRow) (h : row ∈ a.rows) :
      row.combine b.rows b.cols = .ok (row.combination b.rows b.cols) := by
    have hlen : b.rows.length ≤ row.length := (hb.length_rows.trans (ha.length_row row h).symm).le
    exact (BitRow.combine_eq_ok hb.1.1 hlen hb.1.2).1
  rw [compose, if_pos (ha.cols_eq.trans hb.length_rows.symm), mapM_eq_ok hrow]
  rfl

theorem HasShape.product (ha : a.HasShape r c) (hb : b.HasShape c d) :
    (a.product b).HasShape r d := by
  refine ⟨⟨hb.1.1, fun row hrow => ?_⟩, ?_⟩
  · obtain ⟨selector, hs, rfl⟩ := List.mem_map.mp hrow
    have hlen : b.rows.length ≤ selector.length :=
      (hb.length_rows.trans (ha.length_row selector hs).symm).le
    exact (BitRow.combine_eq_ok hb.1.1 hlen hb.1.2).2
  · simp [size, BitMatrix.product, ha.length_rows, hb.cols_eq]

theorem toMatrix_product (ha : a.HasShape r c) (hb : b.HasShape c d) :
    (a.product b).toMatrix r d = a.toMatrix r c * b.toMatrix c d := by
  refine Matrix.ext_row fun i => ?_
  have hi : (i : ℕ) < a.rows.length := ha.length_rows.symm ▸ i.isLt
  have hb' : (⟨b.rows, d⟩ : BitMatrix) = b := by rw [← hb.cols_eq]
  rw [row_toMatrix (by simpa [BitMatrix.product])]
  simp only [BitMatrix.product, List.getElem_map, hb.cols_eq]
  rw [toVec_combination hb.aligned hb.length_rows.le hb.length_row, hb', ← row_toMatrix hi]
  exact (Matrix.mul_apply_eq_vecMul _ _ i).symm

/-! ## Application -/

/-- The inner products of the rows with a row. -/
def image (m : BitMatrix) (input : BitRow) : BitRow :=
  BitRow.pack (m.rows.map fun row => (row.product input).parity)

theorem apply_eq_ok (hm : m.HasShape r c) (hr : r % 8 = 0) {v : BitRow} (hv : v.length = c) :
    m.apply v = .ok (m.image v) := by
  have hdot (row : BitRow) (h : row ∈ m.rows) : row.dot v = .ok (row.product v).parity :=
    BitRow.dot_eq_ok ((hm.length_row row h).trans hv.symm)
  rw [apply, if_pos (hv.trans hm.cols_eq.symm), mapM_eq_ok hdot]
  exact BitRow.ofBits_eq_ok (by rw [List.length_map, hm.length_rows, hr])

theorem length_image (hm : m.HasShape r c) (hr : r % 8 = 0) (v : BitRow) :
    (m.image v).length = r := by
  rw [image, BitRow.length_pack] <;> simp [hm.length_rows, hr]

theorem ofBit_parity_product {v w : BitRow} (hv : v.length = c) (hw : w.length = c) :
    ofBit (v.product w).parity = v.toVec c ⬝ᵥ w.toVec c := by
  have hlen := BitRow.length_product (hv.trans hw.symm)
  rw [BitRow.ofBit_parity (hlen.trans hv), dotProduct]
  refine Finset.sum_congr rfl fun j _ => ?_
  rw [BitRow.toVec_apply, BitRow.testBit_product (hv.trans hw.symm), ofBit_and]
  rfl

theorem toVec_image (hm : m.HasShape r c) (hr : r % 8 = 0) {v : BitRow} (hv : v.length = c) :
    (m.image v).toVec r = m.toMatrix r c *ᵥ v.toVec c := by
  ext i
  have hi : (i : ℕ) < m.rows.length := hm.length_rows.symm ▸ i.isLt
  have hrow := hm.length_row _ (List.getElem_mem hi)
  rw [BitRow.toVec_apply, image, BitRow.testBit_pack (by rw [List.length_map, hm.length_rows, hr]),
    List.getD_eq_getElem _ _ (by simpa using hi), List.getElem_map, ofBit_parity_product hrow hv,
    ← row_toMatrix hi]
  rfl

end BitMatrix

end BitLinear
