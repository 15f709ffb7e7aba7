import BitLinear.Proofs.Elimination

/-!
# Inversion answers exactly on the invertible matrices

The loop over the columns keeps the invariant of the elimination or stops at a vector that the
matrix maps to zero (`afterColumns_cases`). After the last column the vectors are the identity, so
the coefficients are a left inverse, and with it the inverse : `invert_eq_some_iff`,
`invert_eq_none_iff` and `exists_invert_iff` say what the inversion answers without its steps.
-/

open Matrix

namespace BitLinear

namespace Elimination

variable {m : BitMatrix} {n k : ℕ} {rows : Array TrackedRow}

/-! ## The loop -/

theorem step_eq_none (hfind : findPivot rows k = .ok none) : step rows k = .ok none := by
  rw [step, hfind]
  rfl

theorem step_eq_some {pivot : ℕ} {swapped out : Array TrackedRow}
    (hfind : findPivot rows k = .ok (some pivot)) (hswap : swap rows pivot k = .ok swapped)
    (hclear : clearColumn swapped k = .ok out) : step rows k = .ok (some out) := by
  rw [step, hfind, ok_bind]
  dsimp only
  rw [hswap, ok_bind, hclear]
  rfl

/-- No row at or below the diagonal has the bit of the column, or one that has it is exchanged with
the row on the diagonal. -/
theorem Invariant.pivot_cases (h : Invariant m n k rows) (hk : k < n) :
    (findPivot rows k = .ok none ∧
        ∀ i, k ≤ i → i < n → (getRow rows i).vector.testBit k = false) ∨
      ∃ pivot swapped, findPivot rows k = .ok (some pivot) ∧ swap rows pivot k = .ok swapped ∧
        Invariant m n k swapped ∧ (getRow swapped k).vector.testBit k = true := by
  have hfind := findPivot_eq_ok h.isSquare hk
  cases hpivot : (List.range' k (n - k)).find? fun i => (getRow rows i).vector.testBit k with
  | none =>
    rw [hpivot] at hfind
    refine Or.inl ⟨hfind, fun i hki hin => ?_⟩
    have hmem : i ∈ List.range' k (n - k) := List.mem_range'_1.mpr ⟨hki, by omega⟩
    simpa using List.find?_eq_none.mp hpivot i hmem
  | some pivot =>
    rw [hpivot] at hfind
    have hbit : (getRow rows pivot).vector.testBit k = true := by
      simpa using List.find?_some hpivot
    obtain ⟨hkp, hlt⟩ := List.mem_range'_1.mp (List.mem_of_find?_eq_some hpivot)
    have hpn : pivot < n := by omega
    obtain ⟨swapped, hswap, hsquare, hget⟩ := swap_eq_ok h.isSquare hpn hk
    refine Or.inr ⟨pivot, swapped, hfind, hswap, h.exchange hsquare hpn hk hkp le_rfl hget, ?_⟩
    rw [hget, Equiv.swap_apply_right, hbit]

/-- One column is finished, or there is no pivot for it. -/
theorem Invariant.step_cases (h : Invariant m n k rows) (hk : k < n) :
    (∃ out, step rows k = .ok (some out) ∧ Invariant m n (k + 1) out) ∨
      step rows k = .ok none ∧ ∃ v : Fin n → ZMod 2, v ≠ 0 ∧ m.toMatrix n n *ᵥ v = 0 := by
  rcases h.pivot_cases hk with ⟨hfind, hnone⟩ | ⟨pivot, swapped, hfind, hswap, hinv, hbit⟩
  · exact Or.inr ⟨step_eq_none hfind, h.exists_kernel hk hnone⟩
  · obtain ⟨out, hclear, hsquare, hget⟩ := clearColumn_eq_ok hinv.isSquare hk
    exact Or.inl ⟨out, step_eq_some hfind hswap hclear, hinv.clear hsquare hk hbit hget⟩

/-- The loop keeps the invariant, or stops at a vector that the matrix maps to zero. -/
theorem afterColumns_cases (h : Invariant m n 0 rows) : ∀ {k : ℕ}, k ≤ n →
    (∃ out, afterColumns rows k = .ok (some out) ∧ Invariant m n k out) ∨
      afterColumns rows k = .ok none ∧ ∃ v : Fin n → ZMod 2, v ≠ 0 ∧ m.toMatrix n n *ᵥ v = 0
  | 0, _ => Or.inl ⟨rows, rfl, h⟩
  | k + 1, hk => by
    rcases afterColumns_cases h (Nat.le_of_succ_le hk) with ⟨out, hout, hinv⟩ | ⟨hnone, hker⟩
    · rw [afterColumns, hout]
      exact hinv.step_cases (Nat.lt_of_succ_le hk)
    · refine Or.inr ⟨?_, hker⟩
      rw [afterColumns, hnone]
      rfl

/-- The rows before the first column. -/
theorem start_eq_ok (hm : m.HasShape n n) :
    ∃ rows, start m = .ok rows ∧ Invariant m n 0 rows := by
  have hn := hm.aligned
  have hlen := hm.length_rows
  let rows := (List.zipWith TrackedRow.mk m.rows (BitMatrix.eye n).rows).toArray
  have hsize : rows.size = n := by simp [rows, BitMatrix.eye, hlen]
  have hget (i : ℕ) (hi : i < m.rows.length) :
      getRow rows i = ⟨m.rows[i], BitRow.unitRow n i⟩ := by
    have hin : i < n := hlen ▸ hi
    simp [getRow, rows, BitMatrix.eye, hlen, hin]
  have hleft : (left n rows).toMatrix n n = m.toMatrix n n := by
    ext i j
    have hi : (i : ℕ) < m.rows.length := hlen.symm ▸ i.isLt
    rw [left_apply, hget i hi]
    exact (congrFun (BitMatrix.row_toMatrix hi) j).symm
  have hright : (right n rows).toMatrix n n = 1 := by
    ext i j
    have hi : (i : ℕ) < m.rows.length := hlen.symm ▸ i.isLt
    rw [right_apply, hget i hi, BitRow.toVec_unitRow hn, Matrix.one_eq_pi_single]
  refine ⟨rows, ?_, ⟨hsize, fun i hi => ?_⟩, ?_, ?_, fun i j hj => absurd hj (Nat.not_lt_zero _)⟩
  · rw [start, hlen, BitMatrix.identity_eq_ok hn]
    rfl
  · rw [hget i (hlen.symm ▸ hi)]
    exact ⟨hm.length_row _ (List.getElem_mem _), BitRow.length_unitRow hn i⟩
  · rw [hright, hleft, Matrix.one_mul]
  · rw [hright]
    exact isUnit_one

end Elimination

namespace BitMatrix

variable {a b m : BitMatrix} {n r c : ℕ}

/-! ## The answer -/

theorem invert_cases (hm : m.HasShape n n) :
    (∃ b, m.invert = .ok (some b) ∧ b.HasShape n n ∧ b.toMatrix n n * m.toMatrix n n = 1) ∨
      m.invert = .ok none ∧ ∃ v : Fin n → ZMod 2, v ≠ 0 ∧ m.toMatrix n n *ᵥ v = 0 := by
  obtain ⟨rows, hstart, hinv⟩ := Elimination.start_eq_ok hm
  rw [invert, hm.checkSquare_eq_ok, ok_bind, hstart, ok_bind]
  rcases Elimination.afterColumns_cases hinv le_rfl with ⟨out, hout, hlast⟩ | ⟨hnone, hker⟩
  · refine Or.inl ⟨Elimination.right n out, by rw [hout]; rfl,
      hlast.isSquare.hasShape_right hm.aligned, ?_⟩
    rw [hlast.mul_eq, hlast.finished.eq_one]
  · exact Or.inr ⟨by rw [hnone]; rfl, hker⟩

/-- A singular matrix has no inverse on either side. -/
theorem not_isUnit_of_mulVec_eq_zero {M : Matrix (Fin n) (Fin n) (ZMod 2)} {v : Fin n → ZMod 2}
    (hv : v ≠ 0) (hzero : M *ᵥ v = 0) : ¬IsUnit M := fun hunit =>
  hv (Matrix.mulVec_injective_of_isUnit hunit (hzero.trans (Matrix.mulVec_zero M).symm))

theorem invert_eq_some_iff (hm : m.HasShape n n) : m.invert = .ok (some b) ↔
    b.HasShape n n ∧ b.toMatrix n n * m.toMatrix n n = 1 := by
  refine ⟨?_, ?_⟩
  · intro h
    rcases invert_cases hm with ⟨b', hb', hshape, hmul⟩ | ⟨hnone, -⟩
    · obtain rfl : b' = b := by simpa using hb'.symm.trans h
      exact ⟨hshape, hmul⟩
    · simp [hnone] at h
  · rintro ⟨hshape, hmul⟩
    have hunit : IsUnit (m.toMatrix n n) := IsUnit.of_mul_eq_one_right _ hmul
    rcases invert_cases hm with ⟨b', hb', hshape', hmul'⟩ | ⟨-, v, hv, hzero⟩
    · have heq : b'.toMatrix n n = b.toMatrix n n :=
        hunit.mul_right_cancel (hmul'.trans hmul.symm)
      rw [hb', (toMatrix_inj hshape' hshape).mp heq]
    · exact absurd hunit (not_isUnit_of_mulVec_eq_zero hv hzero)

theorem invert_eq_none_iff (hm : m.HasShape n n) :
    m.invert = .ok none ↔ ¬IsUnit (m.toMatrix n n) := by
  refine ⟨?_, ?_⟩
  · intro h
    rcases invert_cases hm with ⟨b, hb, -, -⟩ | ⟨-, v, hv, hzero⟩
    · simp [hb] at h
    · exact not_isUnit_of_mulVec_eq_zero hv hzero
  · intro hunit
    rcases invert_cases hm with ⟨b, -, -, hmul⟩ | ⟨hnone, -⟩
    · exact absurd (IsUnit.of_mul_eq_one_right _ hmul) hunit
    · exact hnone

theorem exists_invert_iff (hm : m.HasShape n n) :
    (∃ b, m.invert = .ok (some b)) ↔ IsUnit (m.toMatrix n n) := by
  rcases invert_cases hm with ⟨b, hb, -, hmul⟩ | ⟨hnone, v, hv, hzero⟩
  · exact ⟨fun _ => IsUnit.of_mul_eq_one_right _ hmul, fun _ => ⟨b, hb⟩⟩
  · simp [hnone, not_isUnit_of_mulVec_eq_zero hv hzero]

/-- A product is the identity exactly when the matrices are inverse to each other. -/
theorem compose_eq_eye_iff (ha : a.HasShape n n) (hb : b.HasShape n n) :
    a.compose b = .ok (eye n) ↔ a.toMatrix n n * b.toMatrix n n = 1 := by
  have hn := ha.aligned
  rw [compose_eq_ok ha hb, Except.ok.injEq, ← toMatrix_inj (ha.product hb) (hasShape_eye hn),
    toMatrix_product ha hb, toMatrix_eye hn]

/-- A matrix and its inverse cancel both ways. -/
theorem HasShape.compose_inverse (hm : m.HasShape n n) (hinv : m.invert = .ok (some b)) :
    m.compose b = .ok (eye n) ∧ b.compose m = .ok (eye n) := by
  obtain ⟨hb, hmul⟩ := (invert_eq_some_iff hm).mp hinv
  exact ⟨(compose_eq_eye_iff hm hb).mpr (mul_eq_one_symm hmul), (compose_eq_eye_iff hb hm).mpr hmul⟩

theorem apply_eq_zeros_iff (hm : m.HasShape r c) (hr : r % 8 = 0) {v : BitRow}
    (hv : v.length = c) :
    m.apply v = .ok (BitRow.zeros r) ↔ m.toMatrix r c *ᵥ v.toVec c = 0 := by
  rw [apply_eq_ok hm hr hv, Except.ok.injEq,
    ← BitRow.toVec_inj (length_image hm hr v) (BitRow.length_zeros hr), toVec_image hm hr hv,
    BitRow.toVec_zeros]

/-- A matrix maps some row that is not zero to the zero row exactly when it is singular. -/
theorem exists_apply_eq_zeros_iff (hm : m.HasShape n n) :
    (∃ v : BitRow, v.length = n ∧ v ≠ BitRow.zeros n ∧ m.apply v = .ok (BitRow.zeros n)) ↔
      ¬IsUnit (m.toMatrix n n) := by
  have hn := hm.aligned
  have hne (v : BitRow) (hv : v.length = n) : v ≠ BitRow.zeros n ↔ v.toVec n ≠ 0 := by
    rw [Ne, ← BitRow.toVec_inj hv (BitRow.length_zeros hn), BitRow.toVec_zeros]
  refine ⟨?_, ?_⟩
  · rintro ⟨v, hv, hvne, hzero⟩
    exact not_isUnit_of_mulVec_eq_zero ((hne v hv).mp hvne) ((apply_eq_zeros_iff hm hn hv).mp hzero)
  · intro hunit
    obtain ⟨v, hv, hzero⟩ : ∃ v : Fin n → ZMod 2, v ≠ 0 ∧ m.toMatrix n n *ᵥ v = 0 := by
      rcases invert_cases hm with ⟨b, -, -, hmul⟩ | ⟨-, hker⟩
      · exact absurd (IsUnit.of_mul_eq_one_right _ hmul) hunit
      · exact hker
    have hlen := BitRow.length_ofVec hn v
    have hvec := BitRow.toVec_ofVec hn v
    exact ⟨BitRow.ofVec v, hlen, (hne _ hlen).mpr (hvec.symm ▸ hv),
      (apply_eq_zeros_iff hm hn hlen).mpr (hvec.symm ▸ hzero)⟩

/-- Inversion answers with a two-sided inverse, or with none for the matrices that map some row
other than zero to the zero row, which are those that no matrix inverts. -/
theorem invert_two_sided_or_singular (hm : m.HasShape n n) :
    identity n = .ok (eye n) ∧ BitRow.zero n = .ok (BitRow.zeros n) ∧
      ((∃ b, m.invert = .ok (some b) ∧ b.HasShape n n ∧
        m.compose b = .ok (eye n) ∧ b.compose m = .ok (eye n)) ∨ m.invert = .ok none) ∧
      (m.invert = .ok none ↔ ∃ v : BitRow, v.length = n ∧ v ≠ BitRow.zeros n ∧
        m.apply v = .ok (BitRow.zeros n)) ∧
      (m.invert = .ok none ↔ ¬∃ c : BitMatrix, c.HasShape n n ∧ m.compose c = .ok (eye n)) := by
  refine ⟨identity_eq_ok hm.aligned, BitRow.zero_eq_ok hm.aligned, ?_, ?_, ?_⟩
  · rcases invert_cases hm with ⟨b, hb, hshape, hmul⟩ | ⟨hnone, -⟩
    · refine Or.inl ⟨b, hb, hshape, ?_, (compose_eq_eye_iff hshape hm).mpr hmul⟩
      exact (compose_eq_eye_iff hm hshape).mpr (mul_eq_one_symm hmul)
    · exact Or.inr hnone
  · rw [invert_eq_none_iff hm, exists_apply_eq_zeros_iff hm]
  · rw [invert_eq_none_iff hm, not_iff_not]
    refine ⟨?_, ?_⟩
    · intro hunit
      obtain ⟨b, hb⟩ := (exists_invert_iff hm).mpr hunit
      obtain ⟨hshape, hmul⟩ := (invert_eq_some_iff hm).mp hb
      exact ⟨b, hshape, (compose_eq_eye_iff hm hshape).mpr (mul_eq_one_symm hmul)⟩
    · rintro ⟨c, hc, hmul⟩
      exact IsUnit.of_mul_eq_one _ ((compose_eq_eye_iff hm hc).mp hmul)

/-- Eight rows of which the last is the sum of the others map some row to zero. -/
theorem invert_dependent_eight :
    let m : BitMatrix :=
      ⟨[⟨#[2]⟩, ⟨#[1]⟩, ⟨#[4]⟩, ⟨#[8]⟩, ⟨#[16]⟩, ⟨#[96]⟩, ⟨#[128]⟩, ⟨#[255]⟩], 8⟩
    m.HasShape 8 8 ∧
      ∃ v : BitRow, v.length = 8 ∧ v ≠ BitRow.zeros 8 ∧ m.apply v = .ok (BitRow.zeros 8) := by
  intro m
  exact ⟨by decide, (invert_two_sided_or_singular (by decide)).2.2.2.1.mp (by cbv)⟩

/-! ## A matrix to compute with -/

/-- Eight independent rows in no order. The first two trade places when they are eliminated. -/
def sample : BitMatrix :=
  ⟨[⟨#[2]⟩, ⟨#[1]⟩, ⟨#[4]⟩, ⟨#[8]⟩, ⟨#[16]⟩, ⟨#[96]⟩, ⟨#[64]⟩, ⟨#[255]⟩], 8⟩

/-- The inverse has another last row. -/
def sampleInverse : BitMatrix :=
  ⟨[⟨#[2]⟩, ⟨#[1]⟩, ⟨#[4]⟩, ⟨#[8]⟩, ⟨#[16]⟩, ⟨#[96]⟩, ⟨#[64]⟩, ⟨#[191]⟩], 8⟩

theorem sample_hasShape : sample.HasShape 8 8 := by
  decide

theorem invert_sample : sample.invert = .ok (some sampleInverse) := by
  cbv

end BitMatrix

end BitLinear
