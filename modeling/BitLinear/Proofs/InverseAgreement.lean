import BitLinear.Proofs.Growth
import BitLinear.Proofs.Inversion

/-!
# Growing a basis and inverting a matrix agree

The rows of a square matrix can be offered to a basis one by one, or the matrix can be inverted as
a whole. Independent rows are all accepted (`Invariant.offerAll_of_independent`), and of dependent
ones some row is not (`Invariant.offerAll_of_dependent`). The rows are independent exactly when the
matrix is invertible (`BitMatrix.independent_rows_iff`), and the inverse that a complete basis has
at hand is one on the left (`Invariant.inverse_eq_ok`), of which there is only one. The last
statement puts this together : both ways give the same inverse and the same verdict on singular
matrices.
-/

open Matrix

namespace BitLinear

theorem BitMatrix.independent_rows_iff {m : BitMatrix} {n : ℕ} (hm : m.HasShape n n) :
    BitRow.Independent n m.rows ↔ IsUnit (m.toMatrix n n) := by
  obtain rfl := hm.length_rows
  rw [BitRow.independent_iff hm.aligned hm.length_row, ← row_toMatrix_eq_get,
    Matrix.linearIndependent_rows_iff_isUnit]

namespace RowBasis

variable {n : ℕ} {basis : RowBasis}

/-! ## The inverse of a complete basis -/

/-- The reduced basis in the order of the pivots. -/
def sorted (basis : RowBasis) : List PivotRow :=
  basis.reduced.mergeSort fun p q => p.pivot ≤ q.pivot

theorem mem_sorted {p : PivotRow} : p ∈ basis.sorted ↔ p ∈ basis.reduced :=
  (List.mergeSort_perm _ _).mem_iff

theorem pairwise_sorted (basis : RowBasis) :
    basis.sorted.Pairwise fun p q => p.pivot ≤ q.pivot := by
  have hpair : basis.sorted.Pairwise fun p q => decide (p.pivot ≤ q.pivot) = true := by
    refine List.pairwise_mergeSort (fun p q r hpq hqr => ?_) (fun p q => ?_) basis.reduced
    · exact decide_eq_true ((of_decide_eq_true hpq).trans (of_decide_eq_true hqr))
    · simpa using Nat.le_total p.pivot q.pivot
  exact hpair.imp fun hpq => of_decide_eq_true hpq

/-- A complete basis has one row for every column, in order. -/
theorem Invariant.pivots_sorted (h : Invariant n basis) (hc : basis.rank = n) :
    basis.sorted.map (·.pivot) = List.range n := by
  have hperm : (basis.sorted.map (·.pivot)).Perm (List.range n) :=
    ((List.mergeSort_perm _ _).map _).trans (h.reduced.pivots_perm (h.length_reduced.trans hc))
  have hle : (basis.sorted.map (·.pivot)).Pairwise (· ≤ ·) :=
    List.pairwise_map.mpr basis.pairwise_sorted
  exact hperm.eq_of_pairwise' hle List.pairwise_le_range

/-- The vectors of a complete basis are the unit vectors at their pivots. -/
theorem Invariant.toVec_eq_single (h : Invariant n basis) (hc : basis.rank = n) {p : PivotRow}
    (hp : p ∈ basis.reduced) {i : Fin n} (hi : p.pivot = i) :
    p.vector.toVec n = Pi.single i 1 := by
  ext j
  obtain ⟨q, hq, hqj⟩ := h.reduced.exists_pivot (h.length_reduced.trans hc) j.isLt
  rw [BitRow.toVec_apply, ← hqj, Pi.single_apply]
  by_cases hij : j = i
  · have hpq : q.pivot = p.pivot := by rw [hi, ← hij, hqj]
    rw [if_pos hij, hpq, h.reduced.testBit_pivot hp, ofBit_true]
  · have hne : p ≠ q := fun heq => hij (Fin.ext (by rw [← hi, heq, hqj]))
    rw [if_neg hij, h.reduced.testBit_of_ne hp hq hne, ofBit_false]

/-- The coefficients in the order of the pivots are an inverse on the left. -/
theorem Invariant.inverse_eq_ok (h : Invariant n basis) (hc : basis.rank = n) :
    ∃ b, basis.inverse = .ok b ∧ b.HasShape n n ∧
      b.toMatrix n n * basis.matrix.toMatrix n n = 1 := by
  have hpivots := h.pivots_sorted hc
  have hlen : basis.sorted.length = n := by
    rw [← List.length_map (·.pivot), hpivots, List.length_range]
  have hshape : (⟨basis.sorted.map (·.coefficients), n⟩ : BitMatrix).HasShape n n := by
    refine BitMatrix.hasShape_mk h.aligned (by rw [List.length_map, hlen]) fun row hrow => ?_
    obtain ⟨p, hp, rfl⟩ := List.mem_map.mp hrow
    exact (h.reduced.hasLength p (mem_sorted.mp hp)).2
  refine ⟨_, ?_, hshape, Matrix.ext_row fun i => ?_⟩
  · rw [inverse, if_pos (h.isComplete_iff.mpr hc), h.dimension_eq]
    rfl
  · have hi : (i : ℕ) < basis.sorted.length := hlen.symm ▸ i.isLt
    have hmem : basis.sorted[(i : ℕ)] ∈ basis.reduced := mem_sorted.mp (List.getElem_mem hi)
    have hpivot : basis.sorted[(i : ℕ)].pivot = i := by
      have hget := List.getElem_of_eq hpivots (i := i) (by rwa [List.length_map])
      rwa [List.getElem_map, List.getElem_range] at hget
    have hrow : ((⟨basis.sorted.map (·.coefficients), n⟩ : BitMatrix).toMatrix n n).row i =
        basis.sorted[(i : ℕ)].coefficients.toVec n := by
      rw [BitMatrix.row_toMatrix (by rwa [List.length_map])]
      simp
    have hcomb := h.combination _ hmem
    rw [h.toVec_eq_single hc hmem hpivot, ← hrow] at hcomb
    exact (Matrix.mul_apply_eq_vecMul _ _ i).trans
      (hcomb.trans (funext fun _ => Matrix.one_eq_pi_single.symm))

/-! ## Offering the rows of a matrix -/

/-- Rows that are independent together with the accepted ones are all accepted. -/
theorem Invariant.offerAll_of_independent : ∀ {basis : RowBasis}, Invariant n basis →
    ∀ {rows : List BitRow}, (∀ row ∈ rows, row.length = n) →
      BitRow.Independent n (basis.accepted ++ rows) →
      (basis.offerAll rows).1 = List.replicate rows.length (.ok true) ∧
        (basis.offerAll rows).2.accepted = basis.accepted ++ rows
  | _, _, [], _, _ => ⟨rfl, (List.append_nil _).symm⟩
  | basis, h, row :: rows, hlen, hind => by
    obtain ⟨hrow, hrows⟩ := List.forall_mem_cons.mp hlen
    have hall : ∀ r ∈ basis.accepted ++ row :: rows, r.length = n :=
      List.forall_mem_append.mpr ⟨h.length_accepted, hlen⟩
    have hout : row.toVec n ∉ BitRow.rowSpan n basis.accepted := fun hmem =>
      ((BitRow.independent_insert h.aligned hall).mp hind).2
        (BitRow.rowSpan_mono (List.subset_append_left _ _) hmem)
    rcases h.offer_cases row with ⟨hne, -⟩ | ⟨-, hmem, -⟩ | ⟨-, -, next, heq, hacc, hnext⟩
    · exact absurd hrow hne
    · exact absurd hmem hout
    · rw [List.append_cons, ← hacc] at hind
      obtain ⟨hanswers, haccepted⟩ := hnext.offerAll_of_independent hrows hind
      simp only [RowBasis.offerAll, heq]
      exact ⟨by rw [hanswers]; rfl, by rw [haccepted, hacc, ← List.append_cons]⟩

theorem Invariant.rank_offerAll_le : ∀ {basis : RowBasis}, Invariant n basis →
    ∀ rows : List BitRow, (basis.offerAll rows).2.rank ≤ basis.rank + rows.length
  | _, _, [] => le_rfl
  | basis, h, row :: rows => by
    have hrest := (h.offer row).rank_offerAll_le rows
    have hstep : (basis.offer row).2.rank ≤ basis.rank + 1 := by
      rcases h.offer_cases row with ⟨-, heq⟩ | ⟨-, -, heq⟩ | ⟨-, -, next, heq, hacc, -⟩
      · simp [heq]
      · simp [heq]
      · simp [heq, rank, hacc]
    rw [List.length_cons]
    exact hrest.trans (by omega)

/-- Of rows that are dependent together with the accepted ones some row is turned down. -/
theorem Invariant.offerAll_of_dependent : ∀ {basis : RowBasis}, Invariant n basis →
    ∀ {rows : List BitRow}, (∀ row ∈ rows, row.length = n) →
      ¬BitRow.Independent n (basis.accepted ++ rows) →
      .ok false ∈ (basis.offerAll rows).1 ∧
        (basis.offerAll rows).2.rank < basis.rank + rows.length
  | basis, h, [], _, hdep => by
    rw [List.append_nil] at hdep
    exact absurd h.independent hdep
  | basis, h, row :: rows, hlen, hdep => by
    obtain ⟨hrow, hrows⟩ := List.forall_mem_cons.mp hlen
    rcases h.offer_cases row with ⟨hne, -⟩ | ⟨-, -, heq⟩ | ⟨-, -, next, heq, hacc, hnext⟩
    · exact absurd hrow hne
    · simp only [RowBasis.offerAll, heq]
      exact ⟨List.mem_cons_self, Nat.lt_succ_of_le (h.rank_offerAll_le rows)⟩
    · rw [List.append_cons, ← hacc] at hdep
      obtain ⟨hanswers, hrank⟩ := hnext.offerAll_of_dependent hrows hdep
      simp only [RowBasis.offerAll, heq]
      refine ⟨List.mem_cons_of_mem _ hanswers, ?_⟩
      have hnextrank : next.rank = basis.rank + 1 := by simp [rank, hacc]
      rw [List.length_cons]
      omega

/-- Offering the rows of a square matrix one by one gives the inverse of the matrix and the verdict
of inverting it as a whole. -/
theorem offerAll_rows_agrees_with_invert {m : BitMatrix} (hm : m.HasShape n n) :
    ∃ start, empty n = .ok start ∧ ∃ answers last, start.offerAll m.rows = (answers, last) ∧
      (∃ result, m.invert = .ok result) ∧
      (∀ b, m.invert = .ok (some b) → answers = List.replicate n (.ok true) ∧
        last.isComplete = true ∧ last.matrix = m ∧ last.inverse = .ok b) ∧
      (m.invert = .ok none → .ok false ∈ answers ∧ last.isComplete = false ∧
        last.inverse = .error (.incomplete last.rank n)) := by
  have hempty := invariant_empty hm.aligned
  have hlast := hempty.offerAll m.rows
  refine ⟨_, empty_eq_ok hm.aligned, _, _, rfl, ?_, fun b hb => ?_, fun hnone => ?_⟩
  · rcases BitMatrix.invert_cases hm with ⟨b, hb, -⟩ | ⟨hnone, -⟩
    · exact ⟨some b, hb⟩
    · exact ⟨none, hnone⟩
  · have hunit := (BitMatrix.exists_invert_iff hm).mp ⟨b, hb⟩
    obtain ⟨hanswers, haccepted⟩ := hempty.offerAll_of_independent hm.length_row
      ((BitMatrix.independent_rows_iff hm).mpr hunit)
    have hmatrix : (offerAll ⟨n, [], []⟩ m.rows).2.matrix = m := by
      rw [matrix, haccepted, hlast.dimension_eq, ← hm.cols_eq]
      rfl
    have hrank : (offerAll ⟨n, [], []⟩ m.rows).2.rank = n := by
      rw [rank, haccepted]
      exact hm.length_rows
    obtain ⟨b', hinverse, hshape, hmul⟩ := hlast.inverse_eq_ok hrank
    rw [hmatrix] at hmul
    have hb' := (BitMatrix.invert_eq_some_iff hm).mpr ⟨hshape, hmul⟩
    obtain rfl : b' = b := by simpa using hb'.symm.trans hb
    refine ⟨?_, hlast.isComplete_iff.mpr hrank, hmatrix, hinverse⟩
    rw [hanswers, hm.length_rows]
  · have hunit := (BitMatrix.invert_eq_none_iff hm).mp hnone
    obtain ⟨hanswers, hrank⟩ := hempty.offerAll_of_dependent hm.length_row
      (mt (BitMatrix.independent_rows_iff hm).mp hunit)
    have hlt : (offerAll ⟨n, [], []⟩ m.rows).2.rank < n := by
      rw [hm.length_rows] at hrank
      exact hrank.trans_eq (Nat.zero_add n)
    have hincomplete : (offerAll ⟨n, [], []⟩ m.rows).2.isComplete = false := by
      rw [← Bool.not_eq_true, hlast.isComplete_iff]
      exact hlt.ne
    refine ⟨hanswers, hincomplete, ?_⟩
    rw [inverse, hincomplete, hlast.dimension_eq]
    rfl

/-- Eight independent rows in no order : their inverse is at hand once all are accepted. -/
theorem offerAll_rows_agrees_with_invert_eight :
    BitMatrix.sample.HasShape 8 8 ∧ ∃ start, empty 8 = .ok start ∧ ∃ answers last,
      start.offerAll BitMatrix.sample.rows = (answers, last) ∧
        last.inverse = .ok BitMatrix.sampleInverse := by
  have hshape := BitMatrix.sample_hasShape
  obtain ⟨start, hstart, answers, last, hoffer, -, hsome, -⟩ :=
    offerAll_rows_agrees_with_invert hshape
  exact ⟨hshape, start, hstart, answers, last, hoffer, (hsome _ BitMatrix.invert_sample).2.2.2⟩

end RowBasis

end BitLinear
