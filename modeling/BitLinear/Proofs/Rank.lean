import BitLinear.Proofs.Inversion
import BitLinear.Proofs.Offers
import BitLinear.Proofs.Transpose
import Mathlib

/-!
# The rank that offering finds

A basis that was offered the rows of a matrix has the rank of the matrix (`rank_offerAll_rows`), as
its accepted rows are a basis of what all rows span. So what holds of ranks holds of the basis: the
columns lead to the same rank as the rows, and the rows that the matrix maps to zero are a subspace
whose dimension is the width less the rank (`HasShape.ncard_kernel`).
-/

open Matrix

namespace BitLinear

namespace BitMatrix

variable {r c : ℕ} {m : BitMatrix}

theorem HasShape.rank_toMatrix (hm : m.HasShape r c) :
    (m.toMatrix r c).rank = Module.finrank (ZMod 2) (BitRow.rowSpan c m.rows) := by
  obtain rfl := hm.length_rows
  rw [Matrix.rank_eq_finrank_span_row, row_toMatrix_eq_get, BitRow.range_toVec_get,
    BitRow.rowSpan]

/-! ## The kernel -/

theorem HasShape.ncard_kernel (hm : m.HasShape r c) (hr : r % 8 = 0) :
    {v : BitRow | v.length = c ∧ m.apply v = .ok (BitRow.zeros r)}.ncard =
      2 ^ (c - (m.toMatrix r c).rank) := by
  have hdim := (m.toMatrix r c).mulVecLin.finrank_range_add_finrank_ker
  rw [Module.finrank_fin_fun] at hdim
  have hker : Module.finrank (ZMod 2) (m.toMatrix r c).mulVecLin.ker =
      c - (m.toMatrix r c).rank := Nat.eq_sub_of_add_eq' hdim
  have hset : {v : BitRow | v.length = c ∧ m.apply v = .ok (BitRow.zeros r)} =
      {v : BitRow | v.length = c ∧ v.toVec c ∈ (m.toMatrix r c).mulVecLin.ker} := by
    ext v
    exact and_congr_right fun hv => apply_eq_zeros_iff hm hr hv
  rw [hset, BitRow.ncard_of_mem hm.aligned, hker]

end BitMatrix

namespace RowBasis

variable {n r c : ℕ} {m : BitMatrix}

/-- Offering the rows of a matrix finds its rank. -/
theorem rank_offerAll_rows (hm : m.HasShape r c) :
    (offerAll ⟨c, [], []⟩ m.rows).2.rank = (m.toMatrix r c).rank := by
  rw [((invariant_empty hm.aligned).offerAll m.rows).rank_eq_finrank,
    rowSpan_accepted_offerAll hm.aligned hm.length_row, hm.rank_toMatrix]

/-- The rows of a matrix and its columns are all answered and lead to the same rank, which is that
of the matrix. The rows that it maps to zero number two to the power of the width less the rank. -/
theorem rank_offerAll_rows_and_columns (hm : m.HasShape r c) (hr : r % 8 = 0) :
    ∃ byRows byColumns t, empty c = .ok byRows ∧ empty r = .ok byColumns ∧
      m.transpose = .ok t ∧ BitRow.zero r = .ok (BitRow.zeros r) ∧
      (∀ answer ∈ (byRows.offerAll m.rows).1 ++ (byColumns.offerAll t.rows).1,
        ∃ fresh, answer = .ok fresh) ∧
      (byRows.offerAll m.rows).2.rank = (m.toMatrix r c).rank ∧
      (byColumns.offerAll t.rows).2.rank = (byRows.offerAll m.rows).2.rank ∧
      (byRows.offerAll m.rows).2.rank ≤ c ∧
      {v : BitRow | v.length = c ∧ m.apply v = .ok (BitRow.zeros r)}.ncard =
        2 ^ (c - (byRows.offerAll m.rows).2.rank) := by
  have hrows := invariant_empty hm.aligned
  have hcolumns := invariant_empty hr
  have ht := hm.transposed hr
  have hrank := rank_offerAll_rows hm
  refine ⟨_, _, _, empty_eq_ok hm.aligned, empty_eq_ok hr, BitMatrix.transpose_eq_ok hm hr,
    BitRow.zero_eq_ok hr, ?_, hrank, ?_, (hrows.offerAll m.rows).rank_le, ?_⟩
  · intro answer hmem
    rcases List.mem_append.mp hmem with hrow | hcolumn
    · exact hrows.exists_eq_ok_of_mem_offerAll hm.length_row hrow
    · exact hcolumns.exists_eq_ok_of_mem_offerAll ht.length_row hcolumn
  · rw [rank_offerAll_rows ht, BitMatrix.toMatrix_transposed hm hr, Matrix.rank_transpose, hrank]
  · rw [hm.ncard_kernel hr, hrank]

/-- Of eight rows of sixteen bits three are not zero, and the last of these is the sum of the first
two. -/
theorem rank_offerAll_rows_and_columns_sixteen :
    BitMatrix.HasShape ⟨[⟨#[3, 0]⟩, ⟨#[5, 128]⟩, ⟨#[6, 128]⟩, ⟨#[0, 0]⟩, ⟨#[0, 0]⟩, ⟨#[0, 0]⟩,
      ⟨#[0, 0]⟩, ⟨#[0, 0]⟩], 16⟩ 8 16 ∧ 8 % 8 = 0 ∧
    {v : BitRow | v.length = 16 ∧
      BitMatrix.apply ⟨[⟨#[3, 0]⟩, ⟨#[5, 128]⟩, ⟨#[6, 128]⟩, ⟨#[0, 0]⟩, ⟨#[0, 0]⟩, ⟨#[0, 0]⟩,
        ⟨#[0, 0]⟩, ⟨#[0, 0]⟩], 16⟩ v = .ok (BitRow.zeros 8)}.ncard = 2 ^ 14 := by
  have hshape : BitMatrix.HasShape ⟨[⟨#[3, 0]⟩, ⟨#[5, 128]⟩, ⟨#[6, 128]⟩, ⟨#[0, 0]⟩, ⟨#[0, 0]⟩,
      ⟨#[0, 0]⟩, ⟨#[0, 0]⟩, ⟨#[0, 0]⟩], 16⟩ 8 16 := by decide
  have hrank : (offerAll ⟨16, [], []⟩ [⟨#[3, 0]⟩, ⟨#[5, 128]⟩, ⟨#[6, 128]⟩, ⟨#[0, 0]⟩, ⟨#[0, 0]⟩,
      ⟨#[0, 0]⟩, ⟨#[0, 0]⟩, ⟨#[0, 0]⟩]).2.rank = 2 := by cbv
  obtain ⟨byRows, -, -, hempty, -, -, -, -, -, -, -, hcount⟩ :=
    rank_offerAll_rows_and_columns hshape rfl
  obtain rfl : ⟨16, [], []⟩ = byRows := Except.ok.inj ((empty_eq_ok rfl).symm.trans hempty)
  exact ⟨hshape, rfl, hcount.trans (by rw [hrank])⟩

end RowBasis

end BitLinear
