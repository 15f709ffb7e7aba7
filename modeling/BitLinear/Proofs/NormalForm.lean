import BitLinear.Proofs.Calls
import BitLinear.Proofs.InverseAgreement
import BitLinear.Proofs.Offers

/-!
# Reduction is a normal form

Reducing a row adds to it the rows of the reduced basis whose pivots it has
(`Reduced.toVec_residue`). That sum is linear in the row and does not depend on the order of the
basis, and the same is true of what is left (`Reduced.residue_sum`, `Reduced.residue_perm`). A row
without pivots stays as it is (`residue_eq_self`), and two rows leave the same exactly when they
differ by a vector of the span (`Reduced.vector_residue_eq_iff`).

The coefficients change by accepted rows that add up to what was taken off. As these are independent
there is only one choice of them (`Invariant.toVec_eq_of_vecMul_eq`). `NormalForm n basis form` puts
together what this says of a function `form` that reduction computes, and the main statement is that
there is one for every state that calls reach from the basis without rows.
-/

open Matrix

namespace BitLinear

theorem TrackedRow.HasLength.ext_toVec {n : ℕ} {a b : TrackedRow} (ha : a.HasLength n)
    (hb : b.HasLength n) (hvector : a.vector.toVec n = b.vector.toVec n)
    (hcoefficients : a.coefficients.toVec n = b.coefficients.toVec n) : a = b := by
  cases a
  cases b
  exact congrArg₂ mk ((BitRow.toVec_inj ha.1 hb.1).mp hvector)
    ((BitRow.toVec_inj ha.2 hb.2).mp hcoefficients)

namespace RowBasis

variable {n : ℕ} {part : PivotRow → BitRow} {rows ps qs : List PivotRow} {a b t : TrackedRow}

/-! ## What is left of a row -/

theorem Reduced.hasLength_residue (h : Reduced n rows) (ht : t.HasLength n) :
    (residue rows t).HasLength n :=
  (h.clearPivots_eq_ok ht).2

/-- What is left of a sum is the sum of what is left. -/
theorem Reduced.residue_sum (h : Reduced n rows) (ha : a.HasLength n) (hb : b.HasLength n) :
    residue rows (a.sum b) = (residue rows a).sum (residue rows b) := by
  have hra := h.hasLength_residue ha
  have hrb := h.hasLength_residue hb
  obtain ⟨hvector, hcoefficients⟩ := h.toVec_residue (ha.sum hb)
  obtain ⟨hva, hca⟩ := h.toVec_residue ha
  obtain ⟨hvb, hcb⟩ := h.toVec_residue hb
  have hsum : (a.sum b).vector.toVec n = a.vector.toVec n + b.vector.toVec n :=
    BitRow.toVec_sum (ha.1.trans hb.1.symm)
  refine (h.hasLength_residue (ha.sum hb)).ext_toVec (hra.sum hrb) ?_ ?_
  · rw [hvector, hsum, map_add, TrackedRow.sum, BitRow.toVec_sum (hra.1.trans hrb.1.symm), hva, hvb]
    exact add_add_add_comm _ _ _ _
  · rw [hcoefficients, hsum, map_add, TrackedRow.sum, TrackedRow.sum,
      BitRow.toVec_sum (ha.2.trans hb.2.symm), BitRow.toVec_sum (hra.2.trans hrb.2.symm), hca, hcb]
    exact add_add_add_comm _ _ _ _

/-- A row without pivots stays as it is. -/
theorem residue_eq_self : ∀ {rows : List PivotRow},
    (∀ p ∈ rows, t.vector.testBit p.pivot = false) → residue rows t = t
  | [], _ => rfl
  | p :: rows, h => by
    obtain ⟨hp, hrest⟩ := List.forall_mem_cons.mp h
    have hkeep : t.cleared p.toTrackedRow p.pivot = t := by
      rw [TrackedRow.cleared, hp]
      rfl
    rw [residue, List.foldl_cons, hkeep]
    exact residue_eq_self hrest

theorem Reduced.residue_residue (h : Reduced n rows) (ht : t.HasLength n) :
    residue rows (residue rows t) = residue rows t :=
  residue_eq_self fun _ hp => h.testBit_residue ht hp

/-- The same is left of two rows exactly when their sum is in the span. -/
theorem Reduced.vector_residue_eq_iff (h : Reduced n rows) (ha : a.HasLength n)
    (hb : b.HasLength n) : (residue rows a).vector = (residue rows b).vector ↔
      (a.vector.sum b.vector).toVec n ∈ vectorSpan n rows := by
  have hra := h.hasLength_residue ha
  have hrb := h.hasLength_residue hb
  have hzero : (residue rows (a.sum b)).vector.isZero = true ↔
      (a.vector.sum b.vector).toVec n ∈ vectorSpan n rows := h.isZero_residue_iff (ha.sum hb)
  rw [← hzero, BitRow.isZero_iff_toVec (h.hasLength_residue (ha.sum hb)).1, h.residue_sum ha hb,
    TrackedRow.sum, BitRow.toVec_sum (hra.1.trans hrb.1.symm), add_eq_zero_iff_eq,
    BitRow.toVec_inj hra.1 hrb.1]

/-! ## The order of the basis -/

theorem pivotSum_perm (h : ps.Perm qs) : pivotSum n part ps = pivotSum n part qs :=
  (h.map _).sum_eq

theorem Reduced.perm (h : Reduced n qs) (hperm : ps.Perm qs) : Reduced n ps where
  hasLength p hp := h.hasLength p (hperm.mem_iff.mp hp)
  firstSetBit_eq p hp := h.firstSetBit_eq p (hperm.mem_iff.mp hp)
  apart := h.apart.perm hperm.symm fun hpq => ⟨hpq.2, hpq.1⟩

/-- The rows of a reduced basis may be cleared in any order. -/
theorem Reduced.residue_perm (h : Reduced n qs) (hperm : ps.Perm qs) (ht : t.HasLength n) :
    residue ps t = residue qs t := by
  have hps := h.perm hperm
  obtain ⟨hvp, hcp⟩ := hps.toVec_residue ht
  obtain ⟨hvq, hcq⟩ := h.toVec_residue ht
  refine (hps.hasLength_residue ht).ext_toVec (h.hasLength_residue ht) ?_ ?_
  · rw [hvp, hvq, pivotSum_perm hperm]
  · rw [hcp, hcq, pivotSum_perm hperm]

/-! ## Coefficients -/

variable {basis : RowBasis}

/-- Accepted rows add up to a vector in one way only. -/
theorem Invariant.toVec_eq_of_vecMul_eq (h : Invariant n basis) {v w : Fin n → ZMod 2}
    (hv : ∀ k, basis.rank ≤ k → bitAt n k v = 0) (hw : ∀ k, basis.rank ≤ k → bitAt n k w = 0)
    (heq : v ᵥ* basis.matrix.toMatrix n n = w ᵥ* basis.matrix.toMatrix n n) : v = w := by
  let place : Fin basis.accepted.length → Fin n := Fin.castLE h.rank_le
  have hind := (BitRow.independent_iff h.aligned h.length_accepted).mp h.independent
  have hsum : ∑ i, (v + w) (place i) • (basis.accepted.get i).toVec n = 0 := by
    have hzero : (v + w) ᵥ* basis.matrix.toMatrix n n = 0 := by
      rw [Matrix.add_vecMul, add_eq_zero_iff_eq, heq]
    rw [← hzero, Matrix.vecMul_eq_sum]
    -- past the accepted rows both vectors are zero
    refine Fintype.sum_of_injective place (Fin.castLE_injective h.rank_le) _ _ (fun i hi => ?_)
      fun i => ?_
    · have hle : basis.rank ≤ i := by
        by_contra hlt
        exact hi ⟨⟨i, Nat.lt_of_not_le hlt⟩, rfl⟩
      have hbit : (v + w) i = 0 := by
        rw [← bitAt_val i (v + w), map_add, hv i hle, hw i hle, add_zero]
      rw [hbit]
      exact zero_smul _ _
    · have hrow : (basis.matrix.toMatrix n n).row (place i) = (basis.accepted.get i).toVec n :=
        BitMatrix.row_toMatrix (m := basis.matrix) i.isLt
      rw [← hrow]
      rfl
  rw [← add_eq_zero_iff_eq]
  refine eq_zero_of_bitAt fun k hk => ?_
  rcases Nat.lt_or_ge k basis.rank with hlt | hge
  · have hbit := Fintype.linearIndependent_iff.mp hind _ hsum ⟨k, hlt⟩
    rw [← hbit]
    exact bitAt_val (⟨k, hk⟩ : Fin n) _
  · rw [map_add, hv k hge, hw k hge, add_zero]

/-- The coefficients change by the one choice of accepted rows that adds up to what is taken
off. -/
theorem Invariant.coefficients_residue_eq_iff (h : Invariant n basis) (ht : t.HasLength n)
    {selector : BitRow} (hs : selector.length = n) :
    (residue basis.reduced t).coefficients = t.coefficients.sum selector ↔
      (∀ k, basis.rank ≤ k → selector.testBit k = false) ∧
        TrackedRow.IsCombination basis.accepted
          ⟨t.vector.sum (residue basis.reduced t).vector, selector⟩ := by
  have hrest := h.reduced.hasLength_residue ht
  obtain ⟨hvector, hcoefficients⟩ := h.reduced.toVec_residue ht
  have hsum := BitRow.length_sum (ht.2.trans hs.symm)
  have htaken := BitRow.length_sum (ht.1.trans hrest.1.symm)
  have hfresh (k : ℕ) (hk : basis.rank ≤ k) :
      bitAt n k (pivotSum n (·.coefficients) basis.reduced (t.vector.toVec n)) = 0 :=
    h.bitAt_pivotSum_coefficients _ hk
  have hcombination : pivotSum n (·.coefficients) basis.reduced (t.vector.toVec n) ᵥ*
      basis.matrix.toMatrix n n = (t.vector.sum (residue basis.reduced t).vector).toVec n := by
    rw [BitRow.toVec_sum (ht.1.trans hrest.1.symm), hvector, self_add_add]
    exact map_pivotSum (Matrix.vecMulLinear (basis.matrix.toMatrix n n)) _ h.combination
  rw [h.isCombination_iff ⟨htaken.trans ht.1, hs⟩, ← hcombination,
    ← BitRow.toVec_inj hrest.2 (hsum.trans ht.2), hcoefficients,
    BitRow.toVec_sum (ht.2.trans hs.symm), add_right_inj]
  have hbits : (∀ k, basis.rank ≤ k → selector.testBit k = false) ↔
      ∀ k, basis.rank ≤ k → bitAt n k (selector.toVec n) = 0 := by
    simp only [BitRow.bitAt_toVec hs, ofBit_eq_zero]
  rw [hbits]
  refine ⟨?_, ?_⟩
  · intro heq
    rw [← heq]
    exact ⟨hfresh, rfl⟩
  · rintro ⟨hzero, heq⟩
    exact h.toVec_eq_of_vecMul_eq hfresh hzero heq.symm

/-! ## The normal form -/

theorem Invariant.pairwise_lt_sorted (h : Invariant n basis) :
    basis.sorted.Pairwise fun p q => p.pivot < q.pivot := by
  have hne : basis.sorted.Pairwise fun p q => p.pivot ≠ q.pivot :=
    List.pairwise_map.mp (h.reduced.perm (List.mergeSort_perm _ _)).nodup_pivots
  exact basis.pairwise_sorted.imp₂ (fun _ _ hle hne => lt_of_le_of_ne hle hne) hne

/-- What it takes for `form` to be the normal form of rows modulo the span of a basis. -/
structure NormalForm (n : ℕ) (basis : RowBasis) (form : TrackedRow → TrackedRow) : Prop where
  reduce_eq : ∀ t : TrackedRow, t.HasLength n → basis.reduce t = .ok (form t)
  hasLength : ∀ t : TrackedRow, t.HasLength n → (form t).HasLength n
  /-- Every pivot is cleared. -/
  testBit_pivot : ∀ t : TrackedRow, t.HasLength n → ∀ p ∈ basis.reduced,
    (form t).vector.testBit p.pivot = false
  sum : ∀ a b : TrackedRow, a.HasLength n → b.HasLength n → form (a.sum b) = (form a).sum (form b)
  idempotent : ∀ t : TrackedRow, t.HasLength n → form (form t) = form t
  /-- Rows with one normal form differ by a sum of accepted rows. -/
  vector_eq_iff : ∀ a b : TrackedRow, a.HasLength n → b.HasLength n →
    ((form a).vector = (form b).vector ↔
      BitRow.IsSum n basis.accepted (a.vector.sum b.vector))
  /-- The coefficients change by those of the accepted rows that add up to what is taken off. -/
  coefficients_eq_iff : ∀ t : TrackedRow, t.HasLength n →
    ∀ selector : BitRow, selector.length = n →
      ((form t).coefficients = t.coefficients.sum selector ↔
        (∀ k, basis.rank ≤ k → selector.testBit k = false) ∧
          TrackedRow.IsCombination basis.accepted ⟨t.vector.sum (form t).vector, selector⟩)
  /-- The order in which the pivots are cleared makes no difference. -/
  clearPivots_eq : ∀ t : TrackedRow, t.HasLength n → ∀ rows : List PivotRow,
    rows.Perm basis.reduced → clearPivots rows t = .ok (form t)
  /-- One of the orders is that of the pivots. -/
  sorted_perm : basis.sorted.Perm basis.reduced
  pairwise_sorted : basis.sorted.Pairwise fun p q => p.pivot < q.pivot

theorem Invariant.normalForm (h : Invariant n basis) :
    NormalForm n basis (residue basis.reduced) where
  reduce_eq _ ht := (h.reduced.clearPivots_eq_ok ht).1
  hasLength _ ht := h.reduced.hasLength_residue ht
  testBit_pivot _ ht _ hp := h.reduced.testBit_residue ht hp
  sum _ _ ha hb := h.reduced.residue_sum ha hb
  idempotent _ ht := h.reduced.residue_residue ht
  vector_eq_iff a b ha hb := by
    have hlen := BitRow.length_sum (ha.1.trans hb.1.symm)
    rw [h.reduced.vector_residue_eq_iff ha hb, h.span_eq]
    exact BitRow.toVec_mem_rowSpan_iff h.aligned h.length_accepted (hlen.trans ha.1)
  coefficients_eq_iff _ ht _ hs := h.coefficients_residue_eq_iff ht hs
  clearPivots_eq t ht rows hperm := by
    rw [((h.reduced.perm hperm).clearPivots_eq_ok ht).1, h.reduced.residue_perm hperm ht]
  sorted_perm := List.mergeSort_perm _ _
  pairwise_sorted := h.pairwise_lt_sorted

/-- Whatever was called before, reduction is the normal form of rows modulo the span of the accepted
rows, in whatever order the pivots are cleared. -/
theorem normalForm_respondAll (hn : n % 8 = 0) (calls : List Call) :
    ∃ start, empty n = .ok start ∧ ∃ form, NormalForm n (start.respondAll calls).2 form :=
  ⟨_, empty_eq_ok hn, _, ((invariant_empty hn).respondAll calls).normalForm⟩

/-- Two rows are accepted, the one with the later pivot first. A row with both pivots is reduced in
the order of the pivots as well. -/
theorem normalForm_respondAll_eight : 8 % 8 = 0 ∧ ∃ start last, empty 8 = .ok start ∧
    (start.respondAll [.offer ⟨#[6]⟩, .isInSpan ⟨#[4]⟩, .offer ⟨#[5]⟩]).2 = last ∧
      last.reduced.map (·.pivot) = [1, 0] ∧ last.sorted.map (·.pivot) = [0, 1] ∧
      last.reduce ⟨⟨#[15]⟩, ⟨#[8]⟩⟩ = .ok ⟨⟨#[12]⟩, ⟨#[11]⟩⟩ ∧
      clearPivots last.sorted ⟨⟨#[15]⟩, ⟨#[8]⟩⟩ = .ok ⟨⟨#[12]⟩, ⟨#[11]⟩⟩ := by
  obtain ⟨start, hstart, form, hform⟩ := normalForm_respondAll (n := 8) rfl
    [.offer ⟨#[6]⟩, .isInSpan ⟨#[4]⟩, .offer ⟨#[5]⟩]
  obtain rfl : ⟨8, [], []⟩ = start := Except.ok.inj ((empty_eq_ok rfl).symm.trans hstart)
  have ht : TrackedRow.HasLength 8 ⟨⟨#[15]⟩, ⟨#[8]⟩⟩ := ⟨rfl, rfl⟩
  have hlast : (respondAll ⟨8, [], []⟩ [.offer ⟨#[6]⟩, .isInSpan ⟨#[4]⟩, .offer ⟨#[5]⟩]).2 =
      ⟨8, [⟨#[6]⟩, ⟨#[5]⟩], [⟨⟨⟨#[6]⟩, ⟨#[1]⟩⟩, 1⟩, ⟨⟨⟨#[5]⟩, ⟨#[2]⟩⟩, 0⟩]⟩ := by decide +kernel
  rw [hlast] at hform
  have hreduce : reduce ⟨8, [⟨#[6]⟩, ⟨#[5]⟩], [⟨⟨⟨#[6]⟩, ⟨#[1]⟩⟩, 1⟩, ⟨⟨⟨#[5]⟩, ⟨#[2]⟩⟩, 0⟩]⟩
      ⟨⟨#[15]⟩, ⟨#[8]⟩⟩ = .ok ⟨⟨#[12]⟩, ⟨#[11]⟩⟩ := by decide +kernel
  refine ⟨rfl, _, _, hstart, hlast, rfl, by cbv, hreduce, ?_⟩
  rw [hform.clearPivots_eq _ ht _ hform.sorted_perm, ← hform.reduce_eq _ ht, hreduce]

end RowBasis

end BitLinear
