import BitLinear.Proofs.Matrix
import BitLinear.Proofs.ReducedBasis
import Mathlib.LinearAlgebra.Matrix.ToLin

/-!
# What a growing basis keeps

`Invariant n basis` says what the parts of a basis have to do with each other : the reduced basis
spans what the accepted rows span, each of its vectors is the combination of accepted rows that its
coefficients name, no coefficient is set past the rank, and the accepted rows are independent. A
row is accepted exactly when it lies outside the span (`Invariant.offer_cases`), an error leaves the
basis as it is (`Invariant.offer_of_error`), and every row that is offered keeps the invariant
(`Invariant.offer`, `Invariant.offerAll`).
-/

open Matrix

namespace BitLinear

namespace RowBasis

/-! ## Offers -/

/-- Offer rows one after the other. -/
def offerAll (basis : RowBasis) : List BitRow → List (Except Error Bool) × RowBasis
  | [] => ([], basis)
  | row :: rows =>
    let (answer, next) := basis.offer row
    let (answers, last) := next.offerAll rows
    (answer :: answers, last)

/-! ## The invariant -/

/-- What the parts of a basis have to do with each other. -/
structure Invariant (n : ℕ) (basis : RowBasis) : Prop where
  aligned : n % 8 = 0
  dimension_eq : basis.dimension = n
  length_accepted : ∀ row ∈ basis.accepted, row.length = n
  length_reduced : basis.reduced.length = basis.rank
  reduced : Reduced n basis.reduced
  /-- The reduced basis spans what the accepted rows span. -/
  span_eq : vectorSpan n basis.reduced = BitRow.rowSpan n basis.accepted
  /-- The coefficients name the accepted rows that make the vector. -/
  combination : ∀ p ∈ basis.reduced,
    p.coefficients.toVec n ᵥ* basis.matrix.toMatrix n n = p.vector.toVec n
  /-- The coefficient of the next row is still free. -/
  fresh : ∀ p ∈ basis.reduced, ∀ k, basis.rank ≤ k → bitAt n k (p.coefficients.toVec n) = 0
  independent : BitRow.Independent n basis.accepted

variable {n : ℕ} {basis : RowBasis} {row : BitRow}

theorem empty_eq_ok (hn : n % 8 = 0) : empty n = .ok ⟨n, [], []⟩ := by
  rw [empty, checkAligned_eq_ok hn]
  rfl

theorem invariant_empty (hn : n % 8 = 0) : Invariant n ⟨n, [], []⟩ where
  aligned := hn
  dimension_eq := rfl
  length_accepted _ h := absurd h List.not_mem_nil
  length_reduced := rfl
  reduced := ⟨by simp, by simp, List.Pairwise.nil⟩
  span_eq := rfl
  combination _ h := absurd h List.not_mem_nil
  fresh _ h := absurd h List.not_mem_nil
  independent _ hsub hne := absurd (List.sublist_nil.mp hsub) hne

theorem Invariant.rank_le (h : Invariant n basis) : basis.rank ≤ n :=
  h.length_reduced ▸ h.reduced.length_le

/-- In a complete basis every row is in the span. -/
theorem Invariant.rowSpan_eq_top (h : Invariant n basis) (hc : basis.rank = n) :
    BitRow.rowSpan n basis.accepted = ⊤ := by
  rw [← h.span_eq]
  exact h.reduced.vectorSpan_eq_top (h.length_reduced.trans hc)

theorem Invariant.isComplete_iff (h : Invariant n basis) :
    basis.isComplete = true ↔ basis.rank = n := by
  rw [isComplete, beq_iff_eq, h.dimension_eq]

theorem checkWidth_eq_ok (h : row.length = basis.dimension) : basis.checkWidth row = .ok () :=
  if_pos h

theorem checkWidth_eq_error (h : row.length ≠ basis.dimension) :
    basis.checkWidth row = .error (.lengthMismatch basis.dimension row.length) :=
  if_neg h

/-- The span test answers exactly whether a row is in the span. -/
theorem Invariant.isInSpan_eq_ok (h : Invariant n basis) (hrow : row.length = n) :
    ∃ answer, basis.isInSpan row = .ok answer ∧
      (answer = true ↔ row.toVec n ∈ BitRow.rowSpan n basis.accepted) := by
  have hlen : TrackedRow.HasLength n ⟨row, BitRow.zeros n⟩ :=
    ⟨hrow, BitRow.length_zeros h.aligned⟩
  refine ⟨(residue basis.reduced ⟨row, BitRow.zeros n⟩).vector.isZero, ?_, ?_⟩
  · rw [isInSpan, checkWidth_eq_ok (hrow.trans h.dimension_eq.symm), ok_bind, h.dimension_eq,
      BitRow.zero_eq_ok h.aligned, ok_bind, reduce, (h.reduced.clearPivots_eq_ok hlen).1]
    rfl
  · rw [h.reduced.isZero_residue_iff hlen, h.span_eq]

/-! ## Offering a row -/

/-- What the reduced basis leaves of a row. Its coefficients start with the one that will name the
row itself. -/
def leftover (n : ℕ) (basis : RowBasis) (row : BitRow) : TrackedRow :=
  residue basis.reduced ⟨row, BitRow.unitRow n basis.rank⟩

/-- The basis with one more row, what the reduced basis leaves of it, and the pivot of that. -/
def grown (basis : RowBasis) (row : BitRow) (rest : TrackedRow) (pivot : ℕ) : RowBasis :=
  ⟨basis.dimension, basis.accepted ++ [row], extended basis.reduced rest pivot⟩

theorem Invariant.hasLength_candidate (h : Invariant n basis) (hrow : row.length = n) :
    TrackedRow.HasLength n ⟨row, BitRow.unitRow n basis.rank⟩ :=
  ⟨hrow, BitRow.length_unitRow h.aligned basis.rank⟩

theorem Invariant.hasLength_leftover (h : Invariant n basis) (hrow : row.length = n) :
    (leftover n basis row).HasLength n :=
  (h.reduced.clearPivots_eq_ok (h.hasLength_candidate hrow)).2

theorem Invariant.isZero_leftover_iff (h : Invariant n basis) (hrow : row.length = n) :
    (leftover n basis row).vector.isZero = true ↔
      row.toVec n ∈ BitRow.rowSpan n basis.accepted := by
  rw [leftover, h.reduced.isZero_residue_iff (h.hasLength_candidate hrow), h.span_eq]

theorem Invariant.toVec_leftover (h : Invariant n basis) (hrow : row.length = n)
    (hrank : basis.rank < n) :
    (leftover n basis row).vector.toVec n =
        row.toVec n + pivotSum n (·.vector) basis.reduced (row.toVec n) ∧
      (leftover n basis row).coefficients.toVec n = Pi.single ⟨basis.rank, hrank⟩ 1 +
        pivotSum n (·.coefficients) basis.reduced (row.toVec n) := by
  have hunit := BitRow.toVec_unitRow h.aligned ⟨basis.rank, hrank⟩
  rw [← hunit]
  exact h.reduced.toVec_residue (h.hasLength_candidate hrow)

theorem Invariant.bitAt_pivotSum_coefficients (h : Invariant n basis) (v : Fin n → ZMod 2) {k : ℕ}
    (hk : basis.rank ≤ k) : bitAt n k (pivotSum n (·.coefficients) basis.reduced v) = 0 := by
  by_contra hne
  obtain ⟨p, hp, -, hbit⟩ := exists_of_bitAt_pivotSum hne
  exact hbit (h.fresh p hp k hk)

/-- The coefficients of what is left name it, once the row is among the accepted ones. -/
theorem Invariant.leftover_combination (h : Invariant n basis) (hrow : row.length = n)
    (hrank : basis.rank < n) : (leftover n basis row).coefficients.toVec n ᵥ*
      BitMatrix.toMatrix n n ⟨basis.accepted ++ [row], basis.dimension⟩ =
        (leftover n basis row).vector.toVec n := by
  obtain ⟨hvec, hcoeff⟩ := h.toVec_leftover hrow hrank
  have hold : pivotSum n (·.coefficients) basis.reduced (row.toVec n) ᵥ*
      basis.matrix.toMatrix n n = pivotSum n (·.vector) basis.reduced (row.toVec n) :=
    map_pivotSum (Matrix.vecMulLinear (basis.matrix.toMatrix n n)) _ h.combination
  have hself : (Pi.single ⟨basis.rank, hrank⟩ 1 : Fin n → ZMod 2) ᵥ*
      basis.matrix.toMatrix n n = 0 := by
    rw [Matrix.single_one_vecMul]
    exact BitMatrix.row_toMatrix_of_le le_rfl
  rw [BitMatrix.vecMul_toMatrix_append hrank, hcoeff, hvec, Matrix.add_vecMul]
  change Pi.single _ 1 ᵥ* basis.matrix.toMatrix n n + _ ᵥ* basis.matrix.toMatrix n n +
    bitAt n basis.rank _ • _ = _
  rw [hself, hold, map_add, bitAt_single, if_pos rfl, h.bitAt_pivotSum_coefficients _ le_rfl,
    add_zero, one_smul, zero_add, add_comm]

theorem Invariant.leftover_fresh (h : Invariant n basis) (hrow : row.length = n)
    (hrank : basis.rank < n) {k : ℕ} (hk : basis.rank < k) :
    bitAt n k ((leftover n basis row).coefficients.toVec n) = 0 := by
  rw [(h.toVec_leftover hrow hrank).2, map_add, bitAt_single, if_neg hk.ne',
    h.bitAt_pivotSum_coefficients _ hk.le, add_zero]

theorem Invariant.span_grown (h : Invariant n basis) (hrow : row.length = n)
    (hrank : basis.rank < n) (pivot : ℕ) :
    vectorSpan n (extended basis.reduced (leftover n basis row) pivot) =
      BitRow.rowSpan n (basis.accepted ++ [row]) := by
  have hlen := h.hasLength_leftover hrow
  have hvec := (h.toVec_leftover hrow hrank).1
  have hold : vectorSpan n basis.reduced ≤ BitRow.rowSpan n (basis.accepted ++ [row]) :=
    h.span_eq.trans_le (BitRow.rowSpan_mono (List.subset_append_left _ _))
  have hmem : row.toVec n ∈ BitRow.rowSpan n (basis.accepted ++ [row]) :=
    BitRow.toVec_mem_rowSpan (List.mem_append_right _ List.mem_cons_self)
  have hgrows : vectorSpan n basis.reduced ≤
      vectorSpan n (extended basis.reduced (leftover n basis row) pivot) :=
    h.reduced.vectorSpan_le_extended hlen
  refine le_antisymm (h.reduced.vectorSpan_extended_le hlen hold ?_)
    (BitRow.rowSpan_le fun r hr => ?_)
  · rw [hvec]
    exact Submodule.add_mem _ hmem (hold (pivotSum_mem_vectorSpan _))
  · rcases List.mem_append.mp hr with hacc | hlast
    · exact hgrows (h.span_eq ▸ BitRow.toVec_mem_rowSpan hacc)
    · have hback : row.toVec n = (leftover n basis row).vector.toVec n +
          pivotSum n (·.vector) basis.reduced (row.toVec n) := by
        rw [hvec, add_add_self]
      rw [List.mem_singleton.mp hlast, hback]
      exact Submodule.add_mem _ toVec_mem_vectorSpan_extended
        (hgrows (pivotSum_mem_vectorSpan _))

/-- Taking in a row from outside the span keeps the invariant. -/
theorem Invariant.grown (h : Invariant n basis) (hrow : row.length = n) (hrank : basis.rank < n)
    (hout : row.toVec n ∉ BitRow.rowSpan n basis.accepted) {pivot : ℕ}
    (hpivot : (leftover n basis row).vector.firstSetBit = some pivot) :
    Invariant n (basis.grown row (leftover n basis row) pivot) := by
  have hlen := h.hasLength_leftover hrow
  have hrows : ∀ r ∈ basis.accepted ++ [row], r.length = n := by
    simpa [or_imp, forall_and, hrow] using h.length_accepted
  have hclear (p : PivotRow) (hp : p ∈ basis.reduced) :
      (leftover n basis row).vector.testBit p.pivot = false :=
    h.reduced.testBit_residue (h.hasLength_candidate hrow) hp
  refine ⟨h.aligned, h.dimension_eq, hrows, ?_, h.reduced.extended hlen hclear hpivot,
    h.span_grown hrow hrank pivot, fun q hq => ?_, fun q hq k hk => ?_, ?_⟩
  · simpa [RowBasis.grown, RowBasis.extended, rank] using h.length_reduced
  · rcases mem_extended.mp hq with ⟨p, hp, rfl⟩ | rfl
    · have hcoeff := TrackedRow.toVec_cleared_coefficients (h.reduced.hasLength p hp) hlen pivot
      have hvec := TrackedRow.toVec_cleared_vector (h.reduced.hasLength p hp) hlen pivot
      have hold : p.coefficients.toVec n ᵥ*
          BitMatrix.toMatrix n n ⟨basis.accepted ++ [row], basis.dimension⟩ = p.vector.toVec n := by
        have hbit : bitAt n basis.accepted.length (p.coefficients.toVec n) = 0 :=
          h.fresh p hp _ le_rfl
        rw [BitMatrix.vecMul_toMatrix_append hrank, hbit, zero_smul, add_zero]
        exact h.combination p hp
      rw [hcoeff, hvec, Matrix.add_vecMul, Matrix.smul_vecMul]
      exact congrArg₂ (· + ·) hold (congrArg _ (h.leftover_combination hrow hrank))
    · exact h.leftover_combination hrow hrank
  · have hk' : basis.rank < k := by simpa [RowBasis.grown, rank] using hk
    rcases mem_extended.mp hq with ⟨p, hp, rfl⟩ | rfl
    · have hcoeff := TrackedRow.toVec_cleared_coefficients (h.reduced.hasLength p hp) hlen pivot
      rw [hcoeff, map_add, map_smul, h.fresh p hp k hk'.le, h.leftover_fresh hrow hrank hk',
        smul_zero, add_zero]
    · exact h.leftover_fresh hrow hrank hk'
  · refine (BitRow.independent_insert h.aligned hrows).mpr ?_
    rw [List.append_nil]
    exact ⟨h.independent, hout⟩

/-- Every row of the reduced basis can be cleared. -/
theorem clearEach_eq_ok {source : TrackedRow} {pivot : ℕ} (hsource : source.HasLength n)
    (hpivot : pivot < n) : ∀ {rows : List PivotRow}, (∀ p ∈ rows, p.HasLength n) →
      clearEach source pivot rows =
        (.ok (), rows.map fun p => ⟨p.cleared source pivot, p.pivot⟩)
  | [], _ => rfl
  | p :: rows, h => by
    obtain ⟨hp, hrows⟩ := List.forall_mem_cons.mp h
    rw [clearEach, TrackedRow.clear_eq_ok hp hsource hpivot]
    dsimp only
    rw [clearEach_eq_ok hsource hpivot hrows, List.map_cons]

theorem Invariant.runOn_extend (h : Invariant n basis) (hrow : row.length = n) {pivot : ℕ}
    (hpivot : pivot < n) : (extend row (leftover n basis row) pivot).runOn basis =
      (.ok (), basis.grown row (leftover n basis row) pivot) := by
  have hclear : (clearColumn (leftover n basis row) pivot).runOn basis =
      (.ok (), { basis with reduced := basis.reduced.map fun p =>
        ⟨p.cleared (leftover n basis row) pivot, p.pivot⟩ }) := by
    have heach := clearEach_eq_ok (h.hasLength_leftover hrow) hpivot h.reduced.hasLength
    change ((clearEach _ _ basis.reduced).1, { basis with reduced := (clearEach _ _ _).2 }) = _
    rw [heach]
  rw [extend, Growing.runOn_bind, hclear]
  rfl

theorem offer_of_length_ne (h : row.length ≠ basis.dimension) :
    basis.offer row = (.error (.lengthMismatch basis.dimension row.length), basis) := by
  rw [offer, adjoin, Growing.runOn_get_bind, Growing.runOn_error_bind (checkWidth_eq_error h)]

/-- What the reduced basis leaves of a row decides whether the row is taken over. -/
theorem Invariant.offer_eq (h : Invariant n basis) (hrow : row.length = n)
    (hc : ¬basis.isComplete = true) : basis.offer row =
      match (leftover n basis row).vector.firstSetBit with
      | none => (.ok false, basis)
      | some pivot =>
        (extend row (leftover n basis row) pivot >>= fun _ => return true).runOn basis := by
  have hrank : basis.rank < n :=
    lt_of_le_of_ne h.rank_le fun heq => hc (h.isComplete_iff.mpr heq)
  have hunit : BitRow.unit basis.dimension basis.rank = .ok (BitRow.unitRow n basis.rank) := by
    rw [h.dimension_eq, BitRow.unit_eq_ok h.aligned hrank]
  have hreduce : basis.reduce ⟨row, BitRow.unitRow n basis.rank⟩ = .ok (leftover n basis row) :=
    (h.reduced.clearPivots_eq_ok (h.hasLength_candidate hrow)).1
  rw [offer, adjoin, Growing.runOn_get_bind,
    Growing.runOn_ok_bind (checkWidth_eq_ok (hrow.trans h.dimension_eq.symm)), if_neg hc,
    Growing.runOn_ok_bind hunit, Growing.runOn_ok_bind hreduce]
  cases (leftover n basis row).vector.firstSetBit <;> rfl

/-- What an offer does : it fails on a row of another width and changes nothing then, and else it
accepts the row exactly if that is outside the span. -/
theorem Invariant.offer_cases (h : Invariant n basis) (row : BitRow) :
    (row.length ≠ n ∧ basis.offer row = (.error (.lengthMismatch n row.length), basis)) ∨
      (row.length = n ∧ row.toVec n ∈ BitRow.rowSpan n basis.accepted ∧
        basis.offer row = (.ok false, basis)) ∨
      (row.length = n ∧ row.toVec n ∉ BitRow.rowSpan n basis.accepted ∧ ∃ next,
        basis.offer row = (.ok true, next) ∧ next.accepted = basis.accepted ++ [row] ∧
          Invariant n next) := by
  by_cases hrow : row.length = n
  · right
    by_cases hc : basis.isComplete = true
    · left
      rw [h.rowSpan_eq_top (h.isComplete_iff.mp hc), offer, adjoin, Growing.runOn_get_bind,
        Growing.runOn_ok_bind (checkWidth_eq_ok (hrow.trans h.dimension_eq.symm)), if_pos hc]
      exact ⟨hrow, Submodule.mem_top, rfl⟩
    · have hrank : basis.rank < n :=
        lt_of_le_of_ne h.rank_le fun heq => hc (h.isComplete_iff.mpr heq)
      have hspan := h.isZero_leftover_iff hrow
      rw [h.offer_eq hrow hc]
      cases hpivot : (leftover n basis row).vector.firstSetBit with
      | none => exact Or.inl ⟨hrow, hspan.mp (BitRow.firstSetBit_eq_none_iff.mp hpivot), rfl⟩
      | some pivot =>
        have hout : row.toVec n ∉ BitRow.rowSpan n basis.accepted := fun hmem => by
          rw [← hspan, ← BitRow.firstSetBit_eq_none_iff, hpivot] at hmem
          exact absurd hmem (Option.some_ne_none pivot)
        have hinv := h.grown hrow hrank hout hpivot
        have hlt : pivot < n := hinv.reduced.pivot_lt (mem_extended.mpr (Or.inr rfl))
        refine Or.inr ⟨hrow, hout, basis.grown row (leftover n basis row) pivot, ?_, rfl, hinv⟩
        dsimp only
        rw [Growing.runOn_bind, h.runOn_extend hrow hlt]
        rfl
  · left
    rw [offer_of_length_ne fun heq => hrow (heq.trans h.dimension_eq), h.dimension_eq]
    exact ⟨hrow, rfl⟩

/-- An error leaves the basis as it is. -/
theorem Invariant.offer_of_error (h : Invariant n basis) {cause : Error}
    (herror : (basis.offer row).1 = .error cause) : (basis.offer row).2 = basis := by
  rcases h.offer_cases row with ⟨-, heq⟩ | ⟨-, -, heq⟩ | ⟨-, -, next, heq, -⟩
  · rw [heq]
  · rw [heq]
  · rw [heq] at herror
    cases herror

/-- Where the basis is of no use after an error, the answer comes together with the basis. -/
theorem insert_eq_ok_iff {answer : Bool} {next : RowBasis} :
    basis.insert row = .ok (answer, next) ↔ basis.offer row = (.ok answer, next) := by
  unfold insert
  rcases basis.offer row with ⟨_ | accepted, last⟩ <;> simp [Except.map]

/-! ## Offering many rows -/

theorem Invariant.offer (h : Invariant n basis) (row : BitRow) :
    Invariant n (basis.offer row).2 := by
  rcases h.offer_cases row with ⟨-, heq⟩ | ⟨-, -, heq⟩ | ⟨-, -, next, heq, -, hnext⟩
  · rw [heq]
    exact h
  · rw [heq]
    exact h
  · rw [heq]
    exact hnext

theorem Invariant.offerAll : ∀ {basis : RowBasis}, Invariant n basis → ∀ rows : List BitRow,
    Invariant n (basis.offerAll rows).2
  | _, h, [] => h
  | _, h, row :: rows => (h.offer row).offerAll rows

/-- What offers span in the end : the rows of the right width, in any order. -/
theorem Invariant.rowSpan_offerAll : ∀ {basis : RowBasis}, Invariant n basis →
    ∀ rows : List BitRow, BitRow.rowSpan n (basis.offerAll rows).2.accepted =
      BitRow.rowSpan n (basis.accepted ++ rows.filter fun row => row.length = n)
  | _, _, [] => by rw [List.filter_nil, List.append_nil]; rfl
  | basis, h, row :: rows => by
    have hstep : BitRow.rowSpan n (basis.offer row).2.accepted =
        BitRow.rowSpan n (basis.accepted ++ [row].filter fun row => row.length = n) := by
      rcases h.offer_cases row with ⟨hne, heq⟩ | ⟨hrow, hmem, heq⟩ | ⟨hrow, -, next, heq, hacc, -⟩
      · simp [heq, hne]
      · rw [heq, List.filter_cons_of_pos (by simpa), List.filter_nil]
        refine le_antisymm (BitRow.rowSpan_mono (List.subset_append_left _ _)) ?_
        refine BitRow.rowSpan_le (List.forall_mem_append.mpr ⟨fun r hr => ?_, by simpa using hmem⟩)
        exact BitRow.toVec_mem_rowSpan hr
      · simp [heq, hrow, hacc]
    rw [← List.singleton_append, List.filter_append, ← List.append_assoc]
    refine ((h.offer row).rowSpan_offerAll rows).trans (le_antisymm ?_ ?_)
    · exact BitRow.rowSpan_append_le hstep.le _
    · exact BitRow.rowSpan_append_le hstep.ge _

end RowBasis

end BitLinear
