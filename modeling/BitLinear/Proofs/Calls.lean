import BitLinear.Proofs.Growth
import BitLinear.Sampling

/-!
# Every reachable basis is consistent

The interface of a growing basis has three calls : offer a row, ask whether a row is in the span,
and draw a row from outside the span. `Consistent n basis` says, bit by bit, how accepted rows,
reduced basis, coefficients and pivots fit together. The main statement is that it holds of every
state that calls reach from the basis without rows, whatever the rows and sources are.
-/

open Matrix

namespace BitLinear

namespace RowBasis

/-- A call of the interface. -/
inductive Call where
  /-- Offer a row. -/
  | offer (row : BitRow)
  /-- Ask whether a row is in the span. -/
  | isInSpan (row : BitRow)
  /-- Draw a row from outside the span. -/
  | novel (source : ByteSource)

/-- What a call answers. -/
inductive Answer where
  /-- Whether the row was accepted. -/
  | accepted (result : Except Error Bool)
  /-- Whether the row is in the span. -/
  | spanned (result : Except Error Bool)
  /-- The row that was drawn, and the source after it. -/
  | drawn (result : Except Error BitRow) (source : ByteSource)

/-- The answer to a call and the basis after it. -/
def respond (basis : RowBasis) : Call → Answer × RowBasis
  | .offer row =>
    let (answer, next) := basis.offer row
    (.accepted answer, next)
  | .isInSpan row => (.spanned (basis.isInSpan row), basis)
  | .novel source =>
    let (result, rest) := basis.novel.runOn source
    (.drawn result rest, basis)

/-- The answers to calls one after the other and the basis after them. -/
def respondAll (basis : RowBasis) : List Call → List Answer × RowBasis
  | [] => ([], basis)
  | call :: calls =>
    let (answer, next) := basis.respond call
    let (answers, last) := next.respondAll calls
    (answer :: answers, last)

/-! ## Consistency -/

/-- How the parts of a basis fit together. -/
structure Consistent (n : ℕ) (basis : RowBasis) : Prop where
  dimension_eq : basis.dimension = n
  rank_le : basis.rank ≤ n
  length_reduced : basis.reduced.length = basis.rank
  length_accepted : ∀ row ∈ basis.accepted, row.length = n
  length_vector : ∀ p ∈ basis.reduced, p.vector.length = n
  length_coefficients : ∀ p ∈ basis.reduced, p.coefficients.length = n
  nodup_pivots : (basis.reduced.map (·.pivot)).Nodup
  pivot_lt : ∀ p ∈ basis.reduced, p.pivot < n
  /-- A pivot belongs to one row only. -/
  testBit_pivot : ∀ i j : Fin basis.reduced.length,
    (basis.reduced.get i).vector.testBit (basis.reduced.get j).pivot = decide (i = j)
  /-- No bit is set below the pivot. -/
  testBit_of_lt : ∀ p ∈ basis.reduced, ∀ k < p.pivot, p.vector.testBit k = false
  /-- The coefficients name the accepted rows that make the vector. -/
  isCombination : ∀ p ∈ basis.reduced, p.IsCombination basis.accepted
  /-- The coefficients name accepted rows only. -/
  testBit_coefficients : ∀ p ∈ basis.reduced, ∀ k, basis.rank ≤ k →
    p.coefficients.testBit k = false
  independent : BitRow.Independent n basis.accepted

variable {n : ℕ} {basis : RowBasis}

/-- Coefficients name the rows that add up to a vector when their product with the accepted rows is
that vector. -/
theorem Invariant.isCombination_iff (h : Invariant n basis) {t : TrackedRow} (ht : t.HasLength n) :
    t.IsCombination basis.accepted ↔
      t.coefficients.toVec n ᵥ* basis.matrix.toMatrix n n = t.vector.toVec n := by
  obtain ⟨hvector, hcoefficients⟩ := ht
  have hlen : basis.accepted.length ≤ t.coefficients.length := hcoefficients ▸ h.rank_le
  obtain ⟨hcombine, hlength⟩ := BitRow.combine_eq_ok h.aligned hlen h.length_accepted
  have hcols : (⟨basis.accepted, n⟩ : BitMatrix) = basis.matrix := by rw [matrix, h.dimension_eq]
  rw [TrackedRow.IsCombination, hvector, hcombine, Except.ok.injEq,
    ← BitRow.toVec_inj hlength hvector,
    BitMatrix.toVec_combination h.aligned h.rank_le h.length_accepted, hcols]

theorem Invariant.isCombination (h : Invariant n basis) {p : PivotRow} (hp : p ∈ basis.reduced) :
    p.IsCombination basis.accepted :=
  (h.isCombination_iff (h.reduced.hasLength p hp)).mpr (h.combination p hp)

theorem Invariant.testBit_pivot (h : Invariant n basis) (i j : Fin basis.reduced.length) :
    (basis.reduced.get i).vector.testBit (basis.reduced.get j).pivot = decide (i = j) := by
  by_cases hij : i = j
  · rw [hij, h.reduced.testBit_pivot (List.get_mem _ j), decide_eq_true rfl]
  · have hnodup : basis.reduced.Nodup := List.Nodup.of_map _ h.reduced.nodup_pivots
    have hne := (List.nodup_iff_injective_get.mp hnodup).ne hij
    rw [h.reduced.testBit_of_ne (List.get_mem _ i) (List.get_mem _ j) hne, decide_eq_false hij]

theorem Invariant.consistent (h : Invariant n basis) : Consistent n basis where
  dimension_eq := h.dimension_eq
  rank_le := h.rank_le
  length_reduced := h.length_reduced
  length_accepted := h.length_accepted
  length_vector p hp := (h.reduced.hasLength p hp).1
  length_coefficients p hp := (h.reduced.hasLength p hp).2
  nodup_pivots := h.reduced.nodup_pivots
  pivot_lt _ hp := h.reduced.pivot_lt hp
  testBit_pivot := h.testBit_pivot
  testBit_of_lt _ hp _ hk := h.reduced.testBit_of_lt hp hk
  isCombination _ hp := h.isCombination hp
  testBit_coefficients p hp k hk := by
    have hbit := h.fresh p hp k hk
    rw [BitRow.bitAt_toVec (h.reduced.hasLength p hp).2] at hbit
    exact ofBit_eq_zero.mp hbit
  independent := h.independent

theorem Invariant.respond (h : Invariant n basis) :
    ∀ call : Call, Invariant n (basis.respond call).2
  | .offer row => h.offer row
  | .isInSpan _ => h
  | .novel _ => h

theorem Invariant.respondAll : ∀ {basis : RowBasis}, Invariant n basis → ∀ calls : List Call,
    Invariant n (basis.respondAll calls).2
  | _, h, [] => h
  | _, h, call :: calls => (h.respond call).respondAll calls

/-- Whatever is called, the basis stays consistent. -/
theorem consistent_respondAll (hn : n % 8 = 0) (calls : List Call) :
    ∃ start, empty n = .ok start ∧ Consistent n (start.respondAll calls).2 :=
  ⟨_, empty_eq_ok hn, ((invariant_empty hn).respondAll calls).consistent⟩

/-- Two rows are accepted, a row of the span and one of another width are not, and a draw changes
nothing. -/
theorem consistent_respondAll_eight : 8 % 8 = 0 ∧ ∃ start, empty 8 = .ok start ∧ ∃ answers last,
    start.respondAll [.offer ⟨#[6]⟩, .isInSpan ⟨#[4]⟩, .offer ⟨#[6]⟩, .offer ⟨#[1, 2]⟩,
        .offer ⟨#[4]⟩, .novel (.script [2, 9])] = (answers, last) ∧
      last.rank = 2 ∧ Consistent 8 last := by
  obtain ⟨start, hstart, hlast⟩ := consistent_respondAll (n := 8) rfl [.offer ⟨#[6]⟩,
    .isInSpan ⟨#[4]⟩, .offer ⟨#[6]⟩, .offer ⟨#[1, 2]⟩, .offer ⟨#[4]⟩, .novel (.script [2, 9])]
  obtain rfl : ⟨8, [], []⟩ = start := Except.ok.inj ((empty_eq_ok rfl).symm.trans hstart)
  exact ⟨rfl, _, hstart, _, _, rfl, by decide +kernel, hlast⟩

end RowBasis

end BitLinear
