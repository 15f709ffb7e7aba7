import BitLinear.Proofs.Calls
import BitLinear.Proofs.Filling

/-!
# How much of the space is spanned

The accepted rows are independent, so the rows in their span are as many as choices of them :
two to the power of the rank (`Invariant.ncard_spanned`). A row that is drawn falls into the span
of `r` rows once in `2 ^ (n - r)` times. `SpanExact n basis` says this of the span test, together
with what the test finds and how it agrees with an offer of the same row. The main statement is that
it holds of every state that calls reach from the basis without rows.
-/

namespace BitLinear.RowBasis

/-- What the span test finds, before and after an offer, and how often. -/
structure SpanExact (n : ℕ) (basis : RowBasis) : Prop where
  /-- The test finds the rows to which some of the accepted rows add up. -/
  isInSpan : ∀ row : BitRow, row.length = n → ∃ answer, basis.isInSpan row = .ok answer ∧
    (answer = true ↔ BitRow.IsSum n basis.accepted row)
  /-- A row is accepted if the test does not find it, and it is found after its offer. -/
  offer : ∀ row : BitRow, row.length = n → ∃ fresh, (basis.offer row).1 = .ok fresh ∧
    basis.isInSpan row = .ok !fresh ∧ (basis.offer row).2.isInSpan row = .ok true
  ncard_rows : {row : BitRow | row.length = n}.ncard = 2 ^ n
  ncard_spanned :
    {row : BitRow | row.length = n ∧ basis.isInSpan row = .ok true}.ncard = 2 ^ basis.rank
  /-- As long as the basis is not complete the test does not find every row. -/
  exists_outside : basis.isComplete = false →
    ∃ row : BitRow, row.length = n ∧ basis.isInSpan row = .ok false

variable {n : ℕ} {basis : RowBasis} {row : BitRow}

theorem Invariant.isInSpan_eq_true_iff (h : Invariant n basis) (hrow : row.length = n) :
    basis.isInSpan row = .ok true ↔ row.toVec n ∈ BitRow.rowSpan n basis.accepted := by
  obtain ⟨answer, hanswer, hiff⟩ := h.isInSpan_eq_ok hrow
  rw [hanswer, Except.ok.injEq, hiff]

/-- An offer is answered as the test answers before it, and leaves the row in the span. -/
theorem Invariant.isInSpan_offer (h : Invariant n basis) (hrow : row.length = n) :
    ∃ fresh, (basis.offer row).1 = .ok fresh ∧ basis.isInSpan row = .ok !fresh ∧
      (basis.offer row).2.isInSpan row = .ok true := by
  rcases h.offer_cases row with ⟨hne, -⟩ | ⟨-, hmem, heq⟩ | ⟨-, hout, next, heq, hacc, hnext⟩
  · exact absurd hrow hne
  · have hspanned := h.isInSpan_of_mem hrow hmem
    rw [heq]
    exact ⟨false, rfl, hspanned, hspanned⟩
  · have hlast : row.toVec n ∈ BitRow.rowSpan n next.accepted := by
      rw [hacc]
      exact BitRow.toVec_mem_rowSpan List.mem_concat_self
    rw [heq]
    exact ⟨true, rfl, h.isInSpan_of_not_mem hrow hout, hnext.isInSpan_of_mem hrow hlast⟩

/-- The rows in the span are two to the power of the rank. -/
theorem Invariant.ncard_spanned (h : Invariant n basis) :
    {row : BitRow | row.length = n ∧ basis.isInSpan row = .ok true}.ncard = 2 ^ basis.rank := by
  have hset : {row : BitRow | row.length = n ∧ basis.isInSpan row = .ok true} =
      {row : BitRow | row.length = n ∧ row.toVec n ∈ BitRow.rowSpan n basis.accepted} := by
    ext row
    exact and_congr_right fun hrow => h.isInSpan_eq_true_iff hrow
  rw [hset, BitRow.ncard_of_mem h.aligned, ← h.rank_eq_finrank]

/-- A basis with a rank below its dimension leaves a row out, as it spans fewer rows than there
are. -/
theorem Invariant.exists_outside (h : Invariant n basis) (hc : basis.isComplete = false) :
    ∃ row : BitRow, row.length = n ∧ basis.isInSpan row = .ok false := by
  have hne : BitRow.rowSpan n basis.accepted ≠ ⊤ := by
    rw [Ne, ← h.isComplete_iff_rowSpan, hc]
    exact Bool.false_ne_true
  obtain ⟨v, -, hv⟩ := SetLike.exists_of_lt (lt_top_iff_ne_top.mpr hne)
  have hrow := BitRow.length_ofVec h.aligned v
  rw [← BitRow.toVec_ofVec h.aligned v] at hv
  exact ⟨BitRow.ofVec v, hrow, h.isInSpan_of_not_mem hrow hv⟩

theorem Invariant.spanExact (h : Invariant n basis) : SpanExact n basis where
  isInSpan row hrow := by
    obtain ⟨answer, hanswer, hiff⟩ := h.isInSpan_eq_ok hrow
    refine ⟨answer, hanswer, hiff.trans ?_⟩
    exact BitRow.toVec_mem_rowSpan_iff h.aligned h.length_accepted hrow
  offer _ hrow := h.isInSpan_offer hrow
  ncard_rows := by
    have hall := BitRow.ncard_of_mem h.aligned ⊤
    simpa using hall
  ncard_spanned := h.ncard_spanned
  exists_outside := h.exists_outside

/-- Whatever is called, the span test finds exactly the sums of accepted rows, agrees with an offer,
and finds two to the power of the rank of all rows. -/
theorem spanExact_respondAll (hn : n % 8 = 0) (calls : List Call) :
    ∃ start, empty n = .ok start ∧ SpanExact n (start.respondAll calls).2 :=
  ⟨_, empty_eq_ok hn, ((invariant_empty hn).respondAll calls).spanExact⟩

/-- Two of three rows are accepted, and span four rows of eight bits. -/
theorem spanExact_respondAll_eight : 8 % 8 = 0 ∧ ∃ start last, empty 8 = .ok start ∧
    (start.respondAll [.offer ⟨#[6]⟩, .isInSpan ⟨#[4]⟩, .offer ⟨#[5]⟩, .offer ⟨#[3]⟩]).2 = last ∧
      {row : BitRow | row.length = 8 ∧ last.isInSpan row = .ok true}.ncard = 4 ∧
      ∃ row : BitRow, row.length = 8 ∧ last.isInSpan row = .ok false := by
  obtain ⟨start, hstart, hspan⟩ := spanExact_respondAll (n := 8) rfl
    [.offer ⟨#[6]⟩, .isInSpan ⟨#[4]⟩, .offer ⟨#[5]⟩, .offer ⟨#[3]⟩]
  obtain rfl : ⟨8, [], []⟩ = start := Except.ok.inj ((empty_eq_ok rfl).symm.trans hstart)
  refine ⟨rfl, _, _, hstart, rfl, hspan.ncard_spanned.trans ?_, hspan.exists_outside ?_⟩
  · decide +kernel
  · decide +kernel

end BitLinear.RowBasis
