import BitLinear.Proofs.Growth

/-!
# A basis does not depend on how it grew

`Agree n a b` says that two bases have the same rank, the same pivots with the same reduced rows,
and the same answers to every row. Bases whose accepted rows span the same space agree
(`Invariant.agree`), because a reduced basis is determined by its span. What offers span does not
depend on their order (`Invariant.rowSpan_offerAll_perm`), so neither does what they lead to.
-/

namespace BitLinear

namespace RowBasis

/-- Two bases that no row tells apart, with the same reduced rows. -/
structure Agree (n : ℕ) (a b : RowBasis) : Prop where
  rank_eq : a.rank = b.rank
  reduced_perm : (a.reduced.map fun p => (p.pivot, p.vector)).Perm
    (b.reduced.map fun p => (p.pivot, p.vector))
  isInSpan : ∀ row : BitRow, row.length = n →
    ∃ answer, a.isInSpan row = .ok answer ∧ b.isInSpan row = .ok answer
  offer : ∀ row : BitRow, row.length = n →
    ∃ answer, (a.offer row).1 = .ok answer ∧ (b.offer row).1 = .ok answer

variable {n : ℕ} {a b basis : RowBasis} {row : BitRow}

/-- An offer of the right width is answered by whether the row is outside the span. -/
theorem Invariant.offer_eq_ok (h : Invariant n basis) (hrow : row.length = n) :
    ∃ answer, (basis.offer row).1 = .ok answer ∧
      (answer = true ↔ row.toVec n ∉ BitRow.rowSpan n basis.accepted) := by
  rcases h.offer_cases row with ⟨hne, -⟩ | ⟨-, hmem, heq⟩ | ⟨-, hout, next, heq, -⟩
  · exact absurd hrow hne
  · exact ⟨false, by rw [heq], by simpa using hmem⟩
  · exact ⟨true, by rw [heq], by simpa using hout⟩

/-- Bases whose accepted rows span the same space agree. -/
theorem Invariant.agree (ha : Invariant n a) (hb : Invariant n b)
    (hspan : BitRow.rowSpan n a.accepted = BitRow.rowSpan n b.accepted) : Agree n a b := by
  have hperm := ha.reduced.perm_of_span_eq hb.reduced
    (ha.span_eq.trans (hspan.trans hb.span_eq.symm))
  refine ⟨?_, hperm, fun row hrow => ?_, fun row hrow => ?_⟩
  · have hlen := hperm.length_eq
    rwa [List.length_map, List.length_map, ha.length_reduced, hb.length_reduced] at hlen
  · obtain ⟨x, hx, hxiff⟩ := ha.isInSpan_eq_ok hrow
    obtain ⟨y, hy, hyiff⟩ := hb.isInSpan_eq_ok hrow
    have hxy : x = y := Bool.eq_iff_iff.mpr (by rw [hxiff, hyiff, hspan])
    exact ⟨x, hx, hxy ▸ hy⟩
  · obtain ⟨x, hx, hxiff⟩ := ha.offer_eq_ok hrow
    obtain ⟨y, hy, hyiff⟩ := hb.offer_eq_ok hrow
    have hxy : x = y := Bool.eq_iff_iff.mpr (by rw [hxiff, hyiff, hspan])
    exact ⟨x, hx, hxy ▸ hy⟩

/-- What offers span does not depend on their order. -/
theorem Invariant.rowSpan_offerAll_perm (h : Invariant n basis) {xs ys : List BitRow}
    (hperm : xs.Perm ys) : BitRow.rowSpan n (basis.offerAll xs).2.accepted =
      BitRow.rowSpan n (basis.offerAll ys).2.accepted := by
  have hrows := (hperm.filter fun row => row.length = n).append_left basis.accepted
  rw [h.rowSpan_offerAll, h.rowSpan_offerAll]
  exact le_antisymm (BitRow.rowSpan_mono hrows.subset) (BitRow.rowSpan_mono hrows.symm.subset)

/-- Two bases that grew from the one without rows agree as soon as their accepted rows span the same
space, and in particular when the same rows were offered in another order. -/
theorem agree_offerAll (hn : n % 8 = 0) : ∃ start, empty n = .ok start ∧ ∀ xs ys : List BitRow,
    BitRow.rowSpan n (start.offerAll xs).2.accepted =
        BitRow.rowSpan n (start.offerAll ys).2.accepted ∨ xs.Perm ys →
      Agree n (start.offerAll xs).2 (start.offerAll ys).2 := by
  have hempty := invariant_empty hn
  refine ⟨_, empty_eq_ok hn, fun xs ys hsame => ?_⟩
  refine (hempty.offerAll xs).agree (hempty.offerAll ys) ?_
  rcases hsame with hspan | hperm
  · exact hspan
  · exact hempty.rowSpan_offerAll_perm hperm

/-- Three rows, one of them dependent and one of another width, in two orders. -/
theorem agree_offerAll_eight : 8 % 8 = 0 ∧ ∃ start, empty 8 = .ok start ∧
    List.Perm [⟨#[6]⟩, ⟨#[1, 2]⟩, ⟨#[5]⟩, ⟨#[3]⟩] [⟨#[3]⟩, ⟨#[6]⟩, ⟨#[1, 2]⟩, (⟨#[5]⟩ : BitRow)] ∧
      Agree 8 (start.offerAll [⟨#[6]⟩, ⟨#[1, 2]⟩, ⟨#[5]⟩, ⟨#[3]⟩]).2
        (start.offerAll [⟨#[3]⟩, ⟨#[6]⟩, ⟨#[1, 2]⟩, ⟨#[5]⟩]).2 := by
  have hperm : List.Perm [⟨#[6]⟩, ⟨#[1, 2]⟩, ⟨#[5]⟩, ⟨#[3]⟩]
      [⟨#[3]⟩, ⟨#[6]⟩, ⟨#[1, 2]⟩, (⟨#[5]⟩ : BitRow)] := by decide
  obtain ⟨start, hstart, hagree⟩ := agree_offerAll (n := 8) rfl
  exact ⟨rfl, start, hstart, hperm, hagree _ _ (Or.inr hperm)⟩

end RowBasis

end BitLinear
