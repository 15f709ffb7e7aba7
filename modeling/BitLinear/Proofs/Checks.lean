import BitLinear.Proofs.InverseAgreement
import BitLinear.Proofs.MatrixText
import BitLinear.Proofs.Trace
import BitLinear.Proofs.Transpose

/-!
# When an operation fails

An operation compares lengths or shapes first, and the operations that it is made of check theirs
again. On well-formed matrices, and on bases that keep their invariant, no inner check fails, since
the width of a matrix fills whole bytes. For each operation there is one statement : it fails
exactly if its own check does, and with the error of that check (`eq_error_iff_of_refused`). The
number of rows need not fill whole bytes, so that applying and transposing have one more reason to
fail. Applying looks at the length of the vector first (`WellFormed.apply_eq_error_iff`).
-/

namespace BitLinear

variable {α β : Type} {cause refusal : Error}

/-- What fails with one error if it is refused, and has a value otherwise, fails in no other way. -/
theorem eq_error_iff_of_refused {refused : Prop} {result : Except Error α}
    (hrefused : refused → result = .error refusal)
    (hdone : ¬refused → ∃ value, result = .ok value) :
    result = .error cause ↔ refused ∧ cause = refusal := by
  by_cases h : refused
  · rw [hrefused h, Except.error.injEq, and_iff_right h, eq_comm]
  · obtain ⟨value, hvalue⟩ := hdone h
    simp [hvalue, h]

theorem map_eq_error_iff (f : α → β) {result : Except Error α} :
    result.map f = .error cause ↔ result = .error cause := by
  cases result with
  | ok value => simp [Except.map]
  | error => simp [Except.map]

/-! ## Rows -/

namespace BitRow

variable {a b : BitRow}

theorem checkSameLength_eq_error_iff : checkSameLength a b = .error cause ↔
    a.length ≠ b.length ∧ cause = .lengthMismatch a.length b.length :=
  eq_error_iff_of_refused (fun h => if_neg h) fun h => ⟨(), if_pos (not_not.mp h)⟩

theorem add_eq_error_iff : a.add b = .error cause ↔
    a.length ≠ b.length ∧ cause = .lengthMismatch a.length b.length :=
  (map_eq_error_iff fun _ => a.sum b).trans checkSameLength_eq_error_iff

theorem mul_eq_error_iff : a.mul b = .error cause ↔
    a.length ≠ b.length ∧ cause = .lengthMismatch a.length b.length :=
  (map_eq_error_iff fun _ => a.product b).trans checkSameLength_eq_error_iff

theorem dot_eq_error_iff : a.dot b = .error cause ↔
    a.length ≠ b.length ∧ cause = .lengthMismatch a.length b.length :=
  (map_eq_error_iff fun _ => (a.product b).parity).trans checkSameLength_eq_error_iff

end BitRow

/-! ## Matrices -/

namespace BitMatrix

variable {a b m : BitMatrix} {v : BitRow}

/-- Row `i` is the first row whose length is not that of row 0. -/
structure FirstRagged (rows : List BitRow) (i : ℕ) (first row : BitRow) : Prop where
  head : rows.head? = some first
  get : rows[i]? = some row
  length_ne : row.length ≠ first.length
  before : ∀ r ∈ rows.take i, r.length = first.length

theorem find?_ragged_eq_some_iff {rows : List BitRow} {width i : ℕ} {row : BitRow} :
    (rows.zipIdx.find? fun (row, _) => row.length ≠ width) = some (row, i) ↔
      rows[i]? = some row ∧ row.length ≠ width ∧ ∀ r ∈ rows.take i, r.length = width := by
  rw [List.find?_eq_some_iff_getElem]
  simp only [List.getElem_zipIdx, Nat.zero_add, Prod.mk.injEq, decide_eq_true_eq,
    Bool.not_eq_true', decide_eq_false_iff_not, not_not, List.length_zipIdx]
  refine ⟨?_, ?_⟩
  · rintro ⟨hne, k, hk, ⟨rfl, rfl⟩, hbefore⟩
    refine ⟨List.getElem?_eq_getElem hk, hne, fun r hr => ?_⟩
    obtain ⟨j, hj, rfl⟩ := List.mem_take_iff_getElem.mp hr
    exact hbefore j (lt_min_iff.mp hj).1
  · rintro ⟨hget, hne, hbefore⟩
    obtain ⟨hi, rfl⟩ := List.getElem?_eq_some_iff.mp hget
    refine ⟨hne, i, hi, ⟨rfl, rfl⟩, fun j hj => hbefore _ ?_⟩
    exact List.mem_take_iff_getElem.mpr ⟨j, lt_min hj (hj.trans hi), rfl⟩

theorem ofRows_eq_error_iff {rows : List BitRow} : ofRows rows = .error cause ↔
    ∃ i first row, FirstRagged rows i first row ∧
      cause = .raggedRows i first.length row.length := by
  unfold ofRows
  dsimp only
  refine ⟨fun h => ?_, ?_⟩
  · split at h
    · rename_i row i hfind
      obtain ⟨hget, hne, hbefore⟩ := find?_ragged_eq_some_iff.mp hfind
      cases rows with
      | nil => cases hget
      | cons first rows =>
        exact ⟨i, first, row, ⟨rfl, hget, hne, hbefore⟩, (Except.error.inj h).symm⟩
    · cases h
  · rintro ⟨i, first, row, hrow, rfl⟩
    rw [hrow.head, Option.map_some, Option.getD_some,
      find?_ragged_eq_some_iff.mpr ⟨hrow.get, hrow.length_ne, hrow.before⟩]

theorem WellFormed.add_eq_error_iff (ha : a.WellFormed) (hb : b.WellFormed) :
    a.add b = .error cause ↔ a.size ≠ b.size ∧ cause = .shapeMismatch a.size b.size := by
  refine eq_error_iff_of_refused (fun h => if_neg h) fun h => ?_
  exact ⟨_, add_eq_ok ha.hasShape ⟨hb, (not_not.mp h).symm⟩⟩

theorem WellFormed.compose_eq_error_iff (ha : a.WellFormed) (hb : b.WellFormed) :
    a.compose b = .error cause ↔
      a.cols ≠ b.rows.length ∧ cause = .shapeMismatch a.size b.size := by
  refine eq_error_iff_of_refused (fun h => if_neg h) fun h => ?_
  have hfit : b.HasShape a.cols b.cols := ⟨hb, by rw [size, not_not.mp h]⟩
  exact ⟨_, compose_eq_ok ha.hasShape hfit⟩

/-- The vector is looked at before the number of rows. -/
theorem WellFormed.apply_eq_error_iff (hm : m.WellFormed) : m.apply v = .error cause ↔
    (v.length ≠ m.cols ∧ cause = .shapeMismatch m.size (v.length, 1)) ∨
      v.length = m.cols ∧ m.rows.length % 8 ≠ 0 ∧ cause = .unaligned m.rows.length := by
  by_cases hv : v.length = m.cols
  · simp only [hv, ne_eq, not_true_eq_false, false_and, true_and, false_or]
    exact eq_error_iff_of_refused (fun hr => apply_eq_error hm.hasShape hr hv) fun hr =>
      ⟨_, apply_eq_ok hm.hasShape (not_not.mp hr) hv⟩
  · rw [apply, if_neg hv]
    simp [hv, eq_comm]

theorem WellFormed.transpose_eq_error_iff (hm : m.WellFormed) : m.transpose = .error cause ↔
    m.rows.length % 8 ≠ 0 ∧ cause = .unaligned m.rows.length := by
  refine eq_error_iff_of_refused (fun h => ?_) fun h => ?_
  · rw [transpose, checkAligned_eq_error h]
    rfl
  · exact ⟨_, transpose_eq_ok hm.hasShape (not_not.mp h)⟩

theorem WellFormed.invert_eq_error_iff (hm : m.WellFormed) : m.invert = .error cause ↔
    m.rows.length ≠ m.cols ∧ cause = .notSquare m.rows.length m.cols := by
  refine eq_error_iff_of_refused (fun h => ?_) fun h => ?_
  · rw [invert, checkSquare_eq_error h]
    rfl
  · rcases invert_cases (hm.hasShape_square (not_not.mp h)) with ⟨b, hb, -⟩ | ⟨hnone, -⟩
    · exact ⟨_, hb⟩
    · exact ⟨_, hnone⟩

theorem WellFormed.isInvertible_eq_error_iff (hm : m.WellFormed) :
    m.isInvertible = .error cause ↔
      m.rows.length ≠ m.cols ∧ cause = .notSquare m.rows.length m.cols :=
  (map_eq_error_iff Option.isSome).trans hm.invert_eq_error_iff

theorem WellFormed.trace_eq_error_iff (hm : m.WellFormed) : m.trace = .error cause ↔
    m.rows.length ≠ m.cols ∧ cause = .notSquare m.rows.length m.cols := by
  refine eq_error_iff_of_refused (fun h => ?_) fun h => ?_
  · rw [trace, checkSquare_eq_error h]
    rfl
  · exact ⟨_, (hm.hasShape_square (not_not.mp h)).trace_eq_ok⟩

end BitMatrix

/-! ## Bases -/

namespace RowBasis

variable {n : ℕ} {basis : RowBasis} {row : BitRow}

theorem Invariant.offer_eq_error_iff (h : Invariant n basis) :
    (basis.offer row).1 = .error cause ↔ row.length ≠ n ∧ cause = .lengthMismatch n row.length := by
  refine eq_error_iff_of_refused (fun hrow => ?_) fun hrow => ?_
  · rcases h.offer_cases row with ⟨-, heq⟩ | ⟨hlen, -⟩ | ⟨hlen, -⟩
    · exact congrArg Prod.fst heq
    · exact absurd hlen hrow
    · exact absurd hlen hrow
  · rcases h.offer_cases row with ⟨hne, -⟩ | ⟨-, -, heq⟩ | ⟨-, -, next, heq, -⟩
    · exact absurd hne hrow
    · exact ⟨false, congrArg Prod.fst heq⟩
    · exact ⟨true, congrArg Prod.fst heq⟩

theorem Invariant.isInSpan_eq_error_iff (h : Invariant n basis) :
    basis.isInSpan row = .error cause ↔ row.length ≠ n ∧ cause = .lengthMismatch n row.length := by
  refine eq_error_iff_of_refused (fun hrow => ?_) fun hrow => ?_
  · rw [isInSpan, checkWidth_eq_error fun heq => hrow (heq.trans h.dimension_eq), h.dimension_eq]
    rfl
  · obtain ⟨answer, hanswer, -⟩ := h.isInSpan_eq_ok (not_not.mp hrow)
    exact ⟨answer, hanswer⟩

theorem Invariant.inverse_eq_error_iff (h : Invariant n basis) :
    basis.inverse = .error cause ↔ basis.rank < n ∧ cause = .incomplete basis.rank n := by
  refine eq_error_iff_of_refused (fun hrank => ?_) fun hrank => ?_
  · have hc : ¬basis.isComplete = true := fun hc => hrank.ne (h.isComplete_iff.mp hc)
    rw [inverse, if_neg hc, h.dimension_eq]
  · obtain ⟨b, hb, -⟩ := h.inverse_eq_ok (le_antisymm h.rank_le (Nat.le_of_not_lt hrank))
    exact ⟨b, hb⟩

end RowBasis

end BitLinear
