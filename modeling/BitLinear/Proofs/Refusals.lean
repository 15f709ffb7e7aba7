import BitLinear.Proofs.Checks
import BitLinear.Proofs.Interface

/-!
# The errors of the operations on rows, matrices and bases

`Operation.Refuses` lists, for each operation that combines values and draws none, the calls that
must fail and the error they must fail with. It speaks of lengths, shapes and ranks only. The last
statement is that on built values these errors are all there are: a call fails with an error exactly
if it is listed with it. Where a call is wrong in more than one way the list decides which error is
seen, as when a matrix is applied whose rows do not fill whole bytes to a row of another width.

Every row can be built, and so can every well-formed matrix (`built_matrix_iff`), the matrices
without rows by transposing one without columns.
-/

namespace BitLinear

/-! ## Rows and matrices that can be built -/

theorem built_row (row : BitRow) : Built (.row row) :=
  .result (.rowOfBytes row.toBytes) (by simp [Operation.operands]) rfl List.mem_cons_self

theorem built_of_ofRows {rows : List BitRow} {m : BitMatrix} (h : BitMatrix.ofRows rows = .ok m) :
    Built (.matrix m) := by
  refine .result (.ofRows rows) (List.forall_mem_map.mpr fun row _ => built_row row) ?_
    (List.mem_singleton.mpr rfl)
  rw [Operation.reply, Reply.ofResult, h]
  rfl

theorem built_matrix_iff {m : BitMatrix} : Built (.matrix m) ↔ m.WellFormed := by
  refine ⟨fun h => h.sound, fun hm => ?_⟩
  obtain ⟨_ | ⟨row, rows⟩, cols⟩ := m
  · -- only transposing makes a matrix without rows that has columns
    have hcols : cols % 8 = 0 := hm.1
    have hshape : (⟨List.replicate cols ⟨#[]⟩, 0⟩ : BitMatrix).HasShape cols 0 :=
      BitMatrix.hasShape_mk rfl List.length_replicate fun row hrow => by
        rw [List.eq_of_mem_replicate hrow]
        rfl
    have hbuilt : Built (.matrix ⟨List.replicate cols ⟨#[]⟩, 0⟩) :=
      built_of_ofRows (BitMatrix.ofRows_eq_ok_iff.mpr ⟨hshape.1, fun _ => rfl, rfl⟩)
    refine .result (.transpose _) (List.forall_mem_singleton.mpr hbuilt) ?_
      (List.mem_singleton.mpr rfl)
    rw [Operation.reply, Reply.ofResult, BitMatrix.transpose_eq_ok hshape hcols,
      BitMatrix.transposed, List.length_replicate]
    rfl
  · exact built_of_ofRows (BitMatrix.ofRows_eq_ok_iff.mpr ⟨hm, by simp, rfl⟩)

/-! ## The errors -/

namespace Operation

/-- A call that combines or tests rows, matrices and bases. -/
def Combines : Operation → Prop
  | addRows _ _ | mulRows _ _ | dot _ _ => True
  | ofRows _ | addMatrices _ _ | compose _ _ | apply _ _ | transpose _ => True
  | invert _ | isInvertible _ | trace _ => True
  | insert _ _ | isInSpan _ _ | inverse _ => True
  | _ => False

/-- The call must fail, with this error. -/
def Refuses : Operation → Error → Prop
  | addRows a b, cause | mulRows a b, cause | dot a b, cause =>
    a.length ≠ b.length ∧ cause = .lengthMismatch a.length b.length
  | ofRows rows, cause => ∃ i first row, BitMatrix.FirstRagged rows i first row ∧
      cause = .raggedRows i first.length row.length
  | addMatrices a b, cause => a.size ≠ b.size ∧ cause = .shapeMismatch a.size b.size
  | compose a b, cause => a.cols ≠ b.rows.length ∧ cause = .shapeMismatch a.size b.size
  | apply m input, cause =>
    (input.length ≠ m.cols ∧ cause = .shapeMismatch m.size (input.length, 1)) ∨
      input.length = m.cols ∧ m.rows.length % 8 ≠ 0 ∧ cause = .unaligned m.rows.length
  | transpose m, cause => m.rows.length % 8 ≠ 0 ∧ cause = .unaligned m.rows.length
  | invert m, cause | isInvertible m, cause | trace m, cause =>
    m.rows.length ≠ m.cols ∧ cause = .notSquare m.rows.length m.cols
  | insert basis row, cause | isInSpan basis row, cause =>
    row.length ≠ basis.dimension ∧ cause = .lengthMismatch basis.dimension row.length
  | inverse basis, cause =>
    basis.rank < basis.dimension ∧ cause = .incomplete basis.rank basis.dimension
  | _, _ => False

/-- On sound operands these are the errors of a call. -/
theorem eq_error_iff_of_sound {op : Operation} (hop : op.Combines) (hsound : AllSound op.operands)
    {cause : Error} : op.reply.result = .error cause ↔ op.Refuses cause := by
  cases op with
  | addRows a b => exact (map_eq_error_iff _).trans BitRow.add_eq_error_iff
  | mulRows a b => exact (map_eq_error_iff _).trans BitRow.mul_eq_error_iff
  | dot a b => exact (map_eq_error_iff _).trans BitRow.dot_eq_error_iff
  | ofRows rows => exact (map_eq_error_iff _).trans BitMatrix.ofRows_eq_error_iff
  | addMatrices a b =>
    have ha : a.WellFormed := hsound.matrix (by simp [operands])
    have hb : b.WellFormed := hsound.matrix (by simp [operands])
    exact (map_eq_error_iff _).trans (ha.add_eq_error_iff hb)
  | compose a b =>
    have ha : a.WellFormed := hsound.matrix (by simp [operands])
    have hb : b.WellFormed := hsound.matrix (by simp [operands])
    exact (map_eq_error_iff _).trans (ha.compose_eq_error_iff hb)
  | apply m input =>
    have hm : m.WellFormed := hsound.matrix (by simp [operands])
    exact (map_eq_error_iff _).trans hm.apply_eq_error_iff
  | transpose m =>
    have hm : m.WellFormed := hsound.matrix (by simp [operands])
    exact (map_eq_error_iff _).trans hm.transpose_eq_error_iff
  | invert m =>
    have hm : m.WellFormed := hsound.matrix (by simp [operands])
    exact (map_eq_error_iff _).trans hm.invert_eq_error_iff
  | isInvertible m =>
    have hm : m.WellFormed := hsound.matrix (by simp [operands])
    exact (map_eq_error_iff _).trans hm.isInvertible_eq_error_iff
  | trace m =>
    have hm : m.WellFormed := hsound.matrix (by simp [operands])
    exact (map_eq_error_iff _).trans hm.trace_eq_error_iff
  | insert basis row =>
    have hbasis := hsound.basis (b := basis) (by simp [operands])
    exact (map_eq_error_iff _).trans hbasis.offer_eq_error_iff
  | isInSpan basis row =>
    have hbasis := hsound.basis (b := basis) (by simp [operands])
    exact (map_eq_error_iff _).trans hbasis.isInSpan_eq_error_iff
  | inverse basis =>
    have hbasis := hsound.basis (b := basis) (by simp [operands])
    exact (map_eq_error_iff _).trans hbasis.inverse_eq_error_iff
  | _ => exact hop.elim

/-- A call on built values fails with exactly the errors it is listed with, and has a result if it
is listed with none. -/
theorem eq_error_iff_refuses {op : Operation} (hop : op.Combines)
    (hbuilt : ∀ v ∈ op.operands, Built v) :
    (∀ cause, op.reply.result = .error cause ↔ op.Refuses cause) ∧
      ((∃ values, op.reply.result = .ok values) ↔ ∀ cause, ¬op.Refuses cause) := by
  have herror (cause : Error) : op.reply.result = .error cause ↔ op.Refuses cause :=
    eq_error_iff_of_sound hop fun v hv => (hbuilt v hv).sound
  refine ⟨herror, ?_⟩
  simp only [← herror]
  cases op.reply.result with
  | ok values => simp
  | error cause => simp

/-- Nine rows of a byte, applied to a row of two bytes and to one of a single byte, and added to
themselves. -/
theorem eq_error_iff_refuses_nine :
    let m : BitMatrix := ⟨List.replicate 9 ⟨#[3]⟩, 8⟩
    (Operation.apply m ⟨#[1, 2]⟩).reply.result = .error (.shapeMismatch (9, 8) (16, 1)) ∧
      (Operation.apply m ⟨#[1]⟩).reply.result = .error (.unaligned 9) ∧
      ∃ values, (Operation.addMatrices m m).reply.result = .ok values := by
  intro m
  have hm : Built (.matrix m) := built_matrix_iff.mpr (by decide)
  have happly (row : BitRow) : (Operation.apply m row).Combines := trivial
  have hadd : (Operation.addMatrices m m).Combines := trivial
  have hbuilt (row : BitRow) : ∀ v ∈ (Operation.apply m row).operands, Built v :=
    List.forall_mem_cons.mpr ⟨hm, List.forall_mem_singleton.mpr (built_row row)⟩
  refine ⟨?_, ?_, ?_⟩
  · exact ((eq_error_iff_refuses (happly ⟨#[1, 2]⟩) (hbuilt _)).1 _).mpr (.inl ⟨by decide, rfl⟩)
  · exact ((eq_error_iff_refuses (happly ⟨#[1]⟩) (hbuilt _)).1 _).mpr (.inr ⟨rfl, by decide, rfl⟩)
  · refine (eq_error_iff_refuses hadd ?_).2.mpr fun cause h => h.1 rfl
    exact List.forall_mem_cons.mpr ⟨hm, List.forall_mem_singleton.mpr hm⟩

end Operation

end BitLinear
