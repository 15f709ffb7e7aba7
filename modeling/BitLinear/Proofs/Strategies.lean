import BitLinear.Proofs.Filling
import BitLinear.Proofs.Rejection
import Mathlib

/-!
# The two ways to draw an invertible matrix on one script

Rows complete a basis exactly when they span the space (`isComplete_offerAll_iff`), and the rows of
an invertible matrix do so with none to spare (`completes_rows`). When rejection answers with a
matrix, the rows that were drawn until then span the space, so drawing row by row comes to an end
with no more of the script (`exists_consumes_of_rejectionSample`).

`SucceedsFirst` says that the first matrix drawn is invertible. Both ways then give the same answer.
The last statement compares them : drawing row by row succeeds with as many rows as the matrix has
exactly when rejection succeeds at once.
-/

namespace BitLinear

namespace RowBasis

variable {n : ℕ} {rows : List BitRow}

/-- The basis without rows is completed by rows that span the space. -/
theorem isComplete_offerAll_iff (hn : n % 8 = 0) (hrows : ∀ row ∈ rows, row.length = n) :
    (offerAll ⟨n, [], []⟩ rows).2.isComplete = true ↔ BitRow.rowSpan n rows = ⊤ := by
  rw [((invariant_empty hn).offerAll rows).isComplete_iff_rowSpan,
    rowSpan_accepted_offerAll hn hrows]

theorem Completes.le_length (hn : n % 8 = 0) (h : Completes ⟨n, [], []⟩ rows) :
    n ≤ rows.length := by
  rw [← ((invariant_empty hn).offerAll rows).isComplete_iff.mp h.isComplete]
  exact (accepted_offerAll_sublist hn rows).length_le

/-- If a complete basis was offered no more rows than it has columns, all of them are accepted. -/
theorem accepted_eq_of_isComplete (hn : n % 8 = 0)
    (hc : (offerAll ⟨n, [], []⟩ rows).2.isComplete = true) (hlen : rows.length = n) :
    (offerAll ⟨n, [], []⟩ rows).2.accepted = rows := by
  have hrank := ((invariant_empty hn).offerAll rows).isComplete_iff.mp hc
  exact (accepted_offerAll_sublist hn rows).eq_of_length (hrank.trans hlen.symm)

end RowBasis

namespace BitMatrix

variable {n : ℕ} {m inv : BitMatrix} {source after : ByteSource}

/-- The rows of an invertible matrix span the space. -/
theorem rowSpan_rows_eq_top (hm : m.HasShape n n) (hinv : m.invert = .ok (some inv)) :
    BitRow.rowSpan n m.rows = ⊤ := by
  have hind := (independent_rows_iff hm).mpr ((exists_invert_iff hm).mp ⟨inv, hinv⟩)
  refine Submodule.eq_top_of_finrank_eq ?_
  rw [hind.finrank_rowSpan hm.aligned hm.length_row, hm.length_rows, Module.finrank_fin_fun]

/-- The rows of the invertible matrices are those that complete a basis. -/
theorem isComplete_offerAll_rows_iff (hm : m.HasShape n n) :
    (RowBasis.offerAll ⟨n, [], []⟩ m.rows).2.isComplete = true ↔
      ∃ inv, m.invert = .ok (some inv) := by
  refine ⟨fun hc => ?_, ?_⟩
  · have hind := ((RowBasis.invariant_empty hm.aligned).offerAll m.rows).independent
    rw [RowBasis.accepted_eq_of_isComplete hm.aligned hc hm.length_rows] at hind
    exact (exists_invert_iff hm).mpr ((independent_rows_iff hm).mp hind)
  · rintro ⟨inv, hinv⟩
    exact (RowBasis.isComplete_offerAll_iff hm.aligned hm.length_row).mpr
      (rowSpan_rows_eq_top hm hinv)

/-- The rows of an invertible matrix complete a basis with none to spare. -/
theorem completes_rows (hm : m.HasShape n n) (hinv : m.invert = .ok (some inv)) :
    RowBasis.Completes ⟨n, [], []⟩ m.rows := by
  have hn := hm.aligned
  have hlast := (isComplete_offerAll_rows_iff hm).mpr ⟨inv, hinv⟩
  rcases RowBasis.completes_cases ⟨n, [], []⟩ m.rows with ⟨used, later, heq, hcomp⟩ | hnot
  · have hlen := congrArg List.length heq
    rw [List.length_append, hm.length_rows] at hlen
    have hle := hcomp.le_length hn
    obtain rfl : later = [] := List.length_eq_zero_iff.mp (by omega)
    rw [List.append_nil] at heq
    rwa [heq]
  · exact absurd (hnot.symm.trans hlast) Bool.false_ne_true

/-- When rejection succeeds, drawing row by row does so with no more bytes. -/
theorem exists_consumes_of_rejectionSample (hn : n % 8 = 0) {maxAttempts : ℕ} {bytes : List Byte}
    (h : (rejectionSample n maxAttempts).runOn (.script bytes) = (.ok (m, inv), after)) :
    ∃ c c', (rejectionSample n maxAttempts).Consumes bytes c ∧ c' ≤ c ∧
      (randomInvertible n).Consumes bytes c' ∧
        ∃ pair, ((randomInvertible n).runOn (.script bytes)).1 = .ok pair := by
  obtain ⟨failed, -, -, hm, hinv, hrows⟩ := (rejectionSample_eq_ok_iff hn).mp h
  obtain ⟨hlen, rest, rfl, rfl⟩ := (ByteSource.supplies_script_iff hn).mp hrows
  -- whatever was dropped or accepted before, the rows of the last matrix alone span the space
  have hspan : BitRow.rowSpan n (failed.flatMap (·.rows) ++ m.rows) = ⊤ := by
    refine top_le_iff.mp ?_
    rw [← rowSpan_rows_eq_top hm hinv]
    exact BitRow.rowSpan_mono (List.subset_append_right _ _)
  have hconsumes := Draw.consumes_append (congrArg Prod.snd h)
  rcases RowBasis.completes_cases ⟨n, [], []⟩ (failed.flatMap (·.rows) ++ m.rows) with
    ⟨used, later, heq, hcomp⟩ | hnot
  · rw [heq] at hlen hconsumes ⊢
    obtain ⟨m', inv', hrun, -⟩ := randomInvertible_eq_ok hn (List.forall_mem_append.mp hlen).1
      hcomp (BitRow.bytesOf later ++ rest)
    rw [BitRow.bytesOf_append, List.append_assoc] at hconsumes ⊢
    refine ⟨_, _, hconsumes, ?_, Draw.consumes_append (congrArg Prod.snd hrun), ?_⟩
    · simp
    · exact ⟨_, congrArg Prod.fst hrun⟩
  · exact absurd (hnot.symm.trans ((RowBasis.isComplete_offerAll_iff hn hlen).mpr hspan))
      Bool.false_ne_true

/-! ## The first matrix -/

/-- The first matrix drawn is `m`, which is invertible, and the source is then `after`. -/
def SucceedsFirst (n : ℕ) (source : ByteSource) (m inv : BitMatrix) (after : ByteSource) : Prop :=
  (uniform n).runOn source = (.ok m, after) ∧ m.invert = .ok (some inv)

theorem SucceedsFirst.rejectionSample (hn : n % 8 = 0) (h : SucceedsFirst n source m inv after)
    {maxAttempts : ℕ} (hmax : 1 ≤ maxAttempts) :
    (rejectionSample n maxAttempts).runOn source = (.ok (m, inv), after) := by
  obtain ⟨hm, hrows⟩ := (uniform_eq_ok_iff hn).mp h.1
  exact (rejectionSample_eq_ok_iff hn).mpr ⟨[], hmax, by simp, hm, h.2, hrows⟩

/-- An invertible matrix at the front of a script is drawn row by row. -/
theorem SucceedsFirst.randomInvertible (hn : n % 8 = 0) {bytes : List Byte}
    (h : SucceedsFirst n (.script bytes) m inv after) :
    (randomInvertible n).runOn (.script bytes) = (.ok (m, inv), after) ∧
      (BitMatrix.randomInvertible n).Consumes bytes (n * (n / 8)) := by
  obtain ⟨hm, hrows⟩ := (uniform_eq_ok_iff hn).mp h.1
  obtain ⟨hlen, rest, rfl, rfl⟩ := (ByteSource.supplies_script_iff hn).mp hrows
  have hcomp := completes_rows hm h.2
  obtain ⟨m', inv', hrun, haccepted, hm', hinv'⟩ := randomInvertible_eq_ok hn hlen hcomp rest
  rw [RowBasis.accepted_eq_of_isComplete hn hcomp.isComplete hm.length_rows] at haccepted
  obtain rfl : m' = m := hm'.eq_of_rows_eq hm haccepted
  obtain rfl : inv' = inv := by simpa using hinv'.symm.trans h.2
  have hconsumes := Draw.consumes_append (congrArg Prod.snd hrun)
  rw [BitRow.length_bytesOf hlen, hm.length_rows] at hconsumes
  exact ⟨hrun, hconsumes⟩

/-- As many rows as the matrix has are enough only if they are an invertible matrix. -/
theorem exists_succeedsFirst (hn : n % 8 = 0) {bytes : List Byte}
    (h : (randomInvertible n).runOn (.script bytes) = (.ok (m, inv), after))
    (hconsumes : (randomInvertible n).Consumes bytes (n * (n / 8))) :
    SucceedsFirst n (.script bytes) m inv after := by
  obtain ⟨used, rest, rfl, rfl, hused, hcomp, haccepted⟩ := exists_of_randomInvertible_eq_ok hn h
  obtain ⟨hm, hinv⟩ := of_randomInvertible_eq_ok h
  have hlen := hconsumes.eq_length (congrArg Prod.snd h)
  rw [BitRow.length_bytesOf hused] at hlen
  -- rows without bits take no bytes, so there the number of bytes does not tell that of the rows
  have hrows : used.length = n := by
    rcases Nat.eq_zero_or_pos n with rfl | hpos
    · rw [hcomp.eq_nil rfl, List.length_nil]
    · exact (Nat.eq_of_mul_eq_mul_right (by omega) hlen).symm
  rw [RowBasis.accepted_eq_of_isComplete hn hcomp.isComplete hrows] at haccepted
  refine ⟨(uniform_eq_ok_iff hn).mpr ⟨hm, ?_⟩, hinv⟩
  rw [haccepted]
  exact (ByteSource.supplies_script_iff hn).mpr ⟨hused, rest, rfl, rfl⟩

/-- A script that ends within the row after a singular matrix is used up to that row. -/
theorem randomInvertible_of_singular (hn : n % 8 = 0) {bytes rest : List Byte}
    (hm : (uniform n).runOn (.script bytes) = (.ok m, .script rest))
    (hsingular : m.invert = .ok none) (hrest : rest.length < n / 8) :
    (randomInvertible n).runOn (.script bytes) = (.error .sourceExhausted, .script rest) ∧
      (randomInvertible n).Consumes bytes (n * (n / 8)) := by
  obtain ⟨hshape, hrows⟩ := (uniform_eq_ok_iff hn).mp hm
  obtain ⟨hlen, rest', rfl, heq⟩ := (ByteSource.supplies_script_iff hn).mp hrows
  obtain rfl := ByteSource.script.inj heq
  have hlast : (RowBasis.offerAll ⟨n, [], []⟩ m.rows).2.isComplete = false := by
    refine Bool.eq_false_iff.mpr fun hc => ?_
    obtain ⟨inv, hinv⟩ := (isComplete_offerAll_rows_iff hshape).mp hc
    simp [hsingular] at hinv
  have hrun := randomInvertible_eq_error hn hlen hlast hrest
  have hconsumes := Draw.consumes_append (congrArg Prod.snd hrun)
  rw [BitRow.length_bytesOf hlen, hshape.length_rows] at hconsumes
  exact ⟨hrun, hconsumes⟩

/-- A run that fails after as many rows as the matrix has was given a singular matrix and no row
after it. -/
theorem exists_singular_of_randomInvertible_eq_error (hn : n % 8 = 0) {bytes : List Byte}
    {cause : Error} (h : ((randomInvertible n).runOn (.script bytes)).1 = .error cause)
    (hconsumes : (randomInvertible n).Consumes bytes (n * (n / 8))) :
    ∃ m rest, (uniform n).runOn (.script bytes) = (.ok m, .script rest) ∧
      m.invert = .ok none ∧ rest.length < n / 8 := by
  rcases randomInvertible_cases hn bytes with
    ⟨used, rest, rfl, hused, hcomp⟩ | ⟨rows, tail, rfl, hrows, hlast, htail⟩
  · obtain ⟨m, inv, hrun, -⟩ := randomInvertible_eq_ok hn hused hcomp rest
    simp [hrun] at h
  · have hlen := hconsumes.eq_length
      (congrArg Prod.snd (randomInvertible_eq_error hn hrows hlast htail))
    rw [BitRow.length_bytesOf hrows] at hlen
    have hshape : (⟨rows, n⟩ : BitMatrix).HasShape n n :=
      hasShape_mk hn (Nat.eq_of_mul_eq_mul_right (by omega) hlen).symm hrows
    refine ⟨⟨rows, n⟩, tail, (uniform_eq_ok_iff hn).mpr ⟨hshape, ?_⟩, ?_, htail⟩
    · exact (ByteSource.supplies_script_iff hn).mpr ⟨hrows, tail, rfl, rfl⟩
    · rcases invert_cases hshape with ⟨b, hb, -⟩ | ⟨hnone, -⟩
      · have hc := (isComplete_offerAll_rows_iff hshape).mpr ⟨b, hb⟩
        exact absurd (hlast.symm.trans hc) Bool.false_ne_true
      · exact hnone

/-- Drawing row by row succeeds with no more bytes than rejection, and with as many rows as the
matrix has exactly when rejection succeeds with its first matrix. Both then answer the same. A run
that fails takes as many rows only from a script that ends after a singular matrix. -/
theorem randomInvertible_compared_with_rejectionSample (hn : n % 8 = 0) (bytes : List Byte) :
    (∀ maxAttempts pair, ((rejectionSample n maxAttempts).runOn (.script bytes)).1 = .ok pair →
      ∃ c c', (rejectionSample n maxAttempts).Consumes bytes c ∧ c' ≤ c ∧
        (randomInvertible n).Consumes bytes c' ∧
          ∃ pair', ((randomInvertible n).runOn (.script bytes)).1 = .ok pair') ∧
    (∀ maxAttempts, 1 ≤ maxAttempts →
      ((∃ pair, ((randomInvertible n).runOn (.script bytes)).1 = .ok pair) ∧
          (randomInvertible n).Consumes bytes (n * (n / 8)) ↔
        ∃ m inv after, SucceedsFirst n (.script bytes) m inv after) ∧
      ∀ m inv after, SucceedsFirst n (.script bytes) m inv after →
        (randomInvertible n).runOn (.script bytes) = (.ok (m, inv), after) ∧
          (rejectionSample n maxAttempts).runOn (.script bytes) = (.ok (m, inv), after)) ∧
    ((∃ cause, ((randomInvertible n).runOn (.script bytes)).1 = .error cause) ∧
        (randomInvertible n).Consumes bytes (n * (n / 8)) ↔
      ∃ m rest, (uniform n).runOn (.script bytes) = (.ok m, .script rest) ∧
        m.invert = .ok none ∧ rest.length < n / 8) := by
  refine ⟨?_, fun maxAttempts hmax => ⟨⟨?_, ?_⟩, fun m inv after h => ?_⟩, ⟨?_, ?_⟩⟩
  · rintro maxAttempts ⟨m, inv⟩ h
    exact exists_consumes_of_rejectionSample hn (Prod.ext h rfl)
  · rintro ⟨⟨⟨m, inv⟩, h⟩, hconsumes⟩
    exact ⟨m, inv, _, exists_succeedsFirst hn (Prod.ext h rfl) hconsumes⟩
  · rintro ⟨m, inv, after, h⟩
    obtain ⟨hrun, hconsumes⟩ := h.randomInvertible hn
    exact ⟨⟨_, congrArg Prod.fst hrun⟩, hconsumes⟩
  · exact ⟨(h.randomInvertible hn).1, h.rejectionSample hn hmax⟩
  · rintro ⟨⟨cause, h⟩, hconsumes⟩
    exact exists_singular_of_randomInvertible_eq_error hn h hconsumes
  · rintro ⟨m, rest, hm, hsingular, hrest⟩
    obtain ⟨hrun, hconsumes⟩ := randomInvertible_of_singular hn hm hsingular hrest
    exact ⟨⟨_, congrArg Prod.fst hrun⟩, hconsumes⟩

/-- The rows of a singular matrix and of an invertible one : rejection answers with the second
matrix, and drawing row by row completes the first with the last row. -/
theorem randomInvertible_compared_with_rejectionSample_eight : 8 % 8 = 0 ∧
    ((rejectionSample 8 2).runOn (.script
        [2, 1, 4, 8, 16, 96, 64, 0, 2, 1, 4, 8, 16, 96, 64, 255])).1 =
      .ok (sample, sampleInverse) ∧
    ∃ c c', (rejectionSample 8 2).Consumes
        [2, 1, 4, 8, 16, 96, 64, 0, 2, 1, 4, 8, 16, 96, 64, 255] c ∧ c' ≤ c ∧
      (randomInvertible 8).Consumes [2, 1, 4, 8, 16, 96, 64, 0, 2, 1, 4, 8, 16, 96, 64, 255] c' ∧
        ∃ pair', ((randomInvertible 8).runOn (.script
          [2, 1, 4, 8, 16, 96, 64, 0, 2, 1, 4, 8, 16, 96, 64, 255])).1 = .ok pair' := by
  have hrun : ((rejectionSample 8 2).runOn (.script
        [2, 1, 4, 8, 16, 96, 64, 0, 2, 1, 4, 8, 16, 96, 64, 255])).1 =
      .ok (sample, sampleInverse) := by cbv
  exact ⟨rfl, hrun, (randomInvertible_compared_with_rejectionSample rfl _).1 2 _ hrun⟩

/-- Eight equal rows are used up in vain, which is as many rows as the matrix has. -/
theorem randomInvertible_exhausts_eight :
    ¬((randomInvertible 8).Consumes (List.replicate 8 0) (8 * (8 / 8)) ↔
      ∃ m inv after, SucceedsFirst 8 (.script (List.replicate 8 0)) m inv after) := by
  intro hiff
  have hconsumes : (randomInvertible 8).Consumes (List.replicate 8 0) (8 * (8 / 8)) :=
    ⟨by decide, by cbv⟩
  obtain ⟨m, inv, after, hm, hinv⟩ := hiff.mp hconsumes
  have hzero : (uniform 8).runOn (.script (List.replicate 8 0)) =
      (.ok ⟨List.replicate 8 ⟨#[0]⟩, 8⟩, .script []) := by cbv
  obtain rfl := Except.ok.inj (congrArg Prod.fst (hzero.symm.trans hm))
  have hnone : (⟨List.replicate 8 ⟨#[0]⟩, 8⟩ : BitMatrix).invert = .ok none := by cbv
  exact Option.some_ne_none inv (Except.ok.inj (hinv.symm.trans hnone))

end BitMatrix

end BitLinear
