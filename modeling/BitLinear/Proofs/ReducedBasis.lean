import BitLinear.RowBasis
import BitLinear.Proofs.Span

/-!
# Reduced bases

`Reduced n rows` says that every row has its lowest set bit at its pivot and no other row has that
bit. A vector of their span is then the sum of the rows whose pivots it has (`pivotSum_of_mem`),
so clearing all pivots of a row leaves zero exactly when the row is in the span
(`Reduced.isZero_residue_iff`). A row that is left over can be taken in, after its lowest bit is
cleared in the others (`Reduced.extended`). Two reduced bases of one space have the same rows and
pivots (`Reduced.mem_of_span_eq`).
-/

namespace BitLinear

/-- Neither row has the pivot of the other. -/
def PivotRow.Apart (p q : PivotRow) : Prop :=
  p.vector.testBit q.pivot = false ∧ q.vector.testBit p.pivot = false

instance : Std.Symm PivotRow.Apart where
  symm _ _ h := ⟨h.2, h.1⟩

namespace RowBasis

/-- Every row has its lowest set bit at its pivot, and no other row has that bit. -/
structure Reduced (n : ℕ) (rows : List PivotRow) : Prop where
  hasLength : ∀ p ∈ rows, p.HasLength n
  firstSetBit_eq : ∀ p ∈ rows, p.vector.firstSetBit = some p.pivot
  apart : rows.Pairwise PivotRow.Apart

/-- The subspace that the vectors span. -/
def vectorSpan (n : ℕ) (rows : List PivotRow) : Submodule (ZMod 2) (Fin n → ZMod 2) :=
  BitRow.rowSpan n (rows.map (·.vector))

/-- The sum of one part of the rows whose pivots a vector has. -/
def pivotSum (n : ℕ) (part : PivotRow → BitRow) (rows : List PivotRow) :
    (Fin n → ZMod 2) →ₗ[ZMod 2] Fin n → ZMod 2 :=
  (rows.map fun p => (bitAt n p.pivot).smulRight ((part p).toVec n)).sum

variable {n : ℕ} {part : PivotRow → BitRow} {p q : PivotRow} {rows : List PivotRow}

/-! ## Pivots -/

theorem Reduced.of_cons (h : Reduced n (p :: rows)) : Reduced n rows where
  hasLength q hq := h.hasLength q (List.mem_cons_of_mem p hq)
  firstSetBit_eq q hq := h.firstSetBit_eq q (List.mem_cons_of_mem p hq)
  apart := h.apart.of_cons

theorem Reduced.testBit_pivot (h : Reduced n rows) (hp : p ∈ rows) :
    p.vector.testBit p.pivot = true :=
  (BitRow.firstSetBit_eq_some_iff.mp (h.firstSetBit_eq p hp)).1

theorem Reduced.testBit_of_lt (h : Reduced n rows) (hp : p ∈ rows) {j : ℕ} (hj : j < p.pivot) :
    p.vector.testBit j = false :=
  (BitRow.firstSetBit_eq_some_iff.mp (h.firstSetBit_eq p hp)).2 j hj

theorem Reduced.pivot_lt (h : Reduced n rows) (hp : p ∈ rows) : p.pivot < n :=
  (BitRow.lt_length_of_testBit (h.testBit_pivot hp)).trans_eq (h.hasLength p hp).1

theorem Reduced.testBit_of_ne (h : Reduced n rows) (hp : p ∈ rows) (hq : q ∈ rows) (hne : p ≠ q) :
    p.vector.testBit q.pivot = false :=
  (h.apart.forall hp hq hne).1

theorem Reduced.nodup_pivots (h : Reduced n rows) : (rows.map (·.pivot)).Nodup := by
  refine List.pairwise_map.mpr (h.apart.imp_of_mem fun {p q} hp _ hpq heq => ?_)
  have hbit := h.testBit_pivot hp
  rw [heq, hpq.1] at hbit
  exact absurd hbit Bool.false_ne_true

theorem Reduced.bitAt_vector (h : Reduced n rows) (hp : p ∈ rows) (k : ℕ) :
    bitAt n k (p.vector.toVec n) = ofBit (p.vector.testBit k) :=
  BitRow.bitAt_toVec (h.hasLength p hp).1 k

/-! ## Sums by pivots -/

@[simp] theorem pivotSum_nil : pivotSum n part [] = 0 :=
  rfl

theorem pivotSum_cons (v : Fin n → ZMod 2) : pivotSum n part (p :: rows) v =
    bitAt n p.pivot v • (part p).toVec n + pivotSum n part rows v := by
  simp [pivotSum]

theorem pivotSum_eq_zero {v : Fin n → ZMod 2} :
    ∀ {rows : List PivotRow}, (∀ p ∈ rows, bitAt n p.pivot v = 0) → pivotSum n part rows v = 0
  | [], _ => rfl
  | p :: rows, h => by
    obtain ⟨hp, hrest⟩ := List.forall_mem_cons.mp h
    rw [pivotSum_cons, hp, zero_smul, zero_add]
    exact pivotSum_eq_zero hrest

/-- A linear map of the sum is the sum of what it makes of the parts. -/
theorem map_pivotSum {part' : PivotRow → BitRow}
    (f : (Fin n → ZMod 2) →ₗ[ZMod 2] Fin n → ZMod 2) (v : Fin n → ZMod 2) :
    ∀ {rows : List PivotRow}, (∀ p ∈ rows, f ((part p).toVec n) = (part' p).toVec n) →
      f (pivotSum n part rows v) = pivotSum n part' rows v
  | [], _ => map_zero f
  | p :: rows, h => by
    obtain ⟨hp, hrest⟩ := List.forall_mem_cons.mp h
    rw [pivotSum_cons, pivotSum_cons, map_add, map_smul, hp, map_pivotSum f v hrest]

/-- A bit of the sum comes from a row that takes part and has the bit. -/
theorem exists_of_bitAt_pivotSum {v : Fin n → ZMod 2} {k : ℕ} :
    ∀ {rows : List PivotRow}, bitAt n k (pivotSum n part rows v) ≠ 0 →
      ∃ p ∈ rows, bitAt n p.pivot v ≠ 0 ∧ bitAt n k ((part p).toVec n) ≠ 0
  | [], h => absurd (map_zero _) h
  | p :: rows, h => by
    rw [pivotSum_cons, map_add, map_smul, smul_eq_mul] at h
    by_cases hp : bitAt n p.pivot v * bitAt n k ((part p).toVec n) = 0
    · rw [hp, zero_add] at h
      obtain ⟨q, hq, hbits⟩ := exists_of_bitAt_pivotSum h
      exact ⟨q, List.mem_cons_of_mem p hq, hbits⟩
    · exact ⟨p, by simp, mul_ne_zero_iff.mp hp⟩

theorem pivotSum_mem {v : Fin n → ZMod 2} {W : Submodule (ZMod 2) (Fin n → ZMod 2)} :
    ∀ {rows : List PivotRow}, (∀ p ∈ rows, (part p).toVec n ∈ W) → pivotSum n part rows v ∈ W
  | [], _ => W.zero_mem
  | p :: rows, h => by
    obtain ⟨hp, hrest⟩ := List.forall_mem_cons.mp h
    rw [pivotSum_cons]
    exact W.add_mem (W.smul_mem _ hp) (pivotSum_mem hrest)

theorem toVec_mem_vectorSpan (hp : p ∈ rows) : p.vector.toVec n ∈ vectorSpan n rows :=
  BitRow.toVec_mem_rowSpan (List.mem_map_of_mem hp)

theorem vectorSpan_le {W : Submodule (ZMod 2) (Fin n → ZMod 2)}
    (h : ∀ p ∈ rows, p.vector.toVec n ∈ W) : vectorSpan n rows ≤ W := by
  refine BitRow.rowSpan_le fun row hrow => ?_
  obtain ⟨p, hp, rfl⟩ := List.mem_map.mp hrow
  exact h p hp

theorem pivotSum_mem_vectorSpan (v : Fin n → ZMod 2) :
    pivotSum n (·.vector) rows v ∈ vectorSpan n rows :=
  pivotSum_mem fun _ hp => toVec_mem_vectorSpan hp

theorem Reduced.pivotSum_vector : ∀ {rows : List PivotRow}, Reduced n rows → ∀ {p}, p ∈ rows →
    pivotSum n (·.vector) rows (p.vector.toVec n) = p.vector.toVec n
  | q :: rows, h, p, hp => by
    have hq : q ∈ q :: rows := List.mem_cons_self
    obtain ⟨hapart, -⟩ := List.pairwise_cons.mp h.apart
    rw [pivotSum_cons, h.bitAt_vector hp]
    rcases List.mem_cons.mp hp with rfl | hmem
    · rw [h.testBit_pivot hp, ofBit_true, one_smul, pivotSum_eq_zero fun r hr => ?_, add_zero]
      rw [h.bitAt_vector hp, (hapart r hr).1, ofBit_false]
    · rw [(hapart p hmem).2, ofBit_false, zero_smul, zero_add]
      exact h.of_cons.pivotSum_vector hmem

/-- A vector of the span is the sum of the rows whose pivots it has. -/
theorem Reduced.pivotSum_of_mem (h : Reduced n rows) {v : Fin n → ZMod 2}
    (hv : v ∈ vectorSpan n rows) : pivotSum n (·.vector) rows v = v := by
  have hle : vectorSpan n rows ≤ LinearMap.eqLocus (pivotSum n (·.vector) rows) LinearMap.id :=
    vectorSpan_le fun _ hp => h.pivotSum_vector hp
  exact hle hv

theorem Reduced.eq_zero_of_mem (h : Reduced n rows) {v : Fin n → ZMod 2}
    (hv : v ∈ vectorSpan n rows) (hbits : ∀ p ∈ rows, bitAt n p.pivot v = 0) : v = 0 := by
  rw [← h.pivotSum_of_mem hv, pivotSum_eq_zero hbits]

/-- The sum of rows by the pivots of a vector has these pivots. -/
theorem Reduced.bitAt_pivotSum {v : Fin n → ZMod 2} : ∀ {rows : List PivotRow}, Reduced n rows →
    ∀ {p}, p ∈ rows → bitAt n p.pivot (pivotSum n (·.vector) rows v) = bitAt n p.pivot v
  | q :: rows, h, p, hp => by
    have hq : q ∈ q :: rows := List.mem_cons_self
    obtain ⟨hapart, -⟩ := List.pairwise_cons.mp h.apart
    rw [pivotSum_cons, map_add, map_smul, smul_eq_mul, h.bitAt_vector hq]
    rcases List.mem_cons.mp hp with rfl | hmem
    · have hrest : bitAt n p.pivot (pivotSum n (·.vector) rows v) = 0 := by
        by_contra hne
        obtain ⟨r, hr, -, hbit⟩ := exists_of_bitAt_pivotSum hne
        rw [h.of_cons.bitAt_vector hr, (hapart r hr).2] at hbit
        exact hbit rfl
      rw [h.testBit_pivot hp, ofBit_true, mul_one, hrest, add_zero]
    · rw [(hapart p hmem).1, ofBit_false, mul_zero, zero_add]
      exact h.of_cons.bitAt_pivotSum hmem

/-! ## Clearing the pivots of a row -/

/-- What is left of a row when the pivots are cleared one after the other. -/
def residue (rows : List PivotRow) (row : TrackedRow) : TrackedRow :=
  rows.foldl (fun row p => row.cleared p.toTrackedRow p.pivot) row

variable {row rest : TrackedRow} {pivot : ℕ}

theorem Reduced.clearPivots_eq_ok (h : Reduced n rows) (hrow : row.HasLength n) :
    clearPivots rows row = .ok (residue rows row) ∧ (residue rows row).HasLength n :=
  foldlM_eq_ok (fun t : TrackedRow => t.HasLength n) hrow fun _ ht p hp =>
    ⟨TrackedRow.clear_eq_ok ht (h.hasLength p hp) (h.pivot_lt hp),
      ht.cleared (h.hasLength p hp) p.pivot⟩

/-- One pass adds the rows whose pivots the row had at the start. -/
theorem Reduced.toVec_residue : ∀ {rows : List PivotRow}, Reduced n rows →
    ∀ {row : TrackedRow}, row.HasLength n →
      (residue rows row).vector.toVec n = row.vector.toVec n +
        pivotSum n (·.vector) rows (row.vector.toVec n) ∧
      (residue rows row).coefficients.toVec n = row.coefficients.toVec n +
        pivotSum n (·.coefficients) rows (row.vector.toVec n)
  | [], _, _, _ => by simp [residue]
  | p :: rows, h, row, hrow => by
    have hp := h.hasLength p List.mem_cons_self
    obtain ⟨hapart, -⟩ := List.pairwise_cons.mp h.apart
    obtain ⟨hv, hc⟩ := h.of_cons.toVec_residue (hrow.cleared hp p.pivot)
    -- `p` has none of the later pivots, so they are still as in `row` once `p` is added
    have hkeep (part : PivotRow → BitRow) :
        pivotSum n part rows ((row.cleared p.toTrackedRow p.pivot).vector.toVec n) =
          pivotSum n part rows (row.vector.toVec n) := by
      have hzero : pivotSum n part rows (p.vector.toVec n) = 0 := pivotSum_eq_zero fun q hq => by
        rw [h.bitAt_vector List.mem_cons_self, (hapart q hq).1, ofBit_false]
      rw [TrackedRow.toVec_cleared_vector hrow hp, map_add, map_smul, hzero, smul_zero, add_zero]
    rw [hkeep, TrackedRow.toVec_cleared_vector hrow hp] at hv
    rw [hkeep, TrackedRow.toVec_cleared_coefficients hrow hp] at hc
    rw [pivotSum_cons, pivotSum_cons, ← add_assoc, ← add_assoc]
    exact ⟨hv, hc⟩

theorem Reduced.testBit_residue (h : Reduced n rows) (hrow : row.HasLength n) (hp : p ∈ rows) :
    (residue rows row).vector.testBit p.pivot = false := by
  have hlen := (h.clearPivots_eq_ok hrow).2.1
  rw [← ofBit_eq_zero, ← BitRow.bitAt_toVec hlen, (h.toVec_residue hrow).1, map_add,
    h.bitAt_pivotSum hp, ZModModule.add_self]

/-- Nothing is left exactly when the row is in the span. -/
theorem Reduced.isZero_residue_iff (h : Reduced n rows) (hrow : row.HasLength n) :
    (residue rows row).vector.isZero = true ↔ row.vector.toVec n ∈ vectorSpan n rows := by
  rw [BitRow.isZero_iff_toVec (h.clearPivots_eq_ok hrow).2.1, (h.toVec_residue hrow).1,
    add_eq_zero_iff_eq]
  refine ⟨?_, ?_⟩
  · intro heq
    rw [heq]
    exact pivotSum_mem_vectorSpan _
  · intro hmem
    exact (h.pivotSum_of_mem hmem).symm

theorem Reduced.pivots_subset (h : Reduced n rows) : rows.map (·.pivot) ⊆ List.range n := by
  intro k hk
  obtain ⟨p, hp, rfl⟩ := List.mem_map.mp hk
  exact List.mem_range.mpr (h.pivot_lt hp)

theorem Reduced.length_le (h : Reduced n rows) : rows.length ≤ n := by
  simpa using (List.subperm_of_subset h.nodup_pivots h.pivots_subset).length_le

/-- In as many rows as columns every column is a pivot. -/
theorem Reduced.pivots_perm (h : Reduced n rows) (hlen : rows.length = n) :
    (rows.map (·.pivot)).Perm (List.range n) :=
  (List.subperm_of_subset h.nodup_pivots h.pivots_subset).perm_of_length_le (by simp [hlen])

theorem Reduced.exists_pivot (h : Reduced n rows) (hlen : rows.length = n) {k : ℕ} (hk : k < n) :
    ∃ p ∈ rows, p.pivot = k :=
  List.mem_map.mp ((h.pivots_perm hlen).mem_iff.mpr (List.mem_range.mpr hk))

theorem Reduced.vectorSpan_eq_top (h : Reduced n rows) (hlen : rows.length = n) :
    vectorSpan n rows = ⊤ := by
  refine Submodule.eq_top_iff'.mpr fun v => ?_
  have hzero : v + pivotSum n (·.vector) rows v = 0 := eq_zero_of_bitAt fun k hk => by
    obtain ⟨p, hp, rfl⟩ := h.exists_pivot hlen hk
    rw [map_add, h.bitAt_pivotSum hp, ZModModule.add_self]
  rw [add_eq_zero_iff_eq.mp hzero]
  exact pivotSum_mem_vectorSpan _

/-! ## Taking in a row -/

/-- Clear the column of a new pivot and put the row with that pivot at the end. -/
def extended (rows : List PivotRow) (rest : TrackedRow) (pivot : ℕ) : List PivotRow :=
  rows.map (fun p => ⟨p.cleared rest pivot, p.pivot⟩) ++ [⟨rest, pivot⟩]

theorem mem_extended : q ∈ extended rows rest pivot ↔
    (∃ p ∈ rows, (⟨p.cleared rest pivot, p.pivot⟩ : PivotRow) = q) ∨ q = ⟨rest, pivot⟩ := by
  rw [extended, List.mem_append, List.mem_map, List.mem_singleton]

theorem Reduced.extended (h : Reduced n rows) (hrest : rest.HasLength n)
    (hclear : ∀ p ∈ rows, rest.vector.testBit p.pivot = false)
    (hpivot : rest.vector.firstSetBit = some pivot) : Reduced n (extended rows rest pivot) := by
  obtain ⟨hbit, hlow⟩ := BitRow.firstSetBit_eq_some_iff.mp hpivot
  -- the pivots of the old rows, and every bit at or below them, are as before
  have hkeep (p : PivotRow) (hp : p ∈ rows) (k : ℕ) (hk : rest.vector.testBit k = false) :
      (p.cleared rest pivot).vector.testBit k = p.vector.testBit k := by
    rw [TrackedRow.testBit_cleared (h.hasLength p hp) hrest, hk, Bool.and_false, Bool.xor_false]
  have hgone (p : PivotRow) (hp : p ∈ rows) :
      (p.cleared rest pivot).vector.testBit pivot = false := by
    rw [TrackedRow.testBit_cleared (h.hasLength p hp) hrest, hbit, Bool.and_true, Bool.xor_self]
  refine ⟨fun q hq => ?_, fun q hq => ?_, ?_⟩
  · rcases mem_extended.mp hq with ⟨p, hp, rfl⟩ | rfl
    · exact (h.hasLength p hp).cleared hrest pivot
    · exact hrest
  · rcases mem_extended.mp hq with ⟨p, hp, rfl⟩ | rfl
    · refine BitRow.firstSetBit_eq_some_iff.mpr ⟨?_, fun j hj => ?_⟩
      · rw [hkeep p hp p.pivot (hclear p hp), h.testBit_pivot hp]
      · rcases Nat.lt_or_ge j pivot with hjp | hjp
        · rw [hkeep p hp j (hlow j hjp), h.testBit_of_lt hp hj]
        · -- the new pivot is below that of `p`, where `p` has no bit
          have hlt : pivot < p.pivot := hjp.trans_lt hj
          rw [TrackedRow.cleared, h.testBit_of_lt hp hlt]
          exact h.testBit_of_lt hp hj
    · exact hpivot
  · refine List.pairwise_append.mpr ⟨?_, List.pairwise_singleton _ _, ?_⟩
    · refine List.pairwise_map.mpr (h.apart.imp_of_mem fun {p q} hp hq hpq => ⟨?_, ?_⟩)
      · exact (hkeep p hp q.pivot (hclear q hq)).trans hpq.1
      · exact (hkeep q hq p.pivot (hclear p hp)).trans hpq.2
    · intro q hq r hr
      obtain ⟨p, hp, rfl⟩ := List.mem_map.mp hq
      rw [List.mem_singleton.mp hr]
      exact ⟨hgone p hp, hclear p hp⟩

theorem Reduced.vectorSpan_extended_le (h : Reduced n rows) (hrest : rest.HasLength n)
    {W : Submodule (ZMod 2) (Fin n → ZMod 2)} (hle : vectorSpan n rows ≤ W)
    (hmem : rest.vector.toVec n ∈ W) :
    vectorSpan n (RowBasis.extended rows rest pivot) ≤ W := by
  refine vectorSpan_le fun q hq => ?_
  rcases mem_extended.mp hq with ⟨p, hp, rfl⟩ | rfl
  · rw [TrackedRow.toVec_cleared_vector (h.hasLength p hp) hrest]
    exact W.add_mem (hle (toVec_mem_vectorSpan hp)) (W.smul_mem _ hmem)
  · exact hmem

theorem toVec_mem_vectorSpan_extended :
    rest.vector.toVec n ∈ vectorSpan n (extended rows rest pivot) :=
  toVec_mem_vectorSpan (p := ⟨rest, pivot⟩) (mem_extended.mpr (Or.inr rfl))

theorem Reduced.vectorSpan_le_extended (h : Reduced n rows) (hrest : rest.HasLength n) :
    vectorSpan n rows ≤ vectorSpan n (RowBasis.extended rows rest pivot) := by
  refine vectorSpan_le fun p hp => ?_
  have hmem := toVec_mem_vectorSpan (n := n) (p := ⟨p.cleared rest pivot, p.pivot⟩)
    (mem_extended.mpr (Or.inl ⟨p, hp, rfl⟩))
  have hback : p.vector.toVec n = (p.cleared rest pivot).vector.toVec n +
      bitAt n pivot (p.vector.toVec n) • rest.vector.toVec n := by
    rw [TrackedRow.toVec_cleared_vector (h.hasLength p hp) hrest, add_add_self]
  rw [hback]
  exact Submodule.add_mem _ hmem (Submodule.smul_mem _ _ toVec_mem_vectorSpan_extended)

/-! ## Uniqueness -/

variable {ps qs : List PivotRow}

/-- The lowest bit of a vector of the span is a pivot. -/
theorem Reduced.exists_pivot_eq (h : Reduced n rows) {v : Fin n → ZMod 2}
    (hv : v ∈ vectorSpan n rows) {k : ℕ} (hk : bitAt n k v ≠ 0)
    (hlow : ∀ j < k, bitAt n j v = 0) : ∃ p ∈ rows, p.pivot = k := by
  rw [← h.pivotSum_of_mem hv] at hk
  obtain ⟨p, hp, hpv, hpk⟩ := exists_of_bitAt_pivotSum hk
  refine ⟨p, hp, le_antisymm ?_ ?_⟩
  · by_contra hlt
    rw [h.bitAt_vector hp, h.testBit_of_lt hp (Nat.lt_of_not_le hlt)] at hpk
    exact hpk rfl
  · by_contra hlt
    exact hpv (hlow p.pivot (Nat.lt_of_not_le hlt))

theorem Reduced.exists_pivot_of_span_le (hp : Reduced n ps) (hq : Reduced n qs)
    (hle : vectorSpan n ps ≤ vectorSpan n qs) {p : PivotRow} (hmem : p ∈ ps) :
    ∃ q ∈ qs, q.pivot = p.pivot := by
  refine hq.exists_pivot_eq (hle (toVec_mem_vectorSpan hmem)) ?_ fun j hj => ?_
  · rw [hp.bitAt_vector hmem, hp.testBit_pivot hmem]
    exact one_ne_zero
  · rw [hp.bitAt_vector hmem, hp.testBit_of_lt hmem hj, ofBit_false]

/-- A reduced basis is determined by its span. -/
theorem Reduced.mem_of_span_eq (hp : Reduced n ps) (hq : Reduced n qs)
    (hspan : vectorSpan n ps = vectorSpan n qs) {p : PivotRow} (hmem : p ∈ ps) :
    ∃ q ∈ qs, q.pivot = p.pivot ∧ q.vector = p.vector := by
  obtain ⟨q, hqmem, hpivot⟩ := hp.exists_pivot_of_span_le hq hspan.le hmem
  refine ⟨q, hqmem, hpivot, ?_⟩
  have hpv := toVec_mem_vectorSpan (n := n) hmem
  have hqv := hspan.symm ▸ toVec_mem_vectorSpan (n := n) hqmem
  have hzero : q.vector.toVec n + p.vector.toVec n = 0 := by
    refine hp.eq_zero_of_mem (Submodule.add_mem _ hqv hpv) fun p' hp' => ?_
    rw [map_add, hp.bitAt_vector hmem, hq.bitAt_vector hqmem]
    by_cases heq : p'.pivot = p.pivot
    · rw [heq, hp.testBit_pivot hmem, ← hpivot, hq.testBit_pivot hqmem, ZModModule.add_self]
    · obtain ⟨q', hq', hpivot'⟩ := hp.exists_pivot_of_span_le hq hspan.le hp'
      have hpp : p ≠ p' := fun he => heq (he ▸ rfl)
      have hqq : q ≠ q' := fun he => heq (by rw [← hpivot', ← he, hpivot])
      rw [hp.testBit_of_ne hmem hp' hpp, ← hpivot', hq.testBit_of_ne hqmem hq' hqq, ofBit_false,
        add_zero]
  exact (BitRow.toVec_inj (hq.hasLength q hqmem).1 (hp.hasLength p hmem).1).mp
    (add_eq_zero_iff_eq.mp hzero)

theorem Reduced.perm_of_span_eq (hp : Reduced n ps) (hq : Reduced n qs)
    (hspan : vectorSpan n ps = vectorSpan n qs) :
    (ps.map fun p => (p.pivot, p.vector)).Perm (qs.map fun q => (q.pivot, q.vector)) := by
  have hnodup {rows : List PivotRow} (h : Reduced n rows) :
      (rows.map fun p => (p.pivot, p.vector)).Nodup := by
    refine List.Nodup.of_map Prod.fst ?_
    rw [List.map_map]
    exact h.nodup_pivots
  refine (List.perm_ext_iff_of_nodup (hnodup hp) (hnodup hq)).mpr fun x => ?_
  simp only [List.mem_map]
  refine ⟨?_, ?_⟩
  · rintro ⟨p, hmem, rfl⟩
    obtain ⟨q, hqmem, hpivot, hvec⟩ := hp.mem_of_span_eq hq hspan hmem
    exact ⟨q, hqmem, by rw [hpivot, hvec]⟩
  · rintro ⟨q, hmem, rfl⟩
    obtain ⟨p, hpmem, hpivot, hvec⟩ := hq.mem_of_span_eq hp hspan.symm hmem
    exact ⟨p, hpmem, by rw [hpivot, hvec]⟩

end RowBasis

end BitLinear
