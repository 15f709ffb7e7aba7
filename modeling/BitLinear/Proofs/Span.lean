import BitLinear.Proofs.Vector
import Mathlib.Data.Set.Card
import Mathlib.FieldTheory.Finiteness
import Mathlib.LinearAlgebra.LinearIndependent.Lemmas

/-!
# Sums of chosen rows, span and independence

`total` adds all rows of a list. A choice of rows is a sublist, so the sums that some rows have are
the totals of their sublists : these are the rows of the subspace `rowSpan`
(`toVec_mem_rowSpan_iff`). `Independent` says that no choice but the empty one adds up to zero;
it is linear independence of the vectors (`independent_iff`), and a row may be put in anywhere if it
lies outside the span of the others (`independent_insert`). Rows are counted as vectors are
(`ncard_of_mem`).
-/

namespace BitLinear

namespace BitRow

/-- The sum of all rows of a list. -/
def total (n : ℕ) (rows : List BitRow) : BitRow :=
  rows.foldr sum (zeros n)

/-- The subspace that some rows span. -/
def rowSpan (n : ℕ) (rows : List BitRow) : Submodule (ZMod 2) (Fin n → ZMod 2) :=
  Submodule.span (ZMod 2) {v | ∃ row ∈ rows, row.toVec n = v}

/-- Only the empty choice of rows adds up to zero. -/
def Independent (n : ℕ) (rows : List BitRow) : Prop :=
  ∀ chosen, List.Sublist chosen rows → chosen ≠ [] → total n chosen ≠ zeros n

variable {n : ℕ}

/-! ## Totals -/

theorem length_total (hn : n % 8 = 0) : ∀ {rows : List BitRow},
    (∀ row ∈ rows, row.length = n) → (total n rows).length = n
  | [], _ => length_zeros hn
  | row :: rows, h => by
    obtain ⟨hrow, hrows⟩ := List.forall_mem_cons.mp h
    have hrest := length_total hn hrows
    exact (length_sum (hrow.trans hrest.symm)).trans hrow

theorem toVec_total (hn : n % 8 = 0) : ∀ {rows : List BitRow},
    (∀ row ∈ rows, row.length = n) → (total n rows).toVec n = (rows.map (toVec n)).sum
  | [], _ => by simp [total]
  | row :: rows, h => by
    obtain ⟨hrow, hrows⟩ := List.forall_mem_cons.mp h
    have hrest := length_total hn hrows
    rw [List.map_cons, List.sum_cons, ← toVec_total hn hrows]
    exact toVec_sum (hrow.trans hrest.symm)

theorem total_eq_zeros_iff (hn : n % 8 = 0) {rows : List BitRow}
    (h : ∀ row ∈ rows, row.length = n) :
    total n rows = zeros n ↔ (rows.map (toVec n)).sum = 0 := by
  rw [← toVec_inj (length_total hn h) (length_zeros hn), toVec_total hn h, toVec_zeros]

/-! ## The span -/

theorem toVec_mem_rowSpan {rows : List BitRow} {row : BitRow} (h : row ∈ rows) :
    row.toVec n ∈ rowSpan n rows :=
  Submodule.subset_span ⟨row, h, rfl⟩

theorem rowSpan_le {rows : List BitRow} {W : Submodule (ZMod 2) (Fin n → ZMod 2)}
    (h : ∀ row ∈ rows, row.toVec n ∈ W) : rowSpan n rows ≤ W := by
  refine Submodule.span_le.mpr ?_
  rintro _ ⟨row, hrow, rfl⟩
  exact h row hrow

theorem rowSpan_mono {rows rows' : List BitRow} (h : rows ⊆ rows') :
    rowSpan n rows ≤ rowSpan n rows' :=
  rowSpan_le fun _ hrow => toVec_mem_rowSpan (h hrow)

theorem rowSpan_append_le {rows rows' : List BitRow} (h : rowSpan n rows ≤ rowSpan n rows')
    (others : List BitRow) : rowSpan n (rows ++ others) ≤ rowSpan n (rows' ++ others) := by
  refine rowSpan_le fun row hrow => ?_
  rcases List.mem_append.mp hrow with hmem | hmem
  · exact rowSpan_mono (List.subset_append_left rows' others) (h (toVec_mem_rowSpan hmem))
  · exact toVec_mem_rowSpan (List.mem_append_right rows' hmem)

theorem mem_rowSpan_cons {row : BitRow} {rows : List BitRow} {v : Fin n → ZMod 2} :
    v ∈ rowSpan n (row :: rows) ↔ v ∈ rowSpan n rows ∨ row.toVec n + v ∈ rowSpan n rows := by
  have hset : {w | ∃ r ∈ row :: rows, r.toVec n = w} =
      insert (row.toVec n) {w | ∃ r ∈ rows, r.toVec n = w} := by
    ext w
    simp [eq_comm]
  rw [rowSpan, hset, Submodule.mem_span_insert]
  refine ⟨?_, ?_⟩
  · rintro ⟨a, z, hz, rfl⟩
    change z ∈ rowSpan n rows at hz
    have ha : a = 0 ∨ a = 1 := by
      revert a
      decide
    rcases ha with rfl | rfl
    · left
      simpa using hz
    · right
      simpa [self_add_add] using hz
  · rintro (hv | hv)
    · exact ⟨0, v, hv, by simp⟩
    · exact ⟨1, row.toVec n + v, hv, by simp [self_add_add]⟩

/-- A vector is in the span exactly when a choice of the rows adds up to it. -/
theorem mem_rowSpan_iff : ∀ {rows : List BitRow} {v : Fin n → ZMod 2}, v ∈ rowSpan n rows ↔
    ∃ chosen, List.Sublist chosen rows ∧ (chosen.map (toVec n)).sum = v
  | [], v => by simp [rowSpan, eq_comm]
  | row :: rows, v => by
    rw [mem_rowSpan_cons, mem_rowSpan_iff, mem_rowSpan_iff]
    refine ⟨?_, ?_⟩
    · rintro (⟨chosen, hsub, rfl⟩ | ⟨chosen, hsub, hsum⟩)
      · exact ⟨chosen, hsub.cons row, rfl⟩
      · refine ⟨row :: chosen, hsub.cons_cons row, ?_⟩
        rw [List.map_cons, List.sum_cons, hsum, self_add_add]
    · rintro ⟨chosen, hsub, rfl⟩
      rcases List.sublist_cons_iff.mp hsub with h | ⟨rest, rfl, h⟩
      · exact Or.inl ⟨chosen, h, rfl⟩
      · refine Or.inr ⟨rest, h, ?_⟩
        rw [List.map_cons, List.sum_cons, self_add_add]

theorem toVec_mem_rowSpan_iff (hn : n % 8 = 0) {rows : List BitRow} {row : BitRow}
    (hrows : ∀ r ∈ rows, r.length = n) (hrow : row.length = n) :
    row.toVec n ∈ rowSpan n rows ↔ ∃ chosen, List.Sublist chosen rows ∧ total n chosen = row := by
  rw [mem_rowSpan_iff]
  refine exists_congr fun chosen => and_congr_right fun hsub => ?_
  have hchosen : ∀ r ∈ chosen, r.length = n := fun r hr => hrows r (hsub.subset hr)
  rw [← toVec_inj (length_total hn hchosen) hrow, toVec_total hn hchosen]

/-! ## Counting -/

/-- The rows whose vectors lie in a subspace, as many as the vectors of the subspace. -/
theorem ncard_of_mem (hn : n % 8 = 0) (W : Submodule (ZMod 2) (Fin n → ZMod 2)) :
    {row : BitRow | row.length = n ∧ row.toVec n ∈ W}.ncard =
      2 ^ Module.finrank (ZMod 2) W := by
  have hinj : Function.Injective (ofVec (n := n)) :=
    Function.LeftInverse.injective (toVec_ofVec hn)
  have himage : {row : BitRow | row.length = n ∧ row.toVec n ∈ W} =
      ofVec '' (W : Set (Fin n → ZMod 2)) := by
    ext row
    refine ⟨fun ⟨hrow, hmem⟩ => ⟨row.toVec n, hmem, ofVec_toVec hn hrow⟩, ?_⟩
    rintro ⟨v, hv, rfl⟩
    exact ⟨length_ofVec hn v, (toVec_ofVec hn v).symm ▸ hv⟩
  rw [himage, Set.ncard_image_of_injective _ hinj, ← Nat.card_coe_set_eq]
  change Nat.card W = _
  rw [Module.natCard_eq_pow_finrank (K := ZMod 2), Nat.card_zmod]

/-! ## Independence -/

theorem independent_iff_sum (hn : n % 8 = 0) {rows : List BitRow}
    (hrows : ∀ row ∈ rows, row.length = n) : Independent n rows ↔
      ∀ chosen, List.Sublist chosen rows → (chosen.map (toVec n)).sum = 0 → chosen = [] := by
  refine forall_congr' fun chosen => forall_congr' fun hsub => ?_
  rw [Ne, Ne, total_eq_zeros_iff hn fun r hr => hrows r (hsub.subset hr)]
  tauto

/-- The sum over some rows with one more among them. -/
theorem sum_insert (before after : List BitRow) (row : BitRow) :
    ((before ++ row :: after).map (toVec n)).sum =
      row.toVec n + ((before ++ after).map (toVec n)).sum := by
  rw [List.map_append, List.sum_append, List.map_cons, List.sum_cons, add_left_comm,
    ← List.sum_append, ← List.map_append]

/-- A row extends independent rows exactly when it is outside their span. -/
theorem independent_insert (hn : n % 8 = 0) {before after : List BitRow} {row : BitRow}
    (hrows : ∀ r ∈ before ++ row :: after, r.length = n) :
    Independent n (before ++ row :: after) ↔
      Independent n (before ++ after) ∧ row.toVec n ∉ rowSpan n (before ++ after) := by
  have hsub : List.Sublist (before ++ after) (before ++ row :: after) :=
    (List.sublist_cons_self row after).append_left before
  rw [independent_iff_sum hn hrows, independent_iff_sum hn fun r hr => hrows r (hsub.subset hr)]
  refine ⟨?_, ?_⟩
  -- a choice that adds up to the row adds up to zero together with it
  · intro h
    refine ⟨fun chosen hc => h chosen (hc.trans hsub), fun hmem => ?_⟩
    obtain ⟨chosen, hc, hsum⟩ := mem_rowSpan_iff.mp hmem
    obtain ⟨c, d, rfl, hcb, hda⟩ := List.sublist_append_iff.mp hc
    have hzero : ((c ++ row :: d).map (toVec n)).sum = 0 := by
      rw [sum_insert, hsum, ZModModule.add_self]
    have hnil := h (c ++ row :: d) (hcb.append (hda.cons_cons row)) hzero
    simp at hnil
  -- a choice with the row in it that adds up to zero leaves one that adds up to the row
  · rintro ⟨hind, hout⟩ chosen hc hsum
    obtain ⟨c, d, rfl, hcb, hda⟩ := List.sublist_append_iff.mp hc
    rcases List.sublist_cons_iff.mp hda with hd | ⟨e, rfl, he⟩
    · exact hind (c ++ d) (hcb.append hd) hsum
    · refine absurd (mem_rowSpan_iff.mpr ⟨c ++ e, hcb.append he, ?_⟩) hout
      rw [sum_insert, add_eq_zero_iff_eq] at hsum
      exact hsum.symm

theorem range_toVec_get (rows : List BitRow) :
    Set.range (fun i : Fin rows.length => (rows.get i).toVec n) =
      {v | ∃ row ∈ rows, row.toVec n = v} := by
  ext v
  simp [List.mem_iff_get]

/-- Independence is linear independence of the vectors. -/
theorem independent_iff (hn : n % 8 = 0) : ∀ {rows : List BitRow},
    (∀ row ∈ rows, row.length = n) → (Independent n rows ↔
      LinearIndependent (ZMod 2) fun i : Fin rows.length => (rows.get i).toVec n)
  | [], _ => by
    refine ⟨fun _ => linearIndependent_iff'.mpr fun _ _ _ i => i.elim0, fun _ chosen hsub hne => ?_⟩
    exact absurd (List.sublist_nil.mp hsub) hne
  | row :: rows, h => by
    have hrows := (List.forall_mem_cons.mp h).2
    have hcons : (fun i : Fin (row :: rows).length => ((row :: rows).get i).toVec n) =
        Fin.cons (row.toVec n) fun i : Fin rows.length => (rows.get i).toVec n := by
      ext i
      refine Fin.cases rfl (fun j => rfl) i
    have hinsert : Independent n ([] ++ row :: rows) ↔
        Independent n ([] ++ rows) ∧ row.toVec n ∉ rowSpan n ([] ++ rows) := independent_insert hn h
    rw [hcons, linearIndependent_finCons, range_toVec_get, ← independent_iff hn hrows]
    exact hinsert

end BitRow

end BitLinear
