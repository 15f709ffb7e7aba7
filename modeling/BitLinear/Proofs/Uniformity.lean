import BitLinear.Proofs.Filling
import BitLinear.Proofs.Rejection
import Mathlib

/-!
# Every invertible matrix is drawn by equally many scripts

An invertible matrix `g` takes every row to its product with `g` (`transform`), and rows in the span
of others to rows in the span of theirs (`Regular.transform_mem_rowSpan_iff`). So when all rows of a
script are taken along, the same rows are accepted as before, in every step of the run
(`Invariant.offer_transform`, `Invariant.offerAll_transform`), and the same matrices are singular. A
draw that uses up the script then answers with the old answer times `g` (`RightEquivariant`).

With `g = a⁻¹ b` this takes the scripts that draw `a` to scripts that draw `b`. Different scripts go
to different ones, so there are as many of each (`RightEquivariant.ncard_le`), whichever way the
matrices are drawn (`rightEquivariant_randomInvertible`, `rightEquivariant_randomWithLimit`).
-/

open Matrix

namespace BitLinear

namespace BitMatrix

variable {n : ℕ} {a b g m : BitMatrix} {row : BitRow} {rows : List BitRow}

/-! ## Rows times an invertible matrix -/

/-- A square matrix that has an inverse. -/
structure Regular (n : ℕ) (m : BitMatrix) : Prop where
  shape : m.HasShape n n
  isUnit : IsUnit (m.toMatrix n n)

theorem regular_iff (hm : m.HasShape n n) :
    Regular n m ↔ ∃ inv, m.invert = .ok (some inv) :=
  ⟨fun h => (exists_invert_iff hm).mpr h.isUnit, fun h => ⟨hm, (exists_invert_iff hm).mp h⟩⟩

theorem Regular.product (ha : Regular n a) (hb : Regular n b) : Regular n (a.product b) :=
  ⟨ha.shape.product hb.shape, by
    rw [toMatrix_product ha.shape hb.shape]
    exact ha.isUnit.mul hb.isUnit⟩

/-- Some invertible matrix leads from one invertible matrix to the other. -/
theorem Regular.exists_product_eq (ha : Regular n a) (hb : Regular n b) :
    ∃ g, Regular n g ∧ a.product g = b := by
  obtain ⟨inv, hinv⟩ := (regular_iff ha.shape).mp ha
  obtain ⟨hshape, hmul⟩ := (invert_eq_some_iff ha.shape).mp hinv
  have hg : Regular n (inv.product b) :=
    Regular.product ⟨hshape, IsUnit.of_mul_eq_one _ hmul⟩ hb
  refine ⟨inv.product b, hg, (toMatrix_inj (ha.shape.product hg.shape) hb.shape).mp ?_⟩
  rw [toMatrix_product ha.shape hg.shape, toMatrix_product hshape hb.shape, ← Matrix.mul_assoc,
    mul_eq_one_symm hmul, Matrix.one_mul]

/-- The product of a row with a matrix. -/
def transform (g : BitMatrix) (row : BitRow) : BitRow :=
  row.combination g.rows g.cols

theorem rows_product (a g : BitMatrix) : (a.product g).rows = a.rows.map g.transform :=
  rfl

theorem HasShape.length_transform (hg : g.HasShape n n) (hrow : row.length = n) :
    (g.transform row).length = n := by
  have hlen : g.rows.length ≤ row.length := (hg.length_rows.trans hrow.symm).le
  exact (BitRow.combine_eq_ok hg.1.1 hlen hg.1.2).2.trans hg.cols_eq

theorem HasShape.length_map_transform (hg : g.HasShape n n) (h : ∀ row ∈ rows, row.length = n) :
    ∀ row ∈ rows.map g.transform, row.length = n :=
  List.forall_mem_map.mpr fun row hrow => hg.length_transform (h row hrow)

theorem HasShape.toVec_transform (hg : g.HasShape n n) (row : BitRow) :
    (g.transform row).toVec n = row.toVec n ᵥ* g.toMatrix n n := by
  have hcols : (⟨g.rows, n⟩ : BitMatrix) = g := by rw [← hg.cols_eq]
  have hvec : (row.combination g.rows n).toVec n = row.toVec n ᵥ* toMatrix n n ⟨g.rows, n⟩ :=
    toVec_combination hg.aligned hg.length_rows.le hg.length_row
  rw [transform, hg.cols_eq, hvec, hcols]

theorem Regular.vecMul_injective (hg : Regular n g) :
    Function.Injective (Matrix.vecMulLinear (g.toMatrix n n)) :=
  Matrix.vecMul_injective_of_isUnit hg.isUnit

theorem Regular.transform_inj (hg : Regular n g) {row row' : BitRow} (hrow : row.length = n)
    (hrow' : row'.length = n) (h : g.transform row = g.transform row') : row = row' := by
  refine (BitRow.toVec_inj hrow hrow').mp (hg.vecMul_injective ?_)
  rw [Matrix.vecMulLinear_apply, Matrix.vecMulLinear_apply, ← hg.shape.toVec_transform, h,
    hg.shape.toVec_transform]

theorem Regular.map_transform_inj (hg : Regular n g) : ∀ {rows rows' : List BitRow},
    (∀ row ∈ rows, row.length = n) → (∀ row ∈ rows', row.length = n) →
      rows.map g.transform = rows'.map g.transform → rows = rows'
  | [], [], _, _, _ => rfl
  | row :: rows, row' :: rows', h, h', heq => by
    obtain ⟨hrow, hrows⟩ := List.forall_mem_cons.mp h
    obtain ⟨hrow', hrows'⟩ := List.forall_mem_cons.mp h'
    obtain ⟨hhead, htail⟩ := List.cons.inj heq
    rw [hg.transform_inj hrow hrow' hhead, hg.map_transform_inj hrows hrows' htail]

/-- The transformed rows span the image of what the rows span. -/
theorem HasShape.rowSpan_map_transform (hg : g.HasShape n n) (rows : List BitRow) :
    BitRow.rowSpan n (rows.map g.transform) =
      (BitRow.rowSpan n rows).map (Matrix.vecMulLinear (g.toMatrix n n)) := by
  rw [BitRow.rowSpan, BitRow.rowSpan, Submodule.map_span]
  congr 1
  ext v
  simp [hg.toVec_transform]

theorem Regular.transform_mem_rowSpan_iff (hg : Regular n g) :
    (g.transform row).toVec n ∈ BitRow.rowSpan n (rows.map g.transform) ↔
      row.toVec n ∈ BitRow.rowSpan n rows := by
  rw [hg.shape.rowSpan_map_transform, hg.shape.toVec_transform]
  exact hg.vecMul_injective.mem_set_image

theorem Regular.product_singular (hg : Regular n g) (hm : m.HasShape n n)
    (hsingular : m.invert = .ok none) : (m.product g).invert = .ok none := by
  rw [invert_eq_none_iff hm] at hsingular
  rw [invert_eq_none_iff (hm.product hg.shape), toMatrix_product hm hg.shape]
  exact fun hunit => hsingular ((hg.isUnit.mul_right_iff).mp hunit)

end BitMatrix

/-! ## Offers of transformed rows -/

namespace RowBasis

open BitMatrix

variable {n : ℕ} {g : BitMatrix} {a b : RowBasis}

/-- A basis with the transformed rows accepts the transformed row when the basis with the rows
accepts the row. -/
theorem Invariant.offer_transform (hg : Regular n g) (ha : Invariant n a) (hb : Invariant n b)
    (hacc : b.accepted = a.accepted.map g.transform) {row : BitRow} (hrow : row.length = n) :
    (b.offer (g.transform row)).1 = (a.offer row).1 ∧
      (b.offer (g.transform row)).2.accepted = (a.offer row).2.accepted.map g.transform := by
  have hspan : (g.transform row).toVec n ∈ BitRow.rowSpan n b.accepted ↔
      row.toVec n ∈ BitRow.rowSpan n a.accepted := by
    rw [hacc, hg.transform_mem_rowSpan_iff]
  have hrow' := hg.shape.length_transform hrow
  rcases ha.offer_cases row with ⟨hne, -⟩ | ⟨-, hmem, heq⟩ | ⟨-, hout, next, heq, hnext, -⟩
  · exact absurd hrow hne
  · rw [hb.offer_of_mem hrow' (hspan.mpr hmem), heq]
    exact ⟨rfl, hacc⟩
  · rcases hb.offer_cases (g.transform row) with
      ⟨hne, -⟩ | ⟨-, hmem, -⟩ | ⟨-, -, next', heq', hnext', -⟩
    · exact absurd hrow' hne
    · exact absurd (hspan.mp hmem) hout
    · rw [heq, heq']
      exact ⟨rfl, by rw [hnext', hnext, hacc, List.map_append, List.map_singleton]⟩

theorem Invariant.offerAll_transform (hg : Regular n g) : ∀ {a b : RowBasis}, Invariant n a →
    Invariant n b → b.accepted = a.accepted.map g.transform → ∀ {rows : List BitRow},
      (∀ row ∈ rows, row.length = n) →
        (b.offerAll (rows.map g.transform)).1 = (a.offerAll rows).1 ∧
          (b.offerAll (rows.map g.transform)).2.accepted =
            (a.offerAll rows).2.accepted.map g.transform
  | _, _, _, _, hacc, [], _ => ⟨rfl, hacc⟩
  | a, b, ha, hb, hacc, row :: rows, h => by
    obtain ⟨hrow, hrows⟩ := List.forall_mem_cons.mp h
    obtain ⟨hanswer, hnext⟩ := ha.offer_transform hg hb hacc hrow
    obtain ⟨hanswers, hlast⟩ :=
      (ha.offer row).offerAll_transform hg (hb.offer (g.transform row)) hnext hrows
    exact ⟨congrArg₂ List.cons hanswer hanswers, hlast⟩

theorem Invariant.isComplete_transform (ha : Invariant n a) (hb : Invariant n b)
    (hacc : b.accepted = a.accepted.map g.transform) : b.isComplete = a.isComplete := by
  rw [isComplete, isComplete, ha.dimension_eq, hb.dimension_eq, rank, rank, hacc, List.length_map]

theorem Invariant.completes_transform (hg : Regular n g) : ∀ {a b : RowBasis}, Invariant n a →
    Invariant n b → b.accepted = a.accepted.map g.transform → ∀ {rows : List BitRow},
      (∀ row ∈ rows, row.length = n) → a.Completes rows → b.Completes (rows.map g.transform)
  | _, _, ha, hb, hacc, [], _, hcomp => (ha.isComplete_transform hb hacc).trans hcomp
  | _, _, ha, hb, hacc, row :: rows, h, ⟨hc, hcomp⟩ => by
    obtain ⟨hrow, hrows⟩ := List.forall_mem_cons.mp h
    have hnext := (ha.offer_transform hg hb hacc hrow).2
    exact ⟨(ha.isComplete_transform hb hacc).trans hc,
      (ha.offer row).completes_transform hg (hb.offer (g.transform row)) hnext hrows hcomp⟩

end RowBasis

/-! ## Draws -/

namespace BitMatrix

variable {n : ℕ} {a b g m : BitMatrix} {draw : Draw BitMatrix}

/-- The scripts of `count` bytes that a draw uses up to answer with `m`. -/
def scriptsOf (draw : Draw BitMatrix) (count : ℕ) (m : BitMatrix) : Set (List Byte) :=
  {bytes | bytes.length = count ∧ draw.runOn (.script bytes) = (.ok m, .script [])}

/-- The rows of these scripts. -/
def rowsOf (n : ℕ) (draw : Draw BitMatrix) (k : ℕ) (m : BitMatrix) : Set (List BitRow) :=
  {rows | rows.length = k ∧ (∀ row ∈ rows, row.length = n) ∧
    draw.runOn (.script (BitRow.bytesOf rows)) = (.ok m, .script [])}

/-- When the rows of a script are transformed, so is the answer. -/
def RightEquivariant (n : ℕ) (draw : Draw BitMatrix) : Prop :=
  ∀ ⦃g⦄, Regular n g → ∀ ⦃rows : List BitRow⦄, (∀ row ∈ rows, row.length = n) → ∀ ⦃m⦄,
    draw.runOn (.script (BitRow.bytesOf rows)) = (.ok m, .script []) →
      draw.runOn (.script (BitRow.bytesOf (rows.map g.transform))) =
        (.ok (m.product g), .script [])

theorem finite_scriptsOf (draw : Draw BitMatrix) (count : ℕ) (m : BitMatrix) :
    (scriptsOf draw count m).Finite :=
  (List.finite_length_eq Byte count).subset fun _ h => h.1

theorem scriptsOf_eq_image (hn : n % 8 = 0) (draw : Draw BitMatrix) (k : ℕ) (m : BitMatrix) :
    scriptsOf draw (k * (n / 8)) m = BitRow.bytesOf '' rowsOf n draw k m := by
  ext bytes
  refine ⟨?_, ?_⟩
  · rintro ⟨hlen, hrun⟩
    obtain ⟨rows, hk, hrows, rfl⟩ := BitRow.exists_eq_bytesOf hn hlen
    exact ⟨rows, ⟨hk, hrows, hrun⟩, rfl⟩
  · rintro ⟨rows, ⟨hk, hrows, hrun⟩, rfl⟩
    exact ⟨by rw [BitRow.length_bytesOf hrows, hk], hrun⟩

theorem injOn_bytesOf (n : ℕ) (draw : Draw BitMatrix) (k : ℕ) (m : BitMatrix) :
    Set.InjOn BitRow.bytesOf (rowsOf n draw k m) := by
  rintro xs ⟨hx, hxs, -⟩ ys ⟨hy, hys, -⟩ h
  exact (BitRow.bytesOf_append_inj (hx.trans hy.symm) hxs hys (congrArg (· ++ []) h)).1

theorem ncard_scriptsOf (hn : n % 8 = 0) (draw : Draw BitMatrix) (k : ℕ) (m : BitMatrix) :
    (scriptsOf draw (k * (n / 8)) m).ncard = (rowsOf n draw k m).ncard := by
  rw [scriptsOf_eq_image hn]
  exact (injOn_bytesOf n draw k m).ncard_image

theorem finite_rowsOf (hn : n % 8 = 0) (draw : Draw BitMatrix) (k : ℕ) (m : BitMatrix) :
    (rowsOf n draw k m).Finite := by
  refine Set.Finite.of_finite_image ?_ (injOn_bytesOf n draw k m)
  rw [← scriptsOf_eq_image hn]
  exact finite_scriptsOf draw _ m

/-- No more scripts draw one invertible matrix than another. -/
theorem RightEquivariant.ncard_le (h : RightEquivariant n draw) (ha : Regular n a)
    (hb : Regular n b) (k : ℕ) :
    (scriptsOf draw (k * (n / 8)) a).ncard ≤ (scriptsOf draw (k * (n / 8)) b).ncard := by
  have hn := ha.shape.aligned
  obtain ⟨g, hg, rfl⟩ := ha.exists_product_eq hb
  rw [ncard_scriptsOf hn, ncard_scriptsOf hn]
  -- scripts that draw `a` go to scripts that draw `a` times `g`, different ones to different ones
  refine Set.ncard_le_ncard_of_injOn (List.map g.transform) ?_ ?_ (finite_rowsOf hn draw k _)
  · rintro rows ⟨hk, hrows, hrun⟩
    exact ⟨(List.length_map _).trans hk, hg.shape.length_map_transform hrows, h hg hrows hrun⟩
  · rintro rows ⟨-, hrows, -⟩ rows' ⟨-, hrows', -⟩ heq
    exact hg.map_transform_inj hrows hrows' heq

/-- Equally many scripts draw one invertible matrix and another. Of those without rows there is only
one. -/
theorem ncard_scriptsOf_eq_of_rightEquivariant (h : 0 < n → RightEquivariant n draw)
    (ha : Regular n a) (hb : Regular n b) (k : ℕ) :
    (scriptsOf draw (k * (n / 8)) a).ncard = (scriptsOf draw (k * (n / 8)) b).ncard := by
  rcases Nat.eq_zero_or_pos n with rfl | hpos
  · have hrows : a.rows = b.rows := by
      rw [List.length_eq_zero_iff.mp ha.shape.length_rows,
        List.length_eq_zero_iff.mp hb.shape.length_rows]
    rw [ha.shape.eq_of_rows_eq hb.shape hrows]
  · exact le_antisymm ((h hpos).ncard_le ha hb k) ((h hpos).ncard_le hb ha k)

theorem rightEquivariant_randomInvertible (hpos : 0 < n) (hn : n % 8 = 0) :
    RightEquivariant n (Prod.fst <$> randomInvertible n) := by
  intro g hg rows hrows m h
  obtain ⟨inv, h⟩ := Draw.runOn_fst_eq_ok_iff.mp h
  obtain ⟨hm, -⟩ := of_randomInvertible_eq_ok h
  obtain ⟨used, rest, hbytes, hrest, hused, hcomp, haccepted⟩ :=
    exists_of_randomInvertible_eq_ok hn h
  obtain rfl := ByteSource.script.inj hrest
  rw [List.append_nil] at hbytes
  obtain rfl := BitRow.bytesOf_inj hpos hn hrows hused hbytes
  have hempty := RowBasis.invariant_empty hn
  obtain ⟨m', inv', hrun, haccepted', hm', -⟩ := randomInvertible_eq_ok hn
    (hg.shape.length_map_transform hrows) (hempty.completes_transform hg hempty rfl hrows hcomp) []
  rw [List.append_nil] at hrun
  have hrows' : m'.rows = (m.product g).rows := by
    rw [haccepted', (hempty.offerAll_transform hg hempty rfl hrows).2, rows_product, haccepted]
  obtain rfl := hm'.eq_of_rows_eq (hm.product hg.shape) hrows'
  exact Draw.runOn_fst_eq_ok_iff.mpr ⟨inv', hrun⟩

theorem rightEquivariant_randomWithLimit (hpos : 0 < n) (hn : n % 8 = 0) (maxAttempts : ℕ) :
    RightEquivariant n (randomWithLimit n maxAttempts) := by
  intro g hg rows hrows m h
  obtain ⟨inv, h⟩ := Draw.runOn_fst_eq_ok_iff.mp h
  obtain ⟨failed, hlt, hfailed, hm, hinv, hsupply⟩ := (rejectionSample_eq_ok_iff hn).mp h
  obtain ⟨hall, rest, hbytes, hrest⟩ := (ByteSource.supplies_script_iff hn).mp hsupply
  obtain rfl := ByteSource.script.inj hrest
  rw [List.append_nil] at hbytes
  obtain rfl := BitRow.bytesOf_inj hpos hn hrows hall hbytes
  have hm' := Regular.product ((regular_iff hm).mpr ⟨inv, hinv⟩) hg
  obtain ⟨inv', hinv'⟩ := (regular_iff hm'.shape).mp hm'
  refine Draw.runOn_fst_eq_ok_iff.mpr ⟨inv', (rejectionSample_eq_ok_iff hn).mpr
    ⟨failed.map (·.product g), by rwa [List.length_map], ?_, hm'.shape, hinv', ?_⟩⟩
  · refine List.forall_mem_map.mpr fun c hc => ?_
    obtain ⟨hshape, hsingular⟩ := hfailed c hc
    exact ⟨hshape.product hg.shape, hg.product_singular hshape hsingular⟩
  · have hmap : (failed.flatMap (·.rows) ++ m.rows).map g.transform =
        (failed.map (·.product g)).flatMap (·.rows) ++ (m.product g).rows := by
      rw [List.map_append, List.map_flatMap, List.flatMap_map]
      rfl
    rw [← hmap]
    exact (ByteSource.supplies_script_iff hn).mpr
      ⟨hg.shape.length_map_transform hrows, [], (List.append_nil _).symm, rfl⟩

/-- Of the scripts of any number of rows equally many are used up to draw one invertible matrix and
another, row by row as well as by rejection with any limit. -/
theorem ncard_scriptsOf_eq_of_invertible (ha : a.HasShape n n) (hb : b.HasShape n n)
    (hinv : ∃ inv, a.invert = .ok (some inv)) (hinv' : ∃ inv, b.invert = .ok (some inv)) (k : ℕ) :
    ((scriptsOf (Prod.fst <$> randomInvertible n) (k * (n / 8)) a).Finite ∧
      (scriptsOf (Prod.fst <$> randomInvertible n) (k * (n / 8)) a).ncard =
        (scriptsOf (Prod.fst <$> randomInvertible n) (k * (n / 8)) b).ncard) ∧
    ∀ maxAttempts, (scriptsOf (randomWithLimit n maxAttempts) (k * (n / 8)) a).Finite ∧
      (scriptsOf (randomWithLimit n maxAttempts) (k * (n / 8)) a).ncard =
        (scriptsOf (randomWithLimit n maxAttempts) (k * (n / 8)) b).ncard := by
  have hn := ha.aligned
  have ha' := (regular_iff ha).mpr hinv
  have hb' := (regular_iff hb).mpr hinv'
  refine ⟨⟨finite_scriptsOf _ _ _, ?_⟩, fun maxAttempts => ⟨finite_scriptsOf _ _ _, ?_⟩⟩
  · exact ncard_scriptsOf_eq_of_rightEquivariant
      (rightEquivariant_randomInvertible · hn) ha' hb' k
  · exact ncard_scriptsOf_eq_of_rightEquivariant
      (rightEquivariant_randomWithLimit · hn maxAttempts) ha' hb' k

/-- Scripts of nine rows, of which one is dropped, draw the unit matrix as often as another. -/
theorem ncard_scriptsOf_eq_of_invertible_eight : ∃ a b : BitMatrix,
    a.HasShape 8 8 ∧ b.HasShape 8 8 ∧
      (∃ inv, a.invert = .ok (some inv)) ∧ (∃ inv, b.invert = .ok (some inv)) ∧
      [1, 1, 2, 4, 8, 16, 32, 64, 128] ∈
        scriptsOf (Prod.fst <$> randomInvertible 8) (9 * (8 / 8)) a ∧
      (scriptsOf (Prod.fst <$> randomInvertible 8) (9 * (8 / 8)) a).ncard =
        (scriptsOf (Prod.fst <$> randomInvertible 8) (9 * (8 / 8)) b).ncard := by
  have ha : (eye 8).HasShape 8 8 := by decide
  have hinv : (eye 8).invert = .ok (some (eye 8)) := by cbv
  exact ⟨_, _, ha, sample_hasShape, ⟨_, hinv⟩, ⟨_, invert_sample⟩, ⟨rfl, by cbv⟩,
    (ncard_scriptsOf_eq_of_invertible ha sample_hasShape ⟨_, hinv⟩ ⟨_, invert_sample⟩ 9).1.2⟩

end BitMatrix

end BitLinear
