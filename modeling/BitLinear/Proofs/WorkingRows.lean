import BitLinear.Proofs.InverseAgreement
import BitLinear.Proofs.Transpose

/-!
# The working rows of the elimination

`Tracks m n k rows` says what the working rows have to do with a matrix `m` when `k` columns are
done, in terms of the operations on matrices : the coefficients composed with `m` are the vectors,
the first `k` columns of the vectors are unit columns, and the coefficients are independent rows.
This is what the invariant of the elimination says of entries (`Invariant.tracks`).

Adding a row to another changes that other row only (`IsSquare.exists_rowAdded`). While a column is
cleared the rows are visited from the top, above and below the pivot. After any number of visits the
rows still track the matrix and the row of the pivot is as before (`Invariant.clearRows`).
`ColumnStep` puts together what happens to one column, and the main statement is that every state
that the loop over the columns reaches tracks the matrix, and that its next column goes so.
-/

open Matrix

namespace BitLinear.Elimination

variable {m : BitMatrix} {n k : ℕ} {rows mid out : Array TrackedRow}

/-! ## What the rows have to do with the matrix -/

/-- The working rows when `k` columns are done. -/
structure Tracks (m : BitMatrix) (n k : ℕ) (rows : Array TrackedRow) : Prop where
  isSquare : IsSquare n rows
  /-- The vectors are the combinations of the given rows that the coefficients name. -/
  compose_eq : (right n rows).compose m = .ok (left n rows)
  /-- The columns that are done are those of the identity. -/
  column_eq : ∀ j < k, ∃ unit, BitRow.unit n j = .ok unit ∧ (left n rows).column j = .ok unit
  independent : BitRow.Independent n (right n rows).rows

theorem Finished.column_eq_ok (hshape : m.HasShape n n) (h : Finished k (m.toMatrix n n)) {j : ℕ}
    (hjk : j < k) (hjn : j < n) : m.column j = .ok (BitRow.unitRow n j) := by
  have hn := hshape.aligned
  have hlen : (m.rows.map (·.testBit j)).length = n := by rw [List.length_map, hshape.length_rows]
  have hpack : (BitRow.pack (m.rows.map (·.testBit j))).length = n :=
    (BitRow.length_pack (by rw [hlen, hn])).trans hlen
  rw [BitMatrix.column_eq_ok hshape hn hjn, Except.ok.injEq]
  refine BitRow.ext_testBit (by rw [hpack, BitRow.length_unitRow hn]) fun i hi => ?_
  have hin : i < n := hpack ▸ hi
  have hirows : i < m.rows.length := hshape.length_rows.symm ▸ hin
  have hentry := h ⟨i, hin⟩ ⟨j, hjn⟩ hjk
  rw [BitMatrix.toMatrix_apply, Matrix.one_apply, ← ofBit_decide, ofBit_inj, BitMatrix.entry,
    List.getD_eq_getElem _ _ hirows] at hentry
  rw [BitRow.testBit_pack (by rw [hlen, hn]), BitRow.testBit_unitRow hn hin,
    List.getD_eq_getElem _ _ (by rwa [hlen]), List.getElem_map, hentry]
  simp [Fin.ext_iff]

theorem Invariant.tracks (hm : m.HasShape n n) (h : Invariant m n k rows) (hk : k ≤ n) :
    Tracks m n k rows where
  isSquare := h.isSquare
  compose_eq := by
    have hright := h.isSquare.hasShape_right hm.aligned
    have hleft := h.isSquare.hasShape_left hm.aligned
    rw [BitMatrix.compose_eq_ok hright hm, Except.ok.injEq,
      ← BitMatrix.toMatrix_inj (hright.product hm) hleft, BitMatrix.toMatrix_product hright hm,
      h.mul_eq]
  column_eq j hj :=
    ⟨BitRow.unitRow n j, BitRow.unit_eq_ok hm.aligned (hj.trans_le hk),
      h.finished.column_eq_ok (h.isSquare.hasShape_left hm.aligned) hj (hj.trans_le hk)⟩
  independent :=
    (BitMatrix.independent_rows_iff (h.isSquare.hasShape_right hm.aligned)).mpr h.isUnit

/-! ## Adding a row to another -/

/-- Row `target` of `out` is the sum of rows `target` and `source`, and the others are as before. -/
structure RowAdded (target source : ℕ) (rows out : Array TrackedRow) : Prop where
  size_eq : out.size = rows.size
  rowAt_target : ∃ a b sum, rowAt rows target = .ok a ∧ rowAt rows source = .ok b ∧
    a.add b = .ok sum ∧ rowAt out target = .ok sum
  rowAt_of_ne : ∀ i, i ≠ target → rowAt out i = rowAt rows i

theorem IsSquare.exists_rowAdded (h : IsSquare n rows) {target source : ℕ}
    (ht : target < n) (hs : source < n) (hne : target ≠ source) :
    ∃ out, addRow rows target source = .ok out ∧ RowAdded target source rows out := by
  have htsize : target < rows.size := h.size_eq.symm ▸ ht
  refine ⟨_, addRow_eq_ok h ht hs hne, Array.size_setIfInBounds, ?_, fun i hi => ?_⟩
  · refine ⟨_, _, _, rowAt_eq_ok htsize, rowAt_eq_ok (h.size_eq.symm ▸ hs),
      TrackedRow.add_eq_ok (h.hasLength target ht) (h.hasLength source hs), ?_⟩
    rw [rowAt_eq_ok (by rwa [Array.size_setIfInBounds]), getRow_setIfInBounds htsize, if_pos rfl]
  · rw [rowAt, rowAt, Array.getElem?_setIfInBounds_ne hi.symm, Array.size_setIfInBounds]

/-! ## Clearing a column -/

/-- The rows after the first `i` of them were visited for column `col`. -/
def afterRows (rows : Array TrackedRow) (col i : ℕ) : Except Error (Array TrackedRow) :=
  (List.range i).foldlM (clearEntry col) rows

theorem afterRows_succ {col i : ℕ} (h : afterRows rows col i = .ok mid) :
    afterRows rows col (i + 1) = clearEntry col mid i := by
  rw [afterRows] at h
  rw [afterRows, List.range_succ, List.foldlM_append, h, ok_bind, List.foldlM_cons]
  cases clearEntry col mid i <;> rfl

theorem IsSquare.clearColumn_eq (h : IsSquare n rows) (col : ℕ) :
    clearColumn rows col = afterRows rows col n := by
  rw [clearColumn, h.size_eq, afterRows]

/-- After any number of visits the invariant holds and the row of the pivot is as before. -/
theorem Invariant.clearRows (h : Invariant m n k rows) (hk : k < n) {i : ℕ} (hi : i ≤ n) :
    ∃ mid, afterRows rows k i = .ok mid ∧ Invariant m n k mid ∧ rowAt mid k = rowAt rows k := by
  obtain ⟨mid, hmid, hsquare, hget⟩ := clearRows_eq_ok h.isSquare hk hi
  let p : Fin n := ⟨k, hk⟩
  -- so far the row of the pivot was added to the first `i` rows only
  let factor : Fin n → ZMod 2 := fun l =>
    if (l : ℕ) < i ∧ (l : ℕ) ≠ k then (left n rows).toMatrix n n l p else 0
  have hs : Sheared p factor rows mid := by
    refine h.isSquare.sheared fun l => ?_
    by_cases hl : (l : ℕ) < i ∧ (l : ℕ) ≠ k
    · exact Or.inr ⟨(hget l).trans (if_pos hl), if_pos hl⟩
    · exact Or.inl ⟨(hget l).trans (if_neg hl), if_neg hl⟩
  have hpivot : factor p = 0 := if_neg fun hl => hl.2 rfl
  refine ⟨mid, hmid, h.shear hsquare hs hpivot le_rfl, ?_⟩
  rw [rowAt_eq_ok (hsquare.size_eq.symm ▸ hk), rowAt_eq_ok (h.isSquare.size_eq.symm ▸ hk), hget,
    if_neg fun hl => hl.2 rfl]

/-- A visit changes nothing, or adds the row of the pivot to the row that is visited. -/
theorem IsSquare.clearEntry_cases (h : IsSquare n rows) (hk : k < n) {i : ℕ} (hi : i < n) :
    ∃ next, clearEntry k rows i = .ok next ∧
      (next = rows ∨ i ≠ k ∧ addRow rows i k = .ok next ∧ RowAdded i k rows next) := by
  rw [clearEntry_eq h hk hi]
  split_ifs with hadd
  · obtain ⟨next, hnext, hadded⟩ := h.exists_rowAdded hi hk hadd.1
    exact ⟨next, hnext, Or.inr ⟨hadd.1, hnext, hadded⟩⟩
  · exact ⟨rows, rfl, Or.inl rfl⟩

/-! ## One column -/

/-- What happens to column `k`, from working rows for which the columns before it are done. -/
inductive ColumnStep (m : BitMatrix) (n k : ℕ) (rows : Array TrackedRow) : Prop
  /-- There is no pivot, and the elimination ends. -/
  | singular : findPivot rows k = .ok none → step rows k = .ok none → ColumnStep m n k rows
  /-- The row of the pivot is swapped onto the diagonal, and added to rows above and below. -/
  | clears {pivot : ℕ} {swapped out : Array TrackedRow} :
      findPivot rows k = .ok (some pivot) → swap rows pivot k = .ok swapped →
        (∀ i ≤ n, ∃ mid, afterRows swapped k i = .ok mid ∧ Tracks m n k mid ∧
          rowAt mid k = rowAt swapped k) →
        (∀ i < n, ∃ mid next, afterRows swapped k i = .ok mid ∧
          afterRows swapped k (i + 1) = .ok next ∧
            (next = mid ∨ i ≠ k ∧ addRow mid i k = .ok next ∧ RowAdded i k mid next)) →
          afterRows swapped k n = .ok out → step rows k = .ok (some out) → ColumnStep m n k rows

theorem Invariant.columnStep (hm : m.HasShape n n) (h : Invariant m n k rows) (hk : k < n) :
    ColumnStep m n k rows := by
  rcases h.pivot_cases hk with ⟨hfind, -⟩ | ⟨pivot, swapped, hfind, hswap, hinv, -⟩
  · exact .singular hfind (step_eq_none hfind)
  · obtain ⟨out, hout, -⟩ := hinv.clearRows hk le_rfl
    have hclear := (hinv.isSquare.clearColumn_eq k).trans hout
    refine .clears hfind hswap (fun i hi => ?_) (fun i hi => ?_) hout
      (step_eq_some hfind hswap hclear)
    · obtain ⟨mid, hmid, hkept, hrow⟩ := hinv.clearRows hk hi
      exact ⟨mid, hmid, hkept.tracks hm hk.le, hrow⟩
    · obtain ⟨mid, hmid, hkept, -⟩ := hinv.clearRows hk hi.le
      obtain ⟨next, hnext, hcases⟩ := hkept.isSquare.clearEntry_cases hk hi
      exact ⟨mid, next, hmid, (afterRows_succ hmid).trans hnext, hcases⟩

/-! ## All columns -/

/-- Inversion answers with the coefficients after the last column. -/
theorem invert_eq_afterColumns (hm : m.HasShape n n) (hstart : start m = .ok rows) :
    m.invert = (afterColumns rows n >>= fun last => .ok (last.map (right n))) := by
  rw [BitMatrix.invert, hm.checkSquare_eq_ok, ok_bind, hstart, ok_bind]
  congr 1
  funext last
  cases last <;> rfl

/-- The elimination starts with rows from which inversion goes column by column. Whatever columns it
reaches, the working rows track the matrix, and the next column keeps what is done while it is
cleared. Adding a row to another, above or below it, changes that other row only. -/
theorem afterColumns_tracks (hm : m.HasShape n n) : ∃ rows, start m = .ok rows ∧
    m.invert = (afterColumns rows n >>= fun last => .ok (last.map (right n))) ∧
    (∀ k ≤ n, ∃ state, afterColumns rows k = .ok state ∧ ∀ reached, state = some reached →
      Tracks m n k reached ∧ (k < n → ColumnStep m n k reached)) ∧
    ∀ work : Array TrackedRow, IsSquare n work → ∀ target < n, ∀ source < n, target ≠ source →
      ∃ out, addRow work target source = .ok out ∧ RowAdded target source work out := by
  obtain ⟨rows, hstart, hinv⟩ := start_eq_ok hm
  refine ⟨rows, hstart, invert_eq_afterColumns hm hstart, fun k hk => ?_,
    fun work hwork target ht source hs hne => hwork.exists_rowAdded ht hs hne⟩
  rcases afterColumns_cases hinv hk with ⟨out, hout, hlast⟩ | ⟨hnone, -⟩
  · refine ⟨some out, hout, fun reached hreached => ?_⟩
    obtain rfl : out = reached := Option.some.inj hreached
    exact ⟨hlast.tracks hm hk, hlast.columnStep hm⟩
  · refine ⟨none, hnone, fun reached hreached => ?_⟩
    exact absurd hreached.symm (Option.some_ne_none reached)

/-- Five columns of a matrix are done, and the pivot of the sixth is found two rows below. -/
theorem afterColumns_tracks_eight :
    let m : BitMatrix := ⟨[⟨#[2]⟩, ⟨#[1]⟩, ⟨#[4]⟩, ⟨#[8]⟩, ⟨#[16]⟩, ⟨#[64]⟩, ⟨#[128]⟩, ⟨#[255]⟩], 8⟩
    m.HasShape 8 8 ∧ ∃ rows reached, start m = .ok rows ∧
      afterColumns rows 5 = .ok (some reached) ∧ findPivot reached 5 = .ok (some 7) ∧
        Tracks m 8 5 reached ∧ ColumnStep m 8 5 reached := by
  intro m
  have hm : m.HasShape 8 8 := by decide
  obtain ⟨rows, hstart, -, hcolumns, -⟩ := afterColumns_tracks hm
  obtain ⟨state, hstate, hreached⟩ := hcolumns 5 (by decide)
  have hrun : (do
      let rows ← start m
      let state ← afterColumns rows 5
      state.elim (.ok none) (findPivot · 5)) = Except.ok (some 7) := by
    cbv
  rw [hstart, ok_bind, hstate, ok_bind] at hrun
  cases state with
  | none => simp at hrun
  | some reached =>
    obtain ⟨htracks, hstep⟩ := hreached reached rfl
    exact ⟨hm, rows, reached, hstart, hstate, hrun, htracks, hstep (by decide)⟩

end BitLinear.Elimination
