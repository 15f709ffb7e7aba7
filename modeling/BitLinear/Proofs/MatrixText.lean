import BitLinear.BitMatrix.Text
import BitLinear.Proofs.Checked
import BitLinear.Proofs.HexText

/-!
# Reading a matrix back from its text

A matrix is read from exactly the texts that say its rows : in lower case and without the blanks
around its lines such a text has the digits of one row on each line
(`ofDigitLines_eq_ok_iff`). A rendered matrix says its rows unless they have no digits
(`foldedLines_digits`), so the matrices that are read back from their rendering are those with a
row and a column and the one without either. They are read back as well from every text that edits
make of the rendering, and whatever is read renders as what the text says.
-/

namespace BitLinear.BitMatrix

open Text

variable {m : BitMatrix} {text : List Char}

/-! ## Texts that are read -/

/-- The search for a row of another width. -/
theorem find?_ragged_eq_none_iff {rows : List BitRow} {width : ℕ} :
    (rows.zipIdx.find? fun (row, _) => row.length ≠ width) = none ↔
      ∀ row ∈ rows, row.length = width := by
  rw [List.find?_eq_none]
  refine ⟨fun h row hrow => ?_, fun h entry hentry => ?_⟩
  · obtain ⟨i, hi, rfl⟩ := List.mem_iff_getElem.mp hrow
    have hmem : (rows[i], i) ∈ rows.zipIdx := List.mk_mem_zipIdx_iff_getElem?.mpr (by simp [hi])
    simpa using h _ hmem
  · simpa using h entry.1 (List.fst_mem_of_mem_zipIdx hentry)

/-- Rows make a matrix exactly if they have the width of the first, and no rows make no columns. -/
theorem ofRows_eq_ok_iff {rows : List BitRow} : ofRows rows = .ok m ↔
    m.WellFormed ∧ (m.rows = [] → m.cols = 0) ∧ m.rows = rows := by
  unfold ofRows
  dsimp only
  refine ⟨fun h => ?_, ?_⟩
  · split at h
    · cases h
    · rename_i hfind
      obtain rfl := Except.ok.inj h
      refine ⟨⟨?_, find?_ragged_eq_none_iff.mp hfind⟩, fun hrows => ?_, rfl⟩
      · cases rows with
        | nil => rfl
        | cons row rows => exact row.length_mod_eight
      · simp [show rows = [] from hrows]
  · rintro ⟨hm, hcols, rfl⟩
    have hwidth : (m.rows.head?.map BitRow.length).getD 0 = m.cols := by
      cases hrows : m.rows with
      | nil => simp [hcols hrows]
      | cons row rows => simpa using hm.2 row (by simp [hrows])
    rw [hwidth, find?_ragged_eq_none_iff.mpr hm.2]

/-- Trimmed lines are read as the rows whose digits they are, in lower case. -/
theorem mapM_ofDigits_eq_ok_iff : ∀ {lines : List (List Char)} {rows : List BitRow},
    (∀ l ∈ lines, trim l = l) → (lines.mapM BitRow.ofDigits = .ok rows ↔
      rows.map BitRow.digits = lines.map (·.map Char.toLower))
  | [], rows, _ => by simp [pure, Except.pure, eq_comm]
  | l :: lines, rows, h => by
    obtain ⟨hl, hlines⟩ := List.forall_mem_cons.mp h
    rw [List.mapM_cons, bind_eq_ok_iff]
    refine ⟨?_, fun hdigits => ?_⟩
    · rintro ⟨row, hrow, htail⟩
      obtain ⟨rest, hrest, hpure⟩ := bind_eq_ok_iff.mp htail
      obtain rfl : row :: rest = rows := Except.ok.inj hpure
      rw [BitRow.ofDigits_eq_ok_iff, hl] at hrow
      rw [List.map_cons, List.map_cons, hrow, (mapM_ofDigits_eq_ok_iff hlines).mp hrest]
    · obtain ⟨row, rest, rfl, hrow, hrest⟩ := List.map_eq_cons_iff.mp hdigits
      refine ⟨row, BitRow.ofDigits_eq_ok_iff.mpr (by rw [hl, hrow]), ?_⟩
      rw [(mapM_ofDigits_eq_ok_iff hlines).mpr hrest]
      rfl

/-- A matrix is read from exactly the texts that say its rows. -/
theorem ofDigitLines_eq_ok_iff : ofDigitLines text = .ok m ↔
    m.WellFormed ∧ (m.rows = [] → m.cols = 0) ∧ m.rows.map BitRow.digits = foldedLines text := by
  have hread (rows : List BitRow) : (contentLines text).mapM BitRow.ofDigits = .ok rows ↔
      rows.map BitRow.digits = foldedLines text :=
    mapM_ofDigits_eq_ok_iff fun l hl => trim_of_mem_contentLines hl
  rw [ofDigitLines, bind_eq_ok_iff]
  refine ⟨?_, fun ⟨hm, hcols, hrows⟩ => ⟨m.rows, (hread _).mpr hrows, ?_⟩⟩
  · rintro ⟨rows, hrows, hm⟩
    obtain ⟨hwf, hcols, rfl⟩ := ofRows_eq_ok_iff.mp hm
    exact ⟨hwf, hcols, (hread _).mp hrows⟩
  · exact ofRows_eq_ok_iff.mpr ⟨hm, hcols, rfl⟩

theorem ofDigitLines_of_edits {edited : List Char} (h : Relation.ReflTransGen Edit text edited)
    (hm : ofDigitLines text = .ok m) : ofDigitLines edited = .ok m := by
  rw [ofDigitLines_eq_ok_iff] at hm ⊢
  rwa [← foldedLines_eq_of_edits h]

/-! ## Rendered matrices -/

theorem parse_render (m : BitMatrix) : parse m.render = ofDigitLines m.digits := by
  rw [parse, render, String.toList_ofList]

/-- What is read renders as what the text says. -/
theorem digits_of_ofDigitLines_eq_ok (h : ofDigitLines text = .ok m) :
    m.digits = List.intercalate ['\n'] (foldedLines text) := by
  rw [digits, (ofDigitLines_eq_ok_iff.mp h).2.2]

/-- A rendered matrix says its rows, unless these have no digits. -/
theorem foldedLines_digits (m : BitMatrix) :
    foldedLines m.digits = (m.rows.map BitRow.digits).filter (· ≠ []) := by
  have hlines : ∀ l ∈ m.rows.map BitRow.digits, '\n' ∉ l := by
    exact List.forall_mem_map.mpr fun row _ => row.newline_notMem_digits
  have htrim : (m.rows.map BitRow.digits).map trim = m.rows.map BitRow.digits := by
    simp [Function.comp_def, BitRow.trim_digits]
  have hlower : ((m.rows.map BitRow.digits).filter (· ≠ [])).map (·.map Char.toLower) =
      (m.rows.map BitRow.digits).filter (· ≠ []) := by
    refine (List.map_congr_left fun l hl => ?_).trans (List.map_id _)
    obtain ⟨row, -, rfl⟩ := List.mem_map.mp (List.mem_filter.mp hl).1
    exact row.toLower_digits
  rw [foldedLines, digits, contentLines_intercalate hlines, htrim, hlower]

/-- The rows have digits, or there are none to have any. -/
def IsLegible (m : BitMatrix) : Prop :=
  (m.rows ≠ [] ∧ m.cols ≠ 0) ∨ m = ⟨[], 0⟩

theorem WellFormed.digits_eq_nil_iff (hm : m.WellFormed) {row : BitRow} (hrow : row ∈ m.rows) :
    row.digits = [] ↔ m.cols = 0 := by
  rw [← List.length_eq_zero_iff, ← hm.2 row hrow, ← row.length_digits]
  omega

/-- Reading back keeps all rows if they have digits, and else none. -/
theorem WellFormed.foldedLines_digits (hm : m.WellFormed) :
    foldedLines m.digits = if m.cols = 0 then [] else m.rows.map BitRow.digits := by
  rw [BitMatrix.foldedLines_digits]
  split_ifs with hcols
  · rw [List.filter_eq_nil_iff, List.forall_mem_map]
    exact fun row hrow => by simp [(hm.digits_eq_nil_iff hrow).mpr hcols]
  · rw [List.filter_eq_self, List.forall_mem_map]
    exact fun row hrow => by simp [hm.digits_eq_nil_iff hrow, hcols]

theorem WellFormed.parse_render_eq_ok_iff (hm : m.WellFormed) :
    parse m.render = .ok m ↔ m.IsLegible := by
  rw [parse_render, ofDigitLines_eq_ok_iff, hm.foldedLines_digits, IsLegible]
  refine ⟨fun ⟨_, hempty, hrows⟩ => ?_, ?_⟩
  · by_cases h : m.rows = []
    · exact Or.inr (by rw [← h, ← hempty h])
    · refine Or.inl ⟨h, fun hcols => h ?_⟩
      rwa [if_pos hcols, List.map_eq_nil_iff] at hrows
  · rintro (⟨hrows, hcols⟩ | rfl)
    · exact ⟨hm, fun h => absurd h hrows, by rw [if_neg hcols]⟩
    · exact ⟨hm, fun _ => rfl, rfl⟩

theorem WellFormed.parse_render_of_not_isLegible (hm : m.WellFormed) (h : ¬m.IsLegible) :
    parse m.render = .ok ⟨[], 0⟩ := by
  rw [parse_render, ofDigitLines_eq_ok_iff, hm.foldedLines_digits]
  refine ⟨⟨rfl, by simp⟩, fun _ => rfl, ?_⟩
  split_ifs with hcols
  · rfl
  · have hrows : m.rows = [] := by
      by_contra hrows
      exact h (Or.inl ⟨hrows, hcols⟩)
    rw [hrows]

/-- Reading the rendering of a well-formed matrix gives it back exactly if it has a row and a column
or neither, and else gives the matrix without either. A matrix that is read back is read as well
from every text that edits make of its rendering. And a matrix that is read from a text renders as
the lines of the text that hold more than white space, trimmed and in lower case. -/
theorem parse_render_edits (m : BitMatrix) :
    (m.WellFormed →
      (parse m.render = .ok m ↔ (m.rows ≠ [] ∧ m.cols ≠ 0) ∨ m = ⟨[], 0⟩) ∧
      (parse m.render ≠ .ok m → parse m.render = .ok ⟨[], 0⟩) ∧
      (parse m.render = .ok m → ∀ text : String,
        Relation.ReflTransGen Edit m.render.toList text.toList → parse text = .ok m)) ∧
    ∀ text : String, parse text = .ok m → m.render = String.ofList
      (List.intercalate ['\n'] ((contentLines text.toList).map (·.map Char.toLower))) := by
  refine ⟨fun hm => ⟨hm.parse_render_eq_ok_iff, fun h => ?_, fun h text hedits => ?_⟩,
    fun text h => ?_⟩
  · exact hm.parse_render_of_not_isLegible fun hleg => h (hm.parse_render_eq_ok_iff.mpr hleg)
  · exact ofDigitLines_of_edits hedits h
  · rw [render, digits_of_ofDigitLines_eq_ok h]
    rfl

/-- A tab in front of a line, a letter in upper case, and a carriage return with a blank line. -/
theorem parse_render_edits_sixteen :
    let m : BitMatrix := ⟨[⟨#[0xab, 1]⟩, ⟨#[12, 0xff]⟩], 16⟩
    m.WellFormed ∧ m.render = "ab01\n0cff" ∧ parse m.render = .ok m ∧
      parse "\tAb01\r\n \n0cff" = .ok m := by
  intro m
  have hm : m.WellFormed := by decide
  obtain ⟨hiff, -, hedits⟩ := (parse_render_edits m).1 hm
  have hparse : parse m.render = .ok m := hiff.mpr (Or.inl ⟨by decide, by decide⟩)
  refine ⟨hm, by cbv, hparse, hedits hparse _ ?_⟩
  have hrender : m.render.toList = "ab01\n0cff".toList := by cbv
  rw [hrender]
  refine (Relation.ReflTransGen.single (b := "\tab01\n0cff".toList) ?_).trans
    ((Relation.ReflTransGen.single (b := "\tAb01\n0cff".toList) ?_).trans (.single ?_))
  · exact .before [] "ab01\n0cff".toList ['\t'] (List.all_eq_true.mp rfl) (Or.inl rfl)
  · exact .recase ['\t'] "b01\n0cff".toList (by decide)
  · exact .after "\tAb01".toList "\n0cff".toList "\r\n ".toList (List.all_eq_true.mp rfl)
      (Or.inr ⟨"0cff".toList, rfl⟩)

end BitLinear.BitMatrix
