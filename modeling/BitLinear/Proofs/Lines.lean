import BitLinear.Text.Blank
import Mathlib

/-!
# Lines and the space around them

What a text says is its `foldedLines` : the lines that hold more than blanks, trimmed and in lower
case. A line end splits them (`contentLines_append_newline`), so blanks at the beginning or the end
of a line, and whole lines of them, change nothing, and letters of either case say the same. An
`Edit` is one such change, and any number of them keeps what the text says
(`foldedLines_eq_of_edits`).
-/

namespace BitLinear.Text

variable {l u v w text : List Char} {b c d : Char}

/-! ## Lower case -/

theorem isBlank_eq_false (h : 0x20 < c.toNat) (h' : c.toNat < 0x85) : isBlank c = false := by
  simp [isBlank, blankRanges]
  omega

/-- A character is its own lower case, or one of the letters that have another. -/
theorem toLower_cases (c : Char) :
    c.toLower = c ∨ 0x41 ≤ c.toNat ∧ c.toNat ≤ 0x5a ∧ c.toLower.toNat = c.toNat + 0x20 := by
  by_cases h : c.val ≥ 'A'.val ∧ c.val ≤ 'Z'.val
  · right
    have hlow : 0x41 ≤ c.val.toNat := h.1
    have hhigh : c.val.toNat ≤ 0x5a := h.2
    refine ⟨hlow, hhigh, ?_⟩
    rw [Char.toLower, dif_pos h]
    have hsmall : c.val.toNat + 0x20 < 2 ^ 32 := by omega
    exact (UInt32.toNat_add c.val 0x20).trans (Nat.mod_eq_of_lt hsmall)
  · exact Or.inl (by rw [Char.toLower, dif_neg h])

theorem isBlank_toLower (c : Char) : isBlank c.toLower = isBlank c := by
  rcases toLower_cases c with h | ⟨hlow, hhigh, h⟩
  · rw [h]
  · rw [isBlank_eq_false (by omega) (by omega), isBlank_eq_false (by omega) (by omega)]

theorem toLower_eq_newline_iff : c.toLower = '\n' ↔ c = '\n' := by
  rcases toLower_cases c with h | ⟨hlow, hhigh, h⟩
  · rw [h]
  · refine ⟨fun heq => ?_, fun heq => ?_⟩
    · rw [heq] at h
      have : '\n'.toNat = 10 := rfl
      omega
    · rw [heq] at hlow
      simp at hlow

/-! ## Trimming -/

theorem trim_eq_rdropWhile (l : List Char) :
    trim l = (l.dropWhile isBlank).rdropWhile isBlank :=
  rfl

theorem trim_map_toLower (l : List Char) :
    trim (l.map Char.toLower) = (trim l).map Char.toLower := by
  have h : isBlank ∘ Char.toLower = isBlank := funext isBlank_toLower
  simp only [trim, List.dropWhile_map, ← List.map_reverse, h]

/-- A text that begins and ends with no blank is left as it is. -/
theorem trim_eq_self (h : ∀ c ∈ l, isBlank c = false) : trim l = l := by
  have hfront : l.dropWhile isBlank = l :=
    List.dropWhile_eq_self_iff.mpr fun _ => by simp [h]
  rw [trim_eq_rdropWhile, hfront]
  exact List.rdropWhile_eq_self_iff.mpr fun hl => by simp [h _ (List.getLast_mem hl)]

theorem not_isBlank_head_trim (h : 0 < (trim l).length) : ¬isBlank (trim l)[0] := by
  have hfirst : trim l <+: l.dropWhile isBlank := List.rdropWhile_prefix _ _
  rw [hfirst.getElem h]
  exact List.dropWhile_get_zero_not _ _ (h.trans_le hfirst.length_le)

theorem trim_trim (l : List Char) : trim (trim l) = trim l := by
  have hfront : (trim l).dropWhile isBlank = trim l :=
    List.dropWhile_eq_self_iff.mpr not_isBlank_head_trim
  rw [trim_eq_rdropWhile (trim l), hfront, trim_eq_rdropWhile, List.rdropWhile_idempotent]

theorem trim_cons (hb : isBlank b) (l : List Char) : trim (b :: l) = trim l := by
  rw [trim, List.dropWhile_cons_of_pos hb, trim]

theorem trim_concat (hb : isBlank b) (l : List Char) : trim (l ++ [b]) = trim l := by
  rw [trim_eq_rdropWhile, trim_eq_rdropWhile, List.dropWhile_append]
  split_ifs with hempty
  · rw [List.isEmpty_iff.mp hempty, List.dropWhile_cons_of_pos hb]
    rfl
  · rw [List.rdropWhile_concat_pos _ _ _ hb]

/-! ## Lines -/

theorem contentLines_append_newline (u v : List Char) :
    contentLines (u ++ '\n' :: v) = contentLines u ++ contentLines v := by
  have hsplit : (u ++ '\n' :: v).splitOn '\n' = u.splitOn '\n' ++ v.splitOn '\n' :=
    List.splitOnP_append_cons u v (beq_self_eq_true '\n')
  rw [contentLines, hsplit, List.map_append, List.filter_append, contentLines, contentLines]

theorem contentLines_line (h : '\n' ∉ l) : contentLines l = [trim l].filter (· ≠ []) := by
  have hsplit : l.splitOn '\n' = [l] :=
    List.splitOnP_eq_singleton fun c hc => beq_false_of_ne fun heq => h (heq ▸ hc)
  rw [contentLines, hsplit, List.map_singleton]

/-- A text is one line, or a first line with a text after it. -/
theorem line_induction {motive : List Char → Prop} (line : ∀ l, '\n' ∉ l → motive l)
    (next : ∀ l w, '\n' ∉ l → motive w → motive (l ++ '\n' :: w)) (text : List Char) :
    motive text := by
  induction hn : text.length using Nat.strong_induction_on generalizing text with
  | _ n ih =>
    by_cases h : '\n' ∈ text
    · obtain ⟨l, w, rfl, hl⟩ := List.eq_append_cons_of_mem h
      rw [List.length_append, List.length_cons] at hn
      exact next l w hl (ih w.length (by omega) w rfl)
    · exact line text h

theorem contentLines_intercalate {lines : List (List Char)} (h : ∀ l ∈ lines, '\n' ∉ l) :
    contentLines (List.intercalate ['\n'] lines) = (lines.map trim).filter (· ≠ []) := by
  rcases eq_or_ne lines [] with rfl | hne
  · rfl
  · rw [contentLines, List.splitOn_intercalate '\n' h hne]

theorem trim_of_mem_contentLines (h : l ∈ contentLines text) : trim l = l := by
  obtain ⟨line, -, rfl⟩ := List.mem_map.mp (List.mem_filter.mp h).1
  exact trim_trim line

/-- A blank in front of a text belongs to no line that counts. -/
theorem contentLines_cons (hb : isBlank b) (v : List Char) :
    contentLines (b :: v) = contentLines v := by
  by_cases hnewline : b = '\n'
  · subst hnewline
    exact contentLines_append_newline [] v
  have hline (l : List Char) (hl : '\n' ∉ l) : contentLines (b :: l) = contentLines l := by
    rw [contentLines_line hl, contentLines_line (by simp [hl, Ne.symm hnewline]), trim_cons hb]
  induction v using line_induction with
  | line l hl => exact hline l hl
  | next l w hl _ =>
    rw [← List.cons_append, contentLines_append_newline, contentLines_append_newline, hline l hl]

/-- A blank behind a text belongs to no line that counts. -/
theorem contentLines_concat (hb : isBlank b) (u : List Char) :
    contentLines (u ++ [b]) = contentLines u := by
  induction u using line_induction with
  | line l hl =>
    by_cases hnewline : b = '\n'
    · subst hnewline
      rw [contentLines_append_newline]
      exact List.append_nil _
    · rw [contentLines_line hl, contentLines_line (by simp [hl, Ne.symm hnewline]), trim_concat hb]
  | next l w _ ih =>
    rw [List.append_assoc, List.cons_append, contentLines_append_newline,
      contentLines_append_newline, ih]

theorem contentLines_space_append {space : List Char} (h : ∀ b ∈ space, isBlank b)
    (v : List Char) : contentLines (space ++ v) = contentLines v := by
  induction space with
  | nil => rfl
  | cons b space ih =>
    obtain ⟨hb, hspace⟩ := List.forall_mem_cons.mp h
    rw [List.cons_append, contentLines_cons hb, ih hspace]

theorem contentLines_append_space {space : List Char} (h : ∀ b ∈ space, isBlank b) :
    ∀ u : List Char, contentLines (u ++ space) = contentLines u := by
  induction space with
  | nil => intro u; rw [List.append_nil]
  | cons b space ih =>
    intro u
    obtain ⟨hb, hspace⟩ := List.forall_mem_cons.mp h
    rw [List.append_cons, ih hspace, contentLines_concat hb]

theorem contentLines_map_toLower (text : List Char) :
    contentLines (text.map Char.toLower) = (contentLines text).map (·.map Char.toLower) := by
  have hmem (l : List Char) (hl : '\n' ∉ l) : '\n' ∉ l.map Char.toLower := by
    simpa [toLower_eq_newline_iff] using hl
  have hline (l : List Char) (hl : '\n' ∉ l) : contentLines (l.map Char.toLower) =
      (contentLines l).map (·.map Char.toLower) := by
    rw [contentLines_line hl, contentLines_line (hmem l hl), trim_map_toLower]
    by_cases hempty : trim l = [] <;> simp [hempty]
  induction text using line_induction with
  | line l hl => exact hline l hl
  | next l w hl ih =>
    have hsplit := contentLines_append_newline (l.map Char.toLower) (w.map Char.toLower)
    rw [contentLines_append_newline, List.map_append, List.map_cons, List.map_append, ← hline l hl,
      ← ih]
    exact hsplit

/-! ## Edits -/

/-- What a text says: the lines that hold more than blanks, trimmed and in lower case. -/
def foldedLines (text : List Char) : List (List Char) :=
  (contentLines text).map (·.map Char.toLower)

/-- A change that keeps what a text says. White space is any number of blanks, newlines included,
so it pads a line, puts a carriage return before a line end, or makes lines of its own. -/
inductive Edit : List Char → List Char → Prop
  /-- A letter is written in its other case. -/
  | recase (u v : List Char) {c d : Char} (h : c.toLower = d.toLower) :
    Edit (u ++ c :: v) (u ++ d :: v)
  /-- White space is put in at the beginning of a line. -/
  | before (u v space : List Char) (hspace : ∀ b ∈ space, isBlank b)
    (hu : u = [] ∨ ∃ w, u = w ++ ['\n']) : Edit (u ++ v) (u ++ space ++ v)
  /-- White space is put in at the end of a line. -/
  | after (u v space : List Char) (hspace : ∀ b ∈ space, isBlank b)
    (hv : v = [] ∨ ∃ w, v = '\n' :: w) : Edit (u ++ v) (u ++ space ++ v)

theorem Edit.foldedLines_eq {a b : List Char} (h : Edit a b) : foldedLines a = foldedLines b := by
  cases h with
  | @recase u v c d h =>
    rw [foldedLines, foldedLines, ← contentLines_map_toLower, ← contentLines_map_toLower]
    simp only [List.map_append, List.map_cons, h]
  | before u v space hspace hu =>
    rw [foldedLines, foldedLines]
    congr 1
    rcases hu with rfl | ⟨w, rfl⟩
    · rw [List.nil_append, List.nil_append, contentLines_space_append hspace]
    · rw [List.append_assoc (w ++ ['\n'])]
      simp only [List.append_assoc w, List.singleton_append, contentLines_append_newline,
        contentLines_space_append hspace]
  | after u v space hspace hv =>
    rw [foldedLines, foldedLines]
    congr 1
    rcases hv with rfl | ⟨w, rfl⟩
    · rw [List.append_nil, List.append_nil, contentLines_append_space hspace]
    · rw [contentLines_append_newline, contentLines_append_newline,
        contentLines_append_space hspace]

theorem foldedLines_eq_of_edits {a b : List Char} (h : Relation.ReflTransGen Edit a b) :
    foldedLines a = foldedLines b := by
  induction h with
  | refl => rfl
  | tail _ hedit ih => exact ih.trans hedit.foldedLines_eq

end BitLinear.Text
