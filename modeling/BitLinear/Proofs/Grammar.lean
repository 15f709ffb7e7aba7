import BitLinear.Proofs.Checks

/-!
# Which texts are read, and what is reported of the others

A text has one decomposition into blanks, what is left between them and blanks again (`Trims`), and
one into lines (`HasLines`). What is left is read as a row exactly if its bytes are an even number
of digits. Of other bytes a `Fault` is reported : an odd number of them, or else the first that is
no digit (`Hex.decode_eq_error_iff`).

A matrix is read from the lines that hold more than blanks, one row from each. `ReadsLines` says
what comes out : the first line that is no row is reported whatever the widths are, a row of another
width than the first only if there is no such line, and otherwise the rows make the matrix. The last
statement says this of the two readers, for every text.
-/

namespace BitLinear

/-! ## Loops that fail -/

section Loops

variable {α β : Type} {f : α → Except Error β} {cause : Error}

theorem bind_eq_error_iff {x : Except Error α} :
    (x >>= f) = .error cause ↔ x = .error cause ∨ ∃ a, x = .ok a ∧ f a = .error cause := by
  cases x with
  | ok a => simp [bind, Except.bind]
  | error cause' => simp [bind, Except.bind]

/-- A loop passes with one result for each element. -/
theorem mapM_eq_ok_iff : ∀ {l : List α} {out : List β},
    l.mapM f = .ok out ↔ List.Forall₂ (fun x y => f x = .ok y) l out
  | [], out => by simp [pure, Except.pure, eq_comm]
  | x :: l, out => by
    rw [List.mapM_cons, bind_eq_ok_iff, List.forall₂_cons_left_iff]
    simp only [bind_eq_ok_iff, mapM_eq_ok_iff (l := l), pure, Except.pure, Except.ok.injEq]
    refine ⟨?_, ?_⟩
    · rintro ⟨y, hy, rest, hrest, rfl⟩
      exact ⟨y, rest, hy, hrest, rfl⟩
    · rintro ⟨y, rest, hy, hrest, rfl⟩
      exact ⟨y, hy, rest, hrest, rfl⟩

/-- A loop fails with the first element that fails. -/
theorem mapM_eq_error_iff : ∀ {l : List α}, l.mapM f = .error cause ↔
    ∃ before x after, l = before ++ x :: after ∧ (∀ y ∈ before, ∃ b, f y = .ok b) ∧
      f x = .error cause
  | [] => by simp [pure, Except.pure]
  | x :: l => by
    rw [List.mapM_cons, bind_eq_error_iff]
    simp only [bind_eq_error_iff, mapM_eq_error_iff (l := l), pure, Except.pure, reduceCtorEq,
      and_false, exists_false, or_false]
    refine ⟨?_, ?_⟩
    · rintro (hx | ⟨b, hb, before, y, after, rfl, hbefore, hy⟩)
      · exact ⟨[], x, l, rfl, by simp, hx⟩
      · exact ⟨x :: before, y, after, rfl, List.forall_mem_cons.mpr ⟨⟨b, hb⟩, hbefore⟩, hy⟩
    · rintro ⟨before, y, after, heq, hbefore, hy⟩
      rcases List.cons_eq_append_iff.mp heq with ⟨rfl, hcons⟩ | ⟨rest, rfl, rfl⟩
      · obtain ⟨rfl, -⟩ := List.cons.inj hcons
        exact Or.inl hy
      · obtain ⟨⟨b, hb⟩, hrest⟩ := List.forall_mem_cons.mp hbefore
        exact Or.inr ⟨b, hb, rest, y, after, rfl, hrest, hy⟩

end Loops

/-! ## Blanks and lines -/

namespace Text

variable {text trimmed l : List Char} {lines : List (List Char)}

/-- The blanks at both ends of a text are taken away and no more. -/
structure Trims (text trimmed : List Char) : Prop where
  blanks : ∃ front back, text = front ++ trimmed ++ back ∧ ∀ b ∈ front ++ back, isBlank b
  head : ∀ h : 0 < trimmed.length, ¬isBlank trimmed[0]
  last : ∀ h : trimmed ≠ [], ¬isBlank (trimmed.getLast h)

theorem trim_space_append {space : List Char} (h : ∀ b ∈ space, isBlank b) (l : List Char) :
    trim (space ++ l) = trim l := by
  rw [trim, List.dropWhile_append_of_pos h, trim]

theorem trim_append_space {space : List Char} (h : ∀ b ∈ space, isBlank b) :
    ∀ l : List Char, trim (l ++ space) = trim l := by
  induction space with
  | nil => intro l; rw [List.append_nil]
  | cons b space ih =>
    intro l
    obtain ⟨hb, hspace⟩ := List.forall_mem_cons.mp h
    rw [List.append_cons, ih hspace, trim_concat hb]

/-- Trimming finds what is left between the blanks. -/
theorem trims_iff : Trims text trimmed ↔ trim text = trimmed := by
  refine ⟨?_, ?_⟩
  · rintro ⟨⟨front, back, rfl, hblank⟩, hhead, hlast⟩
    obtain ⟨hfront, hback⟩ := List.forall_mem_append.mp hblank
    rw [trim_append_space hback, trim_space_append hfront, trim_eq_rdropWhile,
      List.dropWhile_eq_self_iff.mpr hhead, List.rdropWhile_eq_self_iff.mpr hlast]
  · rintro rfl
    have hrest : (text.dropWhile isBlank).rdropWhile isBlank ++
        (text.dropWhile isBlank).rtakeWhile isBlank = text.dropWhile isBlank :=
      List.rdropWhile_append_rtakeWhile
    refine ⟨⟨text.takeWhile isBlank, (text.dropWhile isBlank).rtakeWhile isBlank, ?_, ?_⟩,
      not_isBlank_head_trim, List.rdropWhile_last_not _ _⟩
    · rw [trim_eq_rdropWhile, List.append_assoc, hrest, List.takeWhile_append_dropWhile]
    · refine List.forall_mem_append.mpr ⟨fun b hb => List.mem_takeWhile_imp hb, fun b hb => ?_⟩
      exact List.mem_rtakeWhile_imp hb

theorem trim_eq_nil_iff : trim l = [] ↔ l.all isBlank = true := by
  rw [trim_eq_rdropWhile, List.rdropWhile_eq_nil_iff, List.all_eq_true]
  refine ⟨fun h b hb => ?_, fun h b hb => h b (List.dropWhile_suffix _ |>.subset hb)⟩
  rw [← List.takeWhile_append_dropWhile (p := isBlank) (l := l)] at hb
  rcases List.mem_append.mp hb with hb | hb
  · exact List.mem_takeWhile_imp hb
  · exact h b hb

/-- The lines of a text, which newlines keep apart. -/
structure HasLines (text : List Char) (lines : List (List Char)) : Prop where
  ne_nil : lines ≠ []
  newline_notMem : ∀ l ∈ lines, '\n' ∉ l
  intercalate_eq : List.intercalate ['\n'] lines = text

theorem exists_hasLines (text : List Char) : ∃ lines, HasLines text lines := by
  induction text using line_induction with
  | line l hl => exact ⟨[l], by simp, by simpa using hl, List.intercalate_singleton⟩
  | next l w hl ih =>
    obtain ⟨lines, hne, hmem, rfl⟩ := ih
    refine ⟨l :: lines, by simp, List.forall_mem_cons.mpr ⟨hl, hmem⟩, ?_⟩
    rw [List.intercalate_cons_of_ne_nil hne]
    simp

theorem HasLines.splitOn_eq (h : HasLines text lines) : text.splitOn '\n' = lines := by
  rw [← h.intercalate_eq, List.splitOn_intercalate '\n' h.newline_notMem h.ne_nil]

/-- The lines that count are those that hold more than blanks. -/
theorem HasLines.contentLines_eq (h : HasLines text lines) :
    contentLines text = (lines.filter fun l => !l.all isBlank).map trim := by
  rw [contentLines, h.splitOn_eq, List.filter_map]
  congr 1
  refine List.filter_congr fun l _ => ?_
  by_cases hl : l.all isBlank <;> simp [trim_eq_nil_iff, hl]

end Text

/-! ## Digits and faults -/

namespace Hex

variable {bytes : List Byte} {b : Byte} {fault : HexError}

/-- A byte that is a digit of either case. -/
def IsDigit (b : Byte) : Prop :=
  b ∈ digits.map byteOf

theorem isDigit_iff : IsDigit b ↔ (digitValue? b).isSome := by
  have hlow : ∀ k < 128, (digitValue? (UInt8.ofNat k)).isSome →
      UInt8.ofNat k ∈ digits.map byteOf := by decide
  refine ⟨fun h => ?_, fun h => ?_⟩
  · obtain ⟨c, hc, rfl⟩ := List.mem_map.mp h
    rw [digitValue?_of_mem_digits c hc, Option.isSome_some]
  · have hlt : b.toNat < 128 := by
      by_contra hge
      simp [digitValue?_of_ge (Nat.le_of_not_lt hge)] at h
    have hb := hlow b.toNat hlt
    rw [UInt8.ofNat_toNat] at hb
    exact hb h

theorem digit_eq_ok (h : IsDigit b) (position : ℕ) : ∃ v, digit position b = .ok v := by
  obtain ⟨v, hv⟩ := Option.isSome_iff_exists.mp (isDigit_iff.mp h)
  exact ⟨v, by rw [digit, hv]⟩

theorem digit_eq_error (h : ¬IsDigit b) (position : ℕ) :
    digit position b = .error (.invalidByte b position) := by
  rw [isDigit_iff, Option.not_isSome_iff_eq_none] at h
  rw [digit, h]

/-- What is reported of bytes that are no hexadecimal text : that their number is odd, or else the
first of them that is no digit and the number of bytes before it. -/
inductive Fault : List Byte → HexError → Prop
  | odd {bytes : List Byte} (h : bytes.length % 2 = 1) : Fault bytes .oddLength
  | notDigit {before after : List Byte} {b : Byte}
    (heven : (before ++ b :: after).length % 2 = 0) (hbefore : ∀ d ∈ before, IsDigit d)
    (hb : ¬IsDigit b) : Fault (before ++ b :: after) (.invalidByte b before.length)

/-- Bytes have a fault unless they are an even number of digits. -/
theorem exists_fault (h : ¬(bytes.length % 2 = 0 ∧ ∀ b ∈ bytes, IsDigit b)) :
    ∃ fault, Fault bytes fault := by
  by_cases heven : bytes.length % 2 = 0
  · have hbad : ∃ b ∈ bytes, (!(digitValue? b).isSome) = true := by
      simpa [heven, isDigit_iff] using h
    obtain ⟨first, hfirst⟩ := Option.isSome_iff_exists.mp (List.find?_isSome.mpr hbad)
    obtain ⟨hnot, before, after, rfl, hbefore⟩ := List.find?_eq_some_iff_append.mp hfirst
    refine ⟨_, .notDigit heven (fun d hd => ?_) ?_⟩
    · simpa [isDigit_iff] using hbefore d hd
    · simpa [isDigit_iff] using hnot
  · exact ⟨.oddLength, .odd (by omega)⟩

theorem decodePairs_of_isDigit : ∀ {bytes : List Byte} (position : ℕ),
    (∀ b ∈ bytes, IsDigit b) → ∃ out, decodePairs position bytes = .ok out
  | [], _, _ => ⟨[], rfl⟩
  | [_], _, _ => ⟨[], rfl⟩
  | high :: low :: bytes, position, h => by
    obtain ⟨hhigh, hlow, hbytes⟩ : IsDigit high ∧ IsDigit low ∧ ∀ b ∈ bytes, IsDigit b := by
      simpa using h
    obtain ⟨v, hv⟩ := digit_eq_ok hhigh position
    obtain ⟨w, hw⟩ := digit_eq_ok hlow (position + 1)
    obtain ⟨out, hout⟩ := decodePairs_of_isDigit (position + 2) hbytes
    exact ⟨(v <<< 4 ||| w) :: out, by rw [decodePairs, hv, hw, hout]; rfl⟩

/-- The first byte that is no digit is reported, in front or behind in its pair. -/
theorem decodePairs_of_notDigit : ∀ {before after : List Byte} (position : ℕ),
    (before ++ b :: after).length % 2 = 0 → (∀ d ∈ before, IsDigit d) → ¬IsDigit b →
      decodePairs position (before ++ b :: after) =
        .error (.invalidByte b (position + before.length))
  | [], [], _, heven, _, _ => by simp at heven
  | [], low :: after, position, _, _, hb => by
    rw [List.nil_append, decodePairs, digit_eq_error hb]
    rfl
  | [high], after, position, _, hbefore, hb => by
    obtain ⟨v, hv⟩ := digit_eq_ok (hbefore high List.mem_cons_self) position
    rw [List.singleton_append, decodePairs, hv, digit_eq_error hb]
    rfl
  | high :: low :: before, after, position, heven, hbefore, hb => by
    obtain ⟨hhigh, hlow, hrest⟩ : IsDigit high ∧ IsDigit low ∧ ∀ d ∈ before, IsDigit d := by
      simpa using hbefore
    obtain ⟨v, hv⟩ := digit_eq_ok hhigh position
    obtain ⟨w, hw⟩ := digit_eq_ok hlow (position + 1)
    have hlen : (before ++ b :: after).length % 2 = 0 := by
      simp only [List.cons_append, List.length_cons] at heven
      omega
    have ih := decodePairs_of_notDigit (position + 2) hlen hrest hb
    rw [List.cons_append, List.cons_append, decodePairs, hv, hw, ih, List.length_cons,
      List.length_cons, Nat.add_assoc, Nat.add_comm 2]
    rfl

theorem Fault.decode_eq_error (h : Fault bytes fault) : decode bytes = .error fault := by
  cases h with
  | odd hodd => rw [decode, if_neg (by omega)]
  | notDigit heven hbefore hb =>
    rw [decode, if_pos heven, decodePairs_of_notDigit 0 heven hbefore hb, Nat.zero_add]

theorem decode_of_isDigit (heven : bytes.length % 2 = 0) (h : ∀ b ∈ bytes, IsDigit b) :
    ∃ out, decode bytes = .ok out := by
  obtain ⟨out, hout⟩ := decodePairs_of_isDigit 0 h
  exact ⟨out, by rw [decode, if_pos heven, hout]⟩

theorem exists_decode_eq_ok_iff :
    (∃ out, decode bytes = .ok out) ↔ bytes.length % 2 = 0 ∧ ∀ b ∈ bytes, IsDigit b := by
  refine ⟨fun ⟨out, hout⟩ => ?_, fun ⟨heven, h⟩ => decode_of_isDigit heven h⟩
  by_contra hnot
  obtain ⟨fault, hfault⟩ := exists_fault hnot
  rw [hfault.decode_eq_error] at hout
  cases hout

/-- The fault that is reported is the fault that there is. -/
theorem decode_eq_error_iff : decode bytes = .error fault ↔ Fault bytes fault := by
  refine ⟨fun h => ?_, Fault.decode_eq_error⟩
  obtain ⟨fault', hfault⟩ : ∃ fault', Fault bytes fault' := by
    refine exists_fault fun hall => ?_
    obtain ⟨out, hout⟩ := exists_decode_eq_ok_iff.mpr hall
    rw [hout] at h
    cases h
  rwa [← Except.error.inj (hfault.decode_eq_error.symm.trans h)]

end Hex

/-! ## Rows -/

namespace BitRow

variable {text : List Char} {cause : Error}

theorem ofDigits_trim (text : List Char) : ofDigits (Text.trim text) = ofDigits text := by
  rw [ofDigits, Text.trim_trim, ofDigits]

theorem ofDigits_eq_error_iff : ofDigits text = .error cause ↔
    ∃ fault, Hex.Fault ((Text.trim text).flatMap String.utf8EncodeChar) fault ∧
      cause = .invalidHex fault := by
  simp only [← Hex.decode_eq_error_iff]
  unfold ofDigits
  split <;> rename_i heq <;> simp [heq, eq_comm]

theorem exists_ofDigits_eq_ok_iff : (∃ r, ofDigits text = .ok r) ↔
    ((Text.trim text).flatMap String.utf8EncodeChar).length % 2 = 0 ∧
      ∀ b ∈ (Text.trim text).flatMap String.utf8EncodeChar, Hex.IsDigit b := by
  rw [← Hex.exists_decode_eq_ok_iff]
  unfold ofDigits
  split <;> rename_i heq <;> simp [heq]

end BitRow

/-! ## Matrices -/

namespace BitMatrix

variable {lines : List (List Char)} {result : Except Error BitMatrix}

/-- What comes out of reading a matrix from lines, one row from each. -/
inductive ReadsLines : List (List Char) → Except Error BitMatrix → Prop
  /-- The first line that is no row is reported, whatever the widths of the rows before it are. -/
  | rejected {before after : List (List Char)} {line : List Char} {cause : Error}
    (hbefore : ∀ l ∈ before, ∃ r, BitRow.ofDigits l = .ok r)
    (hline : BitRow.ofDigits line = .error cause) :
    ReadsLines (before ++ line :: after) (.error cause)
  /-- All lines are rows, and the first of another width than row 0 is reported. -/
  | ragged {lines : List (List Char)} {rows : List BitRow} {i : ℕ} {first row : BitRow}
    (hrows : List.Forall₂ (fun l r => BitRow.ofDigits l = .ok r) lines rows)
    (hragged : FirstRagged rows i first row) :
    ReadsLines lines (.error (.raggedRows i first.length row.length))
  /-- All lines are rows of one width. -/
  | read {lines : List (List Char)} {m : BitMatrix}
    (hrows : List.Forall₂ (fun l r => BitRow.ofDigits l = .ok r) lines m.rows)
    (hm : m.WellFormed) (hcols : m.rows = [] → m.cols = 0) : ReadsLines lines (.ok m)

theorem readsLines_iff : ReadsLines lines result ↔
    (do let rows ← lines.mapM BitRow.ofDigits; ofRows rows) = result := by
  refine ⟨fun h => ?_, ?_⟩
  · cases h with
    | rejected hbefore hline =>
      exact bind_eq_error_iff.mpr (Or.inl (mapM_eq_error_iff.mpr ⟨_, _, _, rfl, hbefore, hline⟩))
    | ragged hrows hragged =>
      rw [mapM_eq_ok_iff.mpr hrows, ok_bind]
      exact ofRows_eq_error_iff.mpr ⟨_, _, _, hragged, rfl⟩
    | read hrows hm hcols =>
      rw [mapM_eq_ok_iff.mpr hrows, ok_bind]
      exact ofRows_eq_ok_iff.mpr ⟨hm, hcols, rfl⟩
  · rintro rfl
    cases hread : lines.mapM BitRow.ofDigits with
    | error cause =>
      obtain ⟨before, line, after, rfl, hbefore, hline⟩ := mapM_eq_error_iff.mp hread
      exact .rejected hbefore hline
    | ok rows =>
      have hrows := mapM_eq_ok_iff.mp hread
      rw [ok_bind]
      cases hmake : ofRows rows with
      | error cause =>
        obtain ⟨i, first, row, hragged, rfl⟩ := ofRows_eq_error_iff.mp hmake
        exact .ragged hrows hragged
      | ok m =>
        obtain ⟨hm, hcols, rfl⟩ := ofRows_eq_ok_iff.mp hmake
        exact .read hrows hm hcols

/-- A matrix is read from the lines that hold more than blanks. -/
theorem ofDigitLines_eq_iff {text : List Char} (h : Text.HasLines text lines) :
    ofDigitLines text = result ↔
      ReadsLines (lines.filter fun l => !l.all Text.isBlank) result := by
  have htrim : BitRow.ofDigits ∘ Text.trim = BitRow.ofDigits := funext BitRow.ofDigits_trim
  rw [readsLines_iff, ofDigitLines, h.contentLines_eq, List.mapM_map, htrim]

end BitMatrix

/-! ## The readers -/

/-- A text is read as a row exactly if what is left without the blanks at its ends is an even number
of digits, and this in lower case is then the text of the row. Of any other text the fault of its
bytes is reported. As a matrix a text is read from its lines that hold more than blanks. -/
theorem parse_outcomes (text : String) :
    (∃ trimmed bytes, Text.Trims text.toList trimmed ∧
      bytes = trimmed.flatMap String.utf8EncodeChar ∧
      ((∃ r, BitRow.parse text = .ok r) ↔ bytes.length % 2 = 0 ∧ ∀ b ∈ bytes, Hex.IsDigit b) ∧
      (∀ r, BitRow.parse text = .ok r → r.render = String.ofList (trimmed.map Char.toLower)) ∧
      ∀ cause, BitRow.parse text = .error cause ↔
        ∃ fault, Hex.Fault bytes fault ∧ cause = .invalidHex fault) ∧
    ∃ lines, Text.HasLines text.toList lines ∧ ∀ result, BitMatrix.parse text = result ↔
      BitMatrix.ReadsLines (lines.filter fun l => !l.all Text.isBlank) result := by
  obtain ⟨lines, hlines⟩ := Text.exists_hasLines text.toList
  refine ⟨⟨_, _, Text.trims_iff.mpr rfl, rfl, BitRow.exists_ofDigits_eq_ok_iff, fun r hr => ?_,
    fun cause => BitRow.ofDigits_eq_error_iff⟩,
    lines, hlines, fun result => BitMatrix.ofDigitLines_eq_iff hlines⟩
  rw [BitRow.render, ← BitRow.ofDigits_eq_ok_iff.mp hr]

/-- A text with an odd number of bytes. As a matrix its third row is reported, which is no row, and
not its second one, which is wider than the first. -/
theorem parse_outcomes_of_two_faults :
    BitRow.parse "ab\n \n0102\n\u00a0 0G\r\n" = .error (.invalidHex .oddLength) ∧
      BitMatrix.parse "ab\n \n0102\n\u00a0 0G\r\n" =
        .error (.invalidHex (.invalidByte 71 1)) := by
  obtain ⟨⟨trimmed, bytes, htrims, rfl, -, -, herror⟩, lines, hlines, hread⟩ :=
    parse_outcomes "ab\n \n0102\n\u00a0 0G\r\n"
  obtain rfl := Text.trims_iff.mp htrims
  obtain rfl := hlines.splitOn_eq
  have hfirst : BitRow.ofDigits "ab".toList = .ok ⟨#[0xab]⟩ := by cbv
  have hsecond : BitRow.ofDigits "0102".toList = .ok ⟨#[1, 2]⟩ := by cbv
  have hthird : BitRow.ofDigits "\u00a0 0G\r".toList =
      .error (.invalidHex (.invalidByte 71 1)) := by cbv
  refine ⟨(herror _).mpr ⟨_, .odd (by cbv), rfl⟩, (hread _).mpr ?_⟩
  have hlist : ("ab\n \n0102\n\u00a0 0G\r\n".toList.splitOn '\n').filter
      (fun l => !l.all Text.isBlank) =
        ["ab".toList, "0102".toList] ++ "\u00a0 0G\r".toList :: [] := by cbv
  have hbefore : ∀ l ∈ ["ab".toList, "0102".toList], ∃ r, BitRow.ofDigits l = .ok r :=
    List.forall_mem_cons.mpr ⟨⟨_, hfirst⟩, List.forall_mem_singleton.mpr ⟨_, hsecond⟩⟩
  rw [hlist]
  exact .rejected hbefore hthird

end BitLinear
