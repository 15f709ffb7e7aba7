import BitLinear.Proofs.Commands
import BitLinear.Proofs.Grammar

/-!
# What a message tells

A message is made of words with numbers between them. A number in it ends where the next word
begins, so that messages with the same words are equal only if their numbers are
(`Text.toString_append_inj`, `Text.append_toString_inj`), and a quoted byte tells the byte
(`Text.quoteByte_injective`). A text that is no matrix has one of two errors and its message tells
which, with the position or the widths (`BitMatrix.parse_error_inj`). A report puts the message
behind words for the stage, and from two reports with the same words the messages can be taken
(`Failure.cause_eq_of_report_eq`).
-/

namespace BitLinear

/-! ## Numbers in a text -/

namespace Text

variable {a b : ℕ} {sep s t : String}

/-- Digits in front of a text end where it goes on with something else. -/
theorem append_inj_of_isDigit {l l' m m' : List Char} (hl : ∀ c ∈ l, c.isDigit)
    (hl' : ∀ c ∈ l', c.isDigit) (hm : m.head?.all Char.isDigit = false)
    (hm' : m'.head?.all Char.isDigit = false) (h : l ++ m = l' ++ m') : l = l' ∧ m = m' := by
  have htake {l m : List Char} (hl : ∀ c ∈ l, c.isDigit) (hm : m.head?.all Char.isDigit = false) :
      (l ++ m).takeWhile Char.isDigit = l := by
    rw [List.takeWhile_append_of_pos hl]
    cases m with
    | nil => cases hm
    | cons c m =>
      have hc : ¬c.isDigit := by simpa using hm
      rw [List.takeWhile_cons_of_neg hc, List.append_nil]
  obtain rfl : l = l' := by rw [← htake hl hm, h, htake hl' hm']
  exact ⟨rfl, List.append_cancel_left h⟩

theorem toString_inj : toString a = toString b ↔ a = b :=
  ⟨Nat.repr_injective, congrArg toString⟩

theorem head?_append_not_isDigit {l : List Char} (h : l.head?.all Char.isDigit = false)
    (m : List Char) : (l ++ m).head?.all Char.isDigit = false := by
  cases l with
  | nil => cases h
  | cons => exact h

/-- A number is told by a text that begins with it, and so is the text behind it. -/
theorem toString_append_inj (hsep : sep.toList.head?.all Char.isDigit = false)
    (h : toString a ++ (sep ++ s) = toString b ++ (sep ++ t)) : a = b ∧ s = t := by
  have hlists := congrArg String.toList h
  simp only [String.toList_append] at hlists
  obtain ⟨hdigits, hrest⟩ := append_inj_of_isDigit (fun _ => isDigit_of_mem_toString)
    (fun _ => isDigit_of_mem_toString) (head?_append_not_isDigit hsep _)
    (head?_append_not_isDigit hsep _) hlists
  exact ⟨toString_inj.mp (String.toList_inj.mp hdigits),
    String.toList_inj.mp (List.append_cancel_left hrest)⟩

/-- A number is told by a text that ends with it, and so is the text before it. -/
theorem append_toString_inj (hsep : sep.toList.getLast?.all Char.isDigit = false)
    (h : s ++ (sep ++ toString a) = t ++ (sep ++ toString b)) : s = t ∧ a = b := by
  -- from the end the digits come first
  have hlists := congrArg (fun text : String => text.toList.reverse) h
  simp only [String.toList_append, List.reverse_append, List.append_assoc] at hlists
  have hhead (m : List Char) : (sep.toList.reverse ++ m).head?.all Char.isDigit = false :=
    head?_append_not_isDigit (by rwa [List.head?_reverse]) m
  have hall {k : ℕ} : ∀ c ∈ (toString k).toList.reverse, c.isDigit := fun c hc =>
    isDigit_of_mem_toString (List.mem_reverse.mp hc)
  obtain ⟨hdigits, hrest⟩ := append_inj_of_isDigit hall hall (hhead _) (hhead _) hlists
  exact ⟨String.toList_inj.mp (List.reverse_injective (List.append_cancel_left hrest)),
    toString_inj.mp (String.toList_inj.mp (List.reverse_injective hdigits))⟩

theorem head?_append (hs : s.toList ≠ []) (rest : String) :
    (s ++ rest).toList.head? = s.toList.head? := by
  rw [String.toList_append, List.head?_append_of_ne_nil _ hs]

/-- Texts that begin differently differ. -/
theorem append_ne_append (hs : s.toList ≠ []) (ht : t.toList ≠ [])
    (hne : s.toList.head? ≠ t.toList.head?) (rest rest' : String) : s ++ rest ≠ t ++ rest' := by
  intro h
  rw [← head?_append hs rest, h, head?_append ht] at hne
  exact hne rfl

/-! ## Quoted bytes -/

/-- The character that stands between quotes in this way. -/
def unescape : List Char → Char
  | ['\\', letter] =>
    ((shortEscapes.find? fun entry => entry.2 = letter).map Prod.fst).getD letter
  | '\\' :: 'u' :: _ :: code =>
    Char.ofNat (code.dropLast.foldl (fun value c => 16 * value + (Hex.valueOf c).toNat) 0)
  | text => text.headD ' '

theorem unescape_escape : ∀ k < 256, (unescape (escape (Char.ofNat k))).toNat = k := by
  decide +kernel

/-- A quoted byte tells the byte. -/
theorem quoteByte_injective : Function.Injective quoteByte := by
  intro x y h
  have hescape := List.append_cancel_left (List.append_cancel_right (String.ofList_injective h))
  have hcode := congrArg (fun text => (unescape text).toNat) hescape
  rw [unescape_escape _ x.toNat_lt, unescape_escape _ y.toNat_lt] at hcode
  exact UInt8.toNat_inj.mp hcode

end Text

/-! ## Causes -/

theorem ReadError.message_injective : Function.Injective ReadError.message := by
  intro cause cause' h
  revert h
  cases cause <;> cases cause' <;> decide

theorem HexError.oddLength_ne (x : Byte) (position : ℕ) :
    HexError.oddLength.message ≠ (HexError.invalidByte x position).message := fun h =>
  Text.append_ne_append (s := "Odd") (by decide) (by decide) (by decide) " number of digits" _
    (h.trans String.append_assoc)

theorem HexError.message_injective : Function.Injective HexError.message
  | .oddLength, .oddLength, _ => rfl
  | .oddLength, .invalidByte y position', h => absurd h (oddLength_ne y position')
  | .invalidByte x position, .oddLength, h => absurd h.symm (oddLength_ne x position)
  | .invalidByte x position, .invalidByte y position', h => by
    have hend : " at position ".toList.getLast?.all Char.isDigit = false := by decide
    obtain ⟨hquote, rfl⟩ := Text.append_toString_inj hend h
    rw [Text.quoteByte_injective ((String.append_right_inj _).mp hquote)]

namespace Error

-- Messages as words and numbers in turn, bracketed so that these are taken off from the left.

theorem message_unaligned (bits : ℕ) :
    (unaligned bits).message = "dimension " ++ (toString bits ++ " is not a multiple of 8") :=
  String.append_assoc

theorem message_notSquare (r c : ℕ) : (notSquare r c).message =
    "matrix is not square: " ++ (toString r ++ ("x" ++ toString c)) := by
  simp only [← String.append_assoc]
  rfl

theorem message_shapeMismatch (left right : ℕ × ℕ) : (shapeMismatch left right).message =
    "shape mismatch: (" ++ (toString left.1 ++ (", " ++ (toString left.2 ++ (") vs (" ++
      (toString right.1 ++ (", " ++ (toString right.2 ++ ")"))))))) := by
  simp only [← String.append_assoc]
  rfl

theorem message_raggedRows (row expected actual : ℕ) : (raggedRows row expected actual).message =
    "row " ++ (toString row ++ (" has " ++ (toString actual ++
      (" bits, expected " ++ toString expected)))) := by
  simp only [← String.append_assoc]
  rfl

theorem message_unaligned_inj {bits bits' : ℕ}
    (h : (unaligned bits).message = (unaligned bits').message) : bits = bits' := by
  rw [message_unaligned, message_unaligned, String.append_right_inj, String.append_left_inj] at h
  exact Text.toString_inj.mp h

theorem message_notSquare_inj {r c r' c' : ℕ}
    (h : (notSquare r c).message = (notSquare r' c').message) : r = r' ∧ c = c' := by
  rw [message_notSquare, message_notSquare, String.append_right_inj] at h
  obtain ⟨hrows, h⟩ := Text.toString_append_inj (by decide) h
  exact ⟨hrows, Text.toString_inj.mp h⟩

theorem message_shapeMismatch_inj {left right left' right' : ℕ × ℕ}
    (h : (shapeMismatch left right).message = (shapeMismatch left' right').message) :
    left = left' ∧ right = right' := by
  rw [message_shapeMismatch, message_shapeMismatch, String.append_right_inj] at h
  obtain ⟨hrows, h⟩ := Text.toString_append_inj (by decide) h
  obtain ⟨hcols, h⟩ := Text.toString_append_inj (by decide) h
  obtain ⟨hrows', h⟩ := Text.toString_append_inj (by decide) h
  rw [String.append_left_inj] at h
  exact ⟨Prod.ext hrows hcols, Prod.ext hrows' (Text.toString_inj.mp h)⟩

theorem message_raggedRows_inj {row expected actual row' expected' actual' : ℕ}
    (h : (raggedRows row expected actual).message = (raggedRows row' expected' actual').message) :
    row = row' ∧ expected = expected' ∧ actual = actual' := by
  rw [message_raggedRows, message_raggedRows, String.append_right_inj] at h
  obtain ⟨hrow, h⟩ := Text.toString_append_inj (by decide) h
  obtain ⟨hactual, h⟩ := Text.toString_append_inj (by decide) h
  exact ⟨hrow, Text.toString_inj.mp h, hactual⟩

theorem message_invalidHex_inj {fault fault' : HexError}
    (h : (invalidHex fault).message = (invalidHex fault').message) : fault = fault' :=
  HexError.message_injective ((String.append_right_inj "invalid hex row: ").mp h)

theorem message_shapeMismatch_ne (left right : ℕ × ℕ) (bits : ℕ) :
    (shapeMismatch left right).message ≠ (unaligned bits).message := by
  rw [message_shapeMismatch, message_unaligned]
  exact Text.append_ne_append (by decide) (by decide) (by decide) _ _

theorem message_invalidHex_ne (fault : HexError) (row expected actual : ℕ) :
    (invalidHex fault).message ≠ (raggedRows row expected actual).message := by
  rw [message_raggedRows]
  exact Text.append_ne_append (s := "invalid hex row: ") (by decide) (by decide) (by decide) _ _

end Error

/-- What is reported of a text that is no row. -/
theorem BitRow.exists_of_parse_eq_error {text : String} {cause : Error}
    (h : BitRow.parse text = .error cause) : ∃ fault, cause = .invalidHex fault := by
  obtain ⟨fault, -, hfault⟩ := BitRow.ofDigits_eq_error_iff.mp h
  exact ⟨fault, hfault⟩

/-- What is reported of a text that is no matrix. -/
theorem BitMatrix.exists_of_parse_eq_error {text : String} {cause : Error}
    (h : BitMatrix.parse text = .error cause) : (∃ fault, cause = .invalidHex fault) ∨
      ∃ row expected actual, cause = .raggedRows row expected actual := by
  obtain ⟨lines, hlines⟩ := Text.exists_hasLines text.toList
  have hreads := (BitMatrix.ofDigitLines_eq_iff hlines).mp h
  revert hreads
  generalize (lines.filter fun l => !l.all Text.isBlank) = content
  rintro (⟨-, hline⟩ | - | -)
  · obtain ⟨fault, -, hfault⟩ := BitRow.ofDigits_eq_error_iff.mp hline
    exact .inl ⟨fault, hfault⟩
  · exact .inr ⟨_, _, _, rfl⟩

/-- The message tells for which error a text is no row. -/
theorem BitRow.parse_error_inj {text text' : String} {cause cause' : Error}
    (h : BitRow.parse text = .error cause) (h' : BitRow.parse text' = .error cause')
    (hmessage : cause.message = cause'.message) : cause = cause' := by
  obtain ⟨fault, rfl⟩ := exists_of_parse_eq_error h
  obtain ⟨fault', rfl⟩ := exists_of_parse_eq_error h'
  rw [Error.message_invalidHex_inj hmessage]

/-- The message tells for which error a text is no matrix. -/
theorem BitMatrix.parse_error_inj {text text' : String} {cause cause' : Error}
    (h : BitMatrix.parse text = .error cause) (h' : BitMatrix.parse text' = .error cause')
    (hmessage : cause.message = cause'.message) : cause = cause' := by
  rcases exists_of_parse_eq_error h with ⟨fault, rfl⟩ | ⟨row, expected, actual, rfl⟩ <;>
    rcases exists_of_parse_eq_error h' with ⟨fault', rfl⟩ | ⟨row', expected', actual', rfl⟩
  · rw [Error.message_invalidHex_inj hmessage]
  · exact absurd hmessage (Error.message_invalidHex_ne _ _ _ _)
  · exact absurd hmessage.symm (Error.message_invalidHex_ne _ _ _ _)
  · obtain ⟨rfl, rfl, rfl⟩ := Error.message_raggedRows_inj hmessage
    rfl

/-! ## Reports -/

namespace Failure

variable {failure failure' : Failure}

theorem report_eq_of_cause {cause : String} (h : failure.cause? = some cause) :
    failure.report = "Error: " ++ failure.context ++ "\n\nCaused by:\n    " ++ cause ++ "\n" := by
  rw [report, h]

/-- Behind the same words a report tells the cause. -/
theorem cause_eq_of_report_eq {cause cause' : String} (h : failure.report = failure'.report)
    (hcontext : failure.context = failure'.context) (hcause : failure.cause? = some cause)
    (hcause' : failure'.cause? = some cause') : cause = cause' := by
  rw [report_eq_of_cause hcause, report_eq_of_cause hcause', hcontext, String.append_left_inj,
    String.append_right_inj] at h
  exact h

end Failure

end BitLinear
