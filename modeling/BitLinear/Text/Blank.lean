/-!
# Blank characters, trimming and lines

A blank is a character with the Unicode property White_Space. Texts are read as lists of
characters: `trim` removes the blanks at both ends and `contentLines` gives the lines that hold
more than blanks. A line ends at a newline only; a carriage return before it is a blank, and
trimming removes it.
-/

namespace BitLinear.Text

/-- The ranges of code points with the property White_Space. -/
def blankRanges : List (Nat × Nat) :=
  [(0x09, 0x0d), (0x20, 0x20), (0x85, 0x85), (0xa0, 0xa0), (0x1680, 0x1680), (0x2000, 0x200a),
    (0x2028, 0x2029), (0x202f, 0x202f), (0x205f, 0x205f), (0x3000, 0x3000)]

/-- Whether a character has the property White_Space. -/
def isBlank (c : Char) : Bool :=
  blankRanges.any fun (first, last) => first ≤ c.toNat && c.toNat ≤ last

/-- Remove the blanks at both ends. -/
def trim (text : List Char) : List Char :=
  ((text.dropWhile isBlank).reverse.dropWhile isBlank).reverse

/-- The trimmed lines of a text, without those that are empty. -/
def contentLines (text : List Char) : List (List Char) :=
  ((text.splitOn '\n').map trim).filter (· ≠ [])

end BitLinear.Text
