import BitLinear.Text.Hex
import BitLinear.Text.Quoted

/-!
# Errors

The causes for which an operation on rows, matrices, bases and byte sources can fail, and the
message of each. A singular matrix and a dependent row are no errors; they are answers.

`outOfBounds` is what a read or write past the end of a row or of a list of rows would be. Only
the bit accessors of a row give it to a caller; every other operation reads inside its operands.
-/

namespace BitLinear

/-- Why an operation failed. -/
inductive Error where
  /-- A number of bits that is no multiple of eight. -/
  | unaligned (bits : Nat)
  /-- Two rows of these lengths were combined. -/
  | lengthMismatch (left right : Nat)
  /-- Two matrices, or a matrix and a column, of these shapes were combined. -/
  | shapeMismatch (left right : Nat × Nat)
  /-- The operation needs a square matrix. -/
  | notSquare (rows cols : Nat)
  /-- A row whose width differs from that of the first row. -/
  | raggedRows (row expected actual : Nat)
  /-- A bit position past the end of a row of this length. -/
  | bitOutOfRange (index length : Nat)
  /-- The basis of this dimension accepts no further row. -/
  | alreadyComplete (dimension : Nat)
  /-- The basis does not yet span the space. -/
  | incomplete (rank dimension : Nat)
  /-- This many matrices were drawn and all were singular. -/
  | retryLimitExceeded (attempts : Nat)
  /-- A text is no hexadecimal row. -/
  | invalidHex (cause : HexError)
  /-- A position past the end of a sequence of this size. -/
  | outOfBounds (size index : Nat)
  /-- The byte source holds fewer bytes than were asked for. -/
  | sourceExhausted
deriving DecidableEq, Repr

/-- What is wrong with a hexadecimal text. -/
def HexError.message : HexError → String
  | .oddLength => "Odd number of digits"
  | .invalidByte byte position =>
    "Invalid character " ++ Text.quoteByte byte ++ s!" at position {position}"

/-- The text shown for an error. -/
def Error.message : Error → String
  | .unaligned bits => s!"dimension {bits} is not a multiple of 8"
  | .lengthMismatch left right => s!"row length mismatch: {left} bits vs {right} bits"
  | .shapeMismatch (r, c) (r2, c2) => s!"shape mismatch: ({r}, {c}) vs ({r2}, {c2})"
  | .notSquare rows cols => s!"matrix is not square: {rows}x{cols}"
  | .raggedRows row expected actual => s!"row {row} has {actual} bits, expected {expected}"
  | .bitOutOfRange index length => s!"bit index {index} out of range for {length}-bit row"
  | .alreadyComplete dimension =>
    s!"incremental matrix of dimension {dimension} is already fully defined"
  | .incomplete rank dimension => s!"incremental matrix has rank {rank} of {dimension}"
  | .retryLimitExceeded attempts => s!"no invertible matrix found after {attempts} attempts"
  | .invalidHex cause => "invalid hex row: " ++ cause.message
  | .outOfBounds size index =>
    s!"index out of bounds: the len is {size} but the index is {index}"
  | .sourceExhausted => "byte source exhausted"

/-- A number of bits that fills whole bytes. -/
def checkAligned (bits : Nat) : Except Error Unit :=
  if bits % 8 = 0 then .ok () else .error (.unaligned bits)

end BitLinear
