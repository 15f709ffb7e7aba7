import BitLinear.BitMatrix.Basic
import BitLinear.BitRow.Text
import BitLinear.Text.Record

/-!
# The text of a matrix

A matrix is written as one line of hexadecimal digits per row. Reading skips blank lines, and a
line that is no row is reported before rows of different widths are.
-/

namespace BitLinear.BitMatrix

/-- The lines of a matrix joined by newlines, without one at the end. -/
def digits (m : BitMatrix) : List Char :=
  List.intercalate ['\n'] (m.rows.map BitRow.digits)

/-- A matrix as text. -/
def render (m : BitMatrix) : String :=
  String.ofList m.digits

/-- Read a matrix from characters, one row per line that is not blank. -/
def ofDigitLines (text : List Char) : Except Error BitMatrix := do
  let rows ← (Text.contentLines text).mapM BitRow.ofDigits
  ofRows rows

/-- Read a matrix from text. -/
def parse (text : String) : Except Error BitMatrix :=
  ofDigitLines text.toList

/-- A matrix as a record: its shape and its rows. -/
def describe (m : BitMatrix) : Text.Record where
  name := "Matrix"
  parts := [("rows", .atom (toString m.rows.length)), ("cols", .atom (toString m.cols)),
    ("data", .list (m.rows.map BitRow.describe))]

end BitLinear.BitMatrix
