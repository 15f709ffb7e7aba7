import BitLinear.BitRow.Basic
import BitLinear.Text.Blank

/-!
# The text of a row

A row is written as the hexadecimal digits of its bytes. Reading trims the text and accepts both
cases of a digit.
-/

namespace BitLinear.BitRow

/-- The hexadecimal digits of a row. -/
def digits (r : BitRow) : List Char :=
  Hex.encode r.toBytes

/-- A row as text. -/
def render (r : BitRow) : String :=
  String.ofList r.digits

/-- Read a row from characters. Positions in an error count the bytes of the trimmed text. -/
def ofDigits (text : List Char) : Except Error BitRow :=
  match Hex.decode ((Text.trim text).flatMap String.utf8EncodeChar) with
  | .ok bytes => .ok (ofBytes bytes)
  | .error cause => .error (.invalidHex cause)

/-- Read a row from text. -/
def parse (text : String) : Except Error BitRow :=
  ofDigits text.toList

/-- A row as it is described among other values. -/
def describe (r : BitRow) : String :=
  "Row(" ++ r.render ++ ")"

end BitLinear.BitRow
