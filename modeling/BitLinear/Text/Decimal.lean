/-!
# Decimal numbers

Numbers below `2 ^ 64` as they are typed: an optional plus sign and one or more decimal digits,
leading zeros allowed.
-/

namespace BitLinear.Text

/-- The number that a list of decimal digits stands for. -/
def decimalValue (digits : List Char) : Nat :=
  digits.foldl (fun value c => 10 * value + (c.toNat - 48)) 0

/-- Read a number below `2 ^ 64`. -/
def parseDecimal (text : String) : Option Nat :=
  let digits :=
    match text.toList with
    | '+' :: rest => rest
    | all => all
  if digits ≠ [] ∧ digits.all Char.isDigit ∧ decimalValue digits < UInt64.size then
    some (decimalValue digits)
  else none

end BitLinear.Text
