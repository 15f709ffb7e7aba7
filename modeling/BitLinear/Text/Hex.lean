import BitLinear.Byte

/-!
# Hexadecimal text

Two digits per byte, the high digit first. `Hex.encode` writes lower-case digits, `Hex.decode`
reads both cases from the bytes of a text. Of several faults it reports an odd length first, then
the leftmost byte that is no digit, with its position.
-/

namespace BitLinear

/-- Why a text is no hexadecimal text. -/
inductive HexError where
  /-- The number of digits is odd. -/
  | oddLength
  /-- The byte at this position is no digit. -/
  | invalidByte (byte : Byte) (position : Nat)
deriving DecidableEq, Repr

namespace Hex

/-- The digit of a value below sixteen. -/
def digitChar (value : Byte) : Char :=
  if value < 10 then Char.ofNat (48 + value.toNat) else Char.ofNat (87 + value.toNat)

/-- The two digits of a byte. -/
def digitPair (b : Byte) : List Char :=
  [digitChar (b >>> 4), digitChar (b &&& 15)]

/-- The digits of all bytes in order. -/
def encode (bytes : List Byte) : List Char :=
  bytes.flatMap digitPair

/-- The value of a digit of either case. -/
def digitValue? (byte : Byte) : Option Byte :=
  if 48 ≤ byte ∧ byte ≤ 57 then some (byte - 48)
  else if 97 ≤ byte ∧ byte ≤ 102 then some (byte - 87)
  else if 65 ≤ byte ∧ byte ≤ 70 then some (byte - 55)
  else none

/-- The value of the digit at a position. -/
def digit (position : Nat) (byte : Byte) : Except HexError Byte :=
  match digitValue? byte with
  | some value => .ok value
  | none => .error (.invalidByte byte position)

/-- Read pairs of digits, the first of them at the given position. -/
def decodePairs (position : Nat) : List Byte → Except HexError (List Byte)
  | high :: low :: rest => do
    let h ← digit position high
    let l ← digit (position + 1) low
    let bytes ← decodePairs (position + 2) rest
    return (h <<< 4 ||| l) :: bytes
  | _ => .ok []

/-- Read the bytes of a text as hexadecimal digits. -/
def decode (digits : List Byte) : Except HexError (List Byte) :=
  if digits.length % 2 = 0 then decodePairs 0 digits else .error .oddLength

end Hex

end BitLinear
