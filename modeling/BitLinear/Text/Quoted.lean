import BitLinear.Byte

/-!
# Quoted characters

How one character is shown in a message: between single quotes, with the usual short escapes and
with `\u` and the code point for characters that do not print. Messages only quote characters
below 256, so the rule is stated for those.
-/

namespace BitLinear.Text

/-- The characters with a short escape, and the letter of the escape. -/
def shortEscapes : List (Char × Char) :=
  [('\x00', '0'), ('\t', 't'), ('\r', 'r'), ('\n', 'n'), ('\'', '\''), ('\\', '\\')]

/-- Whether a code point below 256 is a control character, the no-break space or the soft
hyphen. -/
def isUnprintable (code : Nat) : Bool :=
  code < 0x20 || (0x7f ≤ code && code ≤ 0xa0) || code = 0xad

/-- A character as it stands between quotes. -/
def escape (c : Char) : List Char :=
  match shortEscapes.lookup c with
  | some letter => ['\\', letter]
  | none =>
    if isUnprintable c.toNat then
      ['\\', 'u', '\x7b'] ++ Nat.toDigits 16 c.toNat ++ ['\x7d']
    else [c]

/-- The character whose code point is the byte, between single quotes. -/
def quoteByte (byte : Byte) : String :=
  String.ofList (['\''] ++ escape (Char.ofNat byte.toNat) ++ ['\''])

end BitLinear.Text
