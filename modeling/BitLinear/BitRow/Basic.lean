import BitLinear.Error

/-!
# Bit rows

A `BitRow` is a vector over the field of two elements, packed eight bits to a byte: bit `i` is bit
`i % 8` of byte `i / 8`. Its length is a multiple of eight by construction.

`testBit` is the view through which the other operations are described. It is total, while
`getBit` and `setBit` refuse a position past the end. Sums, products and inner products refuse
rows of different lengths.
-/

namespace BitLinear

/-- A vector of bits, eight to a byte. -/
structure BitRow where
  /-- The packed bytes, the one with the first eight bits in front. -/
  bytes : Array Byte
deriving DecidableEq, Repr

namespace BitRow

/-- The row of packed bytes. -/
def ofBytes (bytes : List Byte) : BitRow :=
  ⟨bytes.toArray⟩

/-- The packed bytes of a row. -/
def toBytes (r : BitRow) : List Byte :=
  r.bytes.toList

/-- The number of bits. -/
def length (r : BitRow) : Nat :=
  8 * r.bytes.size

/-- Whether the row has no bits at all. -/
def isEmpty (r : BitRow) : Bool :=
  r.bytes.isEmpty

/-- Bit `i`, and `false` past the end. -/
def testBit (r : BitRow) (i : Nat) : Bool :=
  (r.bytes.getD (i / 8) 0).testBit (i % 8)

/-! ## Single bits -/

/-- Read bit `i`, which must be inside the row. -/
def getBit (r : BitRow) (i : Nat) : Except Error Bool :=
  match r.bytes[i / 8]? with
  | some b => .ok (b.testBit (i % 8))
  | none => .error (.outOfBounds r.bytes.size (i / 8))

/-- Write bit `i`, which must be inside the row. -/
def setBit (r : BitRow) (i : Nat) (value : Bool) : Except Error BitRow :=
  match r.bytes[i / 8]? with
  | some b => .ok ⟨r.bytes.setIfInBounds (i / 8) (b.setBit (i % 8) value)⟩
  | none => .error (.outOfBounds r.bytes.size (i / 8))

/-! ## Making rows -/

/-- The row of `bits` zeros. -/
def zero (bits : Nat) : Except Error BitRow := do
  checkAligned bits
  return ⟨Array.replicate (bits / 8) 0⟩

/-- The row of `bits` bits of which only bit `index` is set. -/
def unit (bits index : Nat) : Except Error BitRow := do
  let row ← zero bits
  if index < bits then row.setBit index true else .error (.bitOutOfRange index bits)

/-- The row of a list of bits that fills whole bytes. The bits that are set are written into a row
of zeros, in order. -/
def ofBits (bits : List Bool) : Except Error BitRow := do
  let row ← zero bits.length
  bits.zipIdx.foldlM (fun row (bit, i) => if bit then row.setBit i true else return row) row

/-! ## Arithmetic -/

/-- The bytes of two rows added without a carry, as far as both rows go. -/
def sum (a b : BitRow) : BitRow :=
  ⟨Array.zipWith (· ^^^ ·) a.bytes b.bytes⟩

/-- The bytes of two rows multiplied bit by bit, as far as both rows go. -/
def product (a b : BitRow) : BitRow :=
  ⟨Array.zipWith (· &&& ·) a.bytes b.bytes⟩

/-- Two rows of one length. -/
def checkSameLength (a b : BitRow) : Except Error Unit :=
  if a.length = b.length then .ok () else .error (.lengthMismatch a.length b.length)

/-- The sum of two rows of one length. -/
def add (a b : BitRow) : Except Error BitRow := do
  checkSameLength a b
  return a.sum b

/-- The product bit by bit of two rows of one length. -/
def mul (a b : BitRow) : Except Error BitRow := do
  checkSameLength a b
  return a.product b

/-- The sum of all bits, byte by byte. -/
def parity (r : BitRow) : Bool :=
  r.bytes.foldl (fun acc b => acc ^^^ b.parity) 0 == 1

/-- The inner product of two rows of one length: the sum of the bits of their product. -/
def dot (a b : BitRow) : Except Error Bool := do
  checkSameLength a b
  return (a.product b).parity

/-! ## Measures -/

/-- The number of set bits. -/
def weight (r : BitRow) : Nat :=
  r.bytes.foldr (fun b count => b.weight + count) 0

/-- Whether no bit is set. -/
def isZero (r : BitRow) : Bool :=
  r.bytes.all (· == 0)

/-- The lowest set bit of packed bytes, the first of which holds the bits from `start` on. -/
def lowestSetBitFrom (start : Nat) : List Byte → Option Nat
  | [] => none
  | b :: bytes =>
    match b.lowestSetBit with
    | some i => some (start + i)
    | none => lowestSetBitFrom (start + 8) bytes

/-- The position of the lowest set bit. -/
def firstSetBit (r : BitRow) : Option Nat :=
  lowestSetBitFrom 0 r.toBytes

/-! ## Combinations -/

/-- The sum of the rows selected by `selector`: row `k` takes part when bit `k` is set. The rows
have `width` bits. -/
def combine (selector : BitRow) (rows : List BitRow) (width : Nat) : Except Error BitRow := do
  let start ← zero width
  rows.zipIdx.foldlM (fun sum (row, k) => do
    if ← selector.getBit k then sum.add row else return sum) start

end BitRow

end BitLinear
