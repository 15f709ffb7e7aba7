import BitLinear.BitRow.Basic

/-!
# Bit matrices

A `BitMatrix` is a list of rows and a width. Row `i` bit `j` is the coefficient of input bit `j`
in output bit `i`. The width is kept beside the rows because a matrix may have no rows and still
act on vectors of some width.

`WellFormed` says that the width fills whole bytes and that every row has it. Each constructor
gives well-formed matrices and each operation keeps them; on well-formed matrices no operation
reads past the end of a row.
-/

namespace BitLinear

/-- A matrix over the field of two elements, row by row. -/
structure BitMatrix where
  /-- The rows from the top. -/
  rows : List BitRow
  /-- The number of columns. -/
  cols : Nat
deriving DecidableEq, Repr

namespace BitMatrix

/-- The number of rows and the number of columns. -/
def size (m : BitMatrix) : Nat × Nat :=
  (m.rows.length, m.cols)

/-- Row `i`, if there is one. -/
def row? (m : BitMatrix) (i : Nat) : Option BitRow :=
  m.rows[i]?

/-- The entry in row `i` and column `j`, and `false` outside the matrix. -/
def entry (m : BitMatrix) (i j : Nat) : Bool :=
  (m.rows.getD i ⟨#[]⟩).testBit j

/-- The width fills whole bytes and every row has it. -/
def WellFormed (m : BitMatrix) : Prop :=
  m.cols % 8 = 0 ∧ ∀ row ∈ m.rows, row.length = m.cols

instance (m : BitMatrix) : Decidable m.WellFormed :=
  inferInstanceAs (Decidable (_ ∧ _))

/-! ## Making matrices -/

/-- The square matrix of zeros. -/
def zero (n : Nat) : Except Error BitMatrix := do
  let row ← BitRow.zero n
  return ⟨List.replicate n row, n⟩

/-- The square matrix with ones on the diagonal. -/
def identity (n : Nat) : Except Error BitMatrix := do
  checkAligned n
  let rows ← (List.range n).mapM (BitRow.unit n)
  return ⟨rows, n⟩

/-- The square matrix of ones. -/
def full (n : Nat) : Except Error BitMatrix := do
  checkAligned n
  return ⟨List.replicate n ⟨Array.replicate (n / 8) 0xff⟩, n⟩

/-- The matrix with the given rows, which must all be as wide as the first. No rows make the
matrix without rows and columns. -/
def ofRows (rows : List BitRow) : Except Error BitMatrix :=
  let width := (rows.head?.map BitRow.length).getD 0
  match rows.zipIdx.find? fun (row, _) => row.length ≠ width with
  | some (row, i) => .error (.raggedRows i width row.length)
  | none => .ok ⟨rows, width⟩

/-! ## Operations -/

/-- The number of rows of a square matrix. -/
def checkSquare (m : BitMatrix) : Except Error Nat :=
  if m.rows.length = m.cols then .ok m.cols else .error (.notSquare m.rows.length m.cols)

/-- Apply the matrix to a column: output bit `i` is the inner product of row `i` and the input.
The number of rows must fill whole bytes. -/
def apply (m : BitMatrix) (input : BitRow) : Except Error BitRow :=
  if input.length = m.cols then do
    let bits ← m.rows.mapM (·.dot input)
    BitRow.ofBits bits
  else .error (.shapeMismatch m.size (input.length, 1))

/-- Apply the matrix to packed bytes. -/
def applyToBytes (m : BitMatrix) (input : List Byte) : Except Error (List Byte) := do
  let output ← m.apply (BitRow.ofBytes input)
  return output.toBytes

/-- The sum of two matrices of one shape. -/
def add (a b : BitMatrix) : Except Error BitMatrix :=
  if a.size = b.size then do
    let rows ← (a.rows.zip b.rows).mapM fun (r, s) => r.add s
    return ⟨rows, a.cols⟩
  else .error (.shapeMismatch a.size b.size)

/-- The product of two matrices, which applies `b` first. Row `i` of the product is the sum of
the rows of `b` selected by row `i` of `a`. -/
def compose (a b : BitMatrix) : Except Error BitMatrix :=
  if a.cols = b.rows.length then do
    let rows ← a.rows.mapM (·.combine b.rows b.cols)
    return ⟨rows, b.cols⟩
  else .error (.shapeMismatch a.size b.size)

/-- Column `j` as a row. The number of rows must fill whole bytes. -/
def column (m : BitMatrix) (j : Nat) : Except Error BitRow := do
  let bits ← m.rows.mapM (·.getBit j)
  BitRow.ofBits bits

/-- The matrix whose rows are the columns. The number of rows must fill whole bytes. -/
def transpose (m : BitMatrix) : Except Error BitMatrix := do
  checkAligned m.rows.length
  let rows ← (List.range m.cols).mapM m.column
  return ⟨rows, m.rows.length⟩

/-- The sum of the diagonal entries of a square matrix. -/
def trace (m : BitMatrix) : Except Error Bool := do
  let _ ← m.checkSquare
  m.rows.zipIdx.foldlM (fun sum (row, i) => do
    let bit ← row.getBit i
    return sum ^^ bit) false

end BitMatrix

end BitLinear
