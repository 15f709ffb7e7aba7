import BitLinear.BitMatrix.Basic
import BitLinear.TrackedRow

/-!
# Elimination and the inverse

The rows of a square matrix are tracked and its columns are cleared from the left. For each column
the first row at or below the diagonal with a bit there is swapped onto the diagonal (`findPivot`,
`swap`) and added to every other row that has the bit (`clearColumn`). `afterColumns` is the state
after some number of columns: each vector is the combination of the given rows that its
coefficients name, and the columns done so far are those of the identity.

After all columns the vectors are the identity, so the coefficients are the inverse. A column
without a pivot means that the matrix is singular.
-/

namespace BitLinear

namespace Elimination

/-- The rows of a matrix, each made of itself alone. -/
def start (m : BitMatrix) : Except Error (Array TrackedRow) := do
  let units ← BitMatrix.identity m.rows.length
  return (List.zipWith TrackedRow.mk m.rows units.rows).toArray

/-- Row `i`. -/
def rowAt (rows : Array TrackedRow) (i : Nat) : Except Error TrackedRow :=
  match rows[i]? with
  | some row => .ok row
  | none => .error (.outOfBounds rows.size i)

/-- Exchange rows `i` and `j`. -/
def swap (rows : Array TrackedRow) (i j : Nat) : Except Error (Array TrackedRow) := do
  let a ← rowAt rows i
  let b ← rowAt rows j
  return (rows.setIfInBounds i b).setIfInBounds j a

/-- Add row `source` to row `target`. The rows are split at the later of the two positions and
each is found on its side of the split, so there is no row `source` for a row that is to be added
to itself. -/
def addRow (rows : Array TrackedRow) (target source : Nat) : Except Error (Array TrackedRow) :=
  if target = source then .error (.outOfBounds target source)
  else do
    let a ← rowAt rows target
    let b ← rowAt rows source
    let sum ← a.add b
    return rows.setIfInBounds target sum

/-- The first row at or below the diagonal with bit `col` set. -/
def findPivot (rows : Array TrackedRow) (col : Nat) : Except Error (Option Nat) :=
  (List.range' col (rows.size - col)).findM? fun i => do
    let row ← rowAt rows i
    row.vector.getBit col

/-- Add row `col` to row `i` if that is another row with bit `col` set. -/
def clearEntry (col : Nat) (rows : Array TrackedRow) (i : Nat) :
    Except Error (Array TrackedRow) :=
  if i = col then .ok rows
  else do
    let row ← rowAt rows i
    if ← row.vector.getBit col then addRow rows i col else return rows

/-- Clear column `col` in every row but row `col`, from the top. -/
def clearColumn (rows : Array TrackedRow) (col : Nat) : Except Error (Array TrackedRow) :=
  (List.range rows.size).foldlM (clearEntry col) rows

/-- Bring one column into its final form, or find that no row has a pivot for it. -/
def step (rows : Array TrackedRow) (col : Nat) : Except Error (Option (Array TrackedRow)) := do
  match ← findPivot rows col with
  | none => return none
  | some pivot =>
    let swapped ← swap rows pivot col
    let cleared ← clearColumn swapped col
    return some cleared

/-- The rows after the first `k` columns, unless one of these has no pivot. -/
def afterColumns (rows : Array TrackedRow) : Nat → Except Error (Option (Array TrackedRow))
  | 0 => .ok (some rows)
  | k + 1 => do
    match ← afterColumns rows k with
    | none => return none
    | some reached => step reached k

end Elimination

namespace BitMatrix

/-- The inverse of a square matrix, or `none` if it is singular. -/
def invert (m : BitMatrix) : Except Error (Option BitMatrix) := do
  let n ← m.checkSquare
  let rows ← Elimination.start m
  match ← Elimination.afterColumns rows n with
  | none => return none
  | some reached => return some ⟨(reached.map TrackedRow.coefficients).toList, n⟩

/-- Whether a square matrix has an inverse. -/
def isInvertible (m : BitMatrix) : Except Error Bool := do
  let inverse ← m.invert
  return inverse.isSome

end BitMatrix

end BitLinear
