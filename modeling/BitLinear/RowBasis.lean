import BitLinear.BitMatrix.Basic
import BitLinear.TrackedRow
import BitLinear.BitRow.Text
import BitLinear.Text.Record

/-!
# Growing a basis row by row

A `RowBasis` accepts rows one at a time and keeps those that are independent of the rows accepted
before. Beside the accepted rows it holds a reduced basis of their span: each `PivotRow` is a
tracked row with a pivot, the position of its lowest set bit, and no other row of the reduced
basis has a bit there. One pass over the reduced basis therefore clears all pivots of a row
(`reduce`), and what is left is zero exactly when the row is in the span.

The coefficients of the reduced basis name the accepted rows that make it. Once there are as many
accepted rows as columns the reduced vectors are the unit vectors, so the coefficients sorted by
pivot are the inverse of the matrix of accepted rows.

Growth changes the basis in place (`Growing`). `adjoin` adds a row where that is possible, and
`offer` is one such call, with its answer and the basis that it leaves.
-/

namespace BitLinear

/-- A row of the reduced basis, with the position of its lowest set bit. -/
structure PivotRow extends TrackedRow where
  /-- The column that only this row of the reduced basis has set. -/
  pivot : Nat
deriving DecidableEq, Repr

/-- Independent rows and the reduced basis of their span. -/
structure RowBasis where
  /-- The width of the rows, and the rank at which the basis is complete. -/
  dimension : Nat
  /-- The accepted rows in the order in which they came. -/
  accepted : List BitRow
  /-- The reduced basis; entry `k` came with accepted row `k`. -/
  reduced : List PivotRow
deriving DecidableEq, Repr

/-- A computation that changes a basis. What it changed before it failed stays changed. -/
abbrev Growing := ExceptT Error (StateM RowBasis)

namespace Growing

/-- The result of a computation and the basis after it. -/
def runOn {α : Type} (growing : Growing α) (basis : RowBasis) : Except Error α × RowBasis :=
  (ExceptT.run growing).run basis

/-- The second computation goes on with the basis that the first one leaves, unless that failed. -/
theorem runOn_bind {α β : Type} (growing : Growing α) (next : α → Growing β) (basis : RowBasis) :
    (growing >>= next).runOn basis =
      match growing.runOn basis with
      | (.ok value, rest) => (next value).runOn rest
      | (.error cause, rest) => (.error cause, rest) := by
  simp only [runOn, ExceptT.run_bind, StateT.run_bind]
  rcases StateT.run (ExceptT.run growing) basis with ⟨_ | _, rest⟩ <;> rfl

theorem runOn_get_bind {β : Type} (next : RowBasis → Growing β) (basis : RowBasis) :
    (get >>= next : Growing β).runOn basis = (next basis).runOn basis :=
  rfl

/-- A result that is there without the basis is handed on. -/
theorem runOn_ok_bind {α β : Type} {result : Except Error α} {value : α} (h : result = .ok value)
    (next : α → Growing β) (basis : RowBasis) :
    (liftM result >>= next : Growing β).runOn basis = (next value).runOn basis := by
  rw [h]
  rfl

/-- If there is none, the computation fails and leaves the basis alone. -/
theorem runOn_error_bind {α β : Type} {result : Except Error α} {cause : Error}
    (h : result = .error cause) (next : α → Growing β) (basis : RowBasis) :
    (liftM result >>= next : Growing β).runOn basis = (.error cause, basis) := by
  rw [h]
  rfl

end Growing

namespace RowBasis

/-- The basis without rows. -/
def empty (dimension : Nat) : Except Error RowBasis := do
  checkAligned dimension
  return ⟨dimension, [], []⟩

/-- The number of accepted rows. -/
def rank (basis : RowBasis) : Nat :=
  basis.accepted.length

/-- Whether no row has been accepted. -/
def isEmpty (basis : RowBasis) : Bool :=
  basis.accepted.isEmpty

/-- Whether the accepted rows span the space. -/
def isComplete (basis : RowBasis) : Bool :=
  basis.rank == basis.dimension

/-- A row of the width of the basis. -/
def checkWidth (basis : RowBasis) (row : BitRow) : Except Error Unit :=
  if row.length = basis.dimension then .ok ()
  else .error (.lengthMismatch basis.dimension row.length)

/-! ## Reduction and span -/

/-- Clear the pivots of some rows of the reduced basis, one after the other. -/
def clearPivots (pivots : List PivotRow) (row : TrackedRow) : Except Error TrackedRow :=
  pivots.foldlM (fun row p => row.clear p.toTrackedRow p.pivot) row

/-- Clear every pivot of the basis. The coefficients change by the accepted rows that were
added. -/
def reduce (basis : RowBasis) (row : TrackedRow) : Except Error TrackedRow :=
  clearPivots basis.reduced row

/-- Whether a row is a sum of accepted rows. -/
def isInSpan (basis : RowBasis) (row : BitRow) : Except Error Bool := do
  basis.checkWidth row
  let noRows ← BitRow.zero basis.dimension
  let rest ← basis.reduce ⟨row, noRows⟩
  return rest.vector.isZero

/-! ## Growth -/

/-- Clear a column in rows of a reduced basis, from the first on. If a row cannot be cleared, those
before it are cleared all the same. -/
def clearEach (source : TrackedRow) (pivot : Nat) :
    List PivotRow → Except Error Unit × List PivotRow
  | [] => (.ok (), [])
  | p :: rows =>
    match p.clear source pivot with
    | .error cause => (.error cause, p :: rows)
    | .ok t =>
      let (answer, cleared) := clearEach source pivot rows
      (answer, ⟨t, p.pivot⟩ :: cleared)

/-- Clear a column in the reduced basis. -/
def clearColumn (source : TrackedRow) (pivot : Nat) : Growing Unit :=
  ExceptT.mk fun basis =>
    let (answer, reduced) := clearEach source pivot basis.reduced
    (answer, { basis with reduced })

/-- Take over a row that is already reduced and has its lowest bit at `pivot`: clear that column in
the reduced basis and add the row to it. -/
def extend (row : BitRow) (rest : TrackedRow) (pivot : Nat) : Growing Unit := do
  clearColumn rest pivot
  modify fun basis =>
    { basis with
      accepted := basis.accepted ++ [row]
      reduced := basis.reduced ++ [⟨rest, pivot⟩] }

/-- Add a row to the basis if it is outside the span; otherwise the basis stays as it is. -/
def adjoin (row : BitRow) : Growing Bool := do
  let basis ← get
  basis.checkWidth row
  if basis.isComplete then return false
  else do
    let own ← BitRow.unit basis.dimension basis.rank
    let rest ← basis.reduce ⟨row, own⟩
    match rest.vector.firstSetBit with
    | none => return false
    | some pivot => do
      extend row rest pivot
      return true

/-- Offer a row. The answer says whether it was accepted. -/
def offer (basis : RowBasis) (row : BitRow) : Except Error Bool × RowBasis :=
  (adjoin row).runOn basis

/-- Offer a row where the basis is of no more use after an error. -/
def insert (basis : RowBasis) (row : BitRow) : Except Error (Bool × RowBasis) :=
  let (answer, next) := basis.offer row
  answer.map fun accepted => (accepted, next)

/-! ## Results -/

/-- The matrix of the accepted rows. It is square once the basis is complete. -/
def matrix (basis : RowBasis) : BitMatrix :=
  ⟨basis.accepted, basis.dimension⟩

/-- The inverse of the matrix of the accepted rows of a complete basis. -/
def inverse (basis : RowBasis) : Except Error BitMatrix :=
  if basis.isComplete then
    let sorted := basis.reduced.mergeSort fun p q => p.pivot ≤ q.pivot
    .ok ⟨sorted.map (·.coefficients), basis.dimension⟩
  else .error (.incomplete basis.rank basis.dimension)

/-- The whole state as a record. -/
def describe (basis : RowBasis) : Text.Record where
  name := "IncrementalMatrix"
  parts := [("dimension", .atom (toString basis.dimension)),
    ("raw", .list (basis.accepted.map BitRow.describe)),
    ("simplest", .list (basis.reduced.map (·.vector.describe))),
    ("inverse", .list (basis.reduced.map (·.coefficients.describe))),
    ("pivots", .list (basis.reduced.map fun p => toString p.pivot))]

end RowBasis

end BitLinear
