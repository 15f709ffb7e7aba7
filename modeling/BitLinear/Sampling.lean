import BitLinear.BitMatrix.Elimination
import BitLinear.ByteSource
import BitLinear.RowBasis

/-!
# Drawing rows and invertible matrices

Every row is one request to the source, and the rows of a matrix are requested in order. There
are two ways to an invertible matrix. Rejection draws whole matrices until one has an inverse, up
to a limit (`BitMatrix.rejectionSample`). The other grows a basis: it draws single rows, drops
those in the span of the rows before, and has the inverse at hand when the basis is complete
(`BitMatrix.randomInvertible`).
-/

namespace BitLinear

/-- Draw a row of `bits` bits. -/
def BitRow.random (bits : Nat) : Draw BitRow := do
  checkAligned bits
  let bytes ← Draw.bytes (bits / 8)
  return BitRow.ofBytes bytes

/-- Draw rows of `bits` bits, one after the other. -/
def BitRow.randomList (bits : Nat) : Nat → Draw (List BitRow)
  | 0 => return []
  | count + 1 => do
    let row ← BitRow.random bits
    let rows ← BitRow.randomList bits count
    return row :: rows

namespace BitMatrix

/-! ## Rejection -/

/-- The number of matrices that `random` draws before it gives up. -/
def defaultMaxAttempts : Nat := 64

/-- Draw a square matrix, which may be singular. -/
def uniform (n : Nat) : Draw BitMatrix := do
  let rows ← BitRow.randomList n n
  return ⟨rows, n⟩

/-- Draw up to a number of square matrices, until one has an inverse. -/
def firstInvertible (n : Nat) : Nat → Draw (Option (BitMatrix × BitMatrix))
  | 0 => return none
  | attempts + 1 => do
    let candidate ← uniform n
    match ← candidate.invert with
    | some inverse => return some (candidate, inverse)
    | none => firstInvertible n attempts

/-- Draw an invertible matrix and its inverse by rejection. -/
def rejectionSample (n maxAttempts : Nat) : Draw (BitMatrix × BitMatrix) := do
  match ← firstInvertible n maxAttempts with
  | some pair => return pair
  | none => throw (.retryLimitExceeded maxAttempts)

/-- Draw an invertible matrix by rejection, with a limit. -/
def randomWithLimit (n maxAttempts : Nat) : Draw BitMatrix := do
  let pair ← rejectionSample n maxAttempts
  return pair.1

/-- Draw an invertible matrix by rejection, with the default limit. -/
def random (n : Nat) : Draw BitMatrix :=
  randomWithLimit n defaultMaxAttempts

end BitMatrix

/-! ## Growing a basis -/

namespace RowBasis

/-- Draw up to a number of rows, until one is outside the span. -/
def novelWithin (basis : RowBasis) : Nat → Draw BitRow
  | 0 => throw .sourceExhausted
  | draws + 1 => do
    let candidate ← BitRow.random basis.dimension
    if ← basis.isInSpan candidate then basis.novelWithin draws else return candidate

/-- Draw rows until one is outside the span. A source that has come to its end or begins to
repeat has no such row. -/
def novel (basis : RowBasis) : Draw BitRow := do
  if basis.isComplete then throw (.alreadyComplete basis.dimension)
  else basis.novelWithin (← get).drawBound

/-- Draw rows from outside the span and accept them, up to a number of rows or until the basis is
complete. -/
def fill (basis : RowBasis) : Nat → Draw RowBasis
  | 0 => return basis
  | rounds + 1 =>
    if basis.isComplete then return basis
    else do
      let row ← basis.novel
      let (_, next) ← basis.insert row
      next.fill rounds

end RowBasis

/-- Draw an invertible matrix and its inverse row by row. Each round accepts a row, so `n` rounds
complete the basis. -/
def BitMatrix.randomInvertible (n : Nat) : Draw (BitMatrix × BitMatrix) := do
  let start ← RowBasis.empty n
  let basis ← start.fill n
  let inverse ← basis.inverse
  return (basis.matrix, inverse)

end BitLinear
