import BitLinear.BitRow.Basic

/-!
# Tracked rows

A `TrackedRow` is a vector together with coefficients: which rows of some list add up to it. Sums
are taken of both parts at once, so a vector stays the combination that its coefficients name
(`IsCombination`). Elimination works on tracked rows, and the coefficients that it ends with are
an inverse.
-/

namespace BitLinear

/-- A vector with the coefficients that make it. -/
structure TrackedRow where
  /-- The vector. -/
  vector : BitRow
  /-- Bit `k` is set when row `k` of the list takes part in the vector. -/
  coefficients : BitRow
deriving DecidableEq, Repr

namespace TrackedRow

/-- The vector is the sum of the rows that its coefficients select. -/
def IsCombination (rows : List BitRow) (t : TrackedRow) : Prop :=
  t.coefficients.combine rows t.vector.length = .ok t.vector

/-- The sum, in both parts. -/
def add (a b : TrackedRow) : Except Error TrackedRow := do
  let vector ← a.vector.add b.vector
  let coefficients ← a.coefficients.add b.coefficients
  return ⟨vector, coefficients⟩

/-- Add `source` if bit `col` of the vector is set. When that bit of `source` is set too, the
result has it clear. -/
def clear (row source : TrackedRow) (col : Nat) : Except Error TrackedRow := do
  if ← row.vector.getBit col then row.add source else return row

end TrackedRow

end BitLinear
