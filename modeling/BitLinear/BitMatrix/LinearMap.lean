import BitLinear.BitMatrix.Basic

/-!
# The matrix of a linear map

A linear map on packed bytes is given by what it does to the unit vectors. `ofStatefulMap`
evaluates a map once for each unit vector, in increasing order, and makes image `j` column `j`.
The map may carry a state from one evaluation to the next. `ofLinearMap` is the case of a map
without state.
-/

namespace BitLinear.BitMatrix

variable {σ : Type}

/-- The image of unit vector `j` under a map on `bits` bits, which must keep the length. -/
def unitImage (bits : Nat) (map : List Byte → StateM σ (List Byte)) (j : Nat) :
    StateT σ (Except Error) BitRow := do
  let input ← BitRow.unit bits j
  let image ← modifyGet (map input.toBytes)
  if 8 * image.length = bits then return BitRow.ofBytes image
  else throw (.lengthMismatch bits (8 * image.length))

/-- The matrix whose column `j` is the image of unit vector `j`, for a map with a state. -/
def ofStatefulMap (bits : Nat) (map : List Byte → StateM σ (List Byte)) :
    StateT σ (Except Error) BitMatrix := do
  checkAligned bits
  let images ← (List.range bits).mapM (unitImage bits map)
  transpose ⟨images, bits⟩

/-- The matrix of a linear map on `bits` bits. -/
def ofLinearMap (bits : Nat) (map : List Byte → List Byte) : Except Error BitMatrix :=
  (ofStatefulMap bits fun input => (pure (map input) : StateM Unit (List Byte))).run' ()

end BitLinear.BitMatrix
