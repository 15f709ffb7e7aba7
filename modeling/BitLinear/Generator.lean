import BitLinear.Sampling

/-!
# Generators

A `Generator` owns a byte source and a configuration: the strategy by which it draws invertible
matrices and the limit of the rejection strategy. `mask` draws an invertible matrix, composes it
with a given one, and hands out the inverse that takes the mask off again.
-/

namespace BitLinear

/-- How invertible matrices are drawn. -/
inductive Strategy where
  /-- Row by row, each outside the span of those before. -/
  | incremental
  /-- Whole matrices, until one is invertible. -/
  | rejection
deriving DecidableEq, Repr

/-- The name of a strategy. -/
def Strategy.name : Strategy → String
  | .incremental => "incremental"
  | .rejection => "rejection"

/-- The strategy with a name. -/
def Strategy.ofName? (name : String) : Option Strategy :=
  [Strategy.incremental, .rejection].find? (·.name = name)

/-- What a generator goes by. -/
structure GeneratorConfig where
  /-- How invertible matrices are drawn. -/
  strategy : Strategy := .incremental
  /-- The number of whole matrices that rejection draws before it gives up. -/
  maxAttempts : Nat := BitMatrix.defaultMaxAttempts
deriving DecidableEq, Repr

/-- A byte source with a configuration. -/
structure Generator where
  /-- Where the bytes come from. -/
  source : ByteSource
  /-- What the generator goes by. -/
  config : GeneratorConfig := {}
deriving DecidableEq, Repr

/-- A computation with a generator. What it took from the source stays taken when it fails. -/
abbrev Generating := ExceptT Error (StateM Generator)

namespace Generator

/-- The result of a computation and the generator after it. -/
def run {α : Type} (generator : Generator) (action : Generating α) :
    Except Error α × Generator :=
  (ExceptT.run action).run generator

/-- Draw from the source of the generator. -/
def draw {α : Type} (action : Draw α) : Generating α :=
  ExceptT.mk fun generator =>
    let (result, source) := action.runOn generator.source
    (result, { generator with source })

/-- Change the strategy. -/
def setStrategy (strategy : Strategy) : Generating Unit :=
  modify fun generator => { generator with config := { generator.config with strategy } }

/-- Change the limit of the rejection strategy. -/
def setMaxAttempts (maxAttempts : Nat) : Generating Unit :=
  modify fun generator => { generator with config := { generator.config with maxAttempts } }

/-- Draw a row of `bits` bits. -/
def randomRow (bits : Nat) : Generating BitRow :=
  draw (BitRow.random bits)

/-- Draw an invertible matrix and its inverse by the strategy of the generator. -/
def randomInvertible (n : Nat) : Generating (BitMatrix × BitMatrix) := do
  let config := (← get).config
  match config.strategy with
  | .incremental => draw (BitMatrix.randomInvertible n)
  | .rejection => draw (BitMatrix.rejectionSample n config.maxAttempts)

/-- Draw an invertible matrix. -/
def randomMatrix (n : Nat) : Generating BitMatrix := do
  let pair ← randomInvertible n
  return pair.1

/-- A matrix to mask with, its inverse, and the masked matrix. -/
structure Masking where
  /-- The invertible matrix applied last. -/
  mask : BitMatrix
  /-- The inverse of the mask. -/
  unmask : BitMatrix
  /-- The mask composed with the given matrix. -/
  masked : BitMatrix
deriving DecidableEq, Repr

/-- Draw a mask as high as `inner` and compose the two. -/
def mask (inner : BitMatrix) : Generating Masking := do
  let (mask, unmask) ← randomInvertible inner.rows.length
  let masked ← mask.compose inner
  return ⟨mask, unmask, masked⟩

end Generator

end BitLinear
