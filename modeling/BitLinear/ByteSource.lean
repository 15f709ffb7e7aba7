import BitLinear.Error
import BitLinear.Keystream

/-!
# Byte sources and drawing

Random values are made from bytes that a `ByteSource` hands out: a given script, which can run
out, or a keystream, which cannot. A request that a script cannot fill takes nothing.

A `Draw` is a computation that takes bytes from a source. It may fail, and what it took before
it failed stays taken.
-/

namespace BitLinear

/-- Where random bytes come from. -/
inductive ByteSource where
  /-- These bytes, and then no more. -/
  | script (bytes : List Byte)
  /-- A keystream. -/
  | keystream (stream : Keystream)
deriving DecidableEq, Repr

namespace ByteSource

/-- The keystream of a key of 32 bytes. -/
def ofKey (bytes : List Byte) : ByteSource :=
  .keystream (Keystream.ofKey bytes)

/-- The keystream of a number below `2 ^ 64`: its eight bytes, the least significant first, are
the first bytes of the key and the others are zero. -/
def ofSeed (seed : Nat) : ByteSource :=
  ofKey ((List.range 8).map fun i => UInt8.ofNat (seed >>> (8 * i)))

/-- The number of bytes left in a script; a keystream has no end. -/
def remaining? : ByteSource → Option Nat
  | .script bytes => some bytes.length
  | .keystream _ => none

/-- The next `count` bytes and the source after them, if there are so many. -/
def take? (source : ByteSource) (count : Nat) : Option (List Byte × ByteSource) :=
  match source with
  | .script bytes =>
    if count ≤ bytes.length then some (bytes.take count, .script (bytes.drop count)) else none
  | .keystream stream =>
    let (bytes, rest) := stream.take count
    some (bytes, .keystream rest)

/-- A number of requests for one or more bytes that no run without repetition exceeds: a script
has then run out, and a keystream has come back to a position where it was before. -/
def drawBound : ByteSource → Nat
  | .script bytes => bytes.length + 1
  | .keystream _ => Keystream.period

end ByteSource

/-- A computation that takes bytes from a source. -/
abbrev Draw := ExceptT Error (StateM ByteSource)

namespace Draw

/-- The result of a computation and the source after it. -/
def runOn {α : Type} (draw : Draw α) (source : ByteSource) : Except Error α × ByteSource :=
  (ExceptT.run draw).run source

/-- One request for `count` bytes. -/
def bytes (count : Nat) : Draw (List Byte) := do
  match (← get).take? count with
  | some (taken, rest) =>
    set rest
    return taken
  | none => throw .sourceExhausted

@[simp] theorem runOn_pure {α : Type} (value : α) (source : ByteSource) :
    (pure value : Draw α).runOn source = (.ok value, source) :=
  rfl

@[simp] theorem runOn_throw {α : Type} (cause : Error) (source : ByteSource) :
    (throw cause : Draw α).runOn source = (.error cause, source) :=
  rfl

/-- A result that needs no bytes leaves the source alone. -/
@[simp] theorem runOn_liftM {α : Type} (result : Except Error α) (source : ByteSource) :
    (liftM result : Draw α).runOn source = (result, source) :=
  rfl

/-- The second computation goes on with the source that the first one leaves, unless that failed. -/
theorem runOn_bind {α β : Type} (draw : Draw α) (next : α → Draw β) (source : ByteSource) :
    (draw >>= next).runOn source =
      match draw.runOn source with
      | (.ok value, rest) => (next value).runOn rest
      | (.error cause, rest) => (.error cause, rest) := by
  simp only [runOn, ExceptT.run_bind, StateT.run_bind]
  rcases StateT.run (ExceptT.run draw) source with ⟨_ | _, rest⟩ <;> rfl

theorem runOn_map {α β : Type} (f : α → β) (draw : Draw α) (source : ByteSource) :
    (f <$> draw).runOn source = ((draw.runOn source).1.map f, (draw.runOn source).2) := by
  simp only [runOn, ExceptT.run_map, StateT.run_map]
  rfl

/-- A request is filled or takes nothing. -/
theorem runOn_bytes (count : Nat) (source : ByteSource) :
    (bytes count).runOn source =
      match source.take? count with
      | some (taken, rest) => (.ok taken, rest)
      | none => (.error .sourceExhausted, source) := by
  have h : (bytes count).runOn source =
      (match source.take? count with
        | some (taken, rest) => (do set rest; return taken : Draw (List Byte))
        | none => throw Error.sourceExhausted).runOn source := rfl
  rw [h]
  split <;> rfl

end Draw

end BitLinear
