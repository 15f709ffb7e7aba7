import BitLinear.BitMatrix.Text
import BitLinear.Command.Arguments
import BitLinear.Command.Failure

/-!
# Running commands

A run sees files and 32 bytes of entropy, which stand in for a seed that is not given. It ends
with an exit code and two texts. What a command printed before it failed stays printed; every
command but the demonstration prints only at its end.

The second text holds the report of a failure and nothing else. The log lines that a run writes
there when the environment or the option `-v` asks for them carry times and are left out.
-/

namespace BitLinear

/-- How a run ended. -/
structure Outcome where
  /-- Zero for success, one for a failed command, two for refused arguments. -/
  exitCode : UInt32
  /-- The results. -/
  stdout : String
  /-- The report of a failure. -/
  stderr : String
deriving DecidableEq, Repr

/-- A computation that prints and may fail. -/
abbrev Shell := ExceptT Failure (StateM String)

namespace Shell

/-- Print a line. -/
def printLine (line : String) : Shell Unit :=
  modify fun printed => printed ++ line ++ "\n"

/-- Go on with a result, or fail at a stage. -/
def orFail {α : Type} {ε : Type} (result : Except ε α) (stage : ε → Failure) : Shell α :=
  match result with
  | .ok value => return value
  | .error cause => throw (stage cause)

/-- The outcome of a computation. -/
def outcome (shell : Shell Unit) : Outcome :=
  match (ExceptT.run shell).run "" with
  | (.ok (), printed) => ⟨0, printed, ""⟩
  | (.error failure, printed) => ⟨1, printed, failure.report⟩

end Shell

/-- A bit as a digit. -/
def bitDigit (bit : Bool) : String :=
  if bit then "1" else "0"

/-- Read the matrix in a file. -/
def loadMatrix (files : Files) (path : String) : Shell BitMatrix := do
  let text ← Shell.orFail (files.readText path) (.fileNotRead path)
  Shell.orFail (BitMatrix.parse text) (.matrixNotParsed path)

/-- The source of a seed, or of the entropy if there is none. -/
def seededSource (seed : Option Nat) (entropy : List Byte) : ByteSource :=
  match seed with
  | some seed => .ofSeed seed
  | none => .ofKey entropy

namespace Command

/-- Print an invertible matrix, and its inverse after a blank line. -/
def runRandom (size : Nat) (withInverse : Bool) (generator : Generator) : Shell Unit := do
  let (drawn, _) := generator.run (Generator.randomInvertible size)
  let (matrix, inverse) ← Shell.orFail drawn (.matrixNotGenerated size)
  Shell.printLine matrix.render
  if withInverse then
    Shell.printLine ""
    Shell.printLine inverse.render

/-- Print the inverse of the matrix in a file. -/
def runInvert (files : Files) (input : String) : Shell Unit := do
  let matrix ← loadMatrix files input
  match ← Shell.orFail matrix.invert .matrixNotInverted with
  | some inverse => Shell.printLine inverse.render
  | none => throw .singular

/-- Print what the matrix in a file makes of a vector. -/
def runApply (files : Files) (input vector : String) : Shell Unit := do
  let matrix ← loadMatrix files input
  let column ← Shell.orFail (BitRow.parse vector) .vectorNotDecoded
  let output ← Shell.orFail (matrix.apply column) .matrixNotApplied
  Shell.printLine output.render

/-- Print the trace of the matrix in a file. -/
def runTrace (files : Files) (input : String) : Shell Unit := do
  let matrix ← loadMatrix files input
  let trace ← Shell.orFail matrix.trace .traceNotComputed
  Shell.printLine (bitDigit trace)

/-- Draw a mask and a vector, mask the vector, unmask it, and print all three. The mask and its
inverse are composed both ways and must cancel. -/
def runDemo (size : Nat) (generator : Generator) : Shell Unit := do
  let (drawn, generator) := generator.run (Generator.randomInvertible size)
  let (mask, unmask) ← Shell.orFail drawn (.maskNotGenerated size)
  let identity ← Shell.orFail (BitMatrix.identity size) .step
  let maskLast ← Shell.orFail (mask.compose unmask) .step
  if maskLast ≠ identity then throw .maskNotInverse
  let maskFirst ← Shell.orFail (unmask.compose mask) .step
  if maskFirst ≠ identity then throw .maskNotInverse
  let (row, _) := generator.run (Generator.randomRow size)
  let plaintext ← Shell.orFail row .step
  let masked ← Shell.orFail (mask.apply plaintext) .step
  let unmasked ← Shell.orFail (unmask.apply masked) .step
  Shell.printLine s!"dimension: {size}"
  let trace ← Shell.orFail mask.trace .step
  Shell.printLine ("mask trace: " ++ bitDigit trace)
  Shell.printLine ("plaintext: " ++ plaintext.render)
  Shell.printLine ("masked: " ++ masked.render)
  Shell.printLine ("unmasked: " ++ unmasked.render)
  if unmasked ≠ plaintext then throw .roundTripFailed

/-- Run a command. The demonstration draws the key of its own generator from the source of its
seed. -/
def run (files : Files) (entropy : List Byte) : Command → Shell Unit
  | .random size seed config withInverse =>
    runRandom size withInverse ⟨seededSource seed entropy, config⟩
  | .invert input => runInvert files input
  | .apply input vector => runApply files input vector
  | .trace input => runTrace files input
  | .demo size seed => do
    let (key, _) := (Draw.bytes 32).runOn (seededSource seed entropy)
    let key ← Shell.orFail key .step
    runDemo size ⟨.ofKey key, {}⟩

end Command

/-- The text that says how the program is used. -/
def usage : String :=
  "Usage: gf2 [-v] <random|invert|apply|trace|demo> [options]\n"

/-- Run the program on its arguments. -/
def execute (files : Files) (entropy : List Byte) (args : List String) : Outcome :=
  match Request.parse args with
  | .error cause => ⟨2, "", "error: " ++ cause.message ++ "\n\n" ++ usage⟩
  | .ok .version => ⟨0, "gf2 0.1.0\n", ""⟩
  | .ok .help => ⟨0, usage, ""⟩
  | .ok (.run command) => (command.run files entropy).outcome

end BitLinear
