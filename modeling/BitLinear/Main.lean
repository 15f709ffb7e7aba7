import BitLinear.Command.Run

/-!
# The program

Reads the file that the arguments name, runs the command and prints what it has to say.
-/

open BitLinear

/-- The file that a request names, if it can be read. -/
def loadFiles (args : List String) : IO Files := do
  match Request.parse args with
  | .ok (.run command) =>
    match command.input? with
    | some input =>
      try
        let bytes ← IO.FS.readBinFile input
        return fun path => if path = input then some bytes else none
      catch _ => return fun _ => none
    | none => return fun _ => none
  | _ => return fun _ => none

/-- Run the program and end with its exit code. -/
def main (args : List String) : IO UInt32 := do
  let files ← loadFiles args
  let entropy ← IO.getRandomBytes 32
  let outcome := execute files entropy.toList args
  IO.print outcome.stdout
  IO.eprint outcome.stderr
  return outcome.exitCode
