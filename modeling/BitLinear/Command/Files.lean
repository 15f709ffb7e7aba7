/-!
# Files by path

A command sees files only through what reading a path gives. `Files.ofDirectory` is the view of a
working directory: a relative path is a list of steps, of which empty ones and single dots lead
nowhere, so paths that differ only in those name the same file. A path from the root leaves the
directory.
-/

namespace BitLinear

/-- Why a file cannot be read as text. -/
inductive ReadError where
  /-- There is no such file. -/
  | notFound
  /-- The bytes are no UTF-8. -/
  | notUtf8
deriving DecidableEq, Repr

/-- The text shown for a file that cannot be read. -/
def ReadError.message : ReadError → String
  | .notFound => "No such file or directory (os error 2)"
  | .notUtf8 => "stream did not contain valid UTF-8"

/-- What reading a path gives: the bytes of a file, if there is one. -/
abbrev Files := String → Option ByteArray

namespace Files

/-- The steps of a path that lead somewhere. -/
def steps (path : List Char) : List (List Char) :=
  (path.splitOn '/').filter fun step => step ≠ [] ∧ step ≠ ['.']

/-- The files of a working directory, given with their names. -/
def ofDirectory (entries : List (String × ByteArray)) : Files := fun path =>
  if path.toList.head? = some '/' then none
  else (entries.find? fun entry => steps entry.1.toList = steps path.toList).map Prod.snd

/-- The text of a file. -/
def readText (files : Files) (path : String) : Except ReadError String :=
  match files path with
  | none => .error .notFound
  | some bytes =>
    match String.fromUTF8? bytes with
    | some text => .ok text
    | none => .error .notUtf8

end Files

end BitLinear
