import BitLinear.Command.Files
import BitLinear.Error

/-!
# Failed commands

A command runs in stages, and a `Failure` says which stage went wrong and why. Its report names
the stage and, on a line of its own, the cause.
-/

namespace BitLinear

/-- The stage at which a command failed. -/
inductive Failure where
  /-- No invertible matrix of this size was generated. -/
  | matrixNotGenerated (size : Nat) (cause : Error)
  /-- No mask of this size was generated. -/
  | maskNotGenerated (size : Nat) (cause : Error)
  /-- The file was not read. -/
  | fileNotRead (path : String) (cause : ReadError)
  /-- The file holds no matrix. -/
  | matrixNotParsed (path : String) (cause : Error)
  /-- The vector is no hexadecimal row. -/
  | vectorNotDecoded (cause : Error)
  /-- The matrix does not apply to the vector. -/
  | matrixNotApplied (cause : Error)
  /-- Inversion does not apply to the matrix. -/
  | matrixNotInverted (cause : Error)
  /-- The trace does not apply to the matrix. -/
  | traceNotComputed (cause : Error)
  /-- The matrix has no inverse. -/
  | singular
  /-- Mask and unmask do not cancel. -/
  | maskNotInverse
  /-- Unmasking did not give the vector back. -/
  | roundTripFailed
  /-- A step of the demonstration failed whose error says enough. -/
  | step (cause : Error)
deriving DecidableEq, Repr

namespace Failure

/-- What went wrong. -/
def context : Failure → String
  | .matrixNotGenerated size _ => s!"generate {size}x{size} matrix"
  | .maskNotGenerated size _ => s!"generate {size}x{size} mask"
  | .fileNotRead path _ => s!"read {path}"
  | .matrixNotParsed path _ => s!"parse matrix from {path}"
  | .vectorNotDecoded _ => "decode vector hex"
  | .matrixNotApplied _ => "apply matrix"
  | .matrixNotInverted _ => "invert matrix"
  | .traceNotComputed _ => "compute trace"
  | .singular => "matrix is singular"
  | .maskNotInverse => "mask and unmask are not inverse to each other"
  | .roundTripFailed => "demo roundtrip failed"
  | .step cause => cause.message

/-- Why it went wrong, if that is not said already. -/
def cause? : Failure → Option String
  | .matrixNotGenerated _ cause | .maskNotGenerated _ cause | .matrixNotParsed _ cause
  | .vectorNotDecoded cause | .matrixNotApplied cause | .matrixNotInverted cause
  | .traceNotComputed cause => some cause.message
  | .fileNotRead _ cause => some cause.message
  | .singular | .maskNotInverse | .roundTripFailed | .step _ => none

/-- The report printed for a failure. -/
def report (failure : Failure) : String :=
  match failure.cause? with
  | none => "Error: " ++ failure.context ++ "\n"
  | some cause => "Error: " ++ failure.context ++ "\n\nCaused by:\n    " ++ cause ++ "\n"

end Failure

end BitLinear
