import BitLinear.Command.Run
import BitLinear.Proofs.Checked
import Mathlib

/-!
# How commands end

A command runs in stages, and the first stage that fails decides its outcome: it prints nothing
and reports that stage (`Shell.outcome_orFail`). What is printed between stages stays printed
(`Shell.outcomeAfter`). So a command on a file from which a matrix is read (`Files.Loads`) ends as
its operation on that matrix does : there is one statement for each command that says what it
prints, and what it reports otherwise. Every vector, every path but the empty one and every number
below `2 ^ 64` can be asked for, with the value behind an equals sign (`Request.parse_apply`,
`Request.parse_demo`).
-/

namespace BitLinear

variable {files : Files} {entropy : List Byte} {path : String} {m : BitMatrix}

/-! ## Stages -/

namespace Shell

/-- A stage that fails ends the run with its report; a stage that passes hands on its result. -/
theorem outcome_orFail {α ε : Type} (result : Except ε α) (stage : ε → Failure)
    (next : α → Shell Unit) : (orFail result stage >>= next).outcome =
      match result with
      | .ok value => (next value).outcome
      | .error cause => ⟨1, "", (stage cause).report⟩ := by
  cases result <;> rfl

theorem outcome_printLine (line : String) : (printLine line).outcome = ⟨0, line ++ "\n", ""⟩ := by
  have h : (printLine line).outcome = ⟨0, "" ++ line ++ "\n", ""⟩ := rfl
  rw [h, String.empty_append]

theorem outcome_throw (failure : Failure) :
    (throw failure : Shell Unit).outcome = ⟨1, "", failure.report⟩ :=
  rfl

/-- The outcome of a computation before which something was printed. -/
def outcomeAfter (before : String) (shell : Shell Unit) : Outcome :=
  match (ExceptT.run shell).run before with
  | (.ok (), printed) => ⟨0, printed, ""⟩
  | (.error failure, printed) => ⟨1, printed, failure.report⟩

variable {before : String}

theorem outcome_eq_outcomeAfter (shell : Shell Unit) : shell.outcome = shell.outcomeAfter "" :=
  rfl

/-- A stage that passes prints nothing. -/
theorem outcomeAfter_orFail {α ε : Type} {result : Except ε α} {value : α} (h : result = .ok value)
    (stage : ε → Failure) (next : α → Shell Unit) :
    outcomeAfter before (orFail result stage >>= next) = outcomeAfter before (next value) := by
  rw [h]
  rfl

theorem outcomeAfter_printLine (line : String) (next : Unit → Shell Unit) :
    outcomeAfter before (printLine line >>= next) =
      outcomeAfter (before ++ line ++ "\n") (next ()) :=
  rfl

theorem outcomeAfter_pure : outcomeAfter before (pure ()) = ⟨0, before, ""⟩ :=
  rfl

/-- Lines that are printed one after the other. -/
def printed (lines : List String) : String :=
  lines.foldl (fun before line => before ++ line ++ "\n") ""

end Shell

/-! ## Arguments -/

/-- An option is told from the others by its spelling. -/
theorem OptionName.spelling_injective : Function.Injective OptionName.spelling := by
  intro option option' h
  revert h
  cases option <;> cases option' <;> decide

theorem OptionName.find?_spelling {allowed : List OptionName} {option : OptionName}
    (h : option ∈ allowed) : allowed.find? (·.spelling = option.spelling) = some option := by
  rcases hfound : allowed.find? (·.spelling = option.spelling) with _ | found
  · exact absurd (decide_eq_true rfl) (List.find?_eq_none.mp hfound option h)
  · have hspelling := List.find?_some hfound
    obtain rfl := spelling_injective (of_decide_eq_true hspelling)
    exact hfound

/-- An option and its value as one argument. -/
def OptionName.argument (option : OptionName) (value : String) : String :=
  "--" ++ option.spelling ++ "=" ++ value

theorem Argument.ofString_argument (option : OptionName) (value : String) :
    Argument.ofString (option.argument value) = .long option.spelling (some value) := by
  cases option <;>
    simp [Argument.ofString, OptionName.argument, OptionName.spelling, String.toList_append]

theorem readOptions_argument {allowed : List OptionName} {option : OptionName}
    (hmem : option ∈ allowed) (options : Options) (value : String) (rest : List String) :
    readOptions allowed options (option.argument value :: rest) =
      (options.assign option value >>= fun options => readOptions allowed options rest) := by
  rw [readOptions.eq_def]
  dsimp only
  rw [Argument.ofString_argument]
  split
  case h_6 name text _ _ heq =>
    obtain ⟨rfl, rfl⟩ := Argument.long.inj heq
    rw [OptionName.find?_spelling hmem]
  all_goals simp_all

theorem Options.assign_input {options : Options} {path : String} (hinput : options.input = none)
    (h : path ≠ "") : options.assign .input path = .ok { options with input := some path } := by
  rw [Options.assign, if_neg h, hinput]
  rfl

/-- Digits without a sign are read as the number they stand for. -/
theorem Text.parseDecimal_of_digits {text : String} (hne : text.toList ≠ [])
    (hdigits : ∀ c ∈ text.toList, c.isDigit = true)
    (hvalue : decimalValue text.toList < UInt64.size) :
    parseDecimal text = some (decimalValue text.toList) := by
  have hall : text.toList.all Char.isDigit = true := List.all_eq_true.mpr hdigits
  unfold parseDecimal
  split
  next rest heq => exact absurd (hdigits '+' (heq ▸ List.mem_cons_self)) (by decide)
  next =>
    simp only
    exact if_pos ⟨hne, hall, hvalue⟩

theorem Text.toList_toString (k : ℕ) : (toString k).toList = Nat.toDigits 10 k := by
  rw [Nat.toString_eq_ofList_toDigits, String.toList_ofList]

theorem Text.isDigit_of_mem_toString {k : ℕ} {c : Char} (h : c ∈ (toString k).toList) :
    c.isDigit := by
  rw [toList_toString] at h
  exact Nat.isDigit_of_mem_toDigits (by decide) le_rfl h

/-- A number below `2 ^ 64` is read as it is printed. -/
theorem Text.parseDecimal_toString {k : ℕ} (hk : k < UInt64.size) :
    parseDecimal (toString k) = some k := by
  have hne : (toString k).toList ≠ [] := by
    rw [toList_toString]
    exact Nat.toDigits_ne_nil
  have hvalue : decimalValue (toString k).toList = k := by
    have hdigits := Nat.ofDigitChars_toDigits (b := 10) (n := k) (by decide) le_rfl
    rwa [Nat.ofDigitChars_eq_foldl, ← toList_toString] at hdigits
  rw [parseDecimal_of_digits hne fun c => isDigit_of_mem_toString, hvalue]
  rwa [hvalue]

namespace Request

theorem parse_invert {path : String} (h : path ≠ "") :
    parse ["invert", OptionName.input.argument path] = .ok (.run (.invert path)) := by
  have hmem : OptionName.input ∈ Subcommand.invert.options := List.mem_singleton_self _
  have hread : readOptions Subcommand.invert.options {} [OptionName.input.argument path] =
      .ok (some { input := some path }) := by
    rw [readOptions_argument hmem, Options.assign_input rfl h]
    rfl
  have hparse : parse ["invert", OptionName.input.argument path] =
      Subcommand.invert.parse [OptionName.input.argument path] := rfl
  rw [hparse, Subcommand.parse, hread]
  rfl

theorem parse_apply {path : String} (h : path ≠ "") (vector : String) :
    parse ["apply", OptionName.input.argument path, OptionName.vector.argument vector] =
      .ok (.run (.apply path vector)) := by
  have hinput : OptionName.input ∈ Subcommand.apply.options := by decide
  have hvector : OptionName.vector ∈ Subcommand.apply.options := by decide
  have hread : readOptions Subcommand.apply.options {}
      [OptionName.input.argument path, OptionName.vector.argument vector] =
        .ok (some { input := some path, vector := some vector }) := by
    rw [readOptions_argument hinput, Options.assign_input rfl h]
    exact readOptions_argument hvector _ _ _
  have hparse :
      parse ["apply", OptionName.input.argument path, OptionName.vector.argument vector] =
        Subcommand.apply.parse
          [OptionName.input.argument path, OptionName.vector.argument vector] := rfl
  rw [hparse, Subcommand.parse, hread]
  rfl

/-- Every size and every seed can be asked for. -/
theorem parse_demo {size seed : ℕ} (hsize : size < UInt64.size) (hseed : seed < UInt64.size) :
    parse ["demo", OptionName.size.argument (toString size),
      OptionName.seed.argument (toString seed)] = .ok (.run (.demo size (some seed))) := by
  have hsizes : OptionName.size ∈ Subcommand.demo.options := by decide
  have hseeds : OptionName.seed ∈ Subcommand.demo.options := by decide
  have hread : readOptions Subcommand.demo.options {} [OptionName.size.argument (toString size),
      OptionName.seed.argument (toString seed)] =
        .ok (some { size := some size, seed := some seed }) := by
    rw [readOptions_argument hsizes, Options.assign, Text.parseDecimal_toString hsize]
    change readOptions Subcommand.demo.options { size := some size }
      [OptionName.seed.argument (toString seed)] = _
    rw [readOptions_argument hseeds, Options.assign, Text.parseDecimal_toString hseed]
    rfl
  have hparse : parse ["demo", OptionName.size.argument (toString size),
      OptionName.seed.argument (toString seed)] = Subcommand.demo.parse
        [OptionName.size.argument (toString size), OptionName.seed.argument (toString seed)] := rfl
  rw [hparse, Subcommand.parse, hread]
  rfl

end Request

/-- Arguments that ask for a command make the program run it. -/
theorem execute_eq {args : List String} {command : Command}
    (h : Request.parse args = .ok (.run command)) :
    execute files entropy args = (command.run files entropy).outcome := by
  rw [execute, h]

/-! ## Files with a matrix -/

/-- There is a file of this path, and from its text the matrix is read. -/
def Files.Loads (files : Files) (path : String) (m : BitMatrix) : Prop :=
  ∃ text, files.readText path = .ok text ∧ BitMatrix.parse text = .ok m

theorem Files.readText_eq_ok {bytes : ByteArray} (h : files path = some bytes)
    (hvalid : bytes.IsValidUTF8) : files.readText path = .ok (String.fromUTF8 bytes hvalid) := by
  rw [readText, h]
  dsimp only
  rw [String.fromUTF8?, dif_pos hvalid]

theorem Files.readText_eq_notUtf8 {bytes : ByteArray} (h : files path = some bytes)
    (hvalid : ¬bytes.IsValidUTF8) : files.readText path = .error .notUtf8 := by
  rw [readText, h]
  dsimp only
  rw [String.fromUTF8?, dif_neg hvalid]

theorem Files.readText_eq_notFound (h : files path = none) :
    files.readText path = .error .notFound := by
  rw [readText, h]

/-- A file that is not read ends the run. -/
theorem outcome_bind_of_readText {cause : ReadError} (h : files.readText path = .error cause)
    (next : BitMatrix → Shell Unit) : (loadMatrix files path >>= next).outcome =
      ⟨1, "", (Failure.fileNotRead path cause).report⟩ := by
  rw [loadMatrix, bind_assoc, Shell.outcome_orFail, h]

/-- So does a text that is no matrix. -/
theorem outcome_bind_of_parse {text : String} {cause : Error}
    (htext : files.readText path = .ok text) (h : BitMatrix.parse text = .error cause)
    (next : BitMatrix → Shell Unit) : (loadMatrix files path >>= next).outcome =
      ⟨1, "", (Failure.matrixNotParsed path cause).report⟩ := by
  rw [loadMatrix, bind_assoc, Shell.outcome_orFail, htext]
  dsimp only
  rw [Shell.outcome_orFail, h]

/-- A matrix that is read from its file is handed on. -/
theorem Files.Loads.outcome_bind (h : files.Loads path m) (next : BitMatrix → Shell Unit) :
    (loadMatrix files path >>= next).outcome = (next m).outcome := by
  obtain ⟨text, htext, hm⟩ := h
  rw [loadMatrix, bind_assoc, Shell.outcome_orFail, htext]
  dsimp only
  rw [Shell.outcome_orFail, hm]

/-! ## Commands -/

theorem Files.Loads.outcome_invert (h : files.Loads path m) :
    (Command.runInvert files path).outcome =
      match m.invert with
      | .ok (some inverse) => ⟨0, inverse.render ++ "\n", ""⟩
      | .ok none => ⟨1, "", Failure.singular.report⟩
      | .error cause => ⟨1, "", (Failure.matrixNotInverted cause).report⟩ := by
  rw [Command.runInvert, h.outcome_bind, Shell.outcome_orFail]
  rcases m.invert with cause | _ | inverse
  · rfl
  · exact Shell.outcome_throw _
  · exact Shell.outcome_printLine _

theorem Files.Loads.outcome_apply (h : files.Loads path m) (vector : String) :
    (Command.runApply files path vector).outcome =
      match BitRow.parse vector with
      | .error cause => ⟨1, "", (Failure.vectorNotDecoded cause).report⟩
      | .ok column =>
        match m.apply column with
        | .error cause => ⟨1, "", (Failure.matrixNotApplied cause).report⟩
        | .ok output => ⟨0, output.render ++ "\n", ""⟩ := by
  rw [Command.runApply, h.outcome_bind, Shell.outcome_orFail]
  rcases BitRow.parse vector with cause | column
  · rfl
  · dsimp only
    rw [Shell.outcome_orFail]
    rcases m.apply column with cause | output
    · rfl
    · exact Shell.outcome_printLine _

theorem Files.Loads.outcome_apply_of_parse (h : files.Loads path m) {vector : String}
    {column : BitRow} (hvector : BitRow.parse vector = .ok column) :
    (Command.runApply files path vector).outcome =
      match m.apply column with
      | .error cause => ⟨1, "", (Failure.matrixNotApplied cause).report⟩
      | .ok output => ⟨0, output.render ++ "\n", ""⟩ := by
  rw [h.outcome_apply, hvector]

theorem Files.Loads.outcome_trace (h : files.Loads path m) :
    (Command.runTrace files path).outcome =
      match m.trace with
      | .error cause => ⟨1, "", (Failure.traceNotComputed cause).report⟩
      | .ok trace => ⟨0, bitDigit trace ++ "\n", ""⟩ := by
  rw [Command.runTrace, h.outcome_bind, Shell.outcome_orFail]
  rcases m.trace with cause | trace
  · rfl
  · exact Shell.outcome_printLine _

/-- A drawn matrix is printed, and its inverse after a blank line if that is asked for. -/
theorem outcome_random (size : Nat) (withInverse : Bool) (generator : Generator) :
    (Command.runRandom size withInverse generator).outcome =
      match (generator.run (Generator.randomInvertible size)).1 with
      | .error cause => ⟨1, "", (Failure.matrixNotGenerated size cause).report⟩
      | .ok (drawn, inverse) => ⟨0, drawn.render ++ "\n" ++
          (if withInverse then "\n" ++ inverse.render ++ "\n" else ""), ""⟩ := by
  rw [Command.runRandom]
  dsimp only
  rw [Shell.outcome_orFail]
  rcases (generator.run (Generator.randomInvertible size)).1 with cause | ⟨drawn, inverse⟩
  · rfl
  · cases withInverse with
    | false =>
      show (⟨0, "" ++ drawn.render ++ "\n", ""⟩ : Outcome) = _
      simp only [String.empty_append, Bool.false_eq_true, if_false, String.append_empty]
    | true =>
      show (⟨0, "" ++ drawn.render ++ "\n" ++ "" ++ "\n" ++ inverse.render ++ "\n", ""⟩ :
        Outcome) = _
      simp only [String.empty_append, String.append_empty, if_true, String.append_assoc]

end BitLinear
