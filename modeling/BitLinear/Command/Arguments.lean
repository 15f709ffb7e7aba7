import BitLinear.Generator
import BitLinear.Text.Decimal

/-!
# Command line arguments

`Request.parse` reads the arguments of the program from left to right. First come the options of
the program, then the name of a subcommand, then the options of that subcommand. An option with a
value takes it from behind an equals sign or from the next argument, which must then not look like
an option itself. An option is given at most once, `-v` as often as one likes.

A request for help or for the version ends the reading, so faults behind it go unnoticed and
faults before it win.
-/

namespace BitLinear

/-- What the program can do. -/
inductive Command where
  /-- Generate an invertible matrix. -/
  | random (size : Nat) (seed : Option Nat) (config : GeneratorConfig) (withInverse : Bool)
  /-- Invert the matrix in a file. -/
  | invert (input : String)
  /-- Apply the matrix in a file to a vector. -/
  | apply (input vector : String)
  /-- Print the trace of the matrix in a file. -/
  | trace (input : String)
  /-- Mask and unmask a random vector. -/
  | demo (size : Nat) (seed : Option Nat)
deriving DecidableEq, Repr

/-- The file that a command reads. -/
def Command.input? : Command → Option String
  | .invert input | .apply input _ | .trace input => some input
  | .random .. | .demo .. => none

/-- What the arguments ask for. -/
inductive Request where
  /-- Run a command. -/
  | run (command : Command)
  /-- Print the version. -/
  | version
  /-- Print a usage text. -/
  | help
deriving DecidableEq, Repr

/-! ## Options -/

/-- The options of the subcommands. -/
inductive OptionName where
  | size | seed | strategy | maxAttempts | withInverse | input | vector
deriving DecidableEq, Repr

/-- An option as it is typed, without the dashes. -/
def OptionName.spelling : OptionName → String
  | .size => "size"
  | .seed => "seed"
  | .strategy => "strategy"
  | .maxAttempts => "max-attempts"
  | .withInverse => "with-inverse"
  | .input => "input"
  | .vector => "vector"

/-- Why arguments are refused. -/
inductive UsageError where
  /-- There is no subcommand. -/
  | missingSubcommand
  /-- There is no subcommand of this name. -/
  | unknownSubcommand (name : String)
  /-- An argument that has no place here. -/
  | unexpectedArgument (text : String)
  /-- An option without its value. -/
  | missingValue (option : OptionName)
  /-- A value for an option that takes none. -/
  | unexpectedValue (option : OptionName)
  /-- A value that the option does not take. -/
  | invalidValue (option : OptionName) (text : String)
  /-- An option given twice. -/
  | repeatedOption (option : OptionName)
  /-- An option that the subcommand cannot do without. -/
  | missingOption (option : OptionName)
deriving DecidableEq, Repr

/-- The text shown for refused arguments. -/
def UsageError.message : UsageError → String
  | .missingSubcommand => "a subcommand is required"
  | .unknownSubcommand name => s!"unrecognized subcommand '{name}'"
  | .unexpectedArgument text => s!"unexpected argument '{text}'"
  | .missingValue option => "a value is required for '--" ++ option.spelling ++ "'"
  | .unexpectedValue option => "no value is taken by '--" ++ option.spelling ++ "'"
  | .invalidValue option text => s!"invalid value '{text}' for '--" ++ option.spelling ++ "'"
  | .repeatedOption option => "'--" ++ option.spelling ++ "' is given more than once"
  | .missingOption option => "'--" ++ option.spelling ++ "' is required"

/-- The options read so far. -/
structure Options where
  /-- The dimension. -/
  size : Option Nat := none
  /-- The seed. -/
  seed : Option Nat := none
  /-- The strategy. -/
  strategy : Option Strategy := none
  /-- The limit of the rejection strategy. -/
  maxAttempts : Option Nat := none
  /-- Whether the inverse is printed too. -/
  withInverse : Bool := false
  /-- The path of the matrix. -/
  input : Option String := none
  /-- The digits of the vector. -/
  vector : Option String := none

namespace Options

/-- The value of an option that was not given before. -/
def valueOnce {α : Type} (option : OptionName) (earlier : Option α) (text : String)
    (value : Option α) : Except UsageError (Option α) :=
  match earlier, value with
  | some _, _ => .error (.repeatedOption option)
  | none, none => .error (.invalidValue option text)
  | none, some value => .ok (some value)

/-- Give an option its value. A path must not be empty, a vector may be. -/
def assign (options : Options) (option : OptionName) (text : String) :
    Except UsageError Options := do
  match option with
  | .size =>
    return { options with size := ← valueOnce option options.size text (Text.parseDecimal text) }
  | .seed =>
    return { options with seed := ← valueOnce option options.seed text (Text.parseDecimal text) }
  | .strategy =>
    return { options with
      strategy := ← valueOnce option options.strategy text (Strategy.ofName? text) }
  | .maxAttempts =>
    return { options with
      maxAttempts := ← valueOnce option options.maxAttempts text (Text.parseDecimal text) }
  | .withInverse => throw (.unexpectedValue option)
  | .input =>
    let path := if text = "" then none else some text
    return { options with input := ← valueOnce option options.input text path }
  | .vector =>
    return { options with vector := ← valueOnce option options.vector text (some text) }

/-- Switch on the option that takes no value. -/
def switchOn (options : Options) : Except UsageError Options :=
  if options.withInverse then .error (.repeatedOption .withInverse)
  else .ok { options with withInverse := true }

end Options

/-! ## Arguments -/

/-- The form of an argument. -/
inductive Argument where
  /-- Two dashes alone. -/
  | escape
  /-- Two dashes and a name, perhaps with a value behind an equals sign. -/
  | long (name : String) (value : Option String)
  /-- One dash and letters. -/
  | short (letters : List Char)
  /-- Anything else, one dash alone included. -/
  | word (text : String)
deriving DecidableEq, Repr

/-- Tell the form of an argument. -/
def Argument.ofString (text : String) : Argument :=
  match text.toList with
  | ['-', '-'] => .escape
  | '-' :: '-' :: rest =>
    let name := String.ofList (rest.takeWhile (· ≠ '='))
    match rest.dropWhile (· ≠ '=') with
    | [] => .long name none
    | _ :: value => .long name (some (String.ofList value))
  | '-' :: c :: rest => .short (c :: rest)
  | _ => .word text

/-- Read the letters behind one dash. The version is to be had only before the subcommand. -/
def readLetters (beforeSubcommand : Bool) : List Char → Except UsageError (Option Request)
  | [] => .ok none
  | 'v' :: rest => readLetters beforeSubcommand rest
  | 'h' :: _ => .ok (some .help)
  | c :: _ =>
    if c = 'V' ∧ beforeSubcommand then .ok (some .version)
    else .error (.unexpectedArgument (String.ofList ['-', c]))

/-- Read the options of a subcommand, unless help is asked for. -/
def readOptions (allowed : List OptionName) (options : Options) :
    List String → Except UsageError (Option Options)
  | [] => .ok (some options)
  | arg :: rest =>
    match Argument.ofString arg with
    | .word text => .error (.unexpectedArgument text)
    | .escape =>
      match rest with
      | [] => .ok (some options)
      | next :: _ => .error (.unexpectedArgument next)
    | .short letters => do
      match ← readLetters false letters with
      | some _ => return none
      | none => readOptions allowed options rest
    | .long "help" none => .ok none
    | .long "verbose" none => readOptions allowed options rest
    | .long name value =>
      match allowed.find? (·.spelling = name), value with
      | none, _ => .error (.unexpectedArgument arg)
      | some option, some text => do
        let options ← options.assign option text
        readOptions allowed options rest
      | some .withInverse, none => do
        let options ← options.switchOn
        readOptions allowed options rest
      | some option, none =>
        match rest with
        | [] => .error (.missingValue option)
        | next :: rest =>
          match Argument.ofString next with
          | .word text => do
            let options ← options.assign option text
            readOptions allowed options rest
          | _ => .error (.missingValue option)

/-! ## Subcommands -/

/-- The subcommands. -/
inductive Subcommand where
  | random | invert | apply | trace | demo
deriving DecidableEq, Repr

namespace Subcommand

/-- A subcommand as it is typed. -/
def name : Subcommand → String
  | .random => "random"
  | .invert => "invert"
  | .apply => "apply"
  | .trace => "trace"
  | .demo => "demo"

/-- The subcommand of a name. -/
def ofName? (name : String) : Option Subcommand :=
  [Subcommand.random, .invert, .apply, .trace, .demo].find? (·.name = name)

/-- The options of a subcommand. -/
def options : Subcommand → List OptionName
  | .random => [.size, .seed, .strategy, .maxAttempts, .withInverse]
  | .invert | .trace => [.input]
  | .apply => [.input, .vector]
  | .demo => [.size, .seed]

/-- The value of an option that must be there. -/
def require (option : OptionName) (value : Option String) : Except UsageError String :=
  match value with
  | some text => .ok text
  | none => .error (.missingOption option)

/-- The command that a subcommand and its options make, with the defaults filled in. -/
def command (subcommand : Subcommand) (given : Options) : Except UsageError Command := do
  match subcommand with
  | .random =>
    let config : GeneratorConfig :=
      ⟨given.strategy.getD .incremental, given.maxAttempts.getD BitMatrix.defaultMaxAttempts⟩
    return .random (given.size.getD 32) given.seed config given.withInverse
  | .invert =>
    let input ← require .input given.input
    return .invert input
  | .apply =>
    let input ← require .input given.input
    let vector ← require .vector given.vector
    return .apply input vector
  | .trace =>
    let input ← require .input given.input
    return .trace input
  | .demo => return .demo (given.size.getD 128) given.seed

/-- Read the arguments behind a subcommand. -/
def parse (subcommand : Subcommand) (args : List String) : Except UsageError Request := do
  match ← readOptions subcommand.options {} args with
  | none => return .help
  | some given =>
    let command ← subcommand.command given
    return .run command

end Subcommand

/-- Read what stands behind the subcommand `help`: at most one topic, which is a subcommand or
`help` itself. -/
def readHelpTopic : List String → Except UsageError Request
  | [] => .ok .help
  | [topic] =>
    if topic = "help" ∨ (Subcommand.ofName? topic).isSome then .ok .help
    else .error (.unknownSubcommand topic)
  | _ :: next :: _ => .error (.unexpectedArgument next)

/-- Read the arguments of the program. -/
def Request.parse : List String → Except UsageError Request
  | [] => .error .missingSubcommand
  | arg :: rest =>
    match Argument.ofString arg with
    | .escape => .error (.unexpectedArgument arg)
    | .short letters => do
      match ← readLetters true letters with
      | some request => return request
      | none => Request.parse rest
    | .long "help" none => .ok .help
    | .long "version" none => .ok .version
    | .long "verbose" none => Request.parse rest
    | .long _ _ => .error (.unexpectedArgument arg)
    | .word "help" => readHelpTopic rest
    | .word name =>
      match Subcommand.ofName? name with
      | some subcommand => subcommand.parse rest
      | none => .error (.unknownSubcommand name)

end BitLinear
