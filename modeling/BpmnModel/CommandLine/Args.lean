/-!
# Arguments

`Args.parse` reads the command line into `Args`. An option takes its value from the same word
(`-oX`, `-o=X`, `--output=X`) or from the next one. A value that is still awaited is settled when
the next option or positional argument comes, or at the end; errors about it come up only then.
-/

namespace BpmnModel

/-- What the command line asks for. -/
structure Args where
  input : String
  output : Option String
  config : Option String
  logLevel : String
deriving DecidableEq, Repr

/-- Why a command line is not run. -/
inductive UsageError where
  | missingRequiredArgument
  | unknownArgument
  | invalidValue
  | argumentConflict
  | tooManyValues
  | displayHelp
  | displayVersion
deriving DecidableEq, Repr

/-- The name of the cause. -/
def UsageError.name : UsageError → String
  | missingRequiredArgument => "MissingRequiredArgument"
  | unknownArgument => "UnknownArgument"
  | invalidValue => "InvalidValue"
  | argumentConflict => "ArgumentConflict"
  | tooManyValues => "TooManyValues"
  | displayHelp => "DisplayHelp"
  | displayVersion => "DisplayVersion"

/-- The options that take a value. -/
inductive ValueOption where
  | output
  | config
  | logLevel
deriving DecidableEq, Repr

/-- What an option is, once its name is known. -/
inductive Switch where
  | value (option : ValueOption)
  | help
  | version
deriving DecidableEq, Repr

namespace Switch

/-- The option with this long name. -/
def ofLong? : List Char → Option Switch := fun name =>
  if name = "output".toList then some (value .output)
  else if name = "config".toList then some (value .config)
  else if name = "log-level".toList then some (value .logLevel)
  else if name = "help".toList then some help
  else if name = "version".toList then some version
  else none

/-- The option with this letter. -/
def ofShort? : Char → Option Switch
  | 'o' => some (value .output)
  | 'c' => some (value .config)
  | 'h' => some help
  | 'V' => some version
  | _ => none

end Switch

/-- A command line under way. -/
structure ArgScan where
  input : Option String
  given : List (ValueOption × String)
  /-- The last option, with its value if that was seen, as long as it is not settled. -/
  pending : Option (ValueOption × Option String)
  /-- Whether only positional arguments follow. -/
  positionalOnly : Bool

namespace ArgScan

/-- Nothing read. -/
def start : ArgScan := ⟨none, [], none, false⟩

/-- Gives an option its value, once. -/
def give (s : ArgScan) (option : ValueOption) (value : String) : Except UsageError ArgScan :=
  if (s.given.lookup option).isSome then .error .argumentConflict
  else .ok { s with given := s.given ++ [(option, value)] }

/-- Settles the option that is pending. -/
def settle (s : ArgScan) : Except UsageError ArgScan :=
  match s.pending with
  | none => .ok s
  | some (_, none) => .error .invalidValue
  | some (option, some value) => { s with pending := none }.give option value

/-- Takes an option that has its value with it, if it has one. -/
def takeSwitch (s : ArgScan) (switch : Switch) (attached : Option String) :
    Except UsageError ArgScan :=
  match switch, attached with
  | .value option, some value => do (← s.settle).give option value
  | .value option, none => do return { ← s.settle with pending := some (option, none) }
  | .help, none => do let _ ← s.settle; throw .displayHelp
  | .version, none => do let _ ← s.settle; throw .displayVersion
  | .help, some _ | .version, some _ => .error .tooManyValues

/-- Takes a long option: the name, or the name, an equals sign and the value. -/
def takeLong (s : ArgScan) (cs : List Char) : Except UsageError ArgScan :=
  let name := cs.takeWhile (· ≠ '=')
  match Switch.ofLong? name, cs.dropWhile (· ≠ '=') with
  | none, _ => .error .unknownArgument
  | some switch, [] => s.takeSwitch switch none
  | some switch, _ :: value => s.takeSwitch switch (some (String.ofList value))

/-- Takes short options that share a word. The first that takes a value has the rest of the word. -/
def takeShort (s : ArgScan) : List Char → Except UsageError ArgScan
  | [] => .ok s
  | c :: rest =>
    match Switch.ofShort? c, rest with
    | none, _ => .error .unknownArgument
    | some (.value option), [] => s.takeSwitch (.value option) none
    | some (.value option), '=' :: value =>
      s.takeSwitch (.value option) (some (String.ofList value))
    | some (.value option), value => s.takeSwitch (.value option) (some (String.ofList value))
    | some switch, rest => do (← s.takeSwitch switch none).takeShort rest

/-- Takes a positional argument, of which there is one. -/
def takePositional (s : ArgScan) (text : String) : Except UsageError ArgScan :=
  match s.input with
  | some _ => .error .unknownArgument
  | none => do return { ← s.settle with input := some text }

/-- Takes one word. -/
def take (s : ArgScan) (word : String) : Except UsageError ArgScan :=
  if s.positionalOnly then s.takePositional word
  else
    match word.toList with
    | ['-', '-'] => .ok { s with positionalOnly := true }
    | '-' :: '-' :: cs => s.takeLong cs
    | '-' :: c :: cs => s.takeShort (c :: cs)
    | _ =>
      match s.pending with
      | some (option, none) => .ok { s with pending := some (option, some word) }
      | _ => s.takePositional word

/-- What the words ask for together. -/
def finish (s : ArgScan) : Except UsageError Args := do
  let s ← s.settle
  match s.input with
  | none => throw .missingRequiredArgument
  | some input =>
    return {
      input
      output := s.given.lookup .output
      config := s.given.lookup .config
      logLevel := (s.given.lookup .logLevel).getD "info" }

end ArgScan

namespace Args

/-- Reads a command line, the name of the program apart. -/
def parse (words : List String) : Except UsageError Args := do
  (← words.foldlM ArgScan.take .start).finish

end Args

end BpmnModel
