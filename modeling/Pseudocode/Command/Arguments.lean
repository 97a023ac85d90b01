import Pseudocode.Text.Quoted
import Pseudocode.Text.Similarity

namespace Pseudocode

/-- The options of the tools. -/
inductive OptionKey where
  | output
  | noPrelude
  | strict
  | interpreter
  | keep
  | timeout
  | verbose
  | version
  | help
  deriving DecidableEq, Repr

/-- An option with its spellings. -/
structure OptionSpec where
  key : OptionKey
  short : Option Char := none
  long : String
  takesValue : Bool := false
  deriving DecidableEq, Repr

/-- What is wrong with the arguments of a tool. -/
inductive UsageError where
  | noSuchOption (name : Text) (similar : List Text)
  | needsValue (name : Text)
  | takesNoValue (name : Text)
  | missingArgument
  | extraArguments (arguments : List Text)
  /-- The value of a parameter is refused. -/
  | badValue (parameter reason : Text)
  deriving DecidableEq, Repr

def UsageError.message : UsageError → Text
  | .noSuchOption name similar =>
    "No such option: ".toList ++ name ++ match similar with
      | [] => []
      | [one] => " Did you mean ".toList ++ one ++ ['?']
      | several =>
        " (Possible options: ".toList ++ commaSeparated (several.mergeSort inOrder) ++ [')']
  | .needsValue name => "Option ".toList ++ quoted name ++ " requires an argument.".toList
  | .takesNoValue name => "Option ".toList ++ quoted name ++ " does not take a value.".toList
  | .missingArgument => "Missing argument 'INPUT_FILE'.".toList
  | .extraArguments arguments =>
    (if arguments.length = 1 then "Got unexpected extra argument (".toList
      else "Got unexpected extra arguments (".toList) ++ joinWith " " arguments ++ [')']
  | .badValue parameter reason =>
    "Invalid value for ".toList ++ parameter ++ ": ".toList ++ reason

/-- Arguments taken apart: the options in order with their values, and the other arguments. -/
structure Parsed where
  options : List (OptionKey × Option Text) := []
  others : List Text := []
  deriving DecidableEq, Repr

namespace Parsed

def addOption (key : OptionKey) (value : Option Text) (parsed : Parsed) : Parsed :=
  { parsed with options := (key, value) :: parsed.options }

def addOther (argument : Text) (parsed : Parsed) : Parsed :=
  { parsed with others := argument :: parsed.others }

/-- The last value given for an option. -/
def value? (parsed : Parsed) (key : OptionKey) : Option Text :=
  (parsed.options.reverse.lookup key).join

def has (parsed : Parsed) (key : OptionKey) : Bool :=
  parsed.options.any (·.1 = key)

end Parsed

/-- What one argument amounts to: options that are complete, and perhaps a last one that takes
the next argument for its value. -/
structure Switches where
  options : List (OptionKey × Option Text)
  pending : Option (OptionKey × Text) := none
  deriving DecidableEq, Repr

namespace OptionSpec

/-- Reads a long option, perhaps with its value after an equals sign. -/
def long? (specs : List OptionSpec) (argument : Text) : Except UsageError Switches :=
  let (name, value) := match argument.takeWhile (· ≠ '='), argument.dropWhile (· ≠ '=') with
    | name, _ :: value => (name, some value)
    | name, [] => (name, none)
  match specs.find? (·.long.toList = name) with
  | none => .error (.noSuchOption name (closeMatches name (specs.map (·.long.toList))))
  | some spec =>
    match spec.takesValue, value with
    | true, some value => .ok { options := [(spec.key, some value)] }
    | true, none => .ok { options := [], pending := some (spec.key, name) }
    | false, some _ => .error (.takesNoValue name)
    | false, none => .ok { options := [(spec.key, none)] }

/-- Reads short options that share a dash. What follows one with a value is its value. -/
def short? (specs : List OptionSpec) : Text → Except UsageError Switches
  | [] => .ok { options := [] }
  | c :: rest =>
    match specs.find? (·.short = some c) with
    | none => .error (.noSuchOption ['-', c] [])
    | some spec =>
      if spec.takesValue then
        match rest with
        | [] => .ok { options := [], pending := some (spec.key, ['-', c]) }
        | value => .ok { options := [(spec.key, some value)] }
      else (short? specs rest).map fun switches =>
        { switches with options := (spec.key, none) :: switches.options }

/-- Reads an argument that starts with a dash. -/
def switches? (specs : List OptionSpec) (argument : Text) : Except UsageError Switches :=
  match long? specs argument with
  | .error (.noSuchOption name similar) =>
    match argument with
    | '-' :: '-' :: _ => .error (.noSuchOption name similar)
    | _ => short? specs (argument.drop 1)
  | result => result

/-- Reads the arguments of a tool. Options may stand anywhere before two dashes. -/
def parse (specs : List OptionSpec) : List Text → Except UsageError Parsed
  | [] => .ok {}
  | argument :: rest =>
    match argument with
    | ['-', '-'] => .ok { others := rest }
    | '-' :: _ :: _ =>
      match switches? specs argument with
      | .error error => .error error
      | .ok switches =>
        let add (parsed : Parsed) : Parsed :=
          switches.options.foldr (fun (key, value) parsed => parsed.addOption key value) parsed
        match switches.pending, rest with
        | none, rest => (parse specs rest).map add
        | some (key, _), value :: rest =>
          (parse specs rest).map fun parsed => add (parsed.addOption key (some value))
        | some (_, name), [] => .error (.needsValue name)
    | _ => (parse specs rest).map (·.addOther argument)

end OptionSpec

end Pseudocode
