import Pseudocode.Command.Arguments
import Pseudocode.Decimal.Reader
import Pseudocode.FileTree

namespace Pseudocode

/-- The tools: one writes Lua programs, one checks sources, and one runs them. -/
inductive Tool where
  | converter
  | checker
  | runner
  deriving DecidableEq, Repr

def Tool.name : Tool → String
  | .converter => "psc2lua"
  | .checker => "psclint"
  | .runner => "pscrun"

/-- The options of a tool. -/
def Tool.options (tool : Tool) : List OptionSpec :=
  (match tool with
    | .converter =>
      [{ key := .output, short := some 'o', long := "--output", takesValue := true },
        { key := .noPrelude, long := "--no-runtime" }]
    | .checker => [{ key := .strict, long := "--strict" }]
    | .runner =>
      [{ key := .interpreter, long := "--lua", takesValue := true },
        { key := .keep, long := "--keep" },
        { key := .timeout, long := "--timeout", takesValue := true }]) ++
  [{ key := .verbose, short := some 'v', long := "--verbose" },
    { key := .version, long := "--version" },
    { key := .help, long := "--help" }]

/-- What a tool is asked to do. -/
structure Request where
  source : Path
  output : Option Path := none
  timeout : Option Binary64 := none
  parsed : Parsed
  deriving DecidableEq, Repr

def Request.isVerbose (request : Request) : Bool :=
  request.parsed.has .verbose

/-- What arguments ask for: facts about the tool, or its work. -/
inductive Asked where
  | version
  | help
  | work (request : Request)
  deriving DecidableEq, Repr

namespace Request

/-- The path of a file that is there. -/
def existingFile (files : FileTree) (parameter file : Text) : Except UsageError Path :=
  match files.find? file with
  | none => .error (.badValue parameter ("File ".toList ++ quoted file ++ " does not exist.".toList))
  | some .directory =>
    .error (.badValue parameter ("File ".toList ++ quoted file ++ " is a directory.".toList))
  | some (.file _) => .ok (Path.ofText file)

/-- The path of a file that may be written, or a dash. -/
def writableFile (files : FileTree) (parameter file : Text) : Except UsageError Path :=
  if file ≠ ['-'] && files.find? file = some .directory then
    .error (.badValue parameter ("File ".toList ++ quoted file ++ " is a directory.".toList))
  else .ok (Path.ofText file)

/-- A length of time above zero. What is no number at all passes. -/
def positiveTime (parameter value : Text) : Except UsageError Binary64 :=
  match Binary64.ofText? value with
  | none => .error (.badValue parameter (quoted value ++ " is not a valid float range.".toList))
  | some time =>
    if time.isAtMostZero then
      .error (.badValue parameter (time.toText ++ " is not in the range x>0.".toList))
    else .ok time

/-- Checks the value of an option. -/
def checkOption (files : FileTree) (request : Request) (key : OptionKey) :
    Except UsageError Request :=
  match key, request.parsed.value? key with
  | .output, some file => do
    let output ← writableFile files "'-o' / '--output'".toList file
    return { request with output := some output }
  | .timeout, some value => do
    let time ← positiveTime "'--timeout'".toList value
    return { request with timeout := some time }
  | _, _ => .ok request

/-- Checks what was parsed: the options as they were given, then the source, and last that nothing
is left over. -/
def ofParsed (files : FileTree) (parsed : Parsed) : Except UsageError Request := do
  let keys := parsed.options.map (·.1)
  let request ← keys.foldlM (checkOption files) { source := {}, parsed }
  match parsed.others with
  | [] => .error .missingArgument
  | file :: extra =>
    let source ← existingFile files "'INPUT_FILE'".toList file
    if extra.isEmpty then return { request with source } else .error (.extraArguments extra)

end Request

/-- Reads the arguments of a tool. A question about the tool itself comes before all else. -/
def Tool.asked (tool : Tool) (files : FileTree) (arguments : List Text) : Except UsageError Asked := do
  let parsed ← OptionSpec.parse tool.options arguments
  match parsed.options.find? fun (key, _) => key = .version || key = .help with
  | some (.version, _) => return .version
  | some _ => return .help
  | none => return .work (← Request.ofParsed files parsed)

end Pseudocode
