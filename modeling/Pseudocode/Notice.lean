import Pseudocode.Statement.Kind
import Pseudocode.Text.Basic

namespace Pseudocode

inductive Level where
  | debug
  | warning
  deriving DecidableEq, Repr

/-- The part of the toolchain that a notice comes from. -/
inductive Origin where
  | signatures
  | records
  | hints
  | lines
  | assembly
  | check
  | settings
  | launch
  deriving DecidableEq, Repr

def Origin.name : Origin → String
  | .signatures => "psc_lua.transpiler.functions"
  | .records => "psc_lua.transpiler.composites"
  | .hints => "psc_lua.transpiler.variables"
  | .lines => "psc_lua.transpiler.engine"
  | .assembly => "psc_lua.transpiler.transpiler"
  | .check => "psc_lua.linter"
  | .settings => "psc_lua.config"
  | .launch => "psc_lua.runner"

/-- Something worth telling that stops no work. -/
inductive Notice where
  | collectedSignatures (names : List Text)
  | collectedRecords (count : Nat)
  | collectedHints (count : Nat)
  | lineRead (number : Nat) (kind : LineKind)
  | strayCloser (line : Text)
  | noOpenBlock (keyword : BlockKeyword) (line : Text)
  | closesInnerBlock (line : Text)
  | unclearFunctionHeader (line : Text)
  | unclearLoopHeader (line : Text)
  | sizeAsDimension (dimension : Text)
  | openWrite (line : Text)
  | openConstructor (name : Text)
  | openCall (name : Text)
  | openInOutCall (name : Text)
  | openIndex
  | blocksLeftOpen (count : Nat)
  | assembled (sourceLines luaLines : Nat)
  | checked (diagnostics : Nat)
  | badTimeout (quoted : Text)
  | starting (command script : Text)
  | ended (status : Int)
  deriving DecidableEq, Repr

namespace Notice

def level : Notice → Level
  | closesInnerBlock _ | unclearFunctionHeader _ | unclearLoopHeader _ | sizeAsDimension _
  | openWrite _ | openConstructor _ | openCall _ | openInOutCall _ | openIndex
  | badTimeout _ => .warning
  | _ => .debug

def origin : Notice → Origin
  | collectedSignatures _ => .signatures
  | collectedRecords _ | openConstructor _ => .records
  | collectedHints _ => .hints
  | assembled _ _ => .assembly
  | checked _ => .check
  | badTimeout _ => .settings
  | starting _ _ | ended _ => .launch
  | _ => .lines

def listed (names : List Text) : String :=
  if names.isEmpty then "-" else String.ofList (commaSeparated names)

def message : Notice → String
  | collectedSignatures names => s!"Collected {names.length} function(s): {listed names}"
  | collectedRecords count => s!"Collected {count} composite type(s)"
  | collectedHints count => s!"Collected {count} variable type hint(s)"
  | lineRead number kind => s!"Line {number}: {kind.name}"
  | strayCloser line => s!"Block closer '{String.ofList line}' without an open block"
  | noOpenBlock keyword line =>
    s!"No open '{keyword.spelling}' block for '{String.ofList line}', closing the innermost block"
  | closesInnerBlock line => s!"'{String.ofList line}' also closes an unterminated inner block"
  | unclearFunctionHeader line => s!"Unrecognized function header: {String.ofList line}"
  | unclearLoopHeader line => s!"Unrecognized loop header: {String.ofList line}"
  | sizeAsDimension dimension =>
    let size := String.ofList dimension
    s!"Array dimension '{size}' is not a lo..hi range, using 0..{size} - 1"
  | openWrite line => s!"Unmatched parenthesis in: {String.ofList line}"
  | openConstructor name => s!"Unmatched parenthesis after constructor '{String.ofList name}'"
  | openCall name => s!"Unmatched parenthesis after '{String.ofList name}'"
  | openInOutCall name => s!"Unmatched parenthesis after call to '{String.ofList name}'"
  | openIndex => "Unmatched '[' in expression"
  | blocksLeftOpen count => s!"{count} block(s) still open at end of input"
  | assembled sourceLines luaLines =>
    s!"Transpiled {sourceLines} PSC line(s) to {luaLines} Lua line(s)"
  | checked diagnostics => s!"Linter found {diagnostics} diagnostic(s)"
  | badTimeout quoted => s!"Ignoring invalid PSC_LUA_TIMEOUT value: {String.ofList quoted}"
  | starting command script => s!"Running {String.ofList command} {String.ofList script}"
  | ended status => s!"Interpreter exited with status {status}"

/-- The notice as it is logged, with its level in front. -/
def record (notice : Notice) : String :=
  match notice.level with
  | .debug => s!"DEBUG: {notice.message}"
  | .warning => s!"WARNING: {notice.message}"

end Notice

end Pseudocode
