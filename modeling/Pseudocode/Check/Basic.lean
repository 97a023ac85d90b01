import Pseudocode.Check.Scope
import Pseudocode.Mask
import Pseudocode.Program.Assembly

namespace Pseudocode

/-- What a check knows of a source beforehand. -/
structure Checker where
  language : Language := standardLanguage
  functions : List Text := []
  records : List Text := []
  deriving DecidableEq, Repr

namespace Checker

/-- A name that needs no declaration, or has one. -/
def knows (checker : Checker) (scopes : Scopes) (name : Text) : Bool :=
  let lowered := lower name
  checker.language.knownNames.contains lowered || checker.records.contains lowered ||
    checker.functions.contains name || scopes.declares name

/-- The words of a masked line between two columns. -/
def wordsBetween (masked : Text) (start stop : Nat) : List (Nat × Text) :=
  let before := if start = 0 then none else masked[start - 1]?
  wordsFrom before start ((masked.take stop).drop start)

/-- Reports the words between two columns that are not known. -/
def checkWords (checker : Checker) (line : Nat) (masked : Text) (start stop : Nat)
    (scopes : Scopes) : Scopes :=
  scopes.report <| (wordsBetween masked start stop).filterMap fun (column, name) =>
    if checker.knows scopes name then none
    else some { line, column, endColumn := column + name.length, finding := .undeclared name }

/-- The diagnostics on calls, from left to right. Parentheses are matched in the masked line, but
arguments are counted in `code`, where literals still show. A parenthesis that nothing closes ends
the check. -/
def callDiagnostics (checker : Checker) (line : Nat) (code : Text) :
    List (Nat × CallHead × Text) → List Diagnostic
  | [] => []
  | (column, head, rest) :: others =>
    let inside := column + head.length
    match splitParen? rest with
    | none => [{ line, column := inside - 1, endColumn := inside, finding := .openParenthesis }]
    | some (content, _) =>
      let others := checker.callDiagnostics line code others
      match checker.language.builtin? head.name with
      | none => others
      | some builtin =>
        let given := (splitArguments ((code.drop inside).take content.length)).length
        if checker.functions.contains head.name || given = builtin.arity then others
        else
          { line, column, endColumn := inside + content.length + 1,
            finding := .wrongArity head.name builtin.arity given } :: others

def checkCalls (checker : Checker) (line : Nat) (code masked : Text) (scopes : Scopes) : Scopes :=
  scopes.report (checker.callDiagnostics line code (callsFrom anyCallee none 0 masked))

/-- The line opens a conditional block or a loop without a variable. -/
def opensBlock (stripped : Text) : Bool :=
  (dropWholeWord? "si" stripped).isSome || (Statement.afterTantQue? stripped).isSome

/-- The variable of a loop and the text after it. -/
def loopVariable? (stripped : Text) : Option (Text × Text) :=
  ((dropWord? "pour".toList stripped).bind dropBlanks?).bind identifier?

/-- The parameters that a function header declares. -/
def parametersOf (stripped : Text) : List Text :=
  ((Signature.header? stripped).map fun (_, text) =>
    (Signature.parameters? text).map (·.name)).getD []

/-- Checks an assignment: its value, then its target is declared, then what else stands on the
left. -/
def checkAssignment (checker : Checker) (line : Nat) (masked : Text) (arrow : Nat)
    (scopes : Scopes) : Scopes :=
  let scopes := checker.checkWords line masked (arrow + 1) masked.length scopes
  match (wordsBetween masked 0 arrow).head? with
  | none => scopes
  | some (column, name) =>
    checker.checkWords line masked (column + name.length) arrow (scopes.declare [name])

/-- Checks a line with its comments taken off. -/
def checkLine (checker : Checker) (line : Nat) (code : Text) (scopes : Scopes) : Scopes :=
  let masked := maskFields (maskStrings code)
  let stripped := trim masked
  let offset := (indentation masked).length
  let statement := Statement.ofLine checker.language stripped
  if scopes.inHeader then
    { scopes with
      inHeader :=
        !(statement.kind = .blockClose && (dropWholeWord? "fin" stripped).isSome) }
  else
    let checked := checker.checkCalls line code masked scopes
    match statement with
    | .blank | .lexique | .typeDeclaration => scopes
    | .algorithmHeader => { scopes with inHeader := true }
    | .functionHeader => scopes.push (parametersOf stripped) true
    | .sectionMarker =>
      if scopes.pending then { scopes with pending := false } else scopes.push [] false
    | .blockClose _ => scopes.pop
    | .variableDeclaration names => scopes.declare names
    | .arrayDeclaration name _ dimensions place =>
      checker.checkWords line masked (offset + place) (offset + place + dimensions.length)
        (checked.declare [name])
    | .forEach _ _ place =>
      let names := ((loopVariable? stripped).map (·.1)).toList
      checker.checkWords line masked (offset + place) masked.length (checked.push names false)
    | .counted =>
      match loopVariable? stripped with
      | some (name, rest) =>
        checker.checkWords line masked (offset + (stripped.length - rest.length)) masked.length
          (checked.push [name] false)
      | none => checker.checkWords line masked offset masked.length (checked.push [] false)
    | _ =>
      let entered := if opensBlock stripped then checked.push [] false else checked
      let arrow := masked.idxOf '←'
      if (statement.kind = .assignment || statement.kind = .read) && arrow < masked.length then
        checker.checkAssignment line masked arrow entered
      else checker.checkWords line masked 0 masked.length entered

/-- Checks lines in order, counting from `line`. -/
def checkFrom (checker : Checker) (line : Nat) (inComment : Bool) (scopes : Scopes) :
    List Text → Scopes
  | [] => scopes
  | raw :: rest =>
    let split := splitLine inComment raw
    checker.checkFrom (line + 1) split.inBlock (checker.checkLine line split.code scopes) rest

/-- The diagnostics of a source in report order. A block that is still open at the end is
reported on the last line. -/
def diagnostics (checker : Checker) (source : Text) : List Diagnostic :=
  let lines := lines source
  let scopes := checker.checkFrom 0 false {} lines
  if scopes.inner.isEmpty then scopes.diagnostics
  else scopes.diagnostics ++
    [{ line := lines.length - 1, column := 0, endColumn := 0, finding := .openBlock }]

end Checker

/-- Checks a source. -/
def check (language : Language) (source : Text) : Outcome (List Diagnostic) :=
  let signatures := Signatures.collect source
  let records := Records.collect language source
  let checker : Checker := { language, functions := signatures.names, records := records.names }
  let found := checker.diagnostics source
  { result := found
    notices := [.collectedSignatures signatures.names, .collectedRecords records.length,
      .checked found.length] }

end Pseudocode
