import Pseudocode.Program.Array
import Pseudocode.Program.Frame

namespace Pseudocode

/-- What one statement comes to: the Lua lines it emits and the blocks that are open after it. -/
structure Effect where
  lines : List Text
  frames : List Frame
  deriving DecidableEq, Repr

namespace Context

/-- The first call in a text that writes variables back, with those variables. -/
def inOutCall? (context : Context) : List (Nat × CallHead × Text) →
    Conversion (Option (Signature × List Text))
  | [] => return none
  | (_, head, rest) :: others =>
    match context.signatures.get? head.name with
    | none => context.inOutCall? others
    | some signature =>
      if signature.inOutNames.isEmpty then context.inOutCall? others
      else match splitParen? rest with
        | none => do
          Conversion.notify (.openInOutCall signature.name)
          return none
        | some (inside, _) =>
          match context.signatures.writtenBack signature.name (splitArguments inside) with
          | [] => context.inOutCall? others
          | targets => return some (signature, targets)

/-- The calls of a text from left to right. -/
def calls (text : Text) : List (Nat × CallHead × Text) :=
  callsFrom anyCallee none 0 text

/-- The first argument of a statement that is one call of a mutator. -/
def mutated? (context : Context) (line : Text) : Option Text := do
  let head ← callAt? anyCallee none line
  let builtin ← context.language.builtin? head.name
  if context.declares head.name || !builtin.mutates then none
  else match splitParen? (line.drop head.length) with
    | some (inside, []) => (splitArguments inside).head?
    | _ => none

/-- An assignment in Lua. -/
def assignment (context : Context) (targets : List Text) (value : Text) : Conversion Text := do
  let left ← finish (commaSeparated targets)
  let right ← context.expression {} value
  return left ++ " = ".toList ++ right

/-- The line of an assignment. Variables that a call on the right writes back are assigned too. -/
def assignmentLine (context : Context) (line : Text) : Conversion Text := do
  let (target, value) := (cutAt? '←' line).getD (line, [])
  let target := trim target
  let value := trim value
  let written := ((← context.inOutCall? (calls value)).map (·.2)).getD []
  context.assignment (target :: written.filter (· ≠ target)) value

/-- The line of a statement that is an expression. What a call hands back is assigned, its value
aside, and so is what a mutator changes. -/
def expressionLine (context : Context) (line : Text) : Conversion Text := do
  match ← context.inOutCall? (calls line) with
  | some (signature, targets) =>
    context.assignment (if signature.returnsValue then ['_'] :: targets else targets) line
  | none =>
    match context.mutated? line with
    | some target => context.assignment [target] line
    | none => finish (← context.value { comparison := false } line)

/-- The line that writes values out. What follows the closing parenthesis stays. -/
def writeLine (context : Context) (line : Text) : Conversion Text := do
  let (_, rest) := (cutAt? '(' line).getD (line, [])
  let (inside, after) ← match splitParen? rest with
    | some split => pure split
    | none => do
      Conversion.notify (.openWrite (← Conversion.restore line))
      pure (rest, [])
  let values ← context.expression {} inside
  let after ← Conversion.restore after
  return "__psc_write(".toList ++ values ++ ')' :: after

/-- The line of a counted loop. A header of another form is taken for an expression. -/
def countedLine (context : Context) (line : Text) : Conversion Text := do
  let header := CountedLoop.withoutDirection line
  match CountedLoop.ofLine? header with
  | none =>
    Conversion.notify (.unclearLoopHeader (← Conversion.restore line))
    context.expression { comparison := false } header
  | some loop =>
    let start ← context.expression { afterKeyword := true } loop.start
    let stop ← context.expression { afterKeyword := true } loop.stop
    let step := if CountedLoop.isDownward line then "-1" else "1"
    return "for ".toList ++ loop.counter ++ " = ".toList ++
      commaSeparated [start, stop, step.toList] ++ " do".toList

/-- The line of a return, with the `InOut` parameters of its function after the value. -/
def returnLine (context : Context) (current : Option Signature) (value : Text) :
    Conversion Text := do
  let written ← if value.isEmpty then pure [] else do
    pure [← context.expression {} value]
  let values := match current with
    | none => written
    | some signature =>
      if signature.inOutNames.isEmpty then written
      else if written.isEmpty then Frame.implicitValues signature
      else written ++ signature.inOutNames
  return if values.isEmpty then "return".toList
    else "return ".toList ++ commaSeparated values

/-- The name in the header of a function, whether or not its parameters can be read. -/
def headerName? (line : Text) : Option Text :=
  match Signature.header? line with
  | some (name, _) => some name
  | none =>
    ((dropWord? "fonction".toList line).bind dropBlanks?).bind fun rest =>
      (identifier? rest).map (·.1)

/-- The signature that the header of a function opens. -/
def headerSignature? (context : Context) (line : Text) : Option Signature :=
  (headerName? line).map fun name => (context.signatures.get? name).getD { name }

def headerLine (context : Context) (line : Text) : Conversion Text := do
  match context.headerSignature? line with
  | some signature =>
    return "function ".toList ++ signature.name ++ '(' ::
      commaSeparated signature.parameterNames ++ [')']
  | none =>
    let restored ← Conversion.restore line
    Conversion.notify (.unclearFunctionHeader restored)
    return restored

/-- Types whose values are read as they are, and not as numbers. -/
def stringTypes : List Text :=
  ["chaîne".toList, "caractère".toList]

def readLine (context : Context) (target : Text) : Text :=
  let isString := (context.hints.lookup target).any stringTypes.contains
  target ++ (if isString then " = __psc_lire_chaine()" else " = __psc_lire()").toList

def conditionLine (context : Context) (before : String) (condition : Text) (after : String) :
    Conversion Text := do
  let condition ← context.expression { afterKeyword := true } condition
  return before.toList ++ condition ++ after.toList

/-- The effect of a statement, where `line` is the line it was read from with its literals held
back, `frames` the open blocks from the innermost on, and `lastCode` the last code emitted. -/
def effect (context : Context) (statement : Statement) (line : Text) (frames : List Frame)
    (lastCode : Text) : Conversion Effect := do
  let emits (code : Text) (frames : List Frame) : Effect := { lines := [code], frames }
  match statement with
  | .blank | .algorithmHeader | .lexique | .typeDeclaration | .variableDeclaration _ =>
    return { lines := [], frames }
  | .sectionMarker => return { lines := [], frames := Frame.begin frames }
  | .arrayDeclaration name element dimensions _ =>
    return { lines := ← context.arrayLines name element dimensions, frames }
  | .blockClose closed =>
    (Frame.closeNotices closed line frames).forM Conversion.notify
    let (lines, frames) := Frame.close context.layout lastCode closed frames
    return { lines, frames }
  | .read target => return emits (context.readLine target) frames
  | .functionHeader =>
    return emits (← context.headerLine line)
      (.function (context.headerSignature? line) false :: frames)
  | .forEach item collection _ =>
    let before := "for ".toList ++ item ++ ", _ in pairs(".toList
    let collection ← context.expression {} collection
    return emits (before ++ collection ++ "._data) do".toList) (.control .pour :: frames)
  | .counted => return emits (← context.countedLine line) (.control .pour :: frames)
  | .whileLoop condition =>
    return emits (← context.conditionLine "while " condition " do") (.control .tantQue :: frames)
  | .ifThen condition =>
    return emits (← context.conditionLine "if " condition " then") (.control .si :: frames)
  | .elseIf condition => return emits (← context.conditionLine "elseif " condition " then") frames
  | .elseBranch => return emits "else".toList frames
  | .giveBack value =>
    return emits (← context.returnLine (Frame.currentFunction? frames) value) frames
  | .write => return emits (← context.writeLine line) frames
  | .assignment => return emits (← context.assignmentLine line) frames
  | .expression => return emits (← context.expressionLine line) frames

end Context

end Pseudocode
