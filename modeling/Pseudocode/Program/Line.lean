import Pseudocode.Comment
import Pseudocode.Program.Statement

namespace Pseudocode

/-- How far the lines of a source have been converted: the open blocks from the innermost on,
what the next line stands in, the last code emitted, and the output and notices so far. -/
structure Progress where
  frames : List Frame := []
  inHeader : Bool := false
  inLexique : Bool := false
  inComment : Bool := false
  lastCode : Text := []
  output : Array Text := #[]
  notices : Array Notice := #[]
  deriving DecidableEq, Repr

/-- Work on the lines of a source. What was done before a fault is kept. -/
abbrev Processing := ExceptT Fault (StateM Progress)

/-- Curly quotes are read as straight ones. -/
def straightQuotes (line : Text) : Text :=
  line.map fun c => if c = '“' ∨ c = '”' then '"' else c

/-- A comment in Lua. A space keeps a bracket from opening a long comment. -/
def Layout.comment (layout : Layout) (body : Text) : Text :=
  if body.head? = some '[' then layout.commentMark ++ ' ' :: body else layout.commentMark ++ body

/-- The lines that code and a comment come to. The comment goes after the last code, or on a line
of its own; an empty one is left out. -/
def layLines (indent : Text) (comment : Option Text) : List Text → List Text
  | [] =>
    match comment with
    | some (c :: body) => [indent ++ c :: body]
    | _ => []
  | [code] =>
    match comment with
    | some (c :: body) => [indent ++ code ++ ' ' :: c :: body]
    | _ => [indent ++ code]
  | code :: rest => (indent ++ code) :: layLines indent comment rest

namespace Progress

/-- Adds the lines of a statement to the output. -/
def emit (progress : Progress) (indent : Text) (code : List Text) (comment : Option Text) :
    Progress :=
  { progress with
    output := progress.output ++ (layLines indent comment code).toArray
    lastCode := match code.getLast? with
      | some last => trim last
      | none => progress.lastCode }

end Progress

namespace Context

/-- The end of an algorithm header, which a closer spelled with `fin` makes. -/
def endsHeader (context : Context) (code : Text) : Bool :=
  (Statement.ofLine context.language code).kind = .blockClose &&
    "fin".toList.isPrefixOf (lower code)

/-- The kinds of line that end a list of declarations. -/
def endsLexique (kind : LineKind) : Bool :=
  kind = .sectionMarker || kind = .functionHeader || kind = .algorithmHeader

/-- Runs the conversion of a line on a fresh store and keeps its notices. -/
def converting {α : Type} (conversion : Conversion α) : Processing α := fun progress =>
  let (result, desk) := conversion.run.run { notices := progress.notices }
  (result, { progress with notices := desk.notices })

/-- Reads one line of code as a statement, and converts it unless declarations are passed over. -/
def convertCode (context : Context) (number : Nat) (progress : Progress) (code : Text) :
    Conversion (Statement × Option Effect) := do
  let masked ← Conversion.mask code
  let statement := Statement.ofLine context.language masked
  Conversion.notify (.lineRead number statement.kind)
  if progress.inLexique && !endsLexique statement.kind then return (statement, none)
  else return (statement, some (← context.effect statement masked progress.frames progress.lastCode))

/-- Converts a line of the source. Lines of an algorithm header are passed over. -/
def processLine (context : Context) (number : Nat) (raw : Text) : Processing Unit := do
  let line := straightQuotes raw
  let progress ← get
  let split := splitLine progress.inComment line
  let code := trim split.code
  modify fun progress => { progress with inComment := split.inBlock }
  if progress.inHeader then
    if context.endsHeader code then modify fun progress => { progress with inHeader := false }
  else
    match ← converting (context.convertCode number progress code) with
    | (_, none) => return
    | (statement, some effect) =>
      let comment := split.comment.map context.layout.comment
      modify fun progress =>
        let next : Progress := { progress with
          frames := effect.frames
          inHeader := statement.kind = .algorithmHeader
          inLexique := statement.kind = .lexique }
        next.emit (indentation line) effect.lines comment

/-- Converts lines in order, counting from `number`. -/
def processFrom (context : Context) (number : Nat) : List Text → Processing Unit
  | [] => return
  | line :: rest => do
    context.processLine number line
    context.processFrom (number + 1) rest

/-- Converts a source and gives its Lua statements. -/
def processSource (context : Context) (source : Text) : Processing Text := do
  context.processFrom 1 (lines source)
  let progress ← get
  if !progress.frames.isEmpty then
    set { progress with notices := progress.notices.push (.blocksLeftOpen progress.frames.length) }
  return unlines progress.output.toList

end Context

end Pseudocode
