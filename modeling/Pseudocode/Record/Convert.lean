import Pseudocode.Argument
import Pseudocode.Call
import Pseudocode.Record.Declaration

namespace Pseudocode

namespace Records

/-- The table of a constructor call. Missing arguments are `nil`. -/
def constructed (type : RecordType) (arguments : List Text) : List Entry :=
  (List.range type.fields.length).zip type.fieldNames |>.map fun (i, name) =>
    { name := some name, value := arguments[i]?.getD "nil".toList }

/-- Constructor calls become placeholders of tables, inner calls first. -/
def convertConstructors (records : Records) (text : Text) : Conversion Text :=
  if records.isEmpty then return text
  else
    convertCalls (namedCallee (longestFirst (records.map (·.2.name)))) .openConstructor
      (fun head arguments => do
        match records.get? head.name with
        | some type => Conversion.hold (.table (constructed type (splitArguments arguments)))
        | none => throw .unlistedRecord)
      none text

/-- A `<` after an operand is a comparison. `before` is the text on its left, where a placeholder
stands for an operand too. -/
def opensLiteral (before : Text) : Bool :=
  match (trimRight before).getLast? with
  | none => true
  | some c => !(isAlphanumeric c || c = '_' || c = ')' || c = ']' || c = Placeholder.closing)

/-- A word right before a parenthesis starts the text. -/
def startsWithCall (text : Text) : Bool :=
  match text.dropWhile isWordChar with
  | rest => rest.length < text.length && (trimLeft rest).head? = some '('

/-- The content of angle brackets is that of a record: several values, or one that a string, a
brace, a call or a placeholder starts. -/
def looksStructural (store : Store) (content : Text) : Bool :=
  match content with
  | [] => false
  | c :: _ =>
    content.contains ',' || c = '"' || c = '\'' || c = '\x7b' || store.startsWithLiteral content ||
      startsWithCall content || Placeholder.isPlaceholder content

/-- The table of an angle-bracket literal: of the first type with as many fields, or by
position. -/
def literalTable (records : Records) (content : Text) : List Entry :=
  let arguments := splitArguments content
  match records.withFields? arguments.length with
  | some type => type.fieldNames.zip arguments |>.map fun (name, value) => { name := some name, value }
  | none => arguments.map fun value => { name := none, value }

/-- The content of angle brackets that open just before the text and hold no others, and the
text after them. -/
def angleContent? (text : Text) : Option (Text × Text) :=
  let isInside (c : Char) := c ≠ '<' && c ≠ '>'
  match text.dropWhile isInside with
  | '>' :: after => some (text.takeWhile isInside, after)
  | _ => none

/-- The first angle-bracket literal in a text: the text before it, its trimmed content and the
text after it. `before` is what precedes the searched text, read backwards. -/
def firstLiteral? (store : Store) (before : Text) : Text → Option (Text × Text × Text)
  | [] => none
  | c :: rest =>
    let found : Option (Text × Text × Text) :=
      if c = '<' then
        (angleContent? rest).bind fun (content, after) =>
          if opensLiteral before.reverse && looksStructural store (trim content) then
            some (before.reverse, trim content, after)
          else none
      else none
    found <|> firstLiteral? store (c :: before) rest

/-- Angle-bracket literals become placeholders of tables, one after the other from the left,
until none is left. Each takes a `<` away, so there are at most `rounds` of them. -/
def convertLiteralsWithin (records : Records) : (rounds : Nat) → Text → Conversion Text
  | 0, text => return text
  | rounds + 1, text => do
    match firstLiteral? (← get).store [] text with
    | none => return text
    | some (before, content, after) =>
      let placeholder ← Conversion.hold (.table (records.literalTable content))
      records.convertLiteralsWithin rounds (before ++ placeholder ++ after)

def convertLiterals (records : Records) (text : Text) : Conversion Text :=
  records.convertLiteralsWithin (text.count '<') text

/-- Constructor calls first, then the angle-bracket literals that are left. -/
def convert (records : Records) (text : Text) : Conversion Text := do
  records.convertLiterals (← records.convertConstructors text)

end Records

end Pseudocode
