import Pseudocode.Argument
import Pseudocode.Bracket
import Pseudocode.Record.Declaration
import Pseudocode.Statement.Kind

namespace Pseudocode

/-- A line read as a statement, with the parts that its form sets apart. -/
inductive Statement where
  | blank
  | algorithmHeader
  | lexique
  | sectionMarker
  | typeDeclaration
  | variableDeclaration (names : List Text)
  /-- The dimensions stand at `place` in the line. -/
  | arrayDeclaration (name element dimensions : Text) (place : Nat)
  | blockClose (closed : Option BlockKeyword)
  | read (target : Text)
  | functionHeader
  /-- The collection stands at `place` in the line. -/
  | forEach (item collection : Text) (place : Nat)
  | counted
  | whileLoop (condition : Text)
  | elseIf (condition : Text)
  | ifThen (condition : Text)
  | elseBranch
  | giveBack (value : Text)
  | write
  | assignment
  | expression
  deriving DecidableEq, Repr

namespace Statement

def kind : Statement → LineKind
  | blank => .blank
  | algorithmHeader => .algorithmHeader
  | lexique => .lexique
  | sectionMarker => .sectionMarker
  | typeDeclaration => .typeDeclaration
  | variableDeclaration _ => .variableDeclaration
  | arrayDeclaration .. => .arrayDeclaration
  | blockClose _ => .blockClose
  | read _ => .read
  | functionHeader => .functionHeader
  | forEach .. => .forEach
  | counted => .counted
  | whileLoop _ => .whileLoop
  | elseIf _ => .elseIf
  | ifThen _ => .ifThen
  | elseBranch => .elseBranch
  | giveBack _ => .giveBack
  | write => .write
  | assignment => .assignment
  | expression => .expression

/-- Nothing but blanks and leftovers of comment marks. -/
def isBlankLine (line : Text) : Bool :=
  line.all fun c => c = '/' || c = '*' || isBlank c

/-- What follows on the line runs to its end; one line feed may close it. -/
def endsLine (text : Text) : Bool :=
  match text.dropWhile (· ≠ '\n') with
  | [] => true
  | ['\n'] => true
  | _ => false

/-- Identifiers between commas, a colon and something after it. The first name is no keyword. -/
def declaredNames? (language : Language) (line : Text) : Option (List Text) :=
  let isListed (c : Char) := isWordChar c || c = ',' || isBlank c
  let names := (splitAt ',' (line.takeWhile isListed)).map trim
  match line.dropWhile isListed, trimLeft ((line.dropWhile isListed).drop 1), names with
  | ':' :: _, _ :: rest, first :: _ =>
    if names.all isIdentifier && indentation line = [] && endsLine rest &&
        !language.keywordNames.contains (lower first)
    then some names else none
  | _, _, _ => none

/-- The text between an opening bracket, which stands just before it, and a closing one that
ends the line. -/
def closedByLine? (text : Text) : Option Text :=
  let trimmed := trimRight text
  match trimmed.getLast? with
  | some ']' =>
    let inside := trimmed.dropLast
    if inside.isEmpty || inside.contains '\n' then none else some inside
  | _ => none

/-- A name, an equals sign or arrow, the array keyword, a type and dimensions in brackets. -/
def array? (line : Text) : Option Statement := do
  let (name, rest) ← identifier? line
  let rest ← match trimLeft rest with
    | '=' :: rest => some rest
    | '←' :: rest => some rest
    | _ => none
  let rest ← dropBlanks? (← dropWord? "tableau".toList (trimLeft rest))
  let (element, rest) ← identifier? rest
  match trimLeft rest with
  | '[' :: rest =>
    (closedByLine? rest).map fun dimensions =>
      .arrayDeclaration name element dimensions (line.length - rest.length)
  | _ => none

/-- The block that a closer names. A bare `Fin` names none. -/
def closedBlock (line : Text) : Option BlockKeyword :=
  let isWhole (rest : Option Text) := rest.any atWordEnd
  let closes (short : String) := isWhole (dropWord? short.toList line)
  let ends (long : String) := isWhole (dropTwoWords? "fin" long line)
  let endsTantQue := ((dropTwoWords? "fin" "tant" line).bind fun rest =>
    dropWord? "que".toList (trimLeft rest)).any atWordEnd
  if closes "fsi" || ends "si" then some .si
  else if closes "fpour" || ends "pour" then some .pour
  else if closes "ftq" || closes "ftant" || endsTantQue || ends "tant" || ends "tq" then
    some .tantQue
  else none

def isCloser (line : Text) : Bool :=
  (dropAnyWholeWord? ["fin", "fsi", "fpour", "ftq", "ftant"] line).isSome

/-- The text after an empty pair of parentheses. -/
def dropEmptyCall? (text : Text) : Option Text :=
  match trimLeft text with
  | '(' :: rest =>
    match trimLeft rest with
    | ')' :: rest => some rest
    | _ => none
  | _ => none

/-- A variable that takes one value from the input. -/
def read? (line : Text) : Option Statement := do
  let (name, rest) ← identifier? line
  match trimLeft rest with
  | '←' :: rest =>
    let rest ← dropEmptyCall? (← dropWord? "lire".toList (trimLeft rest))
    if (trimLeft rest).isEmpty then some (.read name) else none
  | _ => none

/-- A run of characters that are not blank, and the text after it. -/
def solid? (text : Text) : Option (Text × Text) :=
  match text.takeWhile (!isBlank ·) with
  | [] => none
  | run => some (run, text.dropWhile (!isBlank ·))

/-- A loop over the elements of a collection. -/
def forEach? (line : Text) : Option Statement := do
  let rest ← dropBlanks? (← dropWord? "pour".toList line)
  let (item, rest) ← solid? rest
  let rest ← dropBlanks? (← dropWord? "de".toList (← dropBlanks? rest))
  let (collection, after) ← solid? rest
  let tail ← dropWord? "faire".toList (← dropBlanks? after)
  match trimLeft tail with
  | [] => some (.forEach item collection (line.length - rest.length))
  | [':'] => some (.forEach item collection (line.length - rest.length))
  | [':', '\n'] => some (.forEach item collection (line.length - rest.length))
  | _ => none

/-- The text before `word` in any letter case, if the text ends with it. -/
def beforeWord? (word : String) (text : Text) : Option Text :=
  let kept := text.length - word.length
  match dropWord? word.toList (text.drop kept) with
  | some [] => some (text.take kept)
  | _ => none

/-- The text without a word at its end that blanks set apart. -/
def dropLastWord? (word : String) (text : Text) : Option Text := do
  let before ← beforeWord? word text
  if before.getLast?.any isBlank then some (trimRight before) else none

/-- The text without a colon at its end. -/
def dropColon (text : Text) : Text :=
  match text.getLast? with
  | some ':' => text.dropLast
  | _ => text

/-- The condition in a header line: what stands between the keyword, blanks included, and the
closing word, a colon or the end. A header with nothing to set its keyword apart is taken whole. -/
def condition (closing : String) (line afterKeyword : Text) : Text :=
  match dropBlanks? afterKeyword with
  | none => line
  | some text =>
    let body := trimRight (dropColon (trimRight text))
    (dropLastWord? closing body).getD body

/-- The value after the keyword of a return. One pair of parentheses around a single value is
taken off. -/
def returned (afterKeyword : Text) : Text :=
  let value := trim afterKeyword
  match value with
  | '(' :: rest =>
    match splitParen? rest with
    | some (inside, []) => if (splitArguments inside).length ≤ 1 then trim inside else value
    | _ => value
  | _ => value

def afterTantQue? (line : Text) : Option Text :=
  (dropTwoWords? "tant" "que" line).filter atWordEnd

def afterSinonSi? (line : Text) : Option Text :=
  (dropTwoWords? "sinon" "si" line).filter atWordEnd

def afterReturn? (line : Text) : Option Text :=
  dropAnyWholeWord? ["retourner", "retourne"] line

def isWrite (line : Text) : Bool :=
  (dropAnyWord? ["écrire", "ecrire"] line).any fun rest => (trimLeft rest).head? = some '('

/-- Reads a line, stripped of comments and outer blanks, as a statement. The forms are tried in a
fixed order and the first that fits counts. -/
def ofLine (language : Language) (line : Text) : Statement :=
  if isBlankLine line then .blank
  else if (dropWholeWord? "algorithme" line).isSome then .algorithmHeader
  else if (dropWholeWord? "lexique" line).isSome then .lexique
  else if (dropAnyWholeWord? ["début", "debut"] line).isSome then .sectionMarker
  else if (RecordType.ofLine? language line).isSome then .typeDeclaration
  else if let some names := declaredNames? language line then .variableDeclaration names
  else if let some statement := array? line then statement
  else if isCloser line then .blockClose (closedBlock line)
  else if let some statement := read? line then statement
  else if ((dropWord? "fonction".toList line).bind dropBlanks?).isSome then .functionHeader
  else if let some statement := forEach? line then statement
  else if ((dropWord? "pour".toList line).bind dropBlanks?).isSome then .counted
  else if let some rest := afterTantQue? line then .whileLoop (condition "faire" line rest)
  else if let some rest := afterSinonSi? line then .elseIf (condition "alors" line rest)
  else if let some rest := dropWholeWord? "si" line then .ifThen (condition "alors" line rest)
  else if (dropWholeWord? "sinon" line).isSome then .elseBranch
  else if let some rest := afterReturn? line then .giveBack (returned rest)
  else if isWrite line then .write
  else if line.contains '←' then .assignment
  else .expression

end Statement

end Pseudocode
