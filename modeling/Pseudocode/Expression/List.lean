import Pseudocode.Argument
import Pseudocode.Bracket
import Pseudocode.Identifier
import Pseudocode.Placeholder

namespace Pseudocode

namespace ListLiteral

/-- A parenthesis after one of these may open a list. After a word it never does. -/
def isOpening (c : Char) : Bool :=
  "=,(;:[\x7b←→".toList.contains c

/-- A parenthesis may open a list after `last`, the last character before it that is not blank.
At the start of a text it may, unless a control keyword comes first. -/
def mayOpen (afterKeyword : Bool) : (last : Option Char) → Bool
  | none => !afterKeyword
  | some c => isOpening c

/-- Digits, perhaps with a decimal point or comma among them. -/
def isNumber (text : Text) : Bool :=
  let digits := text.takeWhile isDigit
  !digits.isEmpty && match text.dropWhile isDigit with
    | [] => true
    | ['\n'] => true
    | c :: rest =>
      (c = '.' || c = ',') && !(rest.takeWhile isDigit).isEmpty &&
        match rest.dropWhile isDigit with
        | [] => true
        | ['\n'] => true
        | _ => false

def builder : Text :=
  "__psc_liste_from_table".toList

/-- The text starts with a list that is already built. -/
def isBuilt (text : Text) : Bool :=
  builder.isPrefixOf text && (trimLeft (text.drop builder.length)).head? = some '('

/-- Several items make a list. A single one does if it is a name, a number, a placeholder, a list
or a table. -/
def isContent (inside : Text) : Bool :=
  match splitArguments inside with
  | [] => false
  | [item] =>
    isIdentifier item || isNumber item || Placeholder.isPlaceholder item || isBuilt item ||
      (item.head? = some '\x7b' && item.getLast? = some '\x7d')
  | _ => true

/-- A table with the given content. -/
def braced (content : Text) : Text :=
  '\x7b' :: content ++ ['\x7d']

/-- The call that builds a list from the items of a table. -/
def build (content : Text) : Text :=
  builder ++ '(' :: braced content ++ [')']

/-- Parenthesised lists become calls that build them, inner ones first. A parenthesis that nothing
closes ends the conversion. -/
def convertFrom (afterKeyword : Bool) (last : Option Char) (text : Text) : Text :=
  match text with
  | [] => []
  | c :: rest =>
    if c = '(' then
      match found : splitParen? rest with
      | none => c :: rest
      | some (inside, after) =>
        have ⟨_, _⟩ := splitParen?_drop_length (n := 0) found
        let inside := convertFrom false none inside
        let group :=
          if mayOpen afterKeyword last && isContent inside then
            build (commaSeparated (splitArguments inside))
          else '(' :: inside ++ [')']
        group ++ convertFrom afterKeyword (some ')') after
    else c :: convertFrom afterKeyword (if isBlank c then last else some c) rest
termination_by text.length
decreasing_by all_goals simp only [List.length_cons] at *; omega

def convert (afterKeyword : Bool) (text : Text) : Text :=
  convertFrom afterKeyword none text

end ListLiteral

end Pseudocode
