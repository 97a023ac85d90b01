import Pseudocode.Conversion
import Pseudocode.Expression.List

namespace Pseudocode

namespace Index

/-- A bracket after one of these Lua words opens an array. -/
def luaWords : List Text :=
  ["and", "or", "not", "return", "in", "do", "then", "else", "elseif", "if", "while",
    "until"].map (·.toList)

/-- A bracket opens an index after an operand. `written` is the text before it, read backwards. -/
def isPosition (written : Text) : Bool :=
  let written := trimLeft written
  match written with
  | [] => false
  | c :: _ =>
    if c = ')' || c = ']' then true
    else if isWordChar c then
      let word := (written.takeWhile isWordChar).reverse.dropWhile (!startsIdentifier ·)
      !luaWords.contains word
    else false

/-- One index in brackets. Lua counts from one, but a string is a key. -/
def bracketed (store : Store) (index : Text) : Text :=
  if Placeholder.isPlaceholder index && store.startsWithLiteral index then
    '[' :: index ++ [']']
  else "[(".toList ++ index ++ ") + 1]".toList

/-- The brackets of an access with the given inside. -/
def access (store : Store) (inside : Text) : Text :=
  match splitArguments inside with
  | [] => ['[', ']']
  | indices => indices.flatMap (bracketed store)

/-- Indices get brackets of their own that count from one, and other brackets become tables, inner
ones first. `written` is what has been written so far, read backwards. A bracket that nothing
closes ends the conversion. -/
def convertFrom (written : Text) (text : Text) : Conversion Text :=
  match text with
  | [] => return []
  | c :: rest =>
    if c = '[' then
      match found : splitClose? '[' ']' 0 rest with
      | none => do
        Conversion.notify .openIndex
        return c :: rest
      | some (inside, after) => do
        have := splitClose?_length found
        let inside ← convertFrom [] inside
        let store := (← get).store
        let group :=
          if isPosition written then access store inside else ListLiteral.braced inside
        return group ++ (← convertFrom (group.reverse ++ written) after)
    else return c :: (← convertFrom (c :: written) rest)
termination_by text.length
decreasing_by all_goals simp only [List.length_cons] at *; omega

def convert (text : Text) : Conversion Text :=
  convertFrom [] text

end Index

end Pseudocode
