import Pseudocode.Identifier

namespace Pseudocode

/-- Blanks out a double-quoted literal, which runs to the next double quote. -/
def blankDoubleQuoted : Replacer
  | _, '"' :: rest =>
    let body := rest.takeWhile (· ≠ '"')
    if body.length < rest.length then some (body.length + 2, blanks (body.length + 2)) else none
  | _, _ => none

/-- Blanks out a quoted character, which may be escaped by a backslash. -/
def blankSingleQuoted : Replacer
  | _, '\'' :: '\\' :: c :: '\'' :: _ => if c = '\n' then none else some (4, blanks 4)
  | _, '\'' :: c :: '\'' :: _ => if c = '\\' ∨ c = '\'' then none else some (3, blanks 3)
  | _, _ => none

/-- String and character literals become blanks of the same length. -/
def maskStrings (text : Text) : Text :=
  substitute blankSingleQuoted (substitute blankDoubleQuoted text)

/-- Blanks out a dot and the field name after it. -/
def blankField : Replacer
  | _, '.' :: rest =>
    (identifier? rest).map fun (name, _) => (name.length + 1, blanks (name.length + 1))
  | _, _ => none

/-- Blanks out the first field after a name, and keeps the name. -/
def blankNamedField : Replacer := fun _ text =>
  match identifier? text with
  | some (base, after) =>
    (blankField none after).map fun (length, blank) => (base.length + length, base ++ blank)
  | none => none

/-- Blanks out the first field after a closing bracket. -/
def blankIndexedField : Replacer
  | _, ']' :: rest =>
    (blankField none rest).map fun (length, blank) => (length + 1, ']' :: blank)
  | _, _ => none

/-- One round of field masking: after names, after brackets, then wherever a field is left. -/
def maskFieldsOnce (text : Text) : Text :=
  substitute blankField (substitute blankIndexedField (substitute blankNamedField text))

/-- Rounds of field masking until nothing changes, at most `limit`. -/
def maskFieldsWithin : (limit : Nat) → Text → Text
  | 0, text => text
  | limit + 1, text =>
    let masked := maskFieldsOnce text
    if masked = text then text else maskFieldsWithin limit masked

/-- The number of rounds after which field masking gives up. -/
def maskRoundLimit : Nat := 64

/-- Field names become blanks of the same length, so that only the variables they belong to
stay visible. -/
def maskFields (text : Text) : Text :=
  maskFieldsWithin maskRoundLimit text

end Pseudocode
