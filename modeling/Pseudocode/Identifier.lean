import Pseudocode.Text.Blank
import Pseudocode.Text.CaseKey
import Pseudocode.Text.Digit
import Pseudocode.Text.Substitute
import Pseudocode.Text.Word

namespace Pseudocode

/-- An identifier starts with any word character but a decimal digit. -/
def startsIdentifier (c : Char) : Bool :=
  isWordChar c && !isDigit c

/-- The identifier at the start of a text and what follows it. -/
def identifier? : Text → Option (Text × Text)
  | [] => none
  | c :: rest =>
    if startsIdentifier c then some (c :: rest.takeWhile isWordChar, rest.dropWhile isWordChar)
    else none

/-- Nothing but an identifier; one line feed may follow it. -/
def isIdentifier (text : Text) : Bool :=
  match identifier? text with
  | some (_, []) => true
  | some (_, ['\n']) => true
  | _ => false

/-- No word goes on at the start of the text. -/
def atWordEnd : Text → Bool
  | [] => true
  | c :: _ => !isWordChar c

/-- No word reaches up to the place after `before`. -/
def atWordStart (before : Option Char) : Bool :=
  !before.any isWordChar

/-- Neither a word nor a field access reaches up to the place after `before`. -/
def atNameStart (before : Option Char) : Bool :=
  atWordStart before && before != some '.'

/-- The text after `word` as a whole word in any letter case. -/
def dropWholeWord? (word : String) (text : Text) : Option Text :=
  (dropWord? word.toList text).filter atWordEnd

/-- The text after one of several spellings of a word, the first that fits. -/
def dropAnyWord? (words : List String) (text : Text) : Option Text :=
  words.findSome? fun word => dropWord? word.toList text

/-- The text after one of several spellings of a whole word. -/
def dropAnyWholeWord? (words : List String) (text : Text) : Option Text :=
  words.findSome? fun word => dropWholeWord? word text

/-- The text after two words with blanks between them. -/
def dropTwoWords? (first second : String) (text : Text) : Option Text := do
  let rest ← dropBlanks? (← dropWord? first.toList text)
  dropWord? second.toList rest

/-- Replaces a whole word of any letter case that is no field name. -/
def wordReplacer (old new : Text) : Replacer := fun before text =>
  if atNameStart before then
    ((dropWord? old text).filter atWordEnd).map fun _ => (old.length, new)
  else none

/-- The words in the text that follows `before`, each with the place of its first character,
where `place` is that of the text. A word that starts with a digit is a number. -/
def wordsFrom (before : Option Char) (place : Nat) : Text → List (Nat × Text)
  | [] => []
  | c :: rest =>
    let others := wordsFrom (some c) (place + 1) rest
    if atWordStart before && startsIdentifier c then
      (place, c :: rest.takeWhile isWordChar) :: others
    else others

end Pseudocode
