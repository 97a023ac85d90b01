import Pseudocode.Text.Basic

namespace Pseudocode

/-- What may be replaced at a place of a text. Given the character before the place, if any, and
the text from the place on, it tells how many characters are replaced and by what. -/
abbrev Replacer := Option Char → Text → Option (Nat × Text)

/-- Replaces from left to right wherever `replacer` applies, first `skip` characters left out. A
replaced stretch is not looked into again. Where nothing is replaced by something, it is put in
before the character that follows. -/
def substituteFrom (replacer : Replacer) : Option Char → Nat → Text → Text
  | before, _, [] =>
    match replacer before [] with
    | some (_, new) => new
    | none => []
  | _, skip + 1, c :: rest => substituteFrom replacer (some c) skip rest
  | before, 0, c :: rest =>
    match replacer before (c :: rest) with
    | some (0, new) => new ++ c :: substituteFrom replacer (some c) 0 rest
    | some (n + 1, new) => new ++ substituteFrom replacer (some c) n rest
    | none => c :: substituteFrom replacer (some c) 0 rest

def substitute (replacer : Replacer) (text : Text) : Text :=
  substituteFrom replacer none 0 text

/-- Whether `replacer` applies anywhere in the text that follows `before`. -/
def occursFrom (replacer : Replacer) : Option Char → Text → Bool
  | before, [] => (replacer before []).isSome
  | before, c :: rest => (replacer before (c :: rest)).isSome || occursFrom replacer (some c) rest

def occurs (replacer : Replacer) (text : Text) : Bool :=
  occursFrom replacer none text

/-- Replaces the literal text `old` by `new`. -/
def literally (old new : Text) : Replacer := fun _ text =>
  if old.isPrefixOf text then some (old.length, new) else none

/-- Every occurrence of `old` becomes `new`; an empty `old` occurs between all characters and at
both ends. -/
def replaceAll (old new text : Text) : Text :=
  substitute (literally old new) text

def blanks (n : Nat) : Text :=
  List.replicate n ' '

end Pseudocode
