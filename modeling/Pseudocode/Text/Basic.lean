namespace Pseudocode

/-- Source text, Lua text and names are all handled as characters in order. -/
abbrev Text := List Char

/-- Puts a character in front of the first of several pieces. -/
def consHead (c : Char) : List Text → List Text
  | [] => [[c]]
  | piece :: pieces => (c :: piece) :: pieces

/-- The pieces of a text between the occurrences of `mark`, at least one. -/
def splitAt (mark : Char) : Text → List Text
  | [] => [[]]
  | c :: rest => if c = mark then [] :: splitAt mark rest else consHead c (splitAt mark rest)

/-- The texts in order with `separator` between neighbours. -/
def joinWith (separator : String) (texts : List Text) : Text :=
  List.intercalate separator.toList texts

def commaSeparated (texts : List Text) : Text :=
  joinWith ", " texts

/-- The text before the first `mark` and the text after it. -/
def cutAt? (mark : Char) : Text → Option (Text × Text)
  | [] => none
  | c :: rest =>
    if c = mark then some ([], rest)
    else (cutAt? mark rest).map fun (before, after) => (c :: before, after)

/-- The text without the longest end on which `drop` holds throughout. -/
def dropEndWhile (drop : Char → Bool) (text : Text) : Text :=
  (text.reverse.dropWhile drop).reverse

/-- The longest end of the text on which `keep` holds throughout. -/
def takeEndWhile (keep : Char → Bool) (text : Text) : Text :=
  (text.reverse.takeWhile keep).reverse

/-- The first text does not come after the second in the order of their characters. -/
def inOrder : Text → Text → Bool
  | [], _ => true
  | _ :: _, [] => false
  | a :: as, b :: bs => if a = b then inOrder as bs else a.toNat < b.toNat

/-- Binds names to values in the order of their first mention; a later value replaces an earlier
one in its place. -/
def assign {κ α : Type} [DecidableEq κ] (key : κ) (value : α) : List (κ × α) → List (κ × α)
  | [] => [(key, value)]
  | (other, old) :: rest =>
    if other = key then (key, value) :: rest else (other, old) :: assign key value rest

end Pseudocode
