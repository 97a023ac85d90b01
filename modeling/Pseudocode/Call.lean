import Pseudocode.Bracket
import Pseudocode.Identifier
import Pseudocode.Conversion

namespace Pseudocode

/-- The head of a call as it is written: the name and the blanks before the parenthesis. -/
structure CallHead where
  name : Text
  gap : Text
  deriving DecidableEq, Repr

def CallHead.length (head : CallHead) : Nat :=
  head.name.length + head.gap.length + 1

def CallHead.written (head : CallHead) : Text :=
  head.name ++ head.gap ++ ['(']

/-- Recognises the name of a call at the start of a text. -/
abbrev Callee := Text → Option CallHead

/-- The head of a call whose name is the first `length` characters of the text. -/
def headAt? (length : Nat) (text : Text) : Option CallHead :=
  let rest := text.drop length
  match trimLeft rest with
  | '(' :: _ => some { name := text.take length, gap := indentation rest }
  | _ => none

/-- Any identifier before a parenthesis. -/
def anyCallee : Callee := fun text =>
  (identifier? text).bind fun (name, _) => headAt? name.length text

/-- The first of several names, in any letter case, that stands before a parenthesis. -/
def namedCallee (names : List Text) : Callee := fun text =>
  names.findSome? fun name => (dropWord? name text).bind fun _ => headAt? name.length text

/-- Longer names come first, so that a name is not taken for a shorter one that starts it. -/
def longestFirst (names : List Text) : List Text :=
  names.mergeSort fun a b => b.length ≤ a.length

/-- The head of a call at a place where a name can start. -/
def callAt? (callee : Callee) (before : Option Char) (text : Text) : Option CallHead :=
  if atNameStart before then callee text else none

/-- The heads of calls in the text that follows `before`, each with its place and with the text
after its parenthesis. -/
def callsFrom (callee : Callee) (before : Option Char) (place : Nat) :
    Text → List (Nat × CallHead × Text)
  | [] => []
  | c :: rest =>
    let others := callsFrom callee (some c) (place + 1) rest
    match callAt? callee before (c :: rest) with
    | some head => (place, head, (c :: rest).drop head.length) :: others
    | none => others

/-- Converts the calls that `callee` recognises in the text that follows `before`, arguments
first. `build` gets the name and the converted arguments. A parenthesis that nothing closes ends
the conversion, after `onOpen` has been told of it. -/
def convertCalls (callee : Callee) (onOpen : Text → Notice)
    (build : CallHead → Text → Conversion Text) (before : Option Char) (text : Text) :
    Conversion Text :=
  match text with
  | [] => return []
  | c :: rest =>
    match callAt? callee before (c :: rest) with
    | none => return c :: (← convertCalls callee onOpen build (some c) rest)
    | some head =>
      match found : splitParen? ((c :: rest).drop head.length) with
      | none => do
        Conversion.notify (onOpen head.name)
        return c :: rest
      | some (inside, after) => do
        have ⟨_, _⟩ := splitParen?_drop_length found
        let arguments ← convertCalls callee onOpen build none inside
        let replacement ← build head arguments
        return replacement ++ (← convertCalls callee onOpen build (some ')') after)
termination_by text.length
decreasing_by all_goals simp only [List.length_cons] at *; omega

/-- A call put together again. -/
def CallHead.apply (head : CallHead) (arguments : Text) : Text :=
  head.written ++ arguments ++ [')']

end Pseudocode
