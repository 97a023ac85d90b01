import Pseudocode.Argument
import Pseudocode.Bracket
import Pseudocode.Identifier
import Pseudocode.Text.Lines

namespace Pseudocode

/-- A formal parameter. The argument for an `InOut` parameter is written back after a call. -/
structure Parameter where
  name : Text
  inOut : Bool := false
  deriving DecidableEq, Repr

/-- What the header of a function declares. -/
structure Signature where
  name : Text
  parameters : List Parameter := []
  returnsValue : Bool := false
  deriving DecidableEq, Repr

/-- The functions of a source by name, in the order of their first declaration. -/
abbrev Signatures := List (Text × Signature)

namespace Signature

def parameterNames (signature : Signature) : List Text :=
  signature.parameters.map (·.name)

/-- The parameters that every return of the function hands back, in order. -/
def inOutNames (signature : Signature) : List Text :=
  (signature.parameters.filter (·.inOut)).map (·.name)

/-- The text before the last occurrence of a character. -/
def beforeLast? (mark : Char) (text : Text) : Option Text :=
  match text.reverse.dropWhile (· ≠ mark) with
  | [] => none
  | _ :: before => some before.reverse

/-- The name in a header line and the text after its opening parenthesis. -/
def openHeader? (line : Text) : Option (Text × Text) := do
  let rest ← dropBlanks? (← dropWord? "fonction".toList (trimLeft line))
  let (name, rest) ← identifier? rest
  match trimLeft rest with
  | '(' :: inside => some (name, inside)
  | _ => none

/-- The name in a header line and the text of its parameters. They run to the last closing
parenthesis of the line, cut where a parenthesis closes that none of them opened. -/
def header? (line : Text) : Option (Text × Text) := do
  let (name, inside) ← openHeader? line
  let captured ← beforeLast? ')' (inside.takeWhile (· ≠ '\n'))
  some (name, cutUnbalanced 0 captured)

/-- A colon and something after it, on one line. -/
def isAnnotation (text : Text) : Bool :=
  match trimLeft text with
  | ':' :: rest => let type := trim rest; !type.isEmpty && !type.contains '\n'
  | _ => false

/-- The header ends with a colon and a return type. -/
def hasReturnType (line : Text) : Bool :=
  match header? line, openHeader? line with
  | some _, some (_, inside) => (splitParen? inside).any fun (_, after) => isAnnotation after
  | _, _ => false

/-- Takes out the modifier of a parameter that is handed back. -/
def inOutModifier : Replacer := fun before text =>
  if atWordStart before then (dropWholeWord? "inout" text).map fun _ => (5, []) else none

/-- One parameter: its name stands before the first colon, with or without the modifier. -/
def parameter? (part : Text) : Option Parameter :=
  let named := trim (part.takeWhile (· ≠ ':'))
  let name := trim (substitute inOutModifier named)
  if name.isEmpty then none else some { name, inOut := occurs inOutModifier named }

def parameters? (text : Text) : List Parameter :=
  (splitArguments (cutUnbalanced 0 text)).filterMap parameter?

/-- The signature that a line declares. -/
def ofLine? (line : Text) : Option Signature :=
  (header? line).map fun (name, text) =>
    { name, parameters := parameters? text, returnsValue := hasReturnType line }

end Signature

namespace Signatures

/-- The functions that a source declares; a later declaration of a name replaces an earlier. -/
def collect (source : Text) : Signatures :=
  ((lines source).filterMap Signature.ofLine?).foldl
    (fun found signature => assign signature.name signature found) []

def names (signatures : Signatures) : List Text :=
  signatures.map (·.1)

def get? (signatures : Signatures) (name : Text) : Option Signature :=
  signatures.lookup name

/-- The variables among the arguments of a call that are written back, in parameter order. An
argument that is no plain variable is passed by value. -/
def writtenBack (signatures : Signatures) (name : Text) (arguments : List Text) : List Text :=
  match signatures.get? name with
  | none => []
  | some signature =>
    (signature.parameters.zip arguments).filterMap fun (parameter, argument) =>
      if parameter.inOut && isIdentifier (trim argument) then some (trim argument) else none

end Signatures

end Pseudocode
