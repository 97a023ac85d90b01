import Pseudocode.Language.Standard
import Pseudocode.Signature

namespace Pseudocode

/-- The declared types of variables, which decide how a value is read in. -/
abbrev Hints := List (Text × Text)

namespace Hints

/-- The type that a declaration names, arguments of the type aside. -/
def ofType (language : Language) (type : Text) : Text :=
  let trimmed := trim type
  match trimmed.takeWhile isWordChar with
  | [] => language.normalizeType trimmed
  | name => language.normalizeType name

/-- The hint in one parameter of a header, which needs exactly one colon. -/
def ofParameter? (language : Language) (parameter : Text) : Option (Text × Text) :=
  match (splitAt ':' parameter).map trim with
  | [named, type] =>
    let name := trim (substitute Signature.inOutModifier named)
    if name.isEmpty || type.isEmpty then none else some (name, ofType language type)
  | _ => none

/-- The names before a colon and the type after it. -/
def ofDeclaration (language : Language) (line : Text) : List (Text × Text) :=
  let isListed (c : Char) := isWordChar c || c = ',' || isBlank c
  match line.dropWhile isListed with
  | ':' :: rest =>
    let type := (trimLeft rest).takeWhile isWordChar
    if type.isEmpty then []
    else ((splitAt ',' (line.takeWhile isListed)).map trim).filterMap fun name =>
      if name.isEmpty then none else some (name, ofType language type)
  | _ => []

def ofLine (language : Language) (line : Text) : List (Text × Text) :=
  match Signature.header? line with
  | some (_, text) => (splitArguments text).filterMap (ofParameter? language)
  | none => ofDeclaration language line

/-- The hints of a source, from parameters and declarations; a later one replaces an earlier. -/
def collect (language : Language) (source : Text) : Hints :=
  ((lines source).flatMap fun line => ofLine language (trim line)).foldl
    (fun found (name, type) => assign name type found) []

end Hints

end Pseudocode
