import Pseudocode.Identifier
import Pseudocode.Language.Standard
import Pseudocode.Text.Lines

namespace Pseudocode

structure RecordField where
  name : Text
  type : Text
  deriving DecidableEq, Repr

/-- A record type with its fields in the order of declaration. -/
structure RecordType where
  name : Text
  fields : List RecordField
  deriving DecidableEq, Repr

/-- The record types of a source by their names in small letters, in the order of their first
declaration. -/
abbrev Records := List (Text × RecordType)

namespace RecordType

def fieldNames (type : RecordType) : List Text :=
  type.fields.map (·.name)

/-- A field name, a colon and a type. -/
def field? (language : Language) (part : Text) : Option RecordField := do
  let (name, rest) ← identifier? (trim part)
  match trimLeft rest with
  | ':' :: rest =>
    if (trimLeft rest).isEmpty then none
    else some { name, type := language.normalizeType (trimLeft rest) }
  | _ => none

/-- The text between angle brackets that fill the rest of a line. -/
def angled? : Text → Option Text
  | '<' :: rest =>
    match rest.getLast? with
    | some '>' => some (trim rest.dropLast)
    | _ => none
  | _ => none

/-- The record type a line declares: a name, perhaps an equals sign, and fields in angle
brackets. What is no field is passed over, and there must be at least one. -/
def ofLine? (language : Language) (line : Text) : Option RecordType := do
  let (name, rest) ← identifier? (trim line)
  let rest := trimLeft rest
  let rest := match rest with
    | '=' :: rest => trimLeft rest
    | _ => rest
  let body ← angled? rest
  if body.contains '\n' then none
  else
    let fields := (splitAt ',' body).filterMap (field? language)
    if fields.isEmpty then none else some { name, fields }

end RecordType

namespace Records

/-- The record types that a source declares; a later declaration of a name replaces an
earlier. -/
def collect (language : Language) (source : Text) : Records :=
  ((lines source).filterMap (RecordType.ofLine? language)).foldl
    (fun found type => assign (lower type.name) type found) []

def names (records : Records) : List Text :=
  records.map (·.1)

/-- The record type of a name in any letter case. -/
def get? (records : Records) (name : Text) : Option RecordType :=
  records.lookup (lower name)

def has (records : Records) (name : Text) : Bool :=
  (records.get? name).isSome

/-- The first declared type with the given number of fields. -/
def withFields? (records : Records) (count : Int) : Option RecordType :=
  (records.map (·.2)).find? fun type => (type.fields.length : Int) = count

end Records

end Pseudocode
