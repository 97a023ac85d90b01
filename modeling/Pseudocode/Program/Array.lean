import Pseudocode.Expression.Basic
import Pseudocode.Statement.Loop

namespace Pseudocode

/-- A dimension of an array with both ends in Lua. -/
structure Dimension where
  low : Text
  high : Text
  deriving DecidableEq, Repr

namespace Dimension

/-- The loop variable of the dimension at the given depth. -/
def counter (depth : Nat) : Text :=
  "__i".toList ++ (toString (depth + 1)).toList

def indented (indent : Text) (depth : Nat) (line : Text) : Text :=
  (List.replicate depth indent).flatten ++ line

def forLine (depth : Nat) (dimension : Dimension) : Text :=
  "for ".toList ++ counter depth ++ " = (".toList ++ dimension.low ++ ") + 1, (".toList ++
    dimension.high ++ ") + 1, 1 do".toList

/-- The cell of the current loop variable below `path`. -/
def cell (path : Text) (depth : Nat) : Text :=
  path ++ '[' :: counter depth ++ [']']

/-- The loops that fill an array below `path`. Every dimension but the last holds tables, and the
last one is filled only with a zero value. -/
def fill (indent : Text) (zero : Option Text) (path : Text) (depth : Nat) :
    List Dimension → List Text
  | [] => []
  | dimension :: rest =>
    let loop (value : Text) (body : List Text) : List Text :=
      indented indent depth (forLine depth dimension) ::
        indented indent (depth + 1) (cell path depth ++ " = ".toList ++ value) ::
        body ++ [indented indent depth "end".toList]
    match rest, zero with
    | [], none => []
    | [], some zero => loop zero []
    | _ :: _, _ => loop ['\x7b', '\x7d'] (fill indent zero (cell path depth) (depth + 1) rest)

end Dimension

namespace Context

/-- A dimension as it is written: both ends, or a size that counts from zero. -/
def dimension (context : Context) (text : Text) : Conversion Dimension := do
  match dimensionBounds? text with
  | some (low, high) =>
    let low ← context.expression {} low
    let high ← context.expression {} high
    return { low, high }
  | none =>
    Conversion.notify (.sizeAsDimension text)
    let size ← context.expression {} text
    return { low := ['0'], high := '(' :: size ++ ") - 1".toList }

/-- The lines that declare an array. -/
def arrayLines (context : Context) (name element dimensions : Text) :
    Conversion (List Text) := do
  let dimensions ← (splitArguments dimensions).mapM context.dimension
  let zero := context.language.zeroValue? element
  return (name ++ " = \x7b\x7d".toList) :: Dimension.fill context.layout.indent zero name 0 dimensions

end Context

end Pseudocode
