import Pseudocode.Context
import Pseudocode.Conversion

namespace Pseudocode

/-- A block that is open: of a function, whose beginning may still be to come, of the main
program, or of a control statement. -/
inductive Frame where
  | function (signature : Option Signature) (opened : Bool)
  | main
  | control (keyword : BlockKeyword)
  deriving DecidableEq, Repr

namespace Frame

def keyword? : Frame → Option BlockKeyword
  | control keyword => some keyword
  | _ => none

/-- The signature of the innermost function that is open. `frames` starts with the innermost. -/
def currentFunction? (frames : List Frame) : Option Signature :=
  (frames.findSome? fun
    | function signature _ => some signature
    | _ => none).join

/-- The frames after the beginning of a block. It belongs to a function that waits for it, or
opens the main program. -/
def begin : List Frame → List Frame
  | function signature false :: frames => function signature true :: frames
  | frames => main :: frames

/-- The last line of code was a return. -/
def isReturn (code : Text) : Bool :=
  "return".toList.isPrefixOf code && atWordEnd (code.drop 6)

/-- The values that a return without any hands back. -/
def implicitValues (signature : Signature) : List Text :=
  if signature.returnsValue then "nil".toList :: signature.inOutNames else signature.inOutNames

/-- The lines that close a block. A function hands its `InOut` parameters back at the end, unless
`lastCode` just did. The main program needs no line. -/
def closing (layout : Layout) (lastCode : Text) : Frame → List Text
  | main => []
  | function (some signature) _ =>
    if signature.inOutNames.isEmpty || isReturn lastCode then ["end".toList]
    else [layout.indent ++ "return ".toList ++ commaSeparated (implicitValues signature),
      "end".toList]
  | _ => ["end".toList]

/-- How many frames a closer ends: down to the innermost block that it names, or one. -/
def closedCount? (closed : Option BlockKeyword) (frames : List Frame) : Option Nat :=
  match closed with
  | none => some 1
  | some keyword => (frames.findIdx? fun frame => frame.keyword? = some keyword).map (· + 1)

/-- The notices that a closer gives, where `line` is the closer as it is written. -/
def closeNotices (closed : Option BlockKeyword) (line : Text) (frames : List Frame) :
    List Notice :=
  match frames, closed, closedCount? closed frames with
  | [], _, _ => [.strayCloser line]
  | _, some keyword, none => [.noOpenBlock keyword line]
  | _, _, some count => List.replicate (count - 1) (.closesInnerBlock line)
  | _, none, none => []

/-- The lines that a closer emits and the frames it leaves. A closer that meets no block is
emitted too. -/
def close (layout : Layout) (lastCode : Text) (closed : Option BlockKeyword) (frames : List Frame) :
    List Text × List Frame :=
  if frames.isEmpty then (["end".toList], [])
  else
    let count := (closedCount? closed frames).getD 1
    ((frames.take count).flatMap (closing layout lastCode), frames.drop count)

end Frame

end Pseudocode
