import Pseudocode.Text.Basic

namespace Pseudocode

/-- A path in its shortest spelling: the slashes it starts with, and its parts. -/
structure Path where
  root : Text := []
  parts : List Text := []
  deriving DecidableEq, Repr

namespace Path

/-- Reads a path. Empty parts and single dots are left out; one or three leading slashes are one,
and two are two. -/
def ofText (text : Text) : Path where
  root := match (text.takeWhile (· = '/')).length with
    | 0 => []
    | 2 => ['/', '/']
    | _ => ['/']
  parts := (splitAt '/' text).filter fun part => !part.isEmpty && part ≠ ['.']

def toText (path : Path) : Text :=
  if path.root.isEmpty && path.parts.isEmpty then ['.']
  else path.root ++ joinWith "/" path.parts

def name (path : Path) : Text :=
  path.parts.getLast?.getD []

/-- A name without its last ending. A dot at its start or end begins none. -/
def stem (name : Text) : Text :=
  let ending := takeEndWhile (· ≠ '.') name
  let before := name.take (name.length - ending.length - 1)
  if ending.length < name.length && !ending.isEmpty && !before.isEmpty then before else name

/-- The path with another ending to its name. -/
def withEnding (path : Path) (ending : String) : Path :=
  { path with parts := path.parts.dropLast ++ [stem path.name ++ ending.toList] }

/-- The parts with every `..` taken together with the part before it. -/
def collapse (parts : List Text) : List Text :=
  (parts.foldl (fun done part =>
    match part, done with
    | ['.', '.'], previous :: rest =>
      if previous = ['.', '.'] then part :: done else rest
    | _, _ => part :: done) []).reverse

end Path

end Pseudocode
