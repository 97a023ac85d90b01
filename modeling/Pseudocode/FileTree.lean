import Pseudocode.Failure
import Pseudocode.Path

namespace Pseudocode

inductive FileEntry where
  | file (content : List UInt8)
  | directory
  deriving DecidableEq, Repr

/-- The files below the working directory, by the parts of their paths. A directory is there if it
is listed or if something is listed below it. -/
abbrev FileTree := List (List Text × FileEntry)

/-- What a path leads to. -/
inductive Place where
  | inside (parts : List Text)
  /-- A directory above the working directory. -/
  | above
  /-- A name above the working directory, of which nothing is known. -/
  | elsewhere
  deriving DecidableEq, Repr

namespace FileTree

def isDirectory (tree : FileTree) (parts : List Text) : Bool :=
  parts.isEmpty || tree.any fun (key, entry) =>
    if key = parts then entry = .directory else parts.isPrefixOf key

def entry? (tree : FileTree) : Place → Option FileEntry
  | .inside parts => if tree.isDirectory parts then some .directory else tree.lookup parts
  | .above => some .directory
  | .elsewhere => none

/-- One part further along a path. Only a directory can be passed. -/
def enter (tree : FileTree) (place : Place) (part : Text) : Except PathFault Place :=
  match tree.entry? place with
  | none => .error .missing
  | some (.file _) => .error .notDirectory
  | some .directory =>
    if part.isEmpty || part = ['.'] then .ok place
    else if part = ['.', '.'] then
      match place with
      | .inside (first :: rest) => .ok (.inside (first :: rest).dropLast)
      | _ => .ok .above
    else match place with
      | .inside parts => .ok (.inside (parts ++ [part]))
      | _ => .ok .elsewhere

/-- Where a path leads to, whether anything is there or not. -/
def resolve (tree : FileTree) (path : Text) : Except PathFault Place :=
  match path with
  | [] => .error .missing
  | '/' :: _ => (splitAt '/' path).foldlM tree.enter .above
  | _ => (splitAt '/' path).foldlM tree.enter (.inside [])

/-- What stands at a path. -/
def find? (tree : FileTree) (path : Text) : Option FileEntry :=
  match tree.resolve path with
  | .ok place => tree.entry? place
  | .error _ => none

def insert (tree : FileTree) (parts : List Text) (content : List UInt8) : FileTree :=
  assign parts (.file content) tree

/-- Writes a file. -/
def write (tree : FileTree) (path : Text) (content : List UInt8) : Except Failure FileTree :=
  match tree.resolve path with
  | .error fault => .error (.path fault path)
  | .ok place =>
    match tree.entry? place, place with
    | some .directory, _ => .error (.path .isDirectory path)
    | _, .inside parts => .ok (tree.insert parts content)
    | _, _ => .ok tree

/-- Makes one directory. Nothing may stand at its path. -/
def addDirectory (tree : FileTree) (path : Text) : Except PathFault FileTree :=
  match tree.resolve path with
  | .error fault => .error fault
  | .ok place =>
    match tree.entry? place, place with
    | some _, _ => .error .taken
    | none, .inside parts => .ok (tree ++ [(parts, .directory)])
    | none, _ => .ok tree

/-- What a failed attempt to make a directory comes to. It does not matter if one is there. -/
def directoryFailure? (tree : FileTree) (path : Text) (fault : PathFault) : Option Failure :=
  if tree.find? path = some .directory then none else some (.path fault path)

/-- Makes the directory of the first `count` parts of a path, and before it those above it that
are missing. Those that were made stay if a later one fails. -/
def makeDirectoryUpTo (tree : FileTree) (path : Path) : (count : Nat) → FileTree × Option Failure
  | 0 => (tree, none)
  | count + 1 =>
    let name := { path with parts := path.parts.take (count + 1) }.toText
    match tree.addDirectory name with
    | .ok tree => (tree, none)
    | .error .missing =>
      match tree.makeDirectoryUpTo path count with
      | (tree, some failure) => (tree, some failure)
      | (tree, none) =>
        match tree.addDirectory name with
        | .ok tree => (tree, none)
        | .error .missing => (tree, none)
        | .error fault => (tree, tree.directoryFailure? name fault)
    | .error fault => (tree, tree.directoryFailure? name fault)

/-- Makes a directory, unless it is there already, and those above it. -/
def makeDirectory (tree : FileTree) (path : Path) : FileTree × Option Failure :=
  tree.makeDirectoryUpTo path path.parts.length

/-- The files that are new or changed since an earlier time. -/
def changedSince (tree earlier : FileTree) : List (List Text × List UInt8) :=
  tree.filterMap fun (parts, entry) =>
    match entry with
    | .directory => none
    | .file content => if earlier.lookup parts = some entry then none else some (parts, content)

end FileTree

end Pseudocode
