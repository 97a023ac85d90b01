import Pseudocode.FileTree
import Pseudocode.Program.Assembly

namespace Pseudocode

/-- The text of a file, with line feeds for all its line ends. -/
def readText (encoding : Encoding) (content : List UInt8) : Except DecodeError Text :=
  (encoding.decode content).map unifyLineFeeds

namespace Assembly

/-- The text of a source file in the encoding of a name. -/
def readSource (files : FileTree) (file encoding : Text) : Except Failure Text :=
  let path := (Path.ofText file).toText
  match files.find? path, Encoding.ofName? encoding with
  | none, _ => .error (.noSource file)
  | some .directory, _ => .error (.path .isDirectory path)
  | some (.file _), none => .error (.unknownEncoding encoding)
  | some (.file content), some known =>
    (readText known content).mapError fun error => .undecodable path encoding error.cause

/-- The Lua program of a source file. -/
def runFile (assembly : Assembly) (files : FileTree) (file encoding : Text) :
    Outcome (Except Failure Text) :=
  match readSource files file encoding with
  | .error failure => { result := .error failure, notices := [] }
  | .ok source =>
    let outcome := assembly.run source
    { result := outcome.result.mapError .stopped, notices := outcome.notices }

end Assembly

end Pseudocode
