import Pseudocode.FileTree
import Pseudocode.Launch.Settings

namespace Pseudocode

/-- How the process of an interpreter ends. -/
inductive Ending where
  | exited (status : Int) (stdout stderr : Option Text)
  /-- It ended, and what it wrote is no text. -/
  | garbled (error : DecodeError)
  | timedOut
  /-- It could not be started, since the program is not there. -/
  | missing
  /-- It could not be started for another reason. -/
  | refused (failure : Failure)
  deriving DecidableEq, Repr

/-- What a machine does with an interpreter: where it finds the command, if at all, and how its
process ends. The writing of a script may break off after some bytes. -/
structure Machine where
  locate : Text → Option Text
  ending : Ending
  breaksOff : Option (Nat × Failure) := none

/-- The start of an interpreter on a script, with the directory asked for it and the content that
is found there. -/
structure Invocation where
  interpreter : Text
  script : Path
  directory : Option Path
  content : Option FileEntry
  input : Option Text
  capture : Bool
  timeout : Option Seconds
  deriving DecidableEq, Repr

/-- What came of a process that ended by itself. -/
structure Completed where
  status : Int
  stdout : Text
  stderr : Text
  deriving DecidableEq, Repr

/-- A run: its result, the process that was started, the files after it, and the notices. -/
structure Run where
  result : Except Failure Completed
  invocation : Option Invocation := none
  files : FileTree
  notices : List Notice := []

namespace Settings

/-- The result of a process. -/
def resultOf (settings : Settings) (script : Path) : Ending → Except Failure Completed
  | .exited status stdout stderr =>
    .ok { status, stdout := stdout.getD [], stderr := stderr.getD [] }
  | .garbled error => .error (.unreadable error)
  | .timedOut => .error (.timedOut settings.timeout script.toText)
  | .missing => .error (.noInterpreter settings.command)
  | .refused failure => .error failure

/-- The notice at the end of a process. -/
def endNotices : Ending → List Notice
  | .exited status _ _ => [.ended status]
  | _ => []

/-- The files once the directory for a script is there, or why it cannot be made. -/
def prepared (settings : Settings) (files : FileTree) : FileTree × Option Failure :=
  match settings.directory with
  | none => (files, none)
  | some directory => files.makeDirectory directory

/-- Runs Lua code: it is written to the fresh file `script`, the interpreter is started on it, and
the file is taken away unless it is to be kept. Without an interpreter nothing is written. A script
that could not be written whole stays. -/
def run (settings : Settings) (machine : Machine) (files : FileTree) (script : Path) (code : Text)
    (input : Option Text) (capture : Bool) : Run :=
  match machine.locate settings.command with
  | none => { result := .error (.noInterpreter settings.command), files }
  | some interpreter =>
    match settings.prepared files with
    | (files, some failure) => { result := .error failure, files }
    | (files, none) =>
      match machine.breaksOff with
      | some (count, failure) =>
        { result := .error failure
          files := files.insert script.parts ((Encoding.encode code).take count) }
      | none =>
        let written := files.insert script.parts (Encoding.encode code)
        { result := settings.resultOf script machine.ending
          invocation := some
            { interpreter, script, directory := settings.directory
              content := written.lookup script.parts, input, capture, timeout := settings.timeout }
          files := if settings.keepScript then written else written.filter (·.1 ≠ script.parts)
          notices := .starting interpreter script.toText :: endNotices machine.ending }

end Settings

end Pseudocode
