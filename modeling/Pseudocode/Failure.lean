import Pseudocode.Decimal.Shortest
import Pseudocode.Encoding
import Pseudocode.Fault
import Pseudocode.Text.Quoted
import Pseudocode.Text.Substitute

namespace Pseudocode

/-- A length of time as it was given: a whole number of seconds, or a double. -/
inductive Seconds where
  | whole (count : Int)
  | real (count : Binary64)
  deriving DecidableEq, Repr

def Seconds.toText : Seconds → Text
  | .whole count => (toString count).toList
  | .real count => count.toText

/-- A place in a source. Lines and columns count from one; one that is not positive stands for
all of them. -/
structure Location where
  file : Text
  line : Int := 0
  column : Int := 0
  deriving DecidableEq, Repr

def Location.toText (location : Location) : Text :=
  if location.line ≤ 0 then location.file
  else if location.column ≤ 0 then location.file ++ s!":{location.line}".toList
  else location.file ++ s!":{location.line}:{location.column}".toList

/-- Why a path cannot be used. -/
inductive PathFault where
  | missing
  | taken
  | notDirectory
  | isDirectory
  deriving DecidableEq, Repr

def PathFault.message : PathFault → String
  | .missing => "[Errno 2] No such file or directory"
  | .taken => "[Errno 17] File exists"
  | .notDirectory => "[Errno 20] Not a directory"
  | .isDirectory => "[Errno 21] Is a directory"

/-- Why a tool could not do its work. -/
inductive Failure where
  /-- At a place in a source, perhaps with a hint and with the text of the line. -/
  | located (message : Text) (location : Option Location) (hint sourceLine : Option Text)
  /-- Diagnostics, already written out. -/
  | diagnosed (report : Text)
  | general (message : Text)
  | launch (message : Text)
  | noInterpreter (command : Text)
  | timedOut (limit : Option Seconds) (script : Text)
  | badParameter (message : Text)
  | missingFile (message : Text)
  | refusedFile (message : Text)
  | path (fault : PathFault) (file : Text)
  | unknownEncoding (name : Text)
  /-- The bytes of a file are no text. -/
  | unreadable (error : DecodeError)
  /-- The work on a text stopped. -/
  | stopped (fault : Fault)
  | internal (message : Text)
  deriving DecidableEq, Repr

/-- What is told of a text whose work stopped. -/
def Fault.message : Fault → String
  | .placeOutsideText => "string index out of range"
  | .unknownPlaceholder => "list index out of range"
  | .missingArgument => "list index out of range"
  | .unlistedBuiltin => "'NoneType' object has no attribute 'arity'"
  | .unlistedRecord => "'NoneType' object has no attribute 'fields'"
  | .endlessNesting => "maximum recursion depth exceeded"

namespace Failure

/-- The line at fault and a mark under the column. -/
def excerpt (location : Location) (sourceLine : Text) : List Text :=
  (blanks 4 ++ sourceLine) ::
    if 0 < location.column then [blanks (3 + location.column.toNat) ++ ['^']] else []

/-- A located failure, line by line. -/
def locatedLines (message : Text) (location : Option Location) (hint sourceLine : Option Text) :
    List Text :=
  let head := match location with
    | some location => location.toText ++ ": error: ".toList ++ message
    | none => "error: ".toList ++ message
  let shown := match location, sourceLine with
    | some location, some line => excerpt location line
    | _, _ => []
  let hinted := match hint with
    | some (c :: rest) => ["hint: ".toList ++ c :: rest]
    | _ => []
  head :: shown ++ hinted

def message : Failure → Text
  | located message location hint sourceLine =>
    joinWith "\n" (locatedLines message location hint sourceLine)
  | diagnosed report => report
  | general message => message
  | launch message => message
  | noInterpreter command =>
    "Lua interpreter '".toList ++ command ++
      "' not found; install Lua or set PSC_LUA_COMMAND".toList
  | timedOut limit script =>
    "execution of ".toList ++ script ++ " timed out after ".toList ++
      ((limit.map Seconds.toText).getD "None".toList) ++ ['s']
  | badParameter message => message
  | missingFile message => message
  | refusedFile message => message
  | path fault file => fault.message.toList ++ ": ".toList ++ quoted file
  | unknownEncoding name => "unknown encoding: ".toList ++ name
  | unreadable error => error.message.toList
  | stopped fault => fault.message.toList
  | internal message => message

/-- A failure that the tools themselves foresee. -/
def isForeseen : Failure → Bool
  | located .. | diagnosed _ | general _ | launch _ | noInterpreter _ | timedOut .. => true
  | _ => false

/-- A failure to start or to supervise the interpreter. -/
def isLaunch : Failure → Bool
  | launch _ | noInterpreter _ | timedOut .. => true
  | _ => false

/-- A failure that the arguments or the files are to blame for. -/
def isRefusal : Failure → Bool
  | badParameter _ | missingFile _ | refusedFile _ | path .missing _ => true
  | _ => false

/-- The exit code of a tool: one for work that failed, two for bad arguments or files, three for
a fault of the tool. -/
def exitCode (failure : Failure) : Int :=
  if failure.isForeseen then 1 else if failure.isRefusal then 2 else 3

/-- What a tool tells of a failure. `action` is what it was doing, if anything. -/
def report (action : Text) (failure : Failure) : Text :=
  match failure with
  | located .. | diagnosed _ => failure.message
  | _ =>
    let head :=
      if failure.isForeseen then (if action.isEmpty then "Error".toList else action ++ " error".toList)
      else if failure.isRefusal then "Error".toList
      else "Internal error".toList
    head ++ ": ".toList ++ failure.message

/-- Something that is no text was given for a source. -/
def notText (kind : String) : Failure :=
  located s!"Expected PSC source text, got {kind}".toList none
    (some "decode bytes with .decode('utf-8') first".toList) none

/-- A source file holds bytes that are no text. -/
def undecodable (file encoding : Text) (cause : DecodeCause) : Failure :=
  located ("Cannot decode source as ".toList ++ encoding ++ ": ".toList ++ cause.message.toList)
    (some { file }) (some "save the file as UTF-8".toList) none

def noSource (file : Text) : Failure :=
  missingFile ("Source file not found: ".toList ++ file)

end Failure

end Pseudocode
