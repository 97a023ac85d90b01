import Pseudocode.Hint
import Pseudocode.Record.Declaration

namespace Pseudocode

/-- How the Lua text is laid out. -/
structure Layout where
  emitPrelude : Bool := true
  commentMark : Text := "--".toList
  indent : Text := ['\t']
  deriving DecidableEq, Repr

/-- What is known of a source before its lines are converted. -/
structure Context where
  language : Language := standardLanguage
  signatures : Signatures := []
  records : Records := []
  hints : Hints := []
  layout : Layout := {}
  deriving DecidableEq, Repr

namespace Context

/-- Everything that a source declares. -/
def ofSource (language : Language) (layout : Layout) (source : Text) : Context where
  language := language
  signatures := Signatures.collect source
  records := Records.collect language source
  hints := Hints.collect language source
  layout := layout

/-- A function or record type of the program has this name, so no built-in is meant. -/
def declares (context : Context) (name : Text) : Bool :=
  context.signatures.names.any (fun declared => lower declared = lower name) ||
    context.records.has name

end Context

end Pseudocode
