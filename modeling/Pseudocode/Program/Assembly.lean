import Pseudocode.Prelude.Basic
import Pseudocode.Program.Line

namespace Pseudocode

/-- What a piece of work gives, with the notices on the way. -/
structure Outcome (α : Type) where
  result : α
  notices : List Notice

/-- How sources become Lua programs. Passes over the text run before and after, in order. -/
structure Assembly where
  language : Language := standardLanguage
  layout : Layout := {}
  before : List (Text → Text) := []
  after : List (Text → Text) := []

namespace Assembly

def runPasses (passes : List (Text → Text)) (text : Text) : Text :=
  passes.foldl (fun text pass => pass text) text

/-- The notices on what was collected from a source. -/
def collectionNotices (context : Context) : List Notice :=
  [.collectedSignatures context.signatures.names, .collectedRecords context.records.length,
    .collectedHints context.hints.length]

/-- The Lua program of a source. -/
def run (assembly : Assembly) (source : Text) : Outcome (Except Fault Text) :=
  let source := runPasses assembly.before source
  let context := Context.ofSource assembly.language assembly.layout source
  let (result, progress) := (context.processSource source).run.run {}
  let notices := collectionNotices context ++ progress.notices.toList
  match result with
  | .error fault => { result := .error fault, notices }
  | .ok body =>
    let program := if assembly.layout.emitPrelude then Prelude.text ++ '\n' :: body else body
    { result := .ok (runPasses assembly.after program)
      notices := notices ++ [.assembled (lines source).length (lines body).length] }

end Assembly

/-- The Lua program of a source in the standard language. -/
def convert (layout : Layout) (source : Text) : Except Fault Text :=
  (Assembly.run { layout } source).result

end Pseudocode
