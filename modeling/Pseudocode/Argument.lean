import Pseudocode.Text.Blank

namespace Pseudocode

/-- Where a scan of code stands: outside literals, or inside one that `quote` ends, perhaps just
after a backslash. -/
inductive Scan where
  | code
  | quoted (quote : Char) (escaped : Bool)
  deriving DecidableEq, Repr

/-- Where the scan stands after one more character. -/
def Scan.next : Scan → Char → Scan
  | .code, c => if c = '"' ∨ c = '\'' then .quoted c false else .code
  | .quoted quote true, _ => .quoted quote false
  | .quoted quote false, c =>
    if c = '\\' then .quoted quote true else if c = quote then .code else .quoted quote false

/-- How a character changes the number of open brackets. -/
def bracketStep (c : Char) : Int :=
  if c = '(' ∨ c = '[' ∨ c = '\x7b' then 1
  else if c = ')' ∨ c = ']' ∨ c = '\x7d' then -1
  else 0

/-- The number of open brackets after one more character; literals hold none. -/
def Scan.depthAfter (scan : Scan) (depth : Int) (c : Char) : Int :=
  match scan with
  | .code => depth + bracketStep c
  | .quoted _ _ => depth

/-- The pieces of a text between its commas that stand outside literals and brackets. -/
def segments : Scan → (depth : Int) → Text → List Text
  | _, _, [] => [[]]
  | scan, depth, c :: rest =>
    if scan = .code ∧ c = ',' ∧ depth = 0 then [] :: segments .code 0 rest
    else consHead c (segments (scan.next c) (scan.depthAfter depth c) rest)

/-- The list without its last element if that is empty. -/
def dropEmptyLast : List Text → List Text
  | [] => []
  | [last] => if last.isEmpty then [] else [last]
  | item :: items => item :: dropEmptyLast items

/-- The arguments of a list, split at its outer commas and trimmed. Nothing after the last comma
is no argument, and a blank text has none. -/
def splitArguments (text : Text) : List Text :=
  if (trim text).isEmpty then [] else dropEmptyLast ((segments .code 0 text).map trim)

end Pseudocode
