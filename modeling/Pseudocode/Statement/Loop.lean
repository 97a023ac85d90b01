import Pseudocode.Statement.Basic

namespace Pseudocode

/-- The header of a counted loop: its variable, its bounds and its direction. -/
structure CountedLoop where
  counter : Text
  start : Text
  stop : Text
  deriving DecidableEq, Repr

namespace CountedLoop

/-- A text that ends so is not a whole operand. -/
def isOperatorEnd (c : Char) : Bool :=
  "+-*/%^(,<>=≤≥≠".toList.contains c

/-- The two sides of the first `separator` between blanks whose left side is a whole operand.
`before` is what precedes the text, read backwards. -/
def splitRangeAt? (separator : Char) (before : Text) : Text → Option (Text × Text)
  | [] => none
  | c :: rest =>
    let start := trim before.reverse
    let stop := trim rest
    if caseKey c = caseKey separator && before.head?.any isBlank && rest.head?.any isBlank &&
        !start.isEmpty && !stop.isEmpty && !start.getLast?.any isOperatorEnd
    then some (start, stop)
    else splitRangeAt? separator (c :: before) rest

/-- The bounds of a loop. An accented separator is preferred to a plain one, which may also be a
variable. -/
def splitRange? (text : Text) : Option (Text × Text) :=
  splitRangeAt? 'à' [] text <|> splitRangeAt? 'a' [] text

/-- Takes out the word for counting down and the blanks before it. -/
def downward : Replacer := fun before text =>
  let gap := indentation text
  let isStart := !gap.isEmpty || atWordStart before
  match dropAnyWholeWord? ["décroissant", "decroissant"] (trimLeft text) with
  | some rest => if isStart then some (text.length - rest.length, []) else none
  | none => none

def isDownward (line : Text) : Bool :=
  occurs downward line

def withoutDirection (line : Text) : Text :=
  substitute downward line

/-- The text between the keywords of a loop header, with the loop variable. -/
def range? (line : Text) : Option (Text × Text) := do
  let rest ← dropBlanks? (← dropWord? "pour".toList line)
  let (counter, rest) ← identifier? rest
  let rest ← dropBlanks? rest
  let rest ← (dropTwoWords? "allant" "de" rest).bind dropBlanks? <|>
    (dropWord? "de".toList rest).bind dropBlanks?
  let range ← Statement.dropLastWord? "faire" (trimRight (Statement.dropColon rest))
  some (counter, range)

/-- Reads the header of a counted loop, its direction left out. -/
def ofLine? (line : Text) : Option CountedLoop := do
  let (counter, range) ← range? line
  let (start, stop) ← splitRange? range
  some { counter, start, stop }

end CountedLoop

/-- The lower and the upper end of an array dimension. Something stands on either side of the
dots. `before` is what precedes the text, read backwards. -/
def dimensionBoundsFrom? (before : Text) : Text → Option (Text × Text)
  | [] => none
  | c :: rest =>
    let found : Option (Text × Text) :=
      match before, trimLeft (c :: rest) with
      | _ :: _, '.' :: '.' :: upper =>
        let upper := trimLeft upper
        if upper.isEmpty then none else some (before.reverse, upper)
      | _, _ => none
    found <|> dimensionBoundsFrom? (c :: before) rest

def dimensionBounds? (dimension : Text) : Option (Text × Text) :=
  dimensionBoundsFrom? [] dimension

end Pseudocode
