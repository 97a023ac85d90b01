import Pseudocode.Text.Basic

namespace Pseudocode

/-- A line taken apart: its code, what follows a line comment mark, and whether a block comment
is open at its end. -/
structure SplitLine where
  code : Text
  comment : Option Text := none
  inBlock : Bool := false
  deriving DecidableEq, Repr

/-- Where the reading of a line stands. -/
inductive Reading where
  | code
  | quoted (quote : Char)
  | block
  deriving DecidableEq, Repr

/-- A literal that `quote` opens ends somewhere in the text. -/
def closesQuote (quote : Char) : Text → Bool
  | [] => false
  | ['\\'] => false
  | '\\' :: _ :: rest => closesQuote quote rest
  | c :: rest => c = quote || closesQuote quote rest

def SplitLine.consCode (c : Char) (line : SplitLine) : SplitLine :=
  { line with code := c :: line.code }

/-- Separates code from comments. Comment marks inside a closed literal are code, and a quote
that nothing closes is a plain character. -/
def splitComments : Reading → Text → SplitLine
  | .code, [] => { code := [] }
  | .quoted _, [] => { code := [] }
  | .block, [] => { code := [], inBlock := true }
  | .block, '*' :: '/' :: rest => splitComments .code rest
  | .block, _ :: rest => splitComments .block rest
  | .quoted quote, '\\' :: c :: rest =>
    ((splitComments (.quoted quote) rest).consCode c).consCode '\\'
  | .quoted quote, c :: rest =>
    (splitComments (if c = quote then .code else .quoted quote) rest).consCode c
  | .code, '/' :: '/' :: rest => { code := [], comment := some rest }
  | .code, '/' :: '*' :: rest => splitComments .block rest
  | .code, c :: rest =>
    let quoted := (c = '"' ∨ c = '\'') ∧ closesQuote c rest
    (splitComments (if quoted then .quoted c else .code) rest).consCode c

/-- The parts of a line that starts inside or outside a block comment. -/
def splitLine (inBlock : Bool) (line : Text) : SplitLine :=
  splitComments (if inBlock then .block else .code) line

end Pseudocode
