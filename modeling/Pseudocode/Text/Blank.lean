import Pseudocode.Text.Basic

namespace Pseudocode

/-- Spaces, tabs, line and paragraph separators. A zero-width space is not blank. -/
def isBlank (c : Char) : Bool :=
  let n := c.toNat
  (9 ≤ n && n ≤ 13) || (28 ≤ n && n ≤ 32) || n == 0x85 || n == 0xa0 || n == 0x1680 ||
    (0x2000 ≤ n && n ≤ 0x200a) || n == 0x2028 || n == 0x2029 || n == 0x202f || n == 0x205f ||
    n == 0x3000

def trimLeft (text : Text) : Text :=
  text.dropWhile isBlank

def trimRight (text : Text) : Text :=
  dropEndWhile isBlank text

def trim (text : Text) : Text :=
  trimRight (trimLeft text)

/-- The blanks that a line starts with. -/
def indentation (line : Text) : Text :=
  line.takeWhile isBlank

/-- The text after at least one blank, with all blanks dropped. -/
def dropBlanks? : Text → Option Text
  | [] => none
  | c :: rest => if isBlank c then some (trimLeft rest) else none

end Pseudocode
