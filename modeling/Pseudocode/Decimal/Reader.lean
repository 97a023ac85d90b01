import Pseudocode.Decimal.Binary64
import Pseudocode.Text.Blank
import Pseudocode.Text.CaseKey
import Pseudocode.Text.Digit

namespace Pseudocode

namespace Binary64

def isAscii (c : Char) : Bool :=
  c.toNat < 128

/-- Digits of other scripts become plain ones, and their blanks become spaces. -/
def plainDigits (text : Text) : Text :=
  text.map fun c =>
    if isAscii c then c
    else match digitValue? c with
      | some d => Nat.digitChar d
      | none => if isBlank c then ' ' else c

/-- Blanks of a plain text. -/
def isPlainBlank (c : Char) : Bool :=
  c = ' ' || (9 ≤ c.toNat && c.toNat ≤ 13)

/-- Takes out underscores, each of which stands between two digits. -/
def dropUnderscores? (before : Option Char) : Text → Option Text
  | [] => some []
  | '_' :: rest =>
    if before.any Char.isDigit && rest.head?.any Char.isDigit then dropUnderscores? (some '_') rest
    else none
  | c :: rest => (dropUnderscores? (some c) rest).map (c :: ·)

def natOfDigits (digits : Text) : Nat :=
  digits.foldl (fun value c => value * 10 + (c.toNat - 48)) 0

/-- A sign at the start of a text, and the rest. -/
def signed : Text → Bool × Text
  | '-' :: rest => (true, rest)
  | '+' :: rest => (false, rest)
  | text => (false, text)

/-- The exponent that makes up a text: nothing, or a letter and a whole number. -/
def exponentOf? : Text → Option Int
  | [] => some 0
  | e :: rest =>
    let (negative, digits) := signed rest
    if (e = 'e' || e = 'E') && !digits.isEmpty && digits.all Char.isDigit then
      let size : Int := natOfDigits digits
      some (if negative then -size else size)
    else none

/-- A decimal number without sign: digits with at most one point, then perhaps an exponent. -/
def unsigned? (negative : Bool) (text : Text) : Option Binary64 := do
  let whole := text.takeWhile Char.isDigit
  let rest := text.dropWhile Char.isDigit
  let (fraction, rest) := match rest with
    | '.' :: rest => (rest.takeWhile Char.isDigit, rest.dropWhile Char.isDigit)
    | _ => ([], rest)
  if whole.isEmpty && fraction.isEmpty then none
  else
    let exponent ← exponentOf? rest
    some (ofDecimal negative (natOfDigits (whole ++ fraction)) (exponent - fraction.length))

/-- Reads a number: a decimal, an infinity or the mark of no number, with blanks around it. -/
def ofText? (text : Text) : Option Binary64 := do
  let plain ← dropUnderscores? none (plainDigits text)
  let trimmed := dropEndWhile isPlainBlank (plain.dropWhile isPlainBlank)
  let (negative, size) := signed trimmed
  let spelled := size.map Char.toLower
  if spelled = "inf".toList || spelled = "infinity".toList then some (infinite negative)
  else if spelled = "nan".toList then some nan
  else unsigned? negative size

end Binary64

end Pseudocode
