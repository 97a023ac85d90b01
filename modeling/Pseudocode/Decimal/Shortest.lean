import Pseudocode.Decimal.Binary64
import Pseudocode.Text.Basic

namespace Pseudocode

namespace Binary64

/-- The numbers that are read as a given double, in fractions of one denominator. The ends belong
to them if the mantissa is even. -/
structure Interval where
  low : Nat
  value : Nat
  high : Nat
  denominator : Nat
  closed : Bool
  deriving DecidableEq, Repr

/-- The interval of a double. The lower neighbour of a power of two is half as far as the upper. -/
def interval (mantissa : Nat) (exponent : Int) : Interval :=
  let unit := Nat.pow 2 exponent.toNat
  let isPower := mantissa = Nat.pow 2 (precision - 1) ∧ leastExponent < exponent
  { low := 4 * mantissa * unit - (if isPower then unit else 2 * unit)
    value := 4 * mantissa * unit
    high := 4 * mantissa * unit + 2 * unit
    denominator := 4 * Nat.pow 2 (-exponent).toNat
    closed := mantissa % 2 = 0 }

/-- A count of powers of ten lies in the interval. -/
def Interval.contains (interval : Interval) (count : Nat) (power : Int) : Bool :=
  let scaled := count * Nat.pow 10 power.toNat * interval.denominator
  let scale (n : Nat) := n * Nat.pow 10 (-power).toNat
  if interval.closed then scale interval.low ≤ scaled && scaled ≤ scale interval.high
  else scale interval.low < scaled && scaled < scale interval.high

/-- How far a count of powers of ten is from the value, on a scale that depends on the power
alone. -/
def Interval.distance (interval : Interval) (count : Nat) (power : Int) : Nat :=
  let scaled := count * Nat.pow 10 power.toNat * interval.denominator
  let value := interval.value * Nat.pow 10 (-power).toNat
  (scaled - value) + (value - scaled)

/-- The power of ten just above a positive fraction. -/
def magnitude (numerator denominator : Nat) : Int :=
  if denominator ≤ numerator then (Nat.toDigits 10 (numerator / denominator)).length
  else
    let zeros := (List.range 400).find? fun zeros =>
      denominator ≤ numerator * Nat.pow 10 (zeros + 1)
    Int.neg (zeros.getD 400)

/-- The nearest count of powers of ten in the interval. Of two that are equally near the even one
is taken. -/
def Interval.nearestCount? (interval : Interval) (power : Int) : Option Nat :=
  let below := interval.value * Nat.pow 10 (-power).toNat /
    (interval.denominator * Nat.pow 10 power.toNat)
  let above := below + 1
  match interval.contains below power, interval.contains above power with
  | false, false => none
  | true, false => some below
  | false, true => some above
  | true, true =>
    let toBelow := interval.distance below power
    let toAbove := interval.distance above power
    if toBelow < toAbove ∨ (toBelow = toAbove ∧ below % 2 = 0) then some below else some above

/-- The fewest decimal digits that are read as the double, as a count and a power of ten. -/
def shortest (mantissa : Nat) (exponent : Int) : Nat × Int :=
  let interval := interval mantissa exponent
  let top := magnitude interval.value interval.denominator
  ((List.range 17).findSome? fun extra =>
    let power := top - (extra + 1 : Nat)
    (interval.nearestCount? power).map (·, power)).getD (mantissa, exponent)

/-- The digits of a count without the zeros at its end, and the place of the decimal point from
its start. -/
def significant (count : Nat) (power : Int) : Text × Int :=
  let digits := Nat.toDigits 10 count
  (dropEndWhile (· = '0') digits, digits.length + power)

/-- Digits with a point after the first `point` of them, and zeros where needed. -/
def positional (digits : Text) (point : Int) : Text :=
  if point ≤ 0 then "0.".toList ++ List.replicate (-point).toNat '0' ++ digits
  else
    let whole := digits.take point.toNat
    let padded := whole ++ List.replicate (point.toNat - whole.length) '0'
    match digits.drop point.toNat with
    | [] => padded ++ ".0".toList
    | rest => padded ++ '.' :: rest

/-- Digits with a power of ten, which has a sign and at least two digits. -/
def scientific (digits : Text) (point : Int) : Text :=
  let power := point - 1
  let size := Nat.toDigits 10 power.natAbs
  let padded := if size.length < 2 then '0' :: size else size
  let head := match digits with
    | [] => ['0']
    | [d] => [d]
    | d :: rest => d :: '.' :: rest
  head ++ 'e' :: (if power < 0 then '-' else '+') :: padded

/-- The text of a double: the fewest digits that are read as it, positional from a ten-thousandth
up to ten to the sixteenth. -/
def toText : Binary64 → Text
  | nan => "nan".toList
  | infinite negative => if negative then "-inf".toList else "inf".toList
  | finite negative mantissa exponent =>
    let sign := if negative then ['-'] else []
    if mantissa = 0 then sign ++ "0.0".toList
    else
      let (count, power) := shortest mantissa exponent
      let (digits, point) := significant count power
      sign ++ if -4 < point ∧ point ≤ 16 then positional digits point else scientific digits point

end Binary64

end Pseudocode
