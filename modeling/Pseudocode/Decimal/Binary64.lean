namespace Pseudocode

/-- A double-precision number. A finite one is its mantissa times a power of two; the mantissa has
53 bits unless the exponent is the least one. -/
inductive Binary64 where
  | nan
  | infinite (negative : Bool)
  | finite (negative : Bool) (mantissa : Nat) (exponent : Int)
  deriving DecidableEq, Repr

namespace Binary64

def precision : Nat := 53

def leastExponent : Int := -1074

def greatestExponent : Int := 971

/-- The whole number nearest to a fraction, and the even one of two that are equally near. -/
def nearest (numerator denominator : Nat) : Nat :=
  let whole := numerator / denominator
  let rest := numerator % denominator
  if denominator < 2 * rest ∨ (2 * rest = denominator ∧ whole % 2 = 1) then whole + 1 else whole

/-- A fraction in units of a power of two, rounded. -/
def inUnits (numerator denominator : Nat) (exponent : Int) : Nat :=
  nearest (numerator * Nat.pow 2 (-exponent).toNat) (denominator * Nat.pow 2 exponent.toNat)

/-- The number nearest to a fraction. -/
def ofFraction (negative : Bool) (numerator denominator : Nat) : Binary64 :=
  if numerator = 0 then finite negative 0 leastExponent
  else
    let estimate : Int := (Nat.log2 numerator : Int) - Nat.log2 denominator - precision
    let fits (exponent : Int) := inUnits numerator denominator exponent < Nat.pow 2 precision
    let exponent := if fits estimate then estimate else estimate + 1
    let exponent := if exponent < leastExponent then leastExponent else exponent
    let mantissa := inUnits numerator denominator exponent
    let carried := mantissa = Nat.pow 2 precision
    let exponent := if carried then exponent + 1 else exponent
    if greatestExponent < exponent then infinite negative
    else finite negative (if carried then Nat.pow 2 (precision - 1) else mantissa) exponent

/-- The number nearest to `digits` times a power of ten. Powers far out of range are not worked
out. -/
def ofDecimal (negative : Bool) (digits : Nat) (exponent : Int) : Binary64 :=
  let magnitude := (Nat.toDigits 10 digits).length + exponent
  if digits = 0 ∨ magnitude < -400 then finite negative 0 leastExponent
  else if 400 < magnitude then infinite negative
  else ofFraction negative (digits * Nat.pow 10 exponent.toNat) (Nat.pow 10 (-exponent).toNat)

def isPositive : Binary64 → Bool
  | nan => false
  | infinite negative => !negative
  | finite negative mantissa _ => !negative && mantissa ≠ 0

/-- The number is zero or less; a number that is none is not. -/
def isAtMostZero : Binary64 → Bool
  | nan => false
  | number => !number.isPositive

end Binary64

end Pseudocode
