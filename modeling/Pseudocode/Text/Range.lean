namespace Pseudocode

/-- The ranges that a table of steps gives. Each range takes two numbers: how many codes lie between
the range before it and its first code, and how many codes follow the first. -/
def rangesFrom (start : Nat) : List Nat → List (Nat × Nat)
  | gap :: more :: steps => (start + gap, start + gap + more) :: rangesFrom (start + gap + more + 1) steps
  | _ => []

/-- Membership in a list of closed ranges that are written in increasing order. -/
def inRanges : List (Nat × Nat) → Nat → Bool
  | [], _ => false
  | (first, last) :: ranges, n =>
    if n < first then false else n ≤ last || inRanges ranges n

end Pseudocode
