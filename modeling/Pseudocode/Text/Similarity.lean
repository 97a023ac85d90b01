import Pseudocode.Text.Basic

namespace Pseudocode

/-- The longest common stretch of two texts: its place in each and its length. Of several the
first in `a` is taken, and then the first in `b`. -/
def longestCommon (a b : Text) : Nat × Nat × Nat :=
  let common (i j : Nat) : Nat :=
    (((a.drop i).zip (b.drop j)).takeWhile fun (x, y) => x == y).length
  let places := (List.range a.length).flatMap fun i => (List.range b.length).map (i, ·)
  places.foldl (fun (i, j, best) (x, y) =>
    if best < common x y then (x, y, common x y) else (i, j, best)) (0, 0, 0)

/-- How many characters two texts share: those of the longest common stretch, and then those on
its left and on its right. -/
def sharedLength : (fuel : Nat) → Text → Text → Nat
  | 0, _, _ => 0
  | fuel + 1, a, b =>
    match longestCommon a b with
    | (_, _, 0) => 0
    | (i, j, length) =>
      length + sharedLength fuel (a.take i) (b.take j) +
        sharedLength fuel (a.drop (i + length)) (b.drop (j + length))

/-- The share of the characters of two texts that they have in common, as a fraction. -/
def similarity (a b : Text) : Nat × Nat :=
  (2 * sharedLength a.length a b, a.length + b.length)

/-- At most three of the candidates that share three fifths with a word, the most similar first. -/
def closeMatches (word : Text) (candidates : List Text) : List Text :=
  let scored := candidates.map fun candidate => (similarity candidate word, candidate)
  let close := scored.filter fun ((shared, total), _) => 3 * total ≤ 5 * shared && total ≠ 0
  let better : ((Nat × Nat) × Text) → ((Nat × Nat) × Text) → Bool :=
    fun ((s, t), x) ((s', t'), y) => s' * t < s * t' || (s' * t = s * t' && inOrder y x)
  ((close.mergeSort better).take 3).map (·.2)

end Pseudocode
