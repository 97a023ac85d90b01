import Pseudocode.Text.Basic
import Pseudocode.Fault

namespace Pseudocode

/-- The text up to the closer that ends `depth` further open brackets and the one before the
text, and the text after that closer. -/
def splitClose? (opener closer : Char) : (depth : Nat) → Text → Option (Text × Text)
  | _, [] => none
  | depth, c :: rest =>
    let within (depth : Nat) :=
      (splitClose? opener closer depth rest).map fun (inside, after) => (c :: inside, after)
    if c = opener then within (depth + 1)
    else if c = closer then
      match depth with
      | 0 => some ([], rest)
      | depth + 1 => within depth
    else within depth

/-- The inside of a group whose opening parenthesis stands just before the text, and the rest. -/
def splitParen? (text : Text) : Option (Text × Text) :=
  splitClose? '(' ')' 0 text

theorem splitClose?_length {opener closer : Char} {text : Text} :
    ∀ {depth : Nat} {inside after : Text},
      splitClose? opener closer depth text = some (inside, after) →
        inside.length + after.length < text.length := by
  induction text with
  | nil => intro depth inside after found; simp [splitClose?] at found
  | cons c rest ih =>
    have step : ∀ {depth : Nat} {inside after : Text},
        (splitClose? opener closer depth rest).map
          (fun (inside, after) => (c :: inside, after)) = some (inside, after) →
        inside.length + after.length < (c :: rest).length := by
      intro depth inside after found
      obtain ⟨⟨inner, tail⟩, deeper, same⟩ := Option.map_eq_some_iff.mp found
      have shorter := ih deeper
      simp only [Prod.mk.injEq] at same
      obtain ⟨rfl, rfl⟩ := same
      simp only [List.length_cons]
      omega
    intro depth inside after found
    simp only [splitClose?] at found
    split at found
    · exact step found
    · split at found
      · split at found
        · simp only [Option.some.injEq, Prod.mk.injEq] at found
          obtain ⟨rfl, rfl⟩ := found
          simp
        · exact step found
      · exact step found

theorem splitParen?_drop_length {text inside after : Text} {n : Nat}
    (found : splitParen? (text.drop n) = some (inside, after)) :
    inside.length < text.length ∧ after.length < text.length := by
  have shorter := splitClose?_length found
  simp only [List.length_drop] at shorter
  omega

/-- The place of the bracket that closes the one at `place`. A negative place counts from the end
of the text, and the search then runs through the end and on from the start. -/
def closingPlace (opener closer : Char) (text : Text) (place : Int) : Except Fault (Option Int) :=
  let start := place + 1
  let found (searched : Text) : Option Int :=
    (splitClose? opener closer 0 searched).map fun (inside, _) => start + inside.length
  if 0 ≤ start then .ok (found (text.drop start.toNat))
  else if start < -(text.length : Int) then .error .placeOutsideText
  else .ok (found (text.drop (text.length + start).toNat ++ text))

/-- The text up to its first closing parenthesis beyond `depth` that nothing opens. -/
def cutUnbalanced : (depth : Nat) → Text → Text
  | _, [] => []
  | depth, c :: rest =>
    if c = '(' then c :: cutUnbalanced (depth + 1) rest
    else if c = ')' then
      match depth with
      | 0 => []
      | depth + 1 => c :: cutUnbalanced depth rest
    else c :: cutUnbalanced depth rest

end Pseudocode
