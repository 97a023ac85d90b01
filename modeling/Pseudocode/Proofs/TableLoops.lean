import Mathlib
import Pseudocode.Text.Basic

namespace Pseudocode

/-- A whole number as it is written. -/
def integerText (n : Int) : Text :=
  if n < 0 then '-' :: Nat.toDigits 10 n.natAbs else Nat.toDigits 10 n.natAbs

namespace Lua

/-- A bound or an index: a number, perhaps moved up or down by one. -/
inductive Offset where
  | number (n : Int)
  | up (base : Offset)
  | down (base : Offset)
  deriving DecidableEq, Repr

namespace Offset

def text : Offset → Text
  | number n => integerText n
  | up base => '(' :: base.text ++ ") + 1".toList
  | down base => '(' :: base.text ++ ") - 1".toList

def value : Offset → Int
  | number n => n
  | up base => base.value + 1
  | down base => base.value - 1

end Offset

/-- A number, a constant known by its text, or a table with some cells filled. -/
inductive Value where
  | number (n : Int)
  | constant (text : Text)
  | table (cells : Int → Option Value)

/-- What the variables hold, where they hold anything. -/
abbrev Memory := Text → Option Value

/-- A table in which no cell is filled. -/
def Value.empty : Value :=
  .table fun _ => none

/-- What is found below `slot` by following the indices one after the other. -/
def reach? : (slot : Option Value) → List Int → Option Value
  | slot, [] => slot
  | some (.table cells), index :: path => reach? (cells index) path
  | _, _ :: _ => none

/-- What `slot` holds once `value` is stored below it. Every index but the last must lead to a table. -/
def store? : (slot : Option Value) → List Int → (value : Value) → Option Value
  | _, [], value => some value
  | some (.table cells), index :: path, value =>
    (store? (cells index) path value).map fun inner =>
      .table (Function.update cells index (some inner))
  | _, _ :: _, _ => none

/-- What can be stored: a new table, or a constant. -/
inductive Content where
  | newTable
  | constant (text : Text)
  deriving DecidableEq, Repr

namespace Content

def text : Content → Text
  | newTable => "\x7b\x7d".toList
  | constant text => text

def value : Content → Value
  | newTable => .empty
  | constant text => .constant text

end Content

/-- Commands on one table: a store into the variable, or into a cell below it that loop variables name,
and counted loops. -/
inductive Command where
  | skip
  | store (name : Text) (counters : List Text) (content : Content)
  | sequence (first second : Command)
  | loop (counter : Text) (low high : Offset) (body : Command)
  deriving DecidableEq, Repr

namespace Command

/-- The lines of a command, each block one step further in. -/
def lines (indent : Text) : (depth : Nat) → Command → List Text
  | _, skip => []
  | depth, store name counters content =>
    [(List.replicate depth indent).flatten ++ (name ++ counters.flatMap (fun c => '[' :: c ++ [']']) ++
      " = ".toList ++ content.text)]
  | depth, sequence first second => first.lines indent depth ++ second.lines indent depth
  | depth, loop counter low high body =>
    ((List.replicate depth indent).flatten ++ ("for ".toList ++ counter ++ " = ".toList ++ low.text ++
        ", ".toList ++ high.text ++ ", 1 do".toList)) ::
      body.lines indent (depth + 1) ++ [(List.replicate depth indent).flatten ++ "end".toList]

/-- The numbers that loop variables hold. -/
def numbers? (memory : Memory) : List Text → Option (List Int)
  | [] => some []
  | counter :: counters =>
    match memory counter with
    | some (.number n) => (numbers? memory counters).map (n :: ·)
    | _ => none

/-- The numbers from `low` to `high` in order; none if `high` is the smaller. -/
def span (low high : Int) : List Int :=
  (List.range (high + 1 - low).toNat).map fun (step : Nat) => low + step

/-- What the variables hold after a command, unless it fails. The bounds of a loop are taken once, and
its variable is seen only inside it. -/
def exec : Command → Memory → Option Memory
  | skip, memory => some memory
  | store name counters content, memory =>
    ((numbers? memory counters).bind fun path =>
      store? (memory name) path content.value).map fun value =>
        Function.update memory name (some value)
  | sequence first second, memory => (first.exec memory).bind second.exec
  | loop counter low high body, memory =>
    ((span low.value high.value).foldlM (fun inner n =>
        body.exec (Function.update inner counter (some (.number n)))) memory).map
      fun after => Function.update after counter (memory counter)

end Command

variable {slot : Option Value} {path more : List Int} {value inner result : Value}

theorem store?_append (found : reach? slot path = some inner) (more : List Int) (value : Value) :
    store? slot (path ++ more) value = (store? (some inner) more value).bind (store? slot path) := by
  induction path generalizing slot with
  | nil =>
    obtain rfl : slot = some inner := found
    simp [store?]
  | cons index path ih =>
    rcases slot with _ | _ | _ | cells
    · simp [reach?] at found
    · simp [reach?] at found
    · simp [reach?] at found
    · rw [List.cons_append, store?, ih found]
      cases store? (some inner) more value <;> rfl

/-- What was stored is found again. -/
theorem reach?_store? (stored : store? slot path value = some result) :
    reach? (some result) path = some value := by
  induction path generalizing slot result with
  | nil => exact stored.symm
  | cons index path ih =>
    rcases slot with _ | _ | _ | cells
    · simp [store?] at stored
    · simp [store?] at stored
    · simp [store?] at stored
    · obtain ⟨inner, below, rfl⟩ := Option.map_eq_some_iff.mp stored
      rw [reach?, Function.update_self]
      exact ih below

/-- A second store in the same place undoes the first. -/
theorem store?_store? (stored : store? slot path value = some result) (second : Value) :
    store? (some result) path second = store? slot path second := by
  induction path generalizing slot result with
  | nil => rfl
  | cons index path ih =>
    rcases slot with _ | _ | _ | cells
    · simp [store?] at stored
    · simp [store?] at stored
    · simp [store?] at stored
    · obtain ⟨inner, below, rfl⟩ := Option.map_eq_some_iff.mp stored
      rw [store?, store?, Function.update_self, ih below]
      simp only [Function.update_idem]

/-- To store what is there already changes nothing. -/
theorem store?_reach? (found : reach? slot path = some value) : store? slot path value = slot := by
  induction path generalizing slot with
  | nil => exact found.symm
  | cons index path ih =>
    rcases slot with _ | _ | _ | cells
    · simp [reach?] at found
    · simp [reach?] at found
    · simp [reach?] at found
    · rw [store?, ih found]
      cases held : cells index with
      | none => cases path <;> simp [held, reach?] at found
      | some inner => rw [Option.map_some, ← held, Function.update_eq_self]

theorem store?_isSome (found : reach? slot path = some inner) (value : Value) :
    ∃ result, store? slot path value = some result := by
  induction path generalizing slot with
  | nil => exact ⟨value, rfl⟩
  | cons index path ih =>
    rcases slot with _ | _ | _ | cells
    · simp [reach?] at found
    · simp [reach?] at found
    · simp [reach?] at found
    · obtain ⟨result, stored⟩ := ih found
      exact ⟨_, by rw [store?, stored, Option.map_some]⟩

namespace Command

theorem mem_span {low high n : Int} : n ∈ span low high ↔ low ≤ n ∧ n ≤ high := by
  simp only [span, List.mem_map, List.mem_range]
  constructor
  · rintro ⟨step, small, rfl⟩
    omega
  · rintro ⟨above, below⟩
    exact ⟨(n - low).toNat, by omega, by omega⟩

end Command

end Lua

end Pseudocode
