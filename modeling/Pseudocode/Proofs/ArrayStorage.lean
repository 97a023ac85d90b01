import Pseudocode.Program.Array
import Pseudocode.Proofs.TableLoops

namespace Pseudocode

open List Option

/-- A dimension of an array with numbers for bounds, as it can be written in a declaration. -/
inductive Extent where
  | range (low high : Int)
  | size (count : Int)
  deriving DecidableEq, Repr

namespace Extent

def text : Extent → Text
  | range low high => integerText low ++ '.' :: '.' :: integerText high
  | size count => integerText count

def first : Extent → Int
  | range low _ => low
  | size _ => 0

def last : Extent → Int
  | range _ high => high
  | size count => count - 1

/-- An index that the declaration allows. -/
def Contains (extent : Extent) (index : Int) : Prop :=
  extent.first ≤ index ∧ index ≤ extent.last

instance (extent : Extent) (index : Int) : Decidable (extent.Contains index) :=
  inferInstanceAs (Decidable (_ ∧ _))

/-- The last index as the declaration gives it. -/
def lastOffset : Extent → Lua.Offset
  | range _ high => .number high
  | size count => .down (.number count)

theorem lastOffset_value (extent : Extent) : extent.lastOffset.value = extent.last := by
  cases extent <;> rfl

end Extent

namespace Lua

variable {extents : List Extent} {indices : List Int}

/-- A table that holds `content` at the position of every index of a dimension. -/
def Value.filled (extent : Extent) (content : Value) : Value :=
  .table fun position => if extent.Contains (position - 1) then some content else none

/-- The table of an array. -/
def Value.array (zero : Option Text) : List Extent → Value
  | [] => .empty
  | [extent] =>
    match zero with
    | none => .empty
    | some zero => .filled extent (.constant zero)
  | extent :: rest => .filled extent (array zero rest)

theorem Value.array_next (zero : Option Text) (extent next : Extent) (rest : List Extent) :
    Value.array zero (extent :: next :: rest) = .filled extent (.array zero (next :: rest)) := by
  rw [array]
  simp

/-- The position at which an index is stored. -/
def positions (indices : List Int) : List Int :=
  indices.map (· + 1)

/-- One index for each dimension, or for the first of them, and each allowed there. -/
def Inside : List Extent → List Int → Prop
  | _, [] => True
  | [], _ :: _ => False
  | extent :: extents, index :: indices => extent.Contains index ∧ Inside extents indices

instance decidableInside : (extents : List Extent) → (indices : List Int) →
    Decidable (Inside extents indices)
  | [], [] => .isTrue trivial
  | _ :: _, [] => .isTrue trivial
  | [], _ :: _ => .isFalse id
  | extent :: extents, index :: indices =>
    have := decidableInside extents indices
    inferInstanceAs (Decidable (extent.Contains index ∧ Inside extents indices))

/-- An element of an array as it is read in Lua. -/
structure Access where
  name : Text
  offsets : List Offset
  deriving DecidableEq, Repr

namespace Access

def text (access : Access) : Text :=
  access.name ++ access.offsets.flatMap fun offset => '[' :: offset.text ++ [']']

/-- What is read, if anything is there. -/
def value? (access : Access) (memory : Memory) : Option Value :=
  reach? (memory access.name) (access.offsets.map (·.value))

/-- The element at given indices, each moved up by one. -/
def shifted (name : Text) (indices : List Int) : Access where
  name := name
  offsets := indices.map fun index => .up (.number index)

theorem value?_shifted (name : Text) (indices : List Int) (memory : Memory) :
    (shifted name indices).value? memory = reach? (memory name) (positions indices) := by
  simp [value?, shifted, positions, Function.comp_def, Offset.value]

end Access

theorem reach?_none (path : List Int) : reach? none path = none := by
  cases path <;> rfl

theorem reach?_filled (extent : Extent) (content : Value) (index : Int) (path : List Int) :
    reach? (some (.filled extent content)) ((index + 1) :: path) =
      if extent.Contains index then reach? (some content) path else none := by
  simp only [Value.filled, reach?, add_sub_cancel_right]
  split
  · rfl
  · exact reach?_none path

/-- With a zero value, the cells of an array are those of the allowed tuples, and all hold it. -/
theorem reach?_array_zero {zero : Text} (full : indices.length = extents.length) (nonempty : extents ≠ []) :
    reach? (some (.array (some zero) extents)) (positions indices) =
      if Inside extents indices then some (.constant zero) else none := by
  induction extents generalizing indices with
  | nil => exact absurd rfl nonempty
  | cons extent extents ih =>
    obtain ⟨index, indices, rfl⟩ : ∃ index rest, indices = index :: rest :=
      exists_cons_of_length_eq_add_one full
    have rest : indices.length = extents.length := by simpa using full
    cases extents with
    | nil =>
      obtain rfl : indices = [] := length_eq_zero_iff.mp rest
      simp only [positions, map_cons, map_nil, Value.array, reach?_filled, Inside, and_true]
      rfl
    | cons next extents =>
      have below := ih rest (cons_ne_nil _ _)
      rw [positions] at below
      rw [positions, map_cons, Value.array_next, reach?_filled, below]
      by_cases allowed : extent.Contains index
      · simp [allowed, Inside]
      · simp [allowed, Inside]

/-- Without a zero value, the tables of an array are those of the allowed tuples that leave out the
last index, and the tables of the last dimension are empty. -/
theorem reach?_array_none (short : indices.length < extents.length) :
    (Inside extents indices → ∃ cells,
      reach? (some (.array none extents)) (positions indices) = some (.table cells) ∧
        (indices.length + 1 = extents.length → ∀ position, cells position = none)) ∧
    (¬Inside extents indices →
      reach? (some (.array none extents)) (positions indices) = none) := by
  induction extents generalizing indices with
  | nil => simp at short
  | cons extent extents ih =>
    cases indices with
    | nil =>
      refine ⟨fun _ => ?_, fun outside => absurd trivial outside⟩
      cases extents with
      | nil => exact ⟨_, rfl, fun _ _ => rfl⟩
      | cons next extents => exact ⟨_, rfl, fun single => absurd single (by simp)⟩
    | cons index indices =>
      have rest : indices.length < extents.length := by simpa using short
      cases extents with
      | nil => simp at rest
      | cons next extents =>
        obtain ⟨held, absent⟩ := ih rest
        simp only [positions, map_cons, Value.array, reach?_filled, Inside] at held absent ⊢
        constructor
        · rintro ⟨allowed, others⟩
          obtain ⟨cells, found, empty⟩ := held others
          refine ⟨cells, by rw [if_pos allowed]; exact found, fun single => empty ?_⟩
          simpa using single
        · intro outside
          by_cases allowed : extent.Contains index
          · rw [if_pos allowed]
            exact absent fun others => outside ⟨allowed, others⟩
          · exact if_neg allowed

namespace Command

variable {memory : Memory} {name : Text} {counters : List Text} {slot : Option Value} {path : List Int}

/-- The loops that fill an array below the cell that the outer loop variables name. -/
def fill (name : Text) (zero : Option Text) (counters : List Text) : List Extent → Command
  | [] => skip
  | extent :: rest =>
    let counter := Dimension.counter counters.length
    let cell := counters ++ [counter]
    let loop (content : Content) (body : Command) : Command :=
      .loop counter (.up (.number extent.first)) (.up extent.lastOffset)
        (sequence (store name cell content) body)
    match rest, zero with
    | [], none => skip
    | [], some zero => loop (.constant zero) skip
    | _ :: _, _ => loop .newTable (fill name zero cell rest)

theorem fill_next (name : Text) (zero : Option Text) (counters : List Text) (extent next : Extent)
    (rest : List Extent) :
    fill name zero counters (extent :: next :: rest) =
      loop (Dimension.counter counters.length) (.up (.number extent.first)) (.up extent.lastOffset)
        (sequence (store name (counters ++ [Dimension.counter counters.length]) .newTable)
          (fill name zero (counters ++ [Dimension.counter counters.length]) (next :: rest))) := by
  rw [fill]

/-- What a declaration of an array does. -/
def declare (name : Text) (zero : Option Text) (extents : List Extent) : Command :=
  sequence (store name [] .newTable) (fill name zero [] extents)

theorem numbers?_update (other : name ∉ counters) :
    numbers? (Function.update memory name slot) counters = numbers? memory counters := by
  induction counters with
  | nil => rfl
  | cons counter counters ih =>
    rw [mem_cons, not_or] at other
    rw [numbers?, numbers?, Function.update_of_ne (Ne.symm other.1), ih other.2]

theorem numbers?_concat {counter : Text} {n : Int} (outer : numbers? memory counters = some path)
    (here : memory counter = some (.number n)) :
    numbers? memory (counters ++ [counter]) = some (path ++ [n]) := by
  induction counters generalizing path with
  | nil =>
    obtain rfl : [] = path := Option.some.inj outer
    simp [numbers?, here]
  | cons first counters ih =>
    rw [cons_append]
    unfold numbers? at outer ⊢
    split at outer
    · rename_i m found
      obtain ⟨rest, inner, rfl⟩ := map_eq_some_iff.mp outer
      simp only [ih inner, Option.map_some, cons_append]
    · simp at outer

theorem exists_root {value : Value} (found : reach? slot path = some value) : ∃ root, slot = some root := by
  cases slot with
  | none => rw [reach?_none] at found; simp at found
  | some root => exact ⟨root, rfl⟩

/-- What a loop leaves in a table whose cells at its positions it fills. -/
def painted (cells : Int → Option Value) (positions : List Int) (content : Value) :
    Int → Option Value :=
  fun position => if position ∈ positions then some content else cells position

theorem painted_cons (cells : Int → Option Value) (position : Int) (positions : List Int)
    (content : Value) :
    painted cells (position :: positions) content =
      painted (Function.update cells position (some content)) positions content := by
  funext other
  by_cases later : other ∈ positions
  · simp [painted, later]
  · by_cases here : other = position
    · simp [painted, here]
    · simp [painted, later, here]

/-- A loop whose body stores `content` in the cell of its variable fills all cells of its range. The
variable itself is out of sight afterwards, so only the table has changed. -/
theorem exec_loop {name counter : Text} {counters : List Text} {low high : Offset} {body : Command}
    {path : List Int} {content : Value} {memory : Memory} {cells : Int → Option Value}
    (ownName : name ≠ counter) (ownCounter : counter ∉ counters) (apart : name ∉ counters)
    (stores : ∀ {memory : Memory} {n : Int} {cells : Int → Option Value},
      memory counter = some (.number n) → numbers? memory counters = some path →
      reach? (memory name) path = some (.table cells) →
      body.exec memory = (store? (memory name) (path ++ [n]) content).map fun value =>
        Function.update memory name (some value))
    (outer : numbers? memory counters = some path)
    (found : reach? (memory name) path = some (.table cells)) :
    (loop counter low high body).exec memory =
      (store? (memory name) path (.table (painted cells (span low.value high.value) content))).map
        fun value => Function.update memory name (some value) := by
  obtain ⟨hidden, old⟩ : ∃ hidden, hidden = memory counter := ⟨_, rfl⟩
  have turns (positions : List Int) {memory : Memory} {cells : Int → Option Value}
      (outer : numbers? memory counters = some path)
      (found : reach? (memory name) path = some (.table cells)) :
      (positions.foldlM (fun inner n =>
          body.exec (Function.update inner counter (some (.number n)))) memory).map
          (fun after => Function.update after counter hidden) =
        (store? (memory name) path (.table (painted cells positions content))).map fun value =>
          Function.update (Function.update memory name (some value)) counter hidden := by
    induction positions generalizing memory cells with
    | nil =>
      have same : painted cells [] content = cells := by funext position; simp [painted]
      obtain ⟨root, rooted⟩ := exists_root found
      rw [same, store?_reach? found, rooted]
      simp only [List.foldlM_nil, Option.pure_def, Option.map_some]
      rw [← rooted, Function.update_eq_self]
    | cons n positions ih =>
      have seen : Function.update memory counter (some (.number n)) name = memory name :=
        Function.update_of_ne ownName _ _
      have below : store? (memory name) (path ++ [n]) content =
          store? (memory name) path (.table (Function.update cells n (some content))) := by
        rw [store?_append found]
        simp [store?]
      obtain ⟨root, stored⟩ := store?_isSome found (.table (Function.update cells n (some content)))
      have step := stores (Function.update_self counter (some (.number n)) memory)
        ((numbers?_update ownCounter).trans outer) (seen ▸ found)
      rw [seen, below, stored, Option.map_some] at step
      rw [foldlM_cons, step, bind_eq_bind, bind_some]
      have later := @ih (Function.update (Function.update memory counter (some (.number n)))
        name (some root)) (Function.update cells n (some content))
        ((numbers?_update apart).trans ((numbers?_update ownCounter).trans outer))
        (by rw [Function.update_self]; exact reach?_store? stored)
      rw [later, Function.update_self, store?_store? stored, painted_cons]
      congr 1
      funext value
      rw [Function.update_idem, Function.update_comm (Ne.symm ownName), Function.update_idem]
  rw [exec, ← old, turns _ outer found]
  congr 1
  funext value
  rw [old, ← Function.update_of_ne (Ne.symm ownName) (some value) memory, Function.update_eq_self]

theorem painted_span (extent : Extent) (content : Value) :
    Value.table (painted (fun _ => none)
      (span (Offset.up (.number extent.first)).value (Offset.up extent.lastOffset).value) content) =
        .filled extent content := by
  rw [Value.filled]
  congr 1
  funext position
  have same : position ∈ span (extent.first + 1) (extent.last + 1) ↔
      extent.Contains (position - 1) := by
    rw [mem_span, Extent.Contains]
    omega
  simp only [painted, Offset.value, Extent.lastOffset_value, same]

theorem counter_injective : Function.Injective Dimension.counter := by
  intro first second same
  have digits : Nat.toDigits 10 (first + 1) = Nat.toDigits 10 (second + 1) := by
    simpa only [Dimension.counter, Nat.toString_eq_repr, Nat.toList_repr, append_cancel_left_eq]
      using same
  have number := congrArg (Nat.ofDigitChars 10 · 0) digits
  simp only [Nat.ofDigitChars_ten_toDigits] at number
  omega

theorem counter_not_mem (depth : Nat) :
    Dimension.counter depth ∉ (List.range depth).map Dimension.counter := by
  intro member
  obtain ⟨other, inside, same⟩ := mem_map.mp member
  rw [counter_injective same, mem_range] at inside
  omega

theorem exec_unchanged {value : Value} (found : reach? (memory name) path = some value) :
    skip.exec memory = (store? (memory name) path value).map fun value =>
      Function.update memory name (some value) := by
  obtain ⟨root, rooted⟩ := exists_root found
  rw [store?_reach? found, rooted, Option.map_some, ← rooted, Function.update_eq_self, exec]

theorem exec_store {memory : Memory} {name : Text} {counters : List Text} {content : Content}
    {path : List Int} (outer : numbers? memory counters = some path) :
    (store name counters content).exec memory =
      (store? (memory name) path content.value).map fun value =>
        Function.update memory name (some value) := by
  rw [exec, outer, bind_some]

/-- The loops build the table of the array in the empty table where they start. -/
theorem exec_fill {name : Text} {zero : Option Text} {extents : List Extent} {depth : Nat}
    {path : List Int} {memory : Memory} (own : ∀ depth, name ≠ Dimension.counter depth)
    (outer : numbers? memory ((List.range depth).map Dimension.counter) = some path)
    (found : reach? (memory name) path = some .empty) :
    (fill name zero ((List.range depth).map Dimension.counter) extents).exec memory =
      (store? (memory name) path (.array zero extents)).map fun value =>
        Function.update memory name (some value) := by
  have apart (depth : Nat) : name ∉ (List.range depth).map Dimension.counter := by
    intro member
    obtain ⟨other, -, same⟩ := mem_map.mp member
    exact own other same.symm
  have cell (depth : Nat) : (List.range depth).map Dimension.counter ++ [Dimension.counter depth] =
      (List.range (depth + 1)).map Dimension.counter := by
    rw [range_succ, map_append, map_singleton]
  induction extents generalizing depth path memory with
  | nil => exact exec_unchanged found
  | cons extent rest ih =>
    -- the loop over this dimension, given what its body stores for one index
    have looped {body : Command} {content : Value}
        (stores : ∀ {memory : Memory} {n : Int} {cells : Int → Option Value},
          memory (Dimension.counter depth) = some (.number n) →
          numbers? memory ((List.range depth).map Dimension.counter) = some path →
          reach? (memory name) path = some (.table cells) →
          body.exec memory = (store? (memory name) (path ++ [n]) content).map fun value =>
            Function.update memory name (some value)) :
        (loop (Dimension.counter depth) (.up (.number extent.first)) (.up extent.lastOffset)
          body).exec memory = (store? (memory name) path (.filled extent content)).map fun value =>
            Function.update memory name (some value) := by
      rw [exec_loop (own depth) (counter_not_mem depth) (apart depth) stores outer found, painted_span]
    cases rest with
    | nil =>
      cases zero with
      | none => exact exec_unchanged found
      | some zero =>
        simp only [fill, length_map, length_range, Value.array]
        refine looped fun {memory n cells} here outer _ => ?_
        have stored := @exec_store _ name _ (.constant zero) _ (numbers?_concat outer here)
        rw [exec, stored, show skip.exec = some from rfl, bind_fun_some]
        rfl
    | cons next rest =>
      rw [fill_next, length_map, length_range, Value.array_next]
      refine looped fun {memory n cells} here outer below => ?_
      have stored := @exec_store _ name _ .newTable _ (numbers?_concat outer here)
      obtain ⟨root, rooted⟩ : ∃ root, store? (memory name) (path ++ [n]) .empty = some root := by
        rw [store?_append below]
        exact store?_isSome below _
      rw [exec, stored, Content.value, rooted, Option.map_some, bind_some, cell]
      have inner := @ih (depth + 1) (path ++ [n]) (Function.update memory name (some root))
        (by rw [numbers?_update (apart _), ← cell]; exact numbers?_concat outer here)
        (by rw [Function.update_self]; exact reach?_store? rooted)
      rw [inner, Function.update_self, store?_store? rooted]
      simp only [Function.update_idem]

/-- A declaration ends normally, and its variable then holds the table of the array. -/
theorem exec_declare {zero : Option Text} (memory : Memory) (own : ∀ depth, name ≠ Dimension.counter depth) :
    (declare name zero extents).exec memory =
      some (Function.update memory name (some (.array zero extents))) := by
  have stored : (store name [] .newTable).exec memory =
      some (Function.update memory name (some .empty)) := by
    rw [exec_store rfl]
    rfl
  have filled := @exec_fill name zero extents 0 [] (Function.update memory name (some .empty)) own rfl
    (by rw [Function.update_self]; rfl)
  rw [declare, exec, stored, bind_some]
  refine filled.trans ?_
  rw [store?, Option.map_some, Function.update_idem]

end Command

end Lua

end Pseudocode
