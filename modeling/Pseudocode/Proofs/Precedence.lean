import Pseudocode.Proofs.Grammar

namespace Pseudocode

open List Option

namespace Lua

/-- An operator before its operand. -/
inductive Unary where
  | negation
  | length
  deriving DecidableEq, Repr

/-- An operator between its operands. -/
inductive Binary where
  | operator (operator : Operator)
  | concatenation
  deriving DecidableEq, Repr

def Unary.text : Unary → Text
  | .negation => Words.lua.opening .negation
  | .length => ['#']

def Binary.text : Binary → Text
  | .operator sign => Words.lua.opening (.operator sign)
  | .concatenation => Inline.joint

def power : Operator → Nat
  | .either => 1
  | .both => 2
  | .equal | .unequal | .less | .greater | .atMost | .atLeast => 3
  | .plus | .minus => 10
  | .times | .over | .quotient | .remainder => 11

/-- How tightly an operator binds what is before it. -/
def Binary.left : Binary → Nat
  | .operator sign => power sign
  | .concatenation => 9

/-- How tightly an operator binds what is after it. Only concatenation associates to the right. -/
def Binary.right : Binary → Nat
  | .operator sign => power sign
  | .concatenation => 8

/-- How tightly every unary operator binds. -/
def unaryPower : Nat :=
  12

namespace Binary

variable (sign : Binary)

theorem right_le_left : sign.right ≤ sign.left := by
  cases sign with
  | operator operator => exact le_rfl
  | concatenation => decide

theorem left_le_right : sign.left ≤ sign.right + 1 := by
  cases sign with
  | operator operator => exact Nat.le_succ _
  | concatenation => decide

theorem left_lt_unary : sign.left < unaryPower := by
  cases sign with
  | operator operator => cases operator <;> decide
  | concatenation => decide

end Binary

/-- The text before the items of a bracket, between them and after them. There are commas between
items where nothing else is given. -/
structure Bracket where
  lead : Text
  breaks : List Text
  close : Text
  deriving DecidableEq, Repr

/-- An expression of Lua as it is read. -/
inductive Tree where
  | operand (text : Text)
  | unary (sign : Unary) (operand : Tree)
  | binary (sign : Binary) (left right : Tree)
  | bracket (kind : Bracket) (items : List Tree)

/-- What an expression is written with. -/
inductive Token where
  | operand (text : Text)
  | unary (sign : Unary)
  | binary (sign : Binary)
  | opens (kind : Bracket)
  | next (text : Text)
  | closes (text : Text)
  deriving DecidableEq, Repr

def Token.text : Token → Text
  | .operand text => text
  | .unary sign => sign.text
  | .binary sign => sign.text
  | .opens kind => kind.lead
  | .next text => text
  | .closes text => text

/-- The text of tokens one after the other. -/
def spell (tokens : List Token) : Text :=
  tokens.flatMap Token.text

namespace Tree

mutual

/-- A tree written down, with no parentheses but those that are part of it. -/
def tokens : Tree → List Token
  | .operand text => [.operand text]
  | .unary sign inner => .unary sign :: inner.tokens
  | .binary sign left right => left.tokens ++ .binary sign :: right.tokens
  | .bracket kind [] => [.opens kind, .closes kind.close]
  | .bracket kind (first :: items) =>
    .opens kind :: (first.tokens ++ (laterTokens kind.breaks items ++ [.closes kind.close]))

def laterTokens : (breaks : List Text) → List Tree → List Token
  | _, [] => []
  | breaks, item :: items =>
    .next (breaks.headD [',', ' ']) :: (item.tokens ++ laterTokens breaks.tail items)

end

/-- An operator of that power before the tree does not reach into it. -/
def isAbove (power : Nat) : Tree → Bool
  | .binary sign _ _ => power < sign.left
  | _ => true

/-- An operator of that power after the tree does not reach into it. -/
def isTight (power : Nat) : Tree → Bool
  | .binary sign _ _ => power ≤ sign.right
  | _ => true

/-- No operator reaches into its operands. -/
inductive IsCanonical : Tree → Prop
  | operand (text : Text) : IsCanonical (.operand text)
  | unary {sign : Unary} {operand : Tree} :
      operand.isAbove unaryPower = true → IsCanonical operand → IsCanonical (.unary sign operand)
  | binary {sign : Binary} {left right : Tree} :
      left.isTight sign.left = true → right.isAbove sign.right = true → IsCanonical left →
        IsCanonical right → IsCanonical (.binary sign left right)
  | bracket {kind : Bracket} {items : List Tree} :
      (∀ item ∈ items, IsCanonical item) → IsCanonical (.bracket kind items)

end Tree

/-- What waits for an operand to end. -/
inductive Frame where
  | unary (sign : Unary)
  | binary (left : Tree) (sign : Binary)
  | bracket (kind : Bracket) (done : List Tree)

/-- What waits, innermost first, and the operand that has just been read. -/
structure Reader where
  stack : List Frame
  operand : Option Tree

/-- Operators that bind at least as tightly as `power` take the operand. -/
def settle (power : Nat) : List Frame → Tree → List Frame × Tree
  | .unary sign :: stack, tree =>
    if power ≤ unaryPower then settle power stack (.unary sign tree) else (.unary sign :: stack, tree)
  | .binary left sign :: stack, tree =>
    if power ≤ sign.right then settle power stack (.binary sign left tree)
    else (.binary left sign :: stack, tree)
  | stack, tree => (stack, tree)

/-- The next token is read. -/
def step : Reader → Token → Option Reader
  | ⟨stack, none⟩, .operand text => some ⟨stack, some (.operand text)⟩
  | ⟨stack, none⟩, .unary sign => some ⟨.unary sign :: stack, none⟩
  | ⟨stack, none⟩, .opens kind => some ⟨.bracket kind [] :: stack, none⟩
  | ⟨.bracket kind [] :: stack, none⟩, .closes _ => some ⟨stack, some (.bracket kind [])⟩
  | ⟨stack, some tree⟩, .binary sign =>
    let (stack, left) := settle sign.left stack tree
    some ⟨.binary left sign :: stack, none⟩
  | ⟨stack, some tree⟩, .next _ =>
    match settle 0 stack tree with
    | (.bracket kind done :: stack, item) => some ⟨.bracket kind (done ++ [item]) :: stack, none⟩
    | _ => none
  | ⟨stack, some tree⟩, .closes _ =>
    match settle 0 stack tree with
    | (.bracket kind done :: stack, item) => some ⟨stack, some (.bracket kind (done ++ [item]))⟩
    | _ => none
  | _, _ => none

def run (reader : Reader) (tokens : List Token) : Option Reader :=
  tokens.foldlM step reader

/-- The tree that tokens are read as: an operator takes as operand what binds more tightly. -/
def read (tokens : List Token) : Option Tree := do
  let reader ← run ⟨[], none⟩ tokens
  let operand ← reader.operand
  match settle 0 reader.stack operand with
  | ([], tree) => some tree
  | _ => none

theorem run_append (reader : Reader) (first second : List Token) :
    run reader (first ++ second) = run reader first >>= (run · second) :=
  foldlM_append

theorem run_cons (reader : Reader) (token : Token) (tokens : List Token) :
    run reader (token :: tokens) = step reader token >>= (run · tokens) :=
  foldlM_cons

/-- The power of the operator that waits for the operand. -/
def pending : List Frame → Option Nat
  | .unary _ :: _ => some unaryPower
  | .binary _ sign :: _ => some sign.right
  | _ => none

/-- What waits does not reach into the tree. -/
def Admits (stack : List Frame) (tree : Tree) : Prop :=
  ∀ power ∈ pending stack, tree.isAbove power = true

/-- What waits lets an operator of that power go first. -/
def Yields (stack : List Frame) (power : Nat) : Prop :=
  ∀ waiting ∈ pending stack, waiting < power

theorem settle_idle {stack : List Frame} {power : Nat} (yields : Yields stack power) (tree : Tree) :
    settle power stack tree = (stack, tree) := by
  cases stack with
  | nil => rfl
  | cons frame stack =>
    cases frame with
    | unary sign => rw [settle, if_neg (by simpa using yields unaryPower rfl)]
    | binary left sign => rw [settle, if_neg (by simpa using yields sign.right rfl)]
    | bracket kind done => rfl

section Completeness

/-- Tokens of a tree are read as the tree, once an operator that does not reach into it comes. -/
def Pushes (stack : List Frame) (tree : Tree) : Prop :=
  ∃ after operand, run ⟨stack, none⟩ tree.tokens = some ⟨after, some operand⟩ ∧
    ∀ power ≤ unaryPower, tree.isTight power = true →
      settle power after operand = settle power stack tree

theorem Pushes.unary {stack : List Frame} {sign : Unary} {operand : Tree}
    (above : operand.isAbove unaryPower = true) (pushes : Pushes (.unary sign :: stack) operand) :
    Pushes stack (.unary sign operand) := by
  obtain ⟨after, last, ran, settled⟩ := pushes
  refine ⟨after, last, ?_, fun power low _ => ?_⟩
  · rw [Tree.tokens, run_cons]
    exact ran
  · have tight : operand.isTight power = true := by
      cases operand with
      | binary inner _ _ =>
        simp only [Tree.isAbove, decide_eq_true_eq] at above
        exact absurd above (by have := inner.left_lt_unary; omega)
      | operand _ | unary _ _ | bracket _ _ => rfl
    rw [settled power low tight, settle, if_pos low]

theorem Pushes.binary {stack : List Frame} {sign : Binary} {left right : Tree}
    (tight : left.isTight sign.left = true) (above : right.isAbove sign.right = true)
    (yields : Yields stack sign.left) (before : Pushes stack left)
    (behind : Pushes (.binary left sign :: stack) right) : Pushes stack (.binary sign left right) := by
  obtain ⟨first, operand, ranLeft, settledLeft⟩ := before
  obtain ⟨after, last, ranRight, settledRight⟩ := behind
  refine ⟨after, last, ?_, fun power low weak => ?_⟩
  · have settled := settledLeft sign.left sign.left_lt_unary.le tight
    rw [settle_idle yields] at settled
    rw [Tree.tokens, run_append, ranLeft, bind_eq_bind, bind_some, run_cons, step, settled]
    exact ranRight
  · simp only [Tree.isTight, decide_eq_true_eq] at weak
    have tightRight : right.isTight power = true := by
      cases right with
      | binary inner _ _ =>
        simp only [Tree.isAbove, Tree.isTight, decide_eq_true_eq] at above ⊢
        have := inner.left_le_right
        omega
      | operand _ | unary _ _ | bracket _ _ => rfl
    rw [settledRight power low tightRight, settle, if_pos weak]

/-- An item of a bracket is read before what ends it. -/
theorem Pushes.settles {stack : List Frame} {kind : Bracket} {done : List Tree} {item : Tree}
    (pushes : Pushes (.bracket kind done :: stack) item) :
    ∃ after operand, run ⟨.bracket kind done :: stack, none⟩ item.tokens = some ⟨after, some operand⟩ ∧
      settle 0 after operand = (.bracket kind done :: stack, item) := by
  obtain ⟨after, operand, ran, settled⟩ := pushes
  refine ⟨after, operand, ran, ?_⟩
  have tight : item.isTight 0 = true := by
    cases item <;> simp [Tree.isTight]
  rw [settled 0 (Nat.zero_le _) tight]
  rfl

theorem run_later {stack frames : List Frame} {kind : Bracket} {items done : List Tree}
    {first operand : Tree}
    (each : ∀ item ∈ items, ∀ done, Pushes (.bracket kind done :: stack) item) (breaks : List Text)
    (settled : settle 0 frames operand = (.bracket kind done :: stack, first)) :
    run ⟨frames, some operand⟩ (Tree.laterTokens breaks items ++ [.closes kind.close]) =
      some ⟨stack, some (.bracket kind (done ++ first :: items))⟩ := by
  induction items generalizing breaks done first frames operand with
  | nil =>
    rw [Tree.laterTokens, nil_append, run_cons, step, settled]
    rfl
  | cons item items ih =>
    obtain ⟨after, last, ran, ends⟩ := (each item (.head _) (done ++ [first])).settles
    have later := ih (fun other member => each other (.tail _ member)) breaks.tail ends
    rw [Tree.laterTokens, cons_append, run_cons, step, settled]
    simp only [bind_eq_bind, bind_some]
    rw [append_assoc, run_append, ran, bind_eq_bind, bind_some, later]
    simp

theorem Tree.IsCanonical.pushes {tree : Tree} (canonical : tree.IsCanonical) {stack : List Frame}
    (admits : Admits stack tree) : Pushes stack tree := by
  induction canonical generalizing stack with
  | operand text => exact ⟨stack, .operand text, rfl, fun _ _ _ => rfl⟩
  | unary above _ ih =>
    refine .unary above (ih fun power waits => ?_)
    obtain rfl : unaryPower = power := by simpa [pending] using waits
    exact above
  | @binary sign left right tight above _ _ ihLeft ihRight =>
    have yields : Yields stack sign.left := fun waiting waits => by
      simpa [isAbove] using admits waiting waits
    refine .binary tight above yields (ihLeft fun power waits => ?_) (ihRight fun power waits => ?_)
    · -- what waits is looser than the operator, and so than the root of its left operand
      have looser := yields power waits
      cases left with
      | binary inner _ _ =>
        simp only [isAbove, isTight, decide_eq_true_eq] at tight ⊢
        have := inner.right_le_left
        omega
      | operand _ | unary _ _ | bracket _ _ => rfl
    · obtain rfl : sign.right = power := by simpa [pending] using waits
      exact above
  | @bracket kind items _ ih =>
    have each : ∀ item ∈ items, ∀ done, Pushes (.bracket kind done :: stack) item :=
      fun item member done => ih item member fun power waits => by simp [pending] at waits
    refine ⟨stack, .bracket kind items, ?_, fun _ _ _ => rfl⟩
    cases items with
    | nil => rfl
    | cons first items =>
      obtain ⟨after, operand, ran, ends⟩ := (each first (.head _) []).settles
      have later := run_later (fun item member => each item (.tail _ member))
        kind.breaks ends
      rw [tokens, run_cons, step, bind_eq_bind, bind_some, run_append, ran,
        bind_eq_bind, bind_some, later]
      rfl

theorem Tree.IsCanonical.read_tokens {tree : Tree} (canonical : tree.IsCanonical) :
    read tree.tokens = some tree := by
  have admits : Admits [] tree := fun power waits => by simp [pending] at waits
  obtain ⟨after, operand, ran, settled⟩ := canonical.pushes admits
  have tight : tree.isTight 0 = true := by
    cases tree <;> simp [isTight]
  rw [read, ran]
  simp only [bind_eq_bind, bind_some, settled 0 (Nat.zero_le _) tight]
  rfl

end Completeness

section Soundness

/-- What waits was read as it should be: an operator waits above what is looser, and nothing reaches
into its left operand. -/
inductive Sound : List Frame → Prop
  | nil : Sound []
  | unary {sign : Unary} {stack : List Frame} : Sound stack → Sound (.unary sign :: stack)
  | binary {left : Tree} {sign : Binary} {stack : List Frame} :
      left.IsCanonical → left.isTight sign.left = true → Yields stack sign.left → Sound stack →
        Sound (.binary left sign :: stack)
  | bracket {kind : Bracket} {done : List Tree} {stack : List Frame} :
      (∀ item ∈ done, item.IsCanonical) → Sound stack → Sound (.bracket kind done :: stack)

/-- An operand that no operator reaches into. -/
def Tree.isClosed : Tree → Bool
  | .operand _ => true
  | .bracket _ _ => true
  | _ => false

structure Reader.Sound (reader : Reader) : Prop where
  frames : Lua.Sound reader.stack
  canonical : ∀ tree ∈ reader.operand, tree.IsCanonical
  closed : ∀ tree ∈ reader.operand, tree.isClosed = true

/-- What operators that take their operands leave. -/
structure Settled (power : Nat) (stack : List Frame) (tree : Tree) : Prop where
  frames : Sound stack
  canonical : tree.IsCanonical
  tight : tree.isTight power = true
  yields : Yields stack power

theorem settle_sound {power : Nat} {stack : List Frame} {tree : Tree} (sound : Sound stack)
    (canonical : tree.IsCanonical) (tight : tree.isTight power = true) (admits : Admits stack tree) :
    Settled power (settle power stack tree).1 (settle power stack tree).2 := by
  induction sound generalizing tree with
  | nil => exact ⟨.nil, canonical, tight, fun _ waits => by simp [settle, pending] at waits⟩
  | @unary sign stack sound ih =>
    rw [settle]
    split
    · exact ih (.unary (admits unaryPower rfl) canonical) rfl fun _ _ => rfl
    · rename_i loose
      refine ⟨.unary sound, canonical, tight, fun waiting waits => ?_⟩
      obtain rfl : unaryPower = waiting := by simpa [settle, pending] using waits
      omega
  | @binary left sign stack leftCanonical leftTight yields sound ih =>
    rw [settle]
    split
    · rename_i low
      refine ih (.binary leftTight (admits sign.right rfl) leftCanonical canonical) ?_ ?_
      · simpa [Tree.isTight] using low
      · exact fun waiting waits => by simpa [Tree.isAbove] using yields waiting waits
    · rename_i loose
      refine ⟨.binary leftCanonical leftTight yields sound, canonical, tight, fun waiting waits => ?_⟩
      obtain rfl : sign.right = waiting := by simpa [settle, pending] using waits
      omega
  | @bracket kind done stack each sound ih =>
    exact ⟨.bracket each sound, canonical, tight, fun _ waits => by simp [settle, pending] at waits⟩

theorem Reader.Sound.settle {stack : List Frame} {tree : Tree} (sound : Reader.Sound ⟨stack, some tree⟩)
    (power : Nat) : Settled power (Lua.settle power stack tree).1 (Lua.settle power stack tree).2 := by
  have closed := sound.closed tree rfl
  refine settle_sound sound.frames (sound.canonical tree rfl) ?_ fun waiting _ => ?_
  · cases tree <;> first | rfl | simp [Tree.isClosed] at closed
  · cases tree <;> first | rfl | simp [Tree.isClosed] at closed

theorem Reader.Sound.step {reader next : Reader} {token : Token} (sound : reader.Sound)
    (stepped : Lua.step reader token = some next) : next.Sound := by
  have waiting {stack : List Frame} (frames : Lua.Sound stack) : Reader.Sound ⟨stack, none⟩ :=
    ⟨frames, by simp, by simp⟩
  unfold Lua.step at stepped
  split at stepped
  · cases stepped
    exact ⟨sound.frames, by simpa using .operand _, by simp [Tree.isClosed]⟩
  · cases stepped
    exact waiting (.unary sound.frames)
  · cases stepped
    exact waiting (.bracket (by simp) sound.frames)
  · cases stepped
    cases sound.frames with
    | bracket each frames => exact ⟨frames, by simpa using .bracket (by simp), by simp [Tree.isClosed]⟩
  · rename_i stack tree sign
    have settled := sound.settle sign.left
    cases stepped
    exact waiting (.binary settled.canonical settled.tight settled.yields settled.frames)
  · rename_i stack tree _
    have settled := sound.settle 0
    split at stepped
    · rename_i kind done stack item split
      cases stepped
      rw [split] at settled
      cases settled.frames with
      | bracket each frames =>
        exact waiting (.bracket (forall_mem_append.mpr ⟨each, by simpa using settled.canonical⟩) frames)
    · simp at stepped
  · rename_i stack tree _
    have settled := sound.settle 0
    split at stepped
    · rename_i kind done stack item split
      cases stepped
      rw [split] at settled
      cases settled.frames with
      | bracket each frames =>
        have items : ∀ part ∈ done ++ [item], part.IsCanonical :=
          forall_mem_append.mpr ⟨each, by simpa using settled.canonical⟩
        exact ⟨frames, by simpa using .bracket items, by simp [Tree.isClosed]⟩
    · simp at stepped
  · simp at stepped

theorem Reader.Sound.run {reader last : Reader} {tokens : List Token} (sound : reader.Sound)
    (ran : Lua.run reader tokens = some last) : last.Sound := by
  induction tokens generalizing reader with
  | nil =>
    obtain rfl : reader = last := by simpa [Lua.run] using ran
    exact sound
  | cons token tokens ih =>
    rw [run_cons] at ran
    obtain ⟨next, stepped, ran⟩ := bind_eq_some_iff.mp ran
    exact ih (sound.step stepped) ran

/-- Whatever is read, no operator reaches into its operands. -/
theorem read_canonical {tokens : List Token} {tree : Tree} (found : read tokens = some tree) :
    tree.IsCanonical := by
  obtain ⟨reader, ran, found⟩ := bind_eq_some_iff.mp found
  obtain ⟨operand, held, found⟩ := bind_eq_some_iff.mp found
  have start : Reader.Sound ⟨[], none⟩ := ⟨.nil, by simp, by simp⟩
  obtain ⟨stack, current⟩ := reader
  obtain rfl : current = some operand := held
  have settled := (start.run ran).settle 0
  split at found
  · rename_i split
    cases found
    rw [split] at settled
    exact settled.canonical
  · simp at found

end Soundness

/-- What is written down without further parentheses is read as it was meant exactly if no operator
reaches into its operands. -/
theorem read_tokens_iff (tree : Tree) : read tree.tokens = some tree ↔ tree.IsCanonical :=
  ⟨read_canonical, fun canonical => canonical.read_tokens⟩

end Lua

end Pseudocode
