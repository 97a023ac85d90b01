import Pseudocode.Proofs.Precedence
import Pseudocode.Proofs.Translation

namespace Pseudocode

open List

namespace Lua

/-- A bracket with commas between its items. -/
def Bracket.comma (lead close : Text) : Bracket where
  lead := lead
  breaks := []
  close := close

/-- An item of a group as it is meant to be read. -/
structure Part where
  tree : Tree
  isLiteral : Bool
  isBare : Bool

def Tree.paren (tree : Tree) : Tree :=
  .bracket (.comma ['('] [')']) [tree]

/-- An index. Numbers count from one, strings are keys. -/
def Part.index (part : Part) : Tree :=
  if part.isLiteral then part.tree else .binary (.operator .plus) part.tree.paren (.operand ['1'])

/-- The values of fields, in order; a value that is not given is `nil`. -/
def fieldTrees : (names : List Text) → (values : List Tree) → List Tree
  | [], _ => []
  | _ :: names, [] => .operand "nil".toList :: fieldTrees names []
  | _ :: names, value :: values => value :: fieldTrees names values

/-- The bracket of a table with named fields. -/
def Bracket.fields : (names : List Text) → Bracket
  | [] => .comma ['\x7b'] ['\x7d']
  | name :: names =>
    { lead := '\x7b' :: name ++ " = ".toList
      breaks := names.map fun name => ", ".toList ++ name ++ " = ".toList
      close := ['\x7d'] }

end Lua

open Lua (Tree Part)

/-- What a group is meant to be read as. A built-in on strings is one operator or one call. -/
def Group.tree (context : Context) : Group → List Part → Tree
  | .call name, parts => .bracket (.comma (context.luaName name ++ ['(']) [')']) (parts.map (·.tree))
  | .record name, parts =>
    match context.records.get? name with
    | some type => .bracket (.fields type.fieldNames) (Lua.fieldTrees type.fieldNames (parts.map (·.tree)))
    | none => .operand []
  | .access path, parts =>
    .bracket
      { lead := dotted path ++ ['[']
        breaks := parts.map fun _ => [']', '[']
        close := [']'] } (parts.map Part.index)
  | .array, parts => .bracket (.comma ['\x7b'] ['\x7d']) (parts.map (·.tree))
  | .list, parts =>
    .bracket (.comma (ListLiteral.builder ++ ['(', '\x7b']) ['\x7d', ')']) (parts.map (·.tree))
  | .paren, parts => .bracket (.comma ['('] [')']) (parts.map (·.tree))
  | .inline .concatenation _, [first, second] => .binary .concatenation first.tree second.tree
  | .inline .length _, [part] =>
    .unary .length (if part.isBare then part.tree else part.tree.paren)
  | .inline .character _, [subject, place] =>
    .bracket (.comma (Inline.library ++ ['(']) [')']) [subject.tree, place.tree, place.tree]
  | .inline .substring _, parts =>
    .bracket (.comma (Inline.library ++ ['(']) [')']) (parts.map (·.tree))
  | .inline _ _, _ => .operand []

namespace Expression

variable {α : Type}

mutual

/-- What an expression is meant to be read as in Lua. -/
def tree (context : Context) (quote : α → Text) : Expression α → Tree
  | .atom operand => .operand (operand.write .lua quote)
  | .negation operand => .unary .negation (operand.tree context quote)
  | .binary operator left right =>
    .binary (.operator operator) (left.tree context quote) (right.tree context quote)
  | .group kind items => kind.tree context (treeItems context quote items)

def treeItems (context : Context) (quote : α → Text) : List (Expression α) → List Part
  | [] => []
  | item :: items =>
    { tree := item.tree context quote, isLiteral := item.isLiteral, isBare := item.isBare } ::
      treeItems context quote items

end

theorem treeItems_eq (context : Context) (quote : α → Text) (items : List (Expression α)) :
    treeItems context quote items = items.map fun item =>
      { tree := item.tree context quote, isLiteral := item.isLiteral, isBare := item.isBare } := by
  induction items with
  | nil => rfl
  | cons item items ih => rw [treeItems, ih, map_cons]

end Expression

namespace Lua

@[simp] theorem spell_nil : spell [] = [] :=
  rfl

@[simp] theorem spell_cons (token : Token) (tokens : List Token) :
    spell (token :: tokens) = token.text ++ spell tokens := by
  simp [spell]

@[simp] theorem spell_append (first second : List Token) :
    spell (first ++ second) = spell first ++ spell second := by
  simp [spell]

/-- The text of a tree. -/
def Tree.text (tree : Tree) : Text :=
  spell tree.tokens

theorem text_unary (sign : Unary) (operand : Tree) :
    (Tree.unary sign operand).text = sign.text ++ operand.text := by
  simp [Tree.text, Tree.tokens, Token.text]

theorem text_binary (sign : Binary) (left right : Tree) :
    (Tree.binary sign left right).text = left.text ++ (sign.text ++ right.text) := by
  simp [Tree.text, Tree.tokens, Token.text]

theorem spell_later_comma (items : List Tree) (first : Text) :
    first ++ spell (Tree.laterTokens [] items) = commaSeparated (first :: items.map Tree.text) := by
  induction items generalizing first with
  | nil => simp [Tree.laterTokens]
  | cons item items ih =>
    rw [map_cons, commaSeparated_cons, ← ih]
    simp [Tree.laterTokens, Token.text, Tree.text]

theorem text_comma (lead close : Text) (items : List Tree) :
    (Tree.bracket (.comma lead close) items).text =
      lead ++ (commaSeparated (items.map Tree.text) ++ close) := by
  cases items with
  | nil => simp [Tree.text, Tree.tokens, Token.text, Bracket.comma, commaSeparated, joinWith]
  | cons first items =>
    rw [map_cons, ← spell_later_comma]
    simp [Tree.text, Tree.tokens, Token.text, Bracket.comma]

theorem spell_later_fields (names : List Text) (values : List Tree) (first : Text) :
    first ++ spell (Tree.laterTokens (names.map fun name => ", ".toList ++ name ++ " = ".toList)
      (fieldTrees names values)) = commaSeparated (first :: fieldTexts names (values.map Tree.text)) := by
  induction names generalizing values first with
  | nil => simp [fieldTrees, fieldTexts, Tree.laterTokens]
  | cons name names ih =>
    cases values with
    | nil =>
      have later := ih [] (name ++ " = nil".toList)
      change _ = commaSeparated (first :: (name ++ " = nil".toList) :: fieldTexts names ([].map Tree.text))
      rw [commaSeparated_cons, ← later]
      simp [fieldTrees, Tree.laterTokens, Tree.tokens, Token.text]
    | cons value values =>
      have later := ih values (name ++ " = ".toList ++ value.text)
      change _ = commaSeparated
        (first :: (name ++ " = ".toList ++ value.text) :: fieldTexts names (values.map Tree.text))
      rw [commaSeparated_cons, ← later]
      simp [fieldTrees, Tree.laterTokens, Token.text, Tree.text]

theorem text_fields (names : List Text) (values : List Tree) :
    (Tree.bracket (.fields names) (fieldTrees names values)).text =
      ListLiteral.braced (commaSeparated (fieldTexts names (values.map Tree.text))) := by
  cases names with
  | nil => simp [Bracket.fields, fieldTrees, fieldTexts, text_comma, ListLiteral.braced]
  | cons name names =>
    cases values with
    | nil =>
      have later := spell_later_fields names [] (name ++ " = nil".toList)
      change _ = ListLiteral.braced
        (commaSeparated ((name ++ " = nil".toList) :: fieldTexts names ([].map Tree.text)))
      rw [← later]
      simp [fieldTrees, Bracket.fields, ListLiteral.braced, Tree.text, Tree.tokens, Token.text]
    | cons value values =>
      have later := spell_later_fields names values (name ++ " = ".toList ++ value.text)
      change _ = ListLiteral.braced
        (commaSeparated ((name ++ " = ".toList ++ value.text) :: fieldTexts names (values.map Tree.text)))
      rw [← later]
      simp [fieldTrees, Bracket.fields, ListLiteral.braced, Tree.text, Tree.tokens, Token.text]

theorem spell_later_indices {count : Nat} {items : List Tree} (few : items.length ≤ count) :
    spell (Tree.laterTokens (List.replicate count [']', '[']) items) ++ [']'] =
      ']' :: items.flatMap fun item => '[' :: (item.text ++ [']']) := by
  induction items generalizing count with
  | nil => simp [Tree.laterTokens]
  | cons item items ih =>
    obtain ⟨fewer, rfl⟩ : ∃ fewer, count = fewer + 1 := ⟨count - 1, by simp at few; omega⟩
    have later := ih (by simpa using few : items.length ≤ fewer)
    simp [Tree.laterTokens, replicate_succ, Token.text, Tree.text, later]

theorem Part.text_index (part : Part) : '[' :: (part.index.text ++ [']']) =
    Item.index { text := part.tree.text, isLiteral := part.isLiteral, isBare := part.isBare } := by
  rw [Part.index, Item.index]
  split
  · simp
  · have shift : Binary.text (.operator .plus) = " + ".toList := rfl
    rw [text_binary, Tree.paren, text_comma, shift]
    simp [Tree.text, Tree.tokens, Token.text]

/-- An item as it is written. -/
def Part.item (part : Part) : Item where
  text := part.tree.text
  isLiteral := part.isLiteral
  isBare := part.isBare

theorem itemTexts_part (parts : List Part) :
    itemTexts (parts.map Part.item) = commaSeparated ((parts.map (·.tree)).map Tree.text) := by
  simp [itemTexts, Part.item, Function.comp_def]

end Lua

open Lua

/-- The text of what a group is meant to be read as. -/
theorem Group.text_tree {context : Context} {kind : Group} {parts : List Part}
    (allowed : context.Allows kind parts.length) :
    (kind.tree context parts).text = (Shape.lua context).indexed kind (parts.map Part.item) := by
  cases kind with
  | call name => simp [tree, Shape.indexed, Shape.group, text_comma, itemTexts_part, Shape.lua]
  | record name =>
    obtain ⟨-, type, found, -⟩ := allowed
    have values : (parts.map (·.tree)).map Tree.text = (parts.map Part.item).map (·.text) := by
      simp [Part.item, Function.comp_def]
    simp only [tree, found, text_fields, values]
    show _ = context.luaRecord name _
    rw [Context.luaRecord, found]
  | access path =>
    obtain ⟨part, parts, rfl⟩ := exists_cons_of_length_pos allowed.2
    have later : spell (Tree.laterTokens (List.replicate (parts.length + 1) [']', '['])
        (parts.map Part.index)) ++ [']'] =
        ']' :: (parts.map Part.index).flatMap fun item => '[' :: (item.text ++ [']']) :=
      spell_later_indices (by simp)
    have breaks : (part :: parts).map (fun _ => [']', '[']) =
        List.replicate (parts.length + 1) [']', '['] := by
      rw [map_const', length_cons]
    have written : (tree context (.access path) (part :: parts)).text = dotted path ++
        (part :: parts).flatMap fun part => '[' :: (part.index.text ++ [']']) := by
      rw [tree, breaks, Tree.text, map_cons, Tree.tokens]
      simp only [spell_cons, spell_append, spell_nil, Token.text, append_nil, later]
      simp [Tree.text, flatMap_map]
    rw [written, Shape.indexed, flatMap_map]
    simp only [Part.text_index]
    rfl
  | array => simp [tree, Shape.indexed, text_comma, itemTexts_part, ListLiteral.braced]
  | list =>
    simp [tree, Shape.indexed, Shape.group, text_comma, itemTexts_part, Shape.lua, ListLiteral.build,
      ListLiteral.braced]
  | paren => simp [tree, Shape.indexed, Shape.group, text_comma, itemTexts_part]
  | inline form name =>
    obtain ⟨-, -, -, count⟩ := allowed
    cases form with
    | concatenation =>
      obtain ⟨first, second, rfl⟩ := length_eq_two.mp count
      simp [tree, Shape.indexed, Shape.group, Shape.lua, text_binary, Inline.text, Part.item, Binary.text]
    | length =>
      obtain ⟨part, rfl⟩ := length_eq_one_iff.mp count
      simp only [tree, text_unary, Unary.text, Shape.indexed, Shape.group, Shape.lua, if_true, map_cons, map_nil,
        Inline.text, Part.item]
      cases part.isBare with
      | true => simp
      | false => simp [Tree.paren, text_comma]
    | character =>
      obtain ⟨subject, place, rfl⟩ := length_eq_two.mp count
      simp [tree, Shape.indexed, Shape.group, Shape.lua, text_comma, Inline.text, Part.item]
    | substring =>
      simp [tree, Shape.indexed, Shape.group, Shape.lua, text_comma, Inline.text, itemTexts_part]

/-- An expression is written as it is meant to be read. -/
theorem Expression.Proper.text_tree {α : Type} {context : Context} {admits : α → Prop}
    {expression : Expression α} (proper : expression.Proper (context.grammar admits))
    (quote : α → Text) :
    (expression.tree context quote).text = expression.write (Dialect.lua context) quote := by
  induction proper with
  | atom _ => simp [tree, Tree.text, Tree.tokens, Token.text, write, Dialect.lua, Shape.indexedDialect]
  | negation _ _ ih =>
    simp [tree, text_unary, Unary.text, write, ih, Dialect.lua, Shape.indexedDialect]
  | binary _ _ _ _ ihLeft ihRight =>
    simp [tree, text_binary, Binary.text, write, ihLeft, ihRight, Dialect.lua, Shape.indexedDialect]
  | @group kind items allowed _ _ ih =>
    have items : (treeItems context quote items).map Part.item =
        writeItems (Dialect.lua context) quote items := by
      rw [treeItems_eq, writeItems_eq, map_map]
      exact map_congr_left fun item member => by simp [Part.item, ih item member]
    rw [tree, write, Group.text_tree (by simpa [treeItems_eq, Context.grammar] using allowed), items]
    rfl

/-- A sum, a difference, a product, a quotient or a remainder. -/
def Operator.isArithmetic : Operator → Bool
  | .plus | .minus | .times | .over | .quotient | .remainder => true
  | _ => false

namespace Expression

variable {α : Type}

/-- The call that joins two strings. -/
def isConcatenation : Expression α → Bool
  | .group (.inline .concatenation _) _ => true
  | _ => false

/-- A comparison or a logical operation. -/
def isLoose : Expression α → Bool
  | .binary operator _ _ => !operator.isArithmetic
  | _ => false

def isAbove (power : Nat) : Expression α → Bool
  | .binary operator _ _ => power < Lua.power operator
  | _ => true

def isTight (power : Nat) : Expression α → Bool
  | .binary operator _ _ => power ≤ Lua.power operator
  | _ => true

/-- Operands that bind more loosely are in parentheses. Calls are operands. -/
inductive IsGrouped : Expression α → Prop
  | atom (operand : Atom α) : IsGrouped (.atom operand)
  | negation {operand : Expression α} :
      operand.isAbove unaryPower = true → IsGrouped operand → IsGrouped (.negation operand)
  | binary {operator : Operator} {left right : Expression α} :
      left.isTight (power operator) = true → right.isAbove (power operator) = true → IsGrouped left →
        IsGrouped right → IsGrouped (.binary operator left right)
  | group {kind : Group} {items : List (Expression α)} :
      (∀ item ∈ items, IsGrouped item) → IsGrouped (.group kind items)

end Expression

/-- The items that a group keeps. A record keeps as many values as it has fields. -/
def Group.kept {β : Type} (context : Context) : Group → List β → List β
  | .record name, items =>
    match context.records.get? name with
    | some type => items.take type.fieldNames.length
    | none => []
  | _, items => items

theorem Group.kept_mem {β : Type} (context : Context) (kind : Group) (items : List β) :
    ∀ item ∈ kind.kept context items, item ∈ items := by
  intro item member
  unfold kept at member
  split at member
  · split at member
    · exact mem_of_mem_take member
    · simp at member
  · exact member

theorem Group.kept_map {β γ : Type} (context : Context) (kind : Group) (change : β → γ)
    (items : List β) :
    kind.kept context (items.map change) = (kind.kept context items).map change := by
  unfold kept
  split
  · split
    · rw [map_take]
    · rfl
  · rfl

/-- Two strings are joined neither beside an arithmetic operator nor after a negation, the first is
neither joined itself nor a comparison or a logical operation, and the second is none of these. -/
inductive Expression.IsPlaced {α : Type} (context : Context) : Expression α → Prop
  | atom (operand : Atom α) : IsPlaced context (.atom operand)
  | negation {operand : Expression α} :
      operand.isConcatenation = false → IsPlaced context operand → IsPlaced context (.negation operand)
  | binary {operator : Operator} {left right : Expression α} :
      (operator.isArithmetic = true → left.isConcatenation = false ∧ right.isConcatenation = false) →
        IsPlaced context left → IsPlaced context right → IsPlaced context (.binary operator left right)
  | concatenation {name : Text} {first second : Expression α} :
      first.isLoose = false → first.isConcatenation = false → second.isLoose = false →
        IsPlaced context first → IsPlaced context second →
        IsPlaced context (.group (.inline .concatenation name) [first, second])
  | group {kind : Group} {items : List (Expression α)} :
      (∀ name, kind ≠ .inline .concatenation name) →
        (∀ item ∈ kind.kept context items, IsPlaced context item) → IsPlaced context (.group kind items)

theorem Lua.fieldTrees_canonical (names : List Text) (values : List Tree) :
    (∀ tree ∈ fieldTrees names values, tree.IsCanonical) ↔
      ∀ tree ∈ values.take names.length, tree.IsCanonical := by
  induction names generalizing values with
  | nil => simp [fieldTrees]
  | cons name names ih =>
    cases values with
    | nil =>
      have later : ∀ tree ∈ fieldTrees names [], tree.IsCanonical := (ih []).mpr (by simp)
      exact iff_of_true (forall_mem_cons.mpr ⟨.operand _, later⟩) (by simp)
    | cons value values => simp [fieldTrees, ih]

theorem Lua.canonical_bracket (kind : Bracket) (items : List Tree) :
    (Tree.bracket kind items).IsCanonical ↔ ∀ item ∈ items, item.IsCanonical :=
  ⟨fun canonical => by cases canonical; assumption, .bracket⟩

theorem Lua.canonical_unary (sign : Unary) (tree : Tree) : (Tree.unary sign tree).IsCanonical ↔
    tree.isAbove unaryPower = true ∧ tree.IsCanonical :=
  ⟨fun canonical => by cases canonical; constructor <;> assumption, fun ⟨above, inner⟩ => .unary above inner⟩

theorem Lua.canonical_binary (sign : Binary) (left right : Tree) :
    (Tree.binary sign left right).IsCanonical ↔ (left.isTight sign.left = true ∧
      right.isAbove sign.right = true) ∧ left.IsCanonical ∧ right.IsCanonical := by
  constructor
  · intro canonical
    cases canonical with
    | binary tight above before behind => exact ⟨⟨tight, above⟩, before, behind⟩
  · rintro ⟨⟨tight, above⟩, before, behind⟩
    exact .binary tight above before behind

theorem Lua.Part.canonical_index (part : Part) : part.index.IsCanonical ↔ part.tree.IsCanonical := by
  rw [Part.index]
  split
  · rfl
  · have one : (Tree.operand ['1']).IsCanonical := .operand _
    simp [canonical_binary, canonical_bracket, one, Tree.isTight, Tree.isAbove, Tree.paren]

/-- Every group but two strings that are joined is an operand of its own. -/
theorem Group.tree_root {kind : Group} (other : ∀ name, kind ≠ .inline .concatenation name)
    (context : Context) (parts : List Part) :
    (∀ power, (kind.tree context parts).isAbove power = true) ∧
      ∀ power, (kind.tree context parts).isTight power = true := by
  unfold tree
  split <;> first | exact ⟨fun _ => rfl, fun _ => rfl⟩ | skip
  · split <;> exact ⟨fun _ => rfl, fun _ => rfl⟩
  · exact absurd rfl (other _)

theorem Group.isConcatenation_false {α : Type} {kind : Group}
    (other : ∀ name, kind ≠ .inline .concatenation name) (items : List (Expression α)) :
    (Expression.group kind items).isConcatenation = false := by
  unfold Expression.isConcatenation
  split
  · rename_i same
    cases same
    exact absurd rfl (other _)
  · rfl

/-- Only two strings that are joined can be torn apart. -/
theorem Group.canonical_tree {context : Context} {kind : Group} {parts : List Part}
    (allowed : context.Allows kind parts.length) (other : ∀ name, kind ≠ .inline .concatenation name)
    (bare : ∀ part ∈ parts, part.isBare = true → part.tree.isAbove unaryPower = true) :
    (kind.tree context parts).IsCanonical ↔ ∀ part ∈ kind.kept context parts, part.tree.IsCanonical := by
  cases kind with
  | call name => simp [tree, kept, canonical_bracket]
  | record name =>
    obtain ⟨-, type, found, -⟩ := allowed
    simp only [tree, kept, found, canonical_bracket, fieldTrees_canonical, ← map_take,
      forall_mem_map]
  | access path => simp [tree, kept, canonical_bracket, Part.canonical_index]
  | array => simp [tree, kept, canonical_bracket]
  | list => simp [tree, kept, canonical_bracket]
  | paren => simp [tree, kept, canonical_bracket]
  | inline form name =>
    obtain ⟨-, -, -, count⟩ := allowed
    cases form with
    | concatenation => exact absurd rfl (other name)
    | length =>
      obtain ⟨part, rfl⟩ := length_eq_one_iff.mp count
      simp only [tree, kept, canonical_unary, forall_mem_singleton]
      split
      · rename_i alone
        simp [bare part (by simp) alone]
      · simp [canonical_bracket, Tree.isAbove, Tree.paren]
    | character =>
      obtain ⟨subject, place, rfl⟩ := length_eq_two.mp count
      simp [tree, kept, canonical_bracket]
    | substring => simp [tree, kept, canonical_bracket]

namespace Expression

variable {α : Type} {context : Context} {admits : α → Prop} {expression : Expression α}
  {quote : α → Text}

theorem Proper.concatenation {name : Text} {items : List (Expression α)}
    (proper : (Expression.group (.inline .concatenation name) items).Proper (context.grammar admits)) :
    ∃ first second, items = [first, second] := by
  cases proper with
  | group allowed _ _ => exact length_eq_two.mp allowed.2.2.2

/-- An operator reaches into what binds more loosely, and into two strings that are joined. -/
theorem Proper.binds_tree (proper : expression.Proper (context.grammar admits)) (power : Nat) :
    ((expression.tree context quote).isAbove power = true ↔ expression.isAbove power = true ∧
      (expression.isConcatenation = true → power < Lua.Binary.left .concatenation)) ∧
    ((expression.tree context quote).isTight power = true ↔ expression.isTight power = true ∧
      (expression.isConcatenation = true → power ≤ Lua.Binary.right .concatenation)) := by
  cases expression with
  | atom operand | negation operand =>
    simp [tree, Tree.isAbove, Tree.isTight, isAbove, isTight, isConcatenation]
  | binary operator left right =>
    exact ⟨⟨fun above => ⟨above, by simp [isConcatenation]⟩, And.left⟩,
      fun tight => ⟨tight, by simp [isConcatenation]⟩, And.left⟩
  | group kind items =>
    by_cases joins : ∃ name, kind = .inline .concatenation name
    · obtain ⟨name, rfl⟩ := joins
      obtain ⟨first, second, rfl⟩ := proper.concatenation
      simp [tree, treeItems, Group.tree, Tree.isAbove, Tree.isTight, isAbove, isTight, isConcatenation]
    · have other := not_exists.mp joins
      have root := Group.tree_root other context (treeItems context quote items)
      simp [tree, root.1 power, root.2 power, isAbove, isTight, Group.isConcatenation_false other]

theorem isAbove_bare (context : Context) (quote : α → Text) (bare : expression.isBare = true)
    (power : Nat) : (expression.tree context quote).isAbove power = true := by
  cases expression with
  | atom operand => rfl
  | negation operand => rfl
  | binary operator left right => simp [isBare] at bare
  | group kind items =>
    refine (Group.tree_root (fun name => ?_) context _).1 power
    rintro rfl
    simp [isBare] at bare

theorem power_loose (operator : Operator) :
    (power operator ≤ Binary.right .concatenation ↔ operator.isArithmetic = false) ∧
      (power operator < Binary.left .concatenation ↔ operator.isArithmetic = false) ∧
      (Binary.left .concatenation ≤ power operator ↔ operator.isArithmetic = true) ∧
      (Binary.right .concatenation < power operator ↔ operator.isArithmetic = true) := by
  cases operator <;> decide

theorem isTight_joint (expression : Expression α) :
    expression.isTight (Binary.left .concatenation) = true ↔ expression.isLoose = false := by
  cases expression with
  | binary operator _ _ => simp [isTight, isLoose, (power_loose operator).2.2.1]
  | atom _ | negation _ | group _ _ => simp [isTight, isLoose]

theorem isAbove_joint (expression : Expression α) :
    expression.isAbove (Binary.right .concatenation) = true ↔ expression.isLoose = false := by
  cases expression with
  | binary operator _ _ => simp [isAbove, isLoose, (power_loose operator).2.2.2]
  | atom _ | negation _ | group _ _ => simp [isAbove, isLoose]

/-- No operator of Lua reaches into the operands of another exactly if strings are joined only where
that is safe. -/
theorem Proper.canonical_iff (proper : expression.Proper (context.grammar admits))
    (grouped : expression.IsGrouped) :
    (expression.tree context quote).IsCanonical ↔ expression.IsPlaced context := by
  induction proper with
  | @atom operand _ => exact iff_of_true (.operand _) (.atom operand)
  | @negation operand proper _ ih =>
    cases grouped with
    | negation above grouped =>
      rw [tree, canonical_unary, ih grouped, (proper.binds_tree _).1]
      constructor
      · rintro ⟨⟨-, joins⟩, placed⟩
        refine .negation ?_ placed
        by_contra other
        exact absurd (joins (by simpa using other)) (by decide)
      · intro placed
        cases placed with
        | negation other placed => exact ⟨⟨above, by simp [other]⟩, placed⟩
  | @binary operator left right onLeft _ onRight _ ihLeft ihRight =>
    cases grouped with
    | binary tight above before behind =>
      have loose := power_loose operator
      rw [tree, canonical_binary, ihLeft before, ihRight behind, (onLeft.binds_tree _).2,
        (onRight.binds_tree _).1]
      constructor
      · rintro ⟨⟨⟨-, joinsLeft⟩, -, joinsRight⟩, placedLeft, placedRight⟩
        refine .binary (fun arithmetic => ⟨?_, ?_⟩) placedLeft placedRight
        · by_contra other
          simp [loose.1.mp (joinsLeft (by simpa using other))] at arithmetic
        · by_contra other
          simp [loose.2.1.mp (joinsRight (by simpa using other))] at arithmetic
      · intro placed
        cases placed with
        | binary arithmetic placedLeft placedRight =>
          refine ⟨⟨⟨tight, fun joins => loose.1.mpr ?_⟩, above, fun joins => loose.2.1.mpr ?_⟩,
            placedLeft, placedRight⟩
          · by_contra sum
            simp [(arithmetic (by simpa using sum)).1] at joins
          · by_contra sum
            simp [(arithmetic (by simpa using sum)).2] at joins
  | @group kind items allowed proper single ih =>
    cases grouped with
    | group each =>
      by_cases joins : ∃ name, kind = .inline .concatenation name
      · obtain ⟨name, rfl⟩ := joins
        obtain ⟨first, second, rfl⟩ := length_eq_two.mp allowed.2.2.2
        have one : first ∈ [first, second] := by simp
        have two : second ∈ [first, second] := by simp
        rw [tree, treeItems, treeItems, treeItems, Group.tree, canonical_binary, ih first one (each first one),
          ih second two (each second two), ((proper first one).binds_tree _).2,
          ((proper second two).binds_tree _).1, isTight_joint, isAbove_joint]
        constructor
        · rintro ⟨⟨⟨firm, apart⟩, closed, -⟩, placedFirst, placedSecond⟩
          refine .concatenation firm ?_ closed placedFirst placedSecond
          by_contra other
          exact absurd (apart (by simpa using other)) (by decide)
        · intro placed
          cases placed with
          | concatenation firm apart closed placedFirst placedSecond =>
            exact ⟨⟨⟨firm, by simp [apart]⟩, closed, fun _ => by decide⟩, placedFirst, placedSecond⟩
          | group other _ => exact absurd rfl (other name)
      · have other := not_exists.mp joins
        have bare : ∀ part ∈ treeItems context quote items, part.isBare = true →
            part.tree.isAbove unaryPower = true := by
          rw [treeItems_eq, forall_mem_map]
          exact fun item _ bare => isAbove_bare context quote bare _
        have inside : ∀ item ∈ kind.kept context items, item ∈ items := kind.kept_mem context items
        rw [tree, Group.canonical_tree (by simpa [treeItems_eq, Context.grammar] using allowed) other bare,
          treeItems_eq, Group.kept_map, forall_mem_map]
        constructor
        · exact fun canonical => .group other fun item member =>
            (ih item (inside item member) (each item (inside item member))).mp (canonical item member)
        · intro placed
          cases placed with
          | concatenation => exact absurd rfl (other _)
          | group _ placed => exact fun item member =>
              (ih item (inside item member) (each item (inside item member))).mpr (placed item member)

end Expression

namespace Context

open RecordTree (IsQuoted)

variable {context : Context} {usage : Usage} {expression : Expression Text}

/-- An expression is written as it is meant to be read in Lua, without parentheses around the
built-ins that become operators. It is read that way exactly if strings are joined only where no
operator tears them apart. -/
theorem inline_grouping_iff {declarations : Text} (standard : context.language = standardLanguage)
    (collected : context.records = Records.collect standardLanguage declarations)
    (kept : ∀ pair ∈ context.records, isRespelled pair.2.name = false)
    (comparison : usage.comparison = true) (proper : expression.Proper (context.grammar IsQuoted))
    (opens : expression.MayOperate (context.grammar IsQuoted) ∨ usage.afterKeyword = false)
    (grouped : expression.IsGrouped) :
    context.translate usage (expression.write .source id) =
        .ok (Lua.spell (expression.tree context id).tokens) ∧
      (Lua.read (expression.tree context id).tokens = some (expression.tree context id) ↔
        expression.IsPlaced context) := by
  have named : context.records.IsNamed := collected ▸ Records.collect_named _ _
  have written : Lua.spell (expression.tree context id).tokens =
      expression.write (Dialect.lua context) id := proper.text_tree id
  rw [written, Lua.read_tokens_iff, proper.canonical_iff grouped]
  exact ⟨translate_write { named with kept } standard comparison proper opens, Iff.rfl⟩

/-- A variable of one letter. -/
def letter (c : Char) : Expression Text :=
  .atom (.path [[c]])

/-- Joined strings, one of which is joined itself, on one side of a comparison. -/
def joinedStrings : Expression Text :=
  .binary .equal
    (.group (.inline .concatenation "concat".toList)
      [.binary .plus (letter 'a') (.atom (.numeral [['1']])),
        .group (.inline .concatenation "concat".toList)
          [letter 'b', .group (.inline .length "longueur".toList) [.binary .both (letter 'c') (letter 'd')]]])
    (letter 's')

theorem proper_letter {c : Char} (named : isVariableName [c] = true) :
    (letter c).Proper (nestedTypes.grammar IsQuoted) :=
  .atom ⟨by simp, forall_mem_singleton.mpr named⟩

theorem proper_joined {first second : Expression Text}
    (left : first.Proper (nestedTypes.grammar IsQuoted))
    (right : second.Proper (nestedTypes.grammar IsQuoted)) :
    (Expression.group (.inline .concatenation "concat".toList) [first, second]).Proper
      (nestedTypes.grammar IsQuoted) := by
  have unnamed : nestedTypes.namesRecord "concat".toList = false := by
    rw [namesRecord, nestedTypes_records]
    decide
  exact .group ⟨by decide, by decide, unnamed, rfl⟩
    (forall_mem_cons.mpr ⟨left, forall_mem_singleton.mpr right⟩) (by simp)

theorem inline_grouping_iff_joined :
    nestedTypes.translate {} "concat(a + 1, concat(b, longueur(c et d))) = s".toList =
        .ok "a + 1 .. b .. #(c and d) == s".toList ∧
      Lua.read (joinedStrings.tree nestedTypes id).tokens = some (joinedStrings.tree nestedTypes id) := by
  have unnamed : nestedTypes.namesRecord "longueur".toList = false := by
    rw [namesRecord, nestedTypes_records]
    decide
  have both : (Expression.binary .both (letter 'c') (letter 'd')).Proper (nestedTypes.grammar IsQuoted) :=
    .binary (proper_letter (by decide +kernel)) trivial (proper_letter (by decide +kernel)) trivial
  have length : (Expression.group (.inline .length "longueur".toList)
      [.binary .both (letter 'c') (letter 'd')]).Proper (nestedTypes.grammar IsQuoted) :=
    .group ⟨by decide, by decide, unnamed, rfl⟩ (forall_mem_singleton.mpr both) (by simp)
  have sum : (Expression.binary .plus (letter 'a') (.atom (.numeral [['1']]))).Proper
      (nestedTypes.grammar IsQuoted) :=
    .binary (proper_letter (by decide +kernel)) trivial (.atom (by decide : isNumeral _ = true)) trivial
  have proper : joinedStrings.Proper (nestedTypes.grammar IsQuoted) :=
    .binary (proper_joined sum (proper_joined (proper_letter (by decide +kernel)) length))
      (by simp [Expression.MayOperate, grammar]) (proper_letter (by decide +kernel)) trivial
  have grouped : joinedStrings.IsGrouped := by
    refine .binary rfl rfl (.group (forall_mem_cons.mpr ⟨?_, forall_mem_singleton.mpr ?_⟩))
      (.atom _)
    · exact .binary rfl rfl (.atom _) (.atom _)
    · refine .group (forall_mem_cons.mpr ⟨.atom _, forall_mem_singleton.mpr (.group ?_)⟩)
      exact forall_mem_singleton.mpr (.binary rfl rfl (.atom _) (.atom _))
  have placed : joinedStrings.IsPlaced nestedTypes := by
    have inner : (Expression.binary .both (letter 'c') (letter 'd')).IsPlaced nestedTypes :=
      .binary (by decide) (.atom _) (.atom _)
    have length : (Expression.group (.inline .length "longueur".toList)
        [.binary .both (letter 'c') (letter 'd')]).IsPlaced nestedTypes :=
      .group (by simp) (forall_mem_singleton.mpr inner)
    refine .binary (by decide) (.concatenation rfl rfl rfl ?_ ?_) (.atom _)
    · exact .binary (fun _ => ⟨rfl, rfl⟩) (.atom _) (.atom _)
    · exact .concatenation rfl rfl rfl (.atom _) length
  have printed : joinedStrings.write .source id =
      "concat(a + 1, concat(b, longueur(c et d))) = s".toList := by
    decide
  have spelled : Lua.spell (joinedStrings.tree nestedTypes id).tokens =
      "a + 1 .. b .. #(c and d) == s".toList := by
    decide
  have comparison : ({} : Usage).comparison = true := rfl
  obtain ⟨translated, read⟩ := inline_grouping_iff nestedTypes_language nestedTypes_collected
    (by rw [nestedTypes_records]; decide) comparison proper (.inr rfl) grouped
  rw [printed, spelled] at translated
  exact ⟨translated, read.mpr placed⟩

/-- A sum with two strings that are joined. -/
def joinedSum : Expression Text :=
  .binary .plus (.group (.inline .concatenation "concat".toList) [letter 'a', letter 'b'])
    (.atom (.numeral [['1']]))

/-- An arithmetic operator takes the second of two strings that are joined. -/
theorem inline_grouping_torn :
    nestedTypes.translate {} "concat(a, b) + 1".toList = .ok "a .. b + 1".toList ∧
      Lua.spell (joinedSum.tree nestedTypes id).tokens = "a .. b + 1".toList ∧
      joinedSum.tree nestedTypes id = .binary (.operator .plus)
        (.binary .concatenation (.operand ['a']) (.operand ['b'])) (.operand ['1']) ∧
      Lua.read (joinedSum.tree nestedTypes id).tokens = some (.binary .concatenation (.operand ['a'])
        (.binary (.operator .plus) (.operand ['b']) (.operand ['1']))) := by
  have named : nestedTypes.records.IsNamed := nestedTypes_collected ▸ Records.collect_named _ _
  have kept : ∀ pair ∈ nestedTypes.records, isRespelled pair.2.name = false := by
    rw [nestedTypes_records]
    decide +kernel
  have proper : joinedSum.Proper (nestedTypes.grammar IsQuoted) :=
    .binary (proper_joined (proper_letter (by decide +kernel)) (proper_letter (by decide +kernel)))
      (by simp [Expression.MayOperate, grammar]) (.atom (by decide : isNumeral _ = true)) trivial
  have printed : joinedSum.write .source id = "concat(a, b) + 1".toList := by decide
  have written : joinedSum.write (Dialect.lua nestedTypes) id = "a .. b + 1".toList := by decide
  have comparison : ({} : Usage).comparison = true := rfl
  have translated := translate_write { named with kept } nestedTypes_language comparison proper (.inr rfl)
  rw [printed, written] at translated
  exact ⟨translated, by decide, rfl, rfl⟩

end Context

end Pseudocode
