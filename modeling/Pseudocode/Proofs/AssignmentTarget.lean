import Pseudocode.Proofs.Translation

namespace Pseudocode

open Placeholder
open RecordTree (IsQuoted)
variable {name first second rest left : Text}

/-- The part of a line at the index is a quoted literal. -/
def Store.Cites (store : Store) (index : Nat) : Prop :=
  ∃ text, store.held[index]? = some (.literal text) ∧ IsQuoted text

theorem Store.Cites.quotes {store : Store} {index : Nat} (cites : store.Cites index) :
    store.Quotes index := by
  obtain ⟨text, held, -, plain⟩ := cites
  exact ⟨text, held, plain⟩

theorem Store.Cites.quoted {store : Store} {index : Nat} (cites : store.Cites index) :
    IsQuoted (store.literal index) := by
  obtain ⟨text, held, quoted⟩ := cites
  rwa [Store.literal_held held]

theorem Expression.Proper.write_congr {α : Type} {grammar : Grammar α} {expression : Expression α}
    {quote other : α → Text} (same : ∀ label, grammar.admits label → quote label = other label)
    (proper : expression.Proper grammar) (dialect : Dialect) :
    expression.write dialect quote = expression.write dialect other := by
  induction proper with
  | @atom operand proper =>
    cases operand with
    | literal label => exact same label proper
    | path _ | numeral _ | truth _ => rfl
  | negation _ _ ih => rw [write, write, ih]
  | binary _ _ _ _ ihLeft ihRight => rw [write, write, ihLeft, ihRight]
  | group _ _ _ ih =>
    rw [write, write, writeItems_eq, writeItems_eq]
    exact congrArg _ (List.map_congr_left fun item member => by rw [ih item member])

/-- The words and the groups of the pseudo-code, with the brackets of Lua. -/
def Dialect.target : Dialect :=
  Shape.source.indexedDialect .source

namespace Context

variable {context : Context} {desk : Desk} {target : Expression Nat}

/-- The expressions that can be indices. After a word that is not yet an operator of Lua a square
bracket is taken for an index, so that arrays are no operands. -/
def targets {α : Type} (context : Context) (admits : α → Prop) : Grammar α where
  admits
  allows := context.Allows
  operand kind := kind ≠ .list ∧ kind ≠ .array

theorem targets_within {α : Type} (context : Context) {admits others : α → Prop}
    (weaker : ∀ label, admits label → others label) :
    (context.targets admits).Within (context.grammar others) :=
  ⟨weaker, fun _ _ allowed => allowed, fun _ operates => operates.1⟩

theorem record_unopened {count : Nat} (allowed : context.Allows (.record name) count) :
    opening ∉ name := fun member => by
  have letter := identifier?_mem allowed.1 member
  rw [isMark_not_wordChar (by decide)] at letter
  simp at letter

theorem source_spreads (context : Context) : context.Spreads Shape.source where
  lead _ function := isFunctionName_lead function
  record allowed each :=
    .fenced _ (record_unopened allowed) (by decide) (by decide) (.commaSeparated each)

theorem source_indexes (context : Context) (desk : Desk) :
    context.Indexes (context.targets desk.store.Cites) desk Shape.source .source where
  allows := Allows.forms
  admits := Store.Cites.quotes
  fit := Words.source_isFit
  truth value := by
    cases value
    · exact ⟨'f', by decide, by decide⟩
    · exact ⟨'v', by decide, by decide⟩
  frees := .inr ⟨rfl, fun operates => operates.2 rfl⟩
  shapes := Shape.source_shapes context
  separator name values _ := ⟨'(', by simp [Shape.source], by decide⟩
  record {name texts outs written} allowed each := by
    have plain : '[' ∉ name ++ ['('] := by
      rw [List.mem_append, not_or]
      exact ⟨fun member => absurd (identifier?_mem allowed.1 member) (by decide), by decide⟩
    exact Index.turns_fenced name plain (by decide) (by decide) fun written fresh =>
      Index.turns_commaSeparated each fresh

/-- The target of an assignment keeps its words: only its brackets become those of Lua. -/
theorem finish_target (proper : target.Proper (context.targets desk.store.Cites)) :
    Gives (finish (target.masked Shape.source .source)) desk
      (target.write Dialect.target desk.store.literal) desk := by
  have restored : desk.store.restore (target.indexed Shape.source .source) = _ :=
    proper.formed.restore_indexed (source_spreads context) source_unopened Allows.forms
      fun _ => Store.Cites.quotes
  refine (proper.formed.convert_indices (source_indexes context desk)).bind ?_
  rw [Gives, outcome_restore, restored]
  rfl

/-- As an expression the target becomes Lua. -/
theorem expression_target (regular : context.records.IsRegular)
    (standard : context.language = standardLanguage)
    (proper : target.Proper (context.targets desk.store.Cites)) :
    ∃ reached, Gives (context.expression {} (target.masked Shape.source .source)) desk
      (target.write (Dialect.lua context) desk.store.literal) reached := by
  have quotes : target.Proper (context.grammar desk.store.Quotes) :=
    proper.mono (context.targets_within fun _ cites => cites.quotes)
  have formed := quotes.formed.mono (context.grammar_forms _)
  have plain : ({} : Usage).comparison = true := rfl
  obtain ⟨reached, run, grown⟩ := rewritten_masked regular standard plain formed
  rw [show (!({} : Usage).afterKeyword) = true from rfl, quotes.settled_eq (.inr rfl)] at run
  have restored : reached.store.restore (target.indexed (Shape.lua context) .lua) = _ :=
    formed.restore_indexed (lua_spreads standard regular.toIsNamed) lua_unopened
      (fun allowed => allowed) fun _ quoted => Store.Quotes.mono quoted grown
  have literals : ∀ index, desk.store.Quotes index →
      reached.store.literal index = desk.store.literal index := by
    rintro index ⟨text, held, -⟩
    rw [Store.literal_held held, Store.literal_held (grown _ _ held)]
  refine ⟨reached, ?_⟩
  rw [expression_eq]
  refine run.bind ?_
  rw [Gives, outcome_restore, restored, quotes.write_congr literals]
  rfl

end Context

/-- The word for the built-in that joins strings. -/
def concatenationName : Text :=
  "concat".toList

/-- What can follow an operand. -/
def stopSigns : List Char :=
  [' ', ',', ')', '[', ']', '\x7d']

/-- The text ends, or goes on with a sign that can follow an operand. -/
def Stops (text : Text) : Prop :=
  ∀ c ∈ text.head?, c ∈ stopSigns

theorem Stops.nil : Stops [] := by
  simp [Stops]

theorem Stops.cons {c : Char} (stop : c ∈ stopSigns) (rest : Text) :
    Stops (c :: rest) := by
  simpa [Stops] using stop

/-- What precedes the first of these signs is the same on both sides. -/
theorem append_cons_inj {sign : Char} {others : Text} (left : sign ∉ first)
    (right : sign ∉ second) (same : first ++ sign :: rest = second ++ sign :: others) :
    first = second ∧ rest = others := by
  induction first generalizing second with
  | nil =>
    cases second with
    | nil => exact ⟨rfl, (List.cons.inj same).2⟩
    | cons c second => exact absurd (List.cons.inj same).1 (List.ne_of_not_mem_cons right)
  | cons c first ih =>
    cases second with
    | nil => exact absurd (List.cons.inj same).1.symm (List.ne_of_not_mem_cons left)
    | cons d second =>
      obtain ⟨rfl, later⟩ := List.cons.inj same
      obtain ⟨rfl, rest⟩ := ih (List.not_mem_of_not_mem_cons left)
        (List.not_mem_of_not_mem_cons right) later
      exact ⟨rfl, rest⟩

/-- A word with its fields and what can follow it is no call of the built-in that joins strings. -/
theorem run_not_concatenation {run tail : Text} (chars : ∀ c ∈ run, isRunChar c = true)
    (stops : Stops tail) : run ++ tail ≠ concatenationName ++ '(' :: rest := fun same => by
  have stop {c : Char} {after : Text} (starts : tail = c :: after)
      (letter : c = '(' ∨ c ∈ concatenationName) : False := by
    have apart : stopSigns.all (!('(' :: concatenationName).contains ·) = true := by decide
    have outside := List.all_eq_true.mp apart c (stops c (by simp [starts]))
    simp [List.mem_cons.mpr letter] at outside
  rcases List.append_eq_append_iff.mp same with ⟨between, name, after⟩ | ⟨between, name, after⟩
  · cases between with
    | nil => exact stop after (.inl rfl)
    | cons c between => exact stop after (.inr (name ▸ by simp))
  · cases between with
    | nil => exact stop after.symm (.inl rfl)
    | cons c between =>
      obtain ⟨rfl, -⟩ := List.cons.inj after
      exact absurd (chars '(' (name ▸ by simp)) (by decide)

theorem RecordTree.IsQuoted.head {text : Text} (quoted : IsQuoted text) :
    ∃ c rest, text = c :: rest ∧ (c = '"' ∨ c = '\'') := by
  have found := quoted.1
  rw [literal?.eq_def] at found
  split at found
  · exact ⟨_, _, rfl, .inl rfl⟩
  · exact ⟨_, _, rfl, .inr rfl⟩
  · exact ⟨_, _, rfl, .inr rfl⟩
  · simp at found

theorem Context.luaName_not_concatenation {context : Context} (standard : context.language = standardLanguage)
    (undeclared : context.declares concatenationName = false)
    (function : context.isFunctionName name = true) : context.luaName name ≠ concatenationName := by
  have helpers : ∀ builtin ∈ standardLanguage.builtins, builtin.inline = false →
      builtin.helper ≠ concatenationName := by
    decide +kernel
  have known : standardLanguage.builtin? concatenationName ≠ none := by decide +kernel
  obtain ⟨-, -, -, inlined⟩ := isFunctionName_iff.mp function
  rw [luaName]
  split
  · rename_i declared
    rintro rfl
    simp [declared] at undeclared
  · rename_i own
    have notInline := inlined.resolve_left own
    split
    · rename_i builtin found
      rw [found, Option.any_some] at notInline
      exact helpers builtin (standard ▸ (builtin?_mem found).1) notInline
    · rename_i missing
      rintro rfl
      exact known (standard ▸ missing)

namespace Expression

variable {α : Type} {context : Context} {admits : α → Prop} {quote : α → Text}
  {expression : Expression α} {items : List (Expression α)}

/-- No expression of Lua starts with a call of the built-in that joins strings. -/
theorem Proper.not_concatenation (standard : context.language = standardLanguage)
    (undeclared : context.declares concatenationName = false)
    (quoted : ∀ label, admits label → IsQuoted (quote label))
    (proper : expression.Proper (context.targets admits)) {tail : Text} (stops : Stops tail) :
    expression.write (Dialect.lua context) quote ++ tail ≠ concatenationName ++ '(' :: rest := by
  have other {c : Char} {text : Text} (head : c ≠ 'c') : c :: text ≠ concatenationName ++ '(' :: rest :=
    fun same => head (List.cons.inj same).1
  induction proper generalizing tail rest with
  | @atom operand proper =>
    cases operand with
    | path names =>
      obtain ⟨first, fields, split, run⟩ := isRun_path proper.1 proper.2
      show dotted names ++ tail ≠ _
      exact run_not_concatenation (split ▸ run.chars) stops
    | numeral digits =>
      obtain ⟨first, fields, split, run⟩ := isRun_numeral proper
      show dotted digits ++ tail ≠ _
      exact run_not_concatenation (split ▸ run.chars) stops
    | truth value =>
      cases value
      · exact other (by decide)
      · exact other (by decide)
    | literal label =>
      obtain ⟨c, text, split, mark⟩ := (quoted label proper).head
      show quote label ++ tail ≠ _
      rw [split]
      rcases mark with rfl | rfl <;> exact other (by decide)
  | negation _ _ _ => exact other (by decide)
  | binary _ _ _ _ ihLeft _ =>
    rw [write, List.append_assoc]
    exact ihLeft (Stops.cons (by decide) _) other
  | @group kind items allowed proper _ ih =>
    rw [write]
    cases kind with
    | call name =>
      have lead := isLeadWord_iff.mp (Context.luaName_lead standard allowed)
      show context.luaName name ++ '(' :: itemTexts _ ++ [')'] ++ tail ≠ _
      intro same
      rw [List.append_assoc, List.append_assoc] at same
      obtain ⟨named, -⟩ := append_cons_inj (fun member => absurd (lead.1.2 _ member) (by decide))
        (by decide) same
      exact Context.luaName_not_concatenation standard undeclared allowed named
    | record name =>
      obtain ⟨-, type, found, -⟩ := allowed
      show context.luaRecord name _ ++ tail ≠ _
      rw [Context.luaRecord, found]
      exact other (by decide)
    | access path =>
      obtain ⟨first, fields, split, run⟩ := isRun_path allowed.1.1 allowed.1.2
      obtain ⟨item, others, rfl⟩ : ∃ item others, items = item :: others :=
        List.exists_cons_of_length_pos allowed.2
      show dotted path ++ (_ :: _).flatMap Item.index ++ tail ≠ _
      rw [List.append_assoc]
      refine run_not_concatenation (split ▸ run.chars) ?_
      rw [List.flatMap_cons, Item.index]
      split
      · exact Stops.cons (by decide) _
      · exact Stops.cons (by decide) _
    | array => exact other (by decide)
    | list => exact other (by decide)
    | paren => exact other (by decide)
    | inline form name =>
      cases form with
      | concatenation =>
        obtain ⟨first, second, rfl⟩ := List.length_eq_two.mp allowed.2.2.2
        show write _ _ first ++ (Inline.joint ++ write _ _ second) ++ tail ≠ _
        rw [List.append_assoc]
        exact ih first (by simp) (Stops.cons (by decide) _) other
      | length =>
        obtain ⟨item, rfl⟩ := List.length_eq_one_iff.mp allowed.2.2.2
        exact other (by decide)
      | character =>
        obtain ⟨first, second, rfl⟩ := List.length_eq_two.mp allowed.2.2.2
        exact other (by decide)
      | substring => exact other (by decide)

end Expression

/-- The operator is the same in Lua. -/
def Operator.isShared (operator : Operator) : Bool :=
  Words.source.operator operator = Words.lua.operator operator

/-- The group is the same in Lua if its items are. -/
def Context.shares (context : Context) : Group → Prop
  | .call name => context.luaName name = name
  | .access _ | .array | .paren => True
  | .record _ | .list | .inline _ _ => False

namespace Expression

variable {closer : Char}

/-- Nothing in the expression is written otherwise in Lua, its brackets aside. -/
inductive IsShared {α : Type} (context : Context) : Expression α → Prop
  | path (names : List Text) : IsShared context (.atom (.path names))
  | numeral (digits : List Text) : IsShared context (.atom (.numeral digits))
  | literal (label : α) : IsShared context (.atom (.literal label))
  | binary {operator : Operator} {left right : Expression α} :
      operator.isShared = true → IsShared context left → IsShared context right →
        IsShared context (.binary operator left right)
  | group {kind : Group} {items : List (Expression α)} :
      context.shares kind → (∀ item ∈ items, IsShared context item) →
        IsShared context (.group kind items)

variable {α : Type} {context : Context} {admits : α → Prop} {quote : α → Text}
  {expression : Expression α} {items : List (Expression α)}

theorem IsShared.write_eq (shared : expression.IsShared context) :
    expression.write Dialect.target quote = expression.write (Dialect.lua context) quote := by
  induction shared with
  | path _ | numeral _ | literal _ => rfl
  | @binary operator left right same _ _ ihLeft ihRight =>
    have word : Words.source.operator operator = Words.lua.operator operator := by
      simpa [Operator.isShared] using same
    rw [write, write, ihLeft, ihRight]
    show _ ++ (' ' :: Words.source.operator operator ++ [' '] ++ _) =
      _ ++ (' ' :: Words.lua.operator operator ++ [' '] ++ _)
    rw [word]
  | @group kind items shares _ ih =>
    have texts : writeItems Dialect.target quote items =
        writeItems (Dialect.lua context) quote items := by
      rw [writeItems_eq, writeItems_eq]
      exact List.map_congr_left fun item member => by rw [ih item member]
    rw [write, write, texts]
    cases kind with
    | call name =>
      show name ++ '(' :: _ ++ [')'] = context.luaName name ++ '(' :: _ ++ [')']
      rw [show context.luaName name = name from shares]
    | access _ | array | paren => rfl
    | record _ | list | inline _ _ => exact shares.elim

/-- Where the two writings of an expression start texts that are equal, it is shared, and what
follows is equal. -/
def Discerns (context : Context) (quote : α → Text) (expression : Expression α) : Prop :=
  ∀ first second, Stops first → Stops second →
    expression.write Dialect.target quote ++ first = expression.write (Dialect.lua context) quote ++ second →
      expression.IsShared context ∧ first = second

theorem Discerns.commaSeparated (each : ∀ item ∈ items, item.Discerns context quote)
    (stop : closer ∈ stopSigns)
    (same : Pseudocode.commaSeparated (items.map (write Dialect.target quote)) ++ closer :: first =
      Pseudocode.commaSeparated (items.map (write (Dialect.lua context) quote)) ++ closer :: second) :
    (∀ item ∈ items, item.IsShared context) ∧ first = second := by
  induction items with
  | nil => exact ⟨by simp, (List.cons.inj same).2⟩
  | cons item items ih =>
    have here := each item (.head _)
    cases items with
    | nil =>
      simp only [List.map_cons, List.map_nil, commaSeparated_singleton] at same
      obtain ⟨shared, rest⟩ := here _ _ (.cons stop _) (.cons stop _) same
      exact ⟨List.forall_mem_singleton.mpr shared, (List.cons.inj rest).2⟩
    | cons next items =>
      simp only [List.map_cons, commaSeparated_cons, List.append_assoc, List.cons_append] at same
      obtain ⟨shared, rest⟩ := here _ _ (.cons (by decide) _) (.cons (by decide) _) same
      obtain ⟨others, after⟩ := ih (fun other member => each other (.tail _ member))
        (List.cons.inj (List.cons.inj rest).2).2
      exact ⟨List.forall_mem_cons.mpr ⟨shared, others⟩, after⟩

theorem Discerns.indices (each : ∀ item ∈ items, item.Discerns context quote)
    (same : (writeItems Dialect.target quote items).flatMap Item.index ++ first =
      (writeItems (Dialect.lua context) quote items).flatMap Item.index ++ second) :
    (∀ item ∈ items, item.IsShared context) ∧ first = second := by
  induction items with
  | nil => exact ⟨by simp, same⟩
  | cons item items ih =>
    have index : item.IsShared context ∧
        (writeItems Dialect.target quote items).flatMap Item.index ++ first =
          (writeItems (Dialect.lua context) quote items).flatMap Item.index ++ second := by
      rw [writeItems, writeItems, List.flatMap_cons, List.flatMap_cons, Item.index, Item.index] at same
      dsimp only at same
      split at same
      · rw [List.append_assoc, List.append_assoc, List.cons_append, List.cons_append] at same
        obtain ⟨shared, rest⟩ := each item (.head _) (']' :: _) (']' :: _)
          (.cons (by decide) _) (.cons (by decide) _) (by simpa using same)
        exact ⟨shared, by simpa using rest⟩
      · obtain ⟨shared, rest⟩ := each item (.head _) (')' :: _) (')' :: _)
          (.cons (by decide) _) (.cons (by decide) _) (by simpa using same)
        exact ⟨shared, by simpa using rest⟩
    obtain ⟨others, after⟩ := ih (fun other member => each other (.tail _ member)) index.2
    exact ⟨List.forall_mem_cons.mpr ⟨index.1, others⟩, after⟩

theorem Discerns.fenced (each : ∀ item ∈ items, item.Discerns context quote) (stop : closer ∈ stopSigns)
    (same : itemTexts (writeItems Dialect.target quote items) ++ [closer] ++ first =
      itemTexts (writeItems (Dialect.lua context) quote items) ++ [closer] ++ second) :
    (∀ item ∈ items, item.IsShared context) ∧ first = second := by
  rw [itemTexts_writeItems, itemTexts_writeItems, List.append_assoc, List.append_assoc] at same
  exact Discerns.commaSeparated each stop same

/-- An operator holds no blank, so that it ends where the blank after it stands. -/
theorem operator_solid {words : Words} (fit : words.isFit = true) (operator : Operator) :
    ' ' ∉ words.operator operator := fun member => by
  have solid := (isLexeme_mem (Words.isFit_lexeme fit (words.operator_mem operator)) member).2
  exact absurd solid (by decide)

theorem Discerns.call {name : Text} (lead : ∀ c ∈ name, isWordChar c = true)
    (turned : ∀ c ∈ context.luaName name, isWordChar c = true)
    (each : ∀ item ∈ items, item.Discerns context quote) :
    (Expression.group (.call name) items).Discerns context quote := by
  intro first second _ _ same
  have same : name ++ '(' :: (itemTexts (writeItems Dialect.target quote items) ++ [')'] ++ first) =
      context.luaName name ++ '(' ::
        (itemTexts (writeItems (Dialect.lua context) quote items) ++ [')'] ++ second) := by
    simpa [write, Dialect.target, Dialect.lua, Shape.indexedDialect, Shape.indexed, Shape.group, Shape.source,
      Shape.lua] using same
  obtain ⟨named, rest⟩ := append_cons_inj (fun member => absurd (lead _ member) (by decide))
    (fun member => absurd (turned _ member) (by decide)) same
  obtain ⟨shared, after⟩ := Discerns.fenced each (by decide) rest
  exact ⟨.group named.symm shared, after⟩

theorem Discerns.access {path : List Text} (each : ∀ item ∈ items, item.Discerns context quote) :
    (Expression.group (.access path) items).Discerns context quote := by
  intro first second _ _ same
  have same : dotted path ++ ((writeItems Dialect.target quote items).flatMap Item.index ++ first) =
      dotted path ++ ((writeItems (Dialect.lua context) quote items).flatMap Item.index ++ second) := by
    simpa [write, Dialect.target, Dialect.lua, Shape.indexedDialect, Shape.indexed] using same
  obtain ⟨shared, after⟩ := Discerns.indices each (List.append_cancel_left same)
  exact ⟨.group trivial shared, after⟩

/-- A group that both spellings write between the same brackets. -/
theorem Discerns.bracketed {kind : Group} (shares : context.shares kind) {opener : Char}
    (stop : closer ∈ stopSigns)
    (target : ∀ items, Dialect.target.group kind items = opener :: itemTexts items ++ [closer])
    (lua : ∀ items, (Dialect.lua context).group kind items = opener :: itemTexts items ++ [closer])
    (each : ∀ item ∈ items, item.Discerns context quote) :
    (Expression.group kind items).Discerns context quote := by
  intro first second _ _ same
  rw [write, write, target, lua, List.cons_append, List.cons_append] at same
  obtain ⟨shared, after⟩ := Discerns.fenced each stop (List.cons.inj same).2
  exact ⟨.group shares shared, after⟩

/-- The two writings part after the same start. -/
theorem Discerns.of_fork (start : Text) {c d : Char} {right : Text} (differ : c ≠ d)
    (target : expression.write Dialect.target quote = start ++ c :: left)
    (lua : expression.write (Dialect.lua context) quote = start ++ d :: right) :
    expression.Discerns context quote := by
  intro first second _ _ same
  rw [target, lua, List.append_assoc, List.append_assoc] at same
  exact absurd (List.cons.inj (List.append_cancel_left same)).1 differ

theorem Discerns.record (allowed : context.Allows (.record name) items.length) :
    (Expression.group (.record name) items).Discerns context quote := by
  obtain ⟨named, type, found, -⟩ := allowed
  cases name with
  | nil => simp [identifier?] at named
  | cons c name =>
    have lua : (Expression.group (.record (c :: name)) items).write (Dialect.lua context) quote =
        '\x7b' :: (Pseudocode.commaSeparated (fieldTexts type.fieldNames
          ((writeItems (Dialect.lua context) quote items).map (·.text))) ++ ['\x7d']) := by
      show context.luaRecord (c :: name) _ = _
      rw [Context.luaRecord, found]
      rfl
    refine .of_fork [] (c := c) ?_ rfl lua
    rintro rfl
    exact absurd (identifier?_mem named (.head _)) (by decide)

variable (standard : context.language = standardLanguage)
variable (quoted : ∀ label, admits label → IsQuoted (quote label))
include standard quoted

theorem Discerns.inline {form : Inline} (allowed : context.Allows (.inline form name) items.length)
    (proper : ∀ item ∈ items, item.Proper (context.targets admits)) :
    (Expression.group (.inline form name) items).Discerns context quote := by
  obtain ⟨named, undeclared, -, count⟩ := allowed
  cases form with
  | concatenation =>
    obtain ⟨first, second, rfl⟩ := List.length_eq_two.mp count
    obtain rfl : name = concatenationName := List.mem_singleton.mp named
    intro before after _ _ same
    refine absurd same.symm ?_
    show first.write _ _ ++ (Inline.joint ++ second.write _ _) ++ after ≠
      concatenationName ++ '(' :: itemTexts _ ++ [')'] ++ before
    rw [List.append_assoc, List.append_assoc, List.append_assoc]
    exact (proper first (by simp)).not_concatenation standard undeclared quoted (.cons (by decide) _)
  | length =>
    obtain ⟨item, rfl⟩ := List.length_eq_one_iff.mp count
    obtain rfl : name = "longueur".toList := List.mem_singleton.mp named
    exact .of_fork [] (c := 'l') (d := '#') (by decide) rfl rfl
  | character =>
    obtain ⟨first, second, rfl⟩ := List.length_eq_two.mp count
    rcases List.mem_pair.mp named with rfl | rfl
    · exact .of_fork [] (c := 'i') (d := 's') (by decide) rfl rfl
    · exact .of_fork [] (c := 'i') (d := 's') (by decide) rfl rfl
  | substring =>
    rcases List.mem_pair.mp named with rfl | rfl
    · exact .of_fork ['s'] (c := 'o') (d := 't') (by decide) rfl rfl
    · exact .of_fork ['s'] (c := 'o') (d := 't') (by decide) rfl rfl

theorem Proper.discerns
    (proper : expression.Proper (context.targets admits)) : expression.Discerns context quote := by
  induction proper with
  | @atom operand proper =>
    cases operand with
    | path names => exact fun first second _ _ same => ⟨.path names, List.append_cancel_left same⟩
    | numeral digits => exact fun first second _ _ same => ⟨.numeral digits, List.append_cancel_left same⟩
    | truth value =>
      cases value
      · exact .of_fork ['f', 'a'] (c := 'u') (d := 'l') (by decide) rfl rfl
      · exact .of_fork [] (c := 'v') (d := 't') (by decide) rfl rfl
    | literal label => exact fun first second _ _ same => ⟨.literal label, List.append_cancel_left same⟩
  | negation _ _ _ => exact .of_fork ['n', 'o'] (c := 'n') (d := 't') (by decide) rfl rfl
  | @binary operator left right _ _ _ _ ihLeft ihRight =>
    intro first second before after same
    have same : left.write Dialect.target quote ++
          (' ' :: (Words.source.operator operator ++ ' ' :: (right.write Dialect.target quote ++ first))) =
        left.write (Dialect.lua context) quote ++
          (' ' :: (Words.lua.operator operator ++ ' ' :: (right.write (Dialect.lua context) quote ++ second))) := by
      simpa [write, Words.opening, Dialect.target, Dialect.lua, Shape.indexedDialect] using same
    obtain ⟨sharedLeft, rest⟩ := ihLeft _ _ (.cons (by decide) _) (.cons (by decide) _) same
    obtain ⟨sign, rest⟩ := append_cons_inj (operator_solid Words.source_isFit operator)
      (operator_solid Words.lua_isFit operator) (List.cons.inj rest).2
    obtain ⟨sharedRight, last⟩ := ihRight _ _ before after rest
    exact ⟨.binary (by simpa [Operator.isShared] using sign) sharedLeft sharedRight, last⟩
  | @group kind items allowed proper _ ih =>
    cases kind with
    | call name =>
      exact .call (isLeadWord_iff.mp (Context.isFunctionName_lead allowed)).1.2
        (isLeadWord_iff.mp (Context.luaName_lead standard allowed)).1.2 ih
    | access path => exact .access ih
    | array => exact .bracketed trivial (by decide) (fun _ => rfl) (fun _ => rfl) ih
    | paren => exact .bracketed trivial (by decide) (fun _ => rfl) (fun _ => rfl) ih
    | list => exact .of_fork [] (c := '(') (d := '_') (by decide) rfl rfl
    | record name => exact .record allowed
    | inline form name => exact .inline standard quoted allowed proper

/-- The target of an assignment and the same text as an expression come out alike exactly if
nothing in it is written otherwise in Lua. -/
theorem Proper.write_eq_iff (proper : expression.Proper (context.targets admits)) :
    expression.write Dialect.target quote = expression.write (Dialect.lua context) quote ↔
      expression.IsShared context :=
  ⟨fun same => (proper.discerns standard quoted [] [] .nil .nil (by rw [same])).1, IsShared.write_eq⟩

end Expression

namespace Context

variable {context : Context} {desk : Desk} {target : Expression Nat}

/-- No function that hands parameters back is called in the text. -/
def WithoutInOut (context : Context) (text : Text) : Prop :=
  ∀ call ∈ calls text, ∀ signature ∈ context.signatures.get? call.2.1.name, signature.inOutNames = []

theorem WithoutInOut.inOutCall? {text : Text} (without : context.WithoutInOut text) :
    context.inOutCall? (calls text) = pure none := by
  unfold WithoutInOut at without
  generalize calls text = found at without
  induction found with
  | nil => rfl
  | cons call others ih =>
    obtain ⟨here, later⟩ := List.forall_mem_cons.mp without
    obtain ⟨place, head, rest⟩ := call
    rw [Context.inOutCall?]
    split
    · exact ih later
    · rename_i signature declared
      rw [here signature declared, if_pos List.isEmpty_nil]
      exact ih later

/-- A statement assigns to the text `left` what `value` comes to as an expression. -/
def AssignsTo (context : Context) (desk : Desk) (statement : Statement) (line left value : Text) : Prop :=
  ∀ frames lastCode, outcome (context.effect statement line frames lastCode) desk = outcome (do
    let right ← context.expression {} value
    return ({ lines := [left ++ " = ".toList ++ right], frames } : Effect)) desk

theorem assignsTo_of_finish {statement : Statement} {line written value : Text}
    (assigns : context.Assigns statement line [written] value)
    (finished : Gives (finish written) desk left desk) :
    context.AssignsTo desk statement line left value := by
  intro frames lastCode
  rw [assigns frames lastCode, assignment, commaSeparated_singleton, bind_assoc, outcome_bind,
    show outcome _ _ = _ from finished]
  simp only [bind_assoc, pure_bind]

theorem assigns_assignment {line right : Text} (cut : cutAt? '←' line = some (left, right))
    (without : context.WithoutInOut (trim right)) :
    context.Assigns .assignment line [trim left] (trim right) := by
  intro frames lastCode
  simp [effect, assignmentLine, cut, without.inOutCall?]

/-- A line that is one call of a built-in that changes its first argument. -/
structure Mutates (context : Context) (head : CallHead) (inside first : Text) : Prop where
  named : identifier? head.name = some (head.name, [])
  gap : ∀ c ∈ head.gap, isBlank c = true
  undeclared : context.declares head.name = false
  mutates : ∃ builtin, context.language.builtin? head.name = some builtin ∧ builtin.mutates = true
  closed : splitParen? (inside ++ [')']) = some (inside, [])
  first : ∃ others, splitArguments inside = first :: others

theorem Mutates.mutated? {head : CallHead} {inside : Text} (mutates : context.Mutates head inside first) :
    context.mutated? (head.apply inside) = some first := by
  obtain ⟨builtin, found, changes⟩ := mutates.mutates
  obtain ⟨others, arguments⟩ := mutates.first
  have after : (head.apply inside).drop head.length = inside ++ [')'] := by
    rw [CallHead.apply, List.append_assoc]
    exact List.drop_left' (by simp [CallHead.written, CallHead.length]; omega)
  simp [Context.mutated?, callAt?_apply mutates.named mutates.gap, found, mutates.undeclared, changes, after,
    mutates.closed, arguments]

theorem assigns_mutator {head : CallHead} {inside : Text} (mutates : context.Mutates head inside first)
    (without : context.WithoutInOut (head.apply inside)) :
    context.Assigns .expression (head.apply inside) [first] (head.apply inside) := by
  intro frames lastCode
  simp [effect, expressionLine, without.inOutCall?, mutates.mutated?]

/-- The target of an assignment, or of a call that changes its first argument, is written like the
same text as an expression exactly if no word, call or literal in its indices is written otherwise
in Lua: only its brackets are converted. -/
theorem target_converted_iff {declarations : Text} (standard : context.language = standardLanguage)
    (collected : context.records = Records.collect standardLanguage declarations)
    (kept : ∀ pair ∈ context.records, isRespelled pair.2.name = false)
    (proper : target.Proper (context.targets desk.store.Cites)) :
    ∃ written lua reached,
      Gives (context.expression {} (target.masked Shape.source .source)) desk lua reached ∧
      (∀ line left right, cutAt? '←' line = some (left, right) →
        trim left = target.masked Shape.source .source → context.WithoutInOut (trim right) →
        context.AssignsTo desk .assignment line written (trim right)) ∧
      (∀ head inside, context.Mutates head inside (target.masked Shape.source .source) →
        context.WithoutInOut (head.apply inside) →
        context.AssignsTo desk .expression (head.apply inside) written (head.apply inside)) ∧
      (written = lua ↔ target.IsShared context) := by
  have named : context.records.IsNamed := collected ▸ Records.collect_named _ _
  obtain ⟨reached, converted⟩ := expression_target { named with kept } standard proper
  have finished := finish_target proper
  refine ⟨_, _, reached, converted, fun line left right cut same without => ?_,
    fun head inside mutates without => ?_,
    proper.write_eq_iff standard fun _ cites => Store.Cites.quoted cites⟩
  · exact assignsTo_of_finish (same ▸ assigns_assignment cut without) finished
  · exact assignsTo_of_finish (assigns_mutator mutates without) finished

/-- An element of `t` at the place that an operator gives for `i` and a number. -/
def elementAt (operator : Operator) (number : Char) : Expression Nat :=
  .group (.access [['t']]) [.binary operator (.atom (.path [['i']])) (.atom (.numeral [[number]]))]

theorem elementAt_proper (operator : Operator) {number : Char} (digit : isNumeral [[number]] = true)
    (admits : Nat → Prop) : (elementAt operator number).Proper (targets {} admits) := by
  have named (c : Char) (plain : isVariableName [c] = true) : [[c]] ≠ [] ∧
      ∀ name ∈ [[c]], isVariableName name = true :=
    ⟨by simp, List.forall_mem_singleton.mpr plain⟩
  refine .group ⟨named 't' (by decide +kernel), by simp⟩ (List.forall_mem_singleton.mpr ?_) (by simp)
  exact .binary (.atom (named 'i' (by decide +kernel))) trivial (.atom digit) trivial

theorem withoutInOut_default (text : Text) : WithoutInOut {} text := by
  simp [WithoutInOut, Signatures.get?]

theorem target_converted_iff_next :
    ∃ written reached,
      Gives (expression {} {} "t[i + 1]".toList) {} written reached ∧
        AssignsTo {} {} .assignment "t[i + 1] ← 0".toList written "0".toList := by
  obtain ⟨written, lua, reached, converted, assigned, -, same⟩ :=
    @target_converted_iff {} {} _ [] rfl rfl (by simp)
      (elementAt_proper .plus (by decide : isNumeral [['1']] = true) _)
  obtain rfl : written = lua := same.mpr (.group trivial (List.forall_mem_singleton.mpr
    (.binary (by decide) (.path _) (.numeral _))))
  exact ⟨written, reached, converted,
    assigned _ "t[i + 1] ".toList " 0".toList (by decide) (by decide) (withoutInOut_default _)⟩

/-- The remainder in an index keeps its word on the left of an assignment. -/
theorem target_unconverted_remainder :
    AssignsTo {} {} .assignment "t[i mod 2] ← 0".toList "t[(i mod 2) + 1]".toList "0".toList ∧
      ∃ reached, Gives (expression {} {} "t[i mod 2]".toList) {} "t[(i % 2) + 1]".toList reached := by
  have proper := elementAt_proper .remainder (by decide : isNumeral [['2']] = true) ({} : Desk).store.Cites
  have cut : cutAt? '←' "t[i mod 2] ← 0".toList = some ("t[i mod 2] ".toList, " 0".toList) := by decide
  have sides : trim "t[i mod 2] ".toList = "t[i mod 2]".toList ∧ trim " 0".toList = "0".toList := by decide
  have printed : (elementAt .remainder '2').masked Shape.source .source = "t[i mod 2]".toList := by decide
  have target : (elementAt .remainder '2').write Dialect.target ({} : Desk).store.literal =
      "t[(i mod 2) + 1]".toList := by decide
  have lua : (elementAt .remainder '2').write (Dialect.lua {}) ({} : Desk).store.literal =
      "t[(i % 2) + 1]".toList := by decide
  have finished := finish_target proper
  have regular : ({} : Context).records.IsRegular :=
    { Records.collect_named [] standardLanguage with kept := by simp }
  have converted := expression_target regular rfl proper
  rw [printed, target] at finished
  rw [printed, lua] at converted
  have assigns := assigns_assignment cut (withoutInOut_default _)
  rw [sides.1, sides.2] at assigns
  exact ⟨assignsTo_of_finish assigns finished, converted⟩

end Context

end Pseudocode
