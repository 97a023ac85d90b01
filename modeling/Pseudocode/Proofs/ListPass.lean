import Pseudocode.Proofs.CallPasses

namespace Pseudocode

open List Placeholder

/-- The last character that is not blank, up to the end of a text. -/
def lastSolid (last : Option Char) (text : Text) : Option Char :=
  text.foldl (fun last c => if isBlank c then last else some c) last

@[simp] theorem lastSolid_nil (last : Option Char) : lastSolid last [] = last :=
  rfl

@[simp] theorem lastSolid_append (last : Option Char) (text rest : Text) :
    lastSolid last (text ++ rest) = lastSolid (lastSolid last text) rest :=
  foldl_append

theorem lastSolid_concat (last : Option Char) (text : Text) {c : Char} (solid : isBlank c = false) :
    lastSolid last (text ++ [c]) = some c := by
  simp [lastSolid, solid]

theorem lastSolid_word (last : Option Char) {text : Text} (nonempty : text ≠ [])
    (solid : ∀ c ∈ text, isBlank c = false) : ∃ c ∈ text, lastSolid last text = some c := by
  obtain ⟨init, c, rfl⟩ := eq_nil_or_concat' text |>.resolve_left nonempty
  exact ⟨c, by simp, lastSolid_concat last init (solid c (by simp))⟩

namespace ListLiteral

/-- In the state that `last` gives, the text is turned into another, and the conversion goes on. -/
def Turns (afterKeyword : Bool) (last : Option Char) (text out : Text) : Prop :=
  ∀ tail, convertFrom afterKeyword last (text ++ tail) =
    out ++ convertFrom afterKeyword (lastSolid last text) tail

variable {afterKeyword : Bool} {last : Option Char} {text out rest more : Text}

theorem Turns.nil : Turns afterKeyword last [] [] :=
  fun _ => rfl

theorem Turns.append (first : Turns afterKeyword last text out)
    (second : Turns afterKeyword (lastSolid last text) rest more) :
    Turns afterKeyword last (text ++ rest) (out ++ more) := by
  intro tail
  rw [append_assoc, first, second, lastSolid_append, append_assoc]

theorem turns_plain (plain : '(' ∉ text) : Turns afterKeyword last text text := by
  intro tail
  induction text generalizing last with
  | nil => rfl
  | cons c text ih =>
    rw [mem_cons, not_or] at plain
    rw [cons_append, convertFrom, if_neg (Ne.symm plain.1), ih plain.2]
    rfl

/-- A parenthesis with a text that is turned. -/
theorem turns_paren (afterKeyword : Bool) (last : Option Char) (balanced : Balanced true text)
    (below : Turns false none text out) :
    Turns afterKeyword last ('(' :: text ++ [')'])
      (if mayOpen afterKeyword last && isContent out then build (commaSeparated (splitArguments out))
        else '(' :: out ++ [')']) := by
  intro tail
  have closed : splitParen? (text ++ ')' :: tail) = some (text, tail) :=
    balanced.splitClose?_enclosed .round tail
  have inner : convertFrom false none text = out := by
    have whole := below []
    rwa [append_nil, convertFrom, append_nil] at whole
  have shape : '(' :: text ++ [')'] ++ tail = '(' :: (text ++ ')' :: tail) := by simp
  rw [shape, convertFrom, if_pos rfl]
  split
  · rename_i unclosed
    simp [unclosed] at closed
  · rename_i inside after found
    rw [closed] at found
    obtain ⟨rfl, rfl⟩ := Prod.mk.inj (Option.some.inj found)
    have ending : lastSolid last ('(' :: text ++ [')']) = some ')' :=
      lastSolid_concat last ('(' :: text) (by decide)
    rw [inner, ending]
    split
    rfl

theorem turns_commaSeparated {texts outs : List Text}
    (each : List.Forall₂ (fun text out => ∀ last, mayOpen afterKeyword last = true →
      Turns afterKeyword last text out) texts outs)
    (opens : mayOpen afterKeyword last = true) :
    Turns afterKeyword last (commaSeparated texts) (commaSeparated outs) := by
  induction each generalizing last with
  | nil => exact .nil
  | @cons text out texts outs here each ih =>
    cases each with
    | nil => simpa using here last opens
    | cons next each =>
      have comma : '(' ∉ [',', ' '] := by decide
      have further : mayOpen afterKeyword (lastSolid (lastSolid last text) [',', ' ']) = true := rfl
      rw [commaSeparated_cons, commaSeparated_cons]
      exact (here last opens).append ((turns_plain comma).append (ih further))

theorem isContent_several {items : List Text} (several : 2 ≤ items.length)
    (whole : ∀ item ∈ items, Whole item) : isContent (commaSeparated items) = true := by
  rw [isContent, splitArguments_commaSeparated whole]
  match items, several with
  | first :: second :: items, _ => rfl

theorem isOpening_word {c : Char} (word : isWordChar c = true) : isOpening c = false := by
  have signs : "=,(;:[\x7b←→".toList.all (!isWordChar ·) = true := by decide +kernel
  by_contra opens
  rw [Bool.not_eq_false, isOpening, contains_iff_mem] at opens
  simpa [word] using all_eq_true.mp signs c opens

/-- A call keeps its parentheses: none of them opens a list behind a word. -/
theorem turns_call {name : Text} (lead : isLeadWord name = true) (balanced : Balanced true text)
    (below : Turns false none text out) :
    Turns afterKeyword last (name ++ '(' :: text ++ [')']) (name ++ '(' :: out ++ [')']) := by
  obtain ⟨⟨nonempty, letters⟩, -⟩ := isLeadWord_iff.mp lead
  have plain : '(' ∉ name := fun member => absurd (letters _ member) (by decide)
  obtain ⟨c, member, ending⟩ := lastSolid_word last nonempty fun c member =>
    (isWordChar_plain (letters c member)).2
  have paren := turns_paren afterKeyword (some c) balanced below
  rw [mayOpen, isOpening_word (letters c member), ← ending] at paren
  simpa using (turns_plain plain).append paren

/-- What stands in square brackets is turned as it is after the opening one. -/
theorem turns_square {head : Text} (plain : '(' ∉ head)
    (below : Turns afterKeyword (some '[') text out) :
    Turns afterKeyword last (head ++ '[' :: text ++ [']']) (head ++ '[' :: out ++ [']']) := by
  have opener : '(' ∉ head ++ ['['] := by simp [plain]
  have closed := below.append (turns_plain (show '(' ∉ [']'] by decide))
  rw [← lastSolid_concat last head (by decide : isBlank '[' = false)] at closed
  simpa using (turns_plain opener).append closed

end ListLiteral

/-- A mark at the start of a text does not reach over a sign that it does not have. -/
theorem isPrefixOf_within {mark text rest : Text} {c : Char} (absent : c ∉ mark)
    (starts : mark.isPrefixOf (text ++ c :: rest) = true) : mark.isPrefixOf text = true := by
  rw [List.isPrefixOf_iff_prefix] at starts ⊢
  obtain ⟨after, split⟩ := starts
  rcases append_eq_append_iff.mp split with ⟨more, inside, -⟩ | ⟨more, longer, tail⟩
  · exact ⟨more, inside.symm⟩
  · cases more with
    | nil => simp [longer]
    | cons d more =>
      obtain ⟨rfl, -⟩ := List.cons.inj tail
      simp [longer] at absent

/-- The text starts neither with the name of a helper nor with a table. -/
structure Unbuilt (text : Text) : Prop where
  mark : preludeMark.isPrefixOf text = false
  head : text.head? ≠ some '\x7b'

namespace Unbuilt

variable {text : Text}

theorem append (unbuilt : Unbuilt text) (nonempty : text ≠ []) {c : Char} (absent : c ∉ preludeMark)
    (rest : Text) : Unbuilt (text ++ c :: rest) where
  mark := by
    by_contra starts
    have within := isPrefixOf_within absent (by simpa using starts)
    simp [unbuilt.mark] at within
  head := by
    rw [head?_append_of_ne_nil _ nonempty]
    exact unbuilt.head

theorem of_head {c : Char} {rest : Text} (mark : c ≠ '_') (brace : c ≠ '\x7b') : Unbuilt (c :: rest) where
  mark := by
    have shape : preludeMark = '_' :: "_psc_".toList := by decide
    simp [shape, List.isPrefixOf, Ne.symm mark]
  head := by simpa using brace

theorem of_name {name : Text} (mark : preludeMark.isPrefixOf name = false)
    (letters : ∀ c ∈ name, isWordChar c = true) : Unbuilt name where
  mark
  head := by
    intro head
    exact absurd (letters _ (mem_of_head? head)) (by decide)

theorem path {names : List Text} (nonempty : names ≠ [])
    (each : ∀ name ∈ names, isVariableName name = true) : Unbuilt (dotted names) := by
  obtain ⟨first, others, rfl⟩ := exists_cons_of_ne_nil nonempty
  have named := each first (.head _)
  obtain ⟨⟨full, letters⟩, -⟩ := isVariableName_run named
  have start := Unbuilt.of_name (isVariableName_identifier named).2 letters
  cases others with
  | nil => simpa using start
  | cons next others =>
    rw [dotted_cons]
    exact start.append full (by decide) _

theorem isBuilt (unbuilt : Unbuilt text) : ListLiteral.isBuilt text = false := by
  by_contra built
  rw [Bool.not_eq_false, ListLiteral.isBuilt, Bool.and_eq_true, isPrefixOf_iff_prefix] at built
  have shape : ListLiteral.builder = preludeMark ++ "liste_from_table".toList := by decide
  have starts : preludeMark <+: text := by
    rw [shape] at built
    exact (prefix_append _ _).trans built.1
  rw [← isPrefixOf_iff_prefix, unbuilt.mark] at starts
  simp at starts

end Unbuilt

theorem Inline.names_unmarked (form : Inline) :
    ∀ name ∈ form.names, preludeMark.isPrefixOf name = false := by
  cases form <;> decide

/-- A parenthesis after the operator may open a list. -/
def Operator.opens (operator : Operator) : Bool :=
  operator = .equal

namespace Expression

variable {α : Type}

/-- The text of the expression starts with a list. -/
def opensWithList : Expression α → Bool
  | .group .list _ => true
  | .binary _ left _ => left.opensWithList
  | _ => false

/-- Where parentheses may open a list, they do around this alone. -/
def isSoleItem : Expression α → Bool
  | .atom (.path names) => names.length = 1
  | .atom _ => true
  | .group (.record _) _ => true
  | expression => expression.opensWithList

/-- What parentheses around these are taken for where they may open a list. -/
def areListed : List (Expression α) → Bool
  | [item] => item.isSoleItem
  | _ => true

end Expression

/-- What a group is taken for where a parenthesis may open a list or not. -/
def Group.taken {α : Type} (opens : Bool) (items : List (Expression α)) : Group → Group
  | .list | .paren => if opens && Expression.areListed items then .list else .paren
  | kind => kind

namespace Expression

variable {α : Type}

mutual

/-- The expression with every parenthesis as it is taken: for a list where one may open and the items
make one, for a grouping otherwise. -/
def settled (opens : Bool) : Expression α → Expression α
  | .atom operand => .atom operand
  | .negation operand => .negation (operand.settled false)
  | .binary operator left right =>
    .binary operator (left.settled opens) (right.settled operator.opens)
  | .group kind items => .group (kind.taken opens (settledItems items)) (settledItems items)

def settledItems : List (Expression α) → List (Expression α)
  | [] => []
  | item :: items => item.settled true :: settledItems items

end

theorem settledItems_eq (items : List (Expression α)) : settledItems items = items.map (settled true) := by
  induction items with
  | nil => rfl
  | cons item items ih => rw [settledItems, ih, map_cons]

theorem isBare_settled (opens : Bool) (expression : Expression α) :
    (expression.settled opens).isBare = expression.isBare := by
  cases expression with
  | atom _ | negation _ | binary _ _ _ => rfl
  | group kind items =>
    cases kind with
    | list | paren =>
      rw [settled, Group.taken]
      split <;> rfl
    | call _ | record _ | access _ | array | inline _ _ => rfl

end Expression

/-- The grammar does not tell lists from groupings, and has them as operands. -/
structure Grammar.Blind {α : Type} (grammar : Grammar α) : Prop where
  allows : ∀ {kind count} (opens : Bool) (items : List (Expression α)),
    grammar.allows kind count → grammar.allows (kind.taken opens items) count
  operand : ∀ kind, grammar.operand kind

theorem Grammar.Blind.mayOperate {α : Type} {grammar : Grammar α} (blind : grammar.Blind)
    (expression : Expression α) : expression.MayOperate grammar := by
  cases expression with
  | group kind _ => exact blind.operand kind
  | atom _ | negation _ | binary _ _ _ => trivial

namespace Context

variable {α : Type} {context : Context}

theorem Forms.taken {kind : Group} {count : Nat} (opens : Bool) (items : List (Expression α))
    (allowed : context.Forms kind count) : context.Forms (kind.taken opens items) count := by
  cases kind with
  | list | paren =>
    rw [Group.taken]
    split <;> exact allowed
  | call _ | record _ | access _ | array | inline _ _ => exact allowed

theorem forms_blind (admits : α → Prop) : (context.forms admits).Blind where
  allows opens items allowed := Forms.taken opens items allowed
  operand _ := trivial

theorem plain_blind (admits : Nat → Prop) : (context.plain admits).Blind where
  allows {kind _} opens items allowed := by
    refine ⟨Forms.taken opens items allowed.1, ?_⟩
    cases kind with
    | list | paren =>
      rw [Group.taken]
      split <;> simp
    | record name => exact absurd rfl (allowed.2 name)
    | call _ | access _ | array | inline _ _ => simp [Group.taken]
  operand _ := trivial

end Context

theorem Expression.Formed.settled {α : Type} {grammar : Grammar α} {expression : Expression α}
    (blind : grammar.Blind) (formed : expression.Formed grammar) (opens : Bool) :
    (expression.settled opens).Formed grammar := by
  induction formed generalizing opens with
  | atom proper => exact .atom proper
  | negation _ _ ih => exact .negation (ih false) (blind.mayOperate _)
  | binary _ _ _ _ ihLeft ihRight =>
    exact .binary (ihLeft opens) (blind.mayOperate _) (ihRight _) (blind.mayOperate _)
  | @group kind items allowed _ ih =>
    rw [Expression.settled, settledItems_eq]
    refine .group (blind.allows _ _ ?_) (forall_mem_map.mpr fun item member => ih item member true)
    rwa [length_map]

namespace Expression

variable {context : Context} {admits : Nat → Prop} {expression : Expression Nat}

theorem Formed.unbuilt (formed : expression.Formed (context.plain admits))
    (other : expression.opensWithList = false) : Unbuilt (expression.masked Shape.built .source) := by
  have whole {part : Expression Nat} (formed : part.Formed (context.plain admits)) :=
    Context.built_leads.whole Words.source_isFit formed
  induction formed with
  | @atom operand proper =>
    cases operand with
    | path names => exact .path proper.1 proper.2
    | numeral digits =>
      obtain ⟨c, rest, split, digit⟩ := numeral_head proper
      show Unbuilt (dotted digits)
      rw [split]
      refine .of_head ?_ ?_
      · rintro rfl
        exact absurd digit (by decide)
      · rintro rfl
        exact absurd digit (by decide)
    | truth value => cases value <;> exact .of_head (by decide) (by decide)
    | literal index => exact .of_head (by decide) (by decide)
  | negation _ _ _ => exact .of_head (by decide) (by decide)
  | binary formed _ _ _ ih _ => exact (ih other).append (whole formed).ne_nil (by decide) _
  | @group kind items allowed _ _ =>
    rw [masked_group]
    cases kind with
    | call name =>
      obtain ⟨⟨-, -, mark⟩, -⟩ := Context.isFunctionName_iff.mp allowed.1
      obtain ⟨⟨nonempty, letters⟩, -⟩ := isLeadWord_iff.mp (Context.isFunctionName_lead allowed.1)
      have called := (Unbuilt.of_name mark letters).append nonempty (c := '(') (by decide)
      simpa [Shape.group, Shape.built, Shape.source] using called _
    | record name => exact absurd rfl (allowed.2 name)
    | access path =>
      obtain ⟨nonempty, each⟩ := allowed.1.1
      have opened := (Unbuilt.path nonempty each).append (Whole.path ⟨nonempty, each⟩).ne_nil (c := '[')
        (by decide)
      simpa [Shape.group] using opened _
    | array => exact .of_head (by decide) (by decide)
    | list => simp [opensWithList] at other
    | paren => exact .of_head (by decide) (by decide)
    | inline form name =>
      have lead := form.names_lead name allowed.1.1
      obtain ⟨⟨nonempty, letters⟩, -⟩ := isLeadWord_iff.mp lead
      have called := (Unbuilt.of_name (form.names_unmarked name allowed.1.1) letters).append nonempty
        (c := '(') (by decide)
      simpa [Shape.group, Shape.built, Shape.source] using called _

theorem isBuilt_masked (opens : expression.opensWithList = true) :
    ListLiteral.isBuilt (expression.masked Shape.built .source) = true := by
  suffices starts : ∃ rest, expression.masked Shape.built .source = ListLiteral.builder ++ '(' :: rest by
    obtain ⟨rest, shape⟩ := starts
    rw [shape, ListLiteral.isBuilt, Bool.and_eq_true, isPrefixOf_iff_prefix]
    refine ⟨prefix_append _ _, ?_⟩
    rw [drop_left]
    simp [trimLeft, isBlank]
  fun_induction opensWithList expression with
  | case1 items => exact ⟨_, append_assoc _ _ _⟩
  | case2 operator left right ih =>
    obtain ⟨rest, shape⟩ := ih opens
    refine ⟨rest ++ (Words.source.opening (.operator operator) ++ right.masked Shape.built .source), ?_⟩
    show left.masked Shape.built .source ++ _ = _
    rw [shape, append_assoc, cons_append]
    rfl
  | case3 => simp at opens

theorem isNumber_numeral {digits : List Text} (numeral : isNumeral digits = true) :
    ListLiteral.isNumber (dotted digits) = true := by
  simp only [isNumeral, Bool.and_eq_true, all_eq_true, Bool.not_eq_true', Bool.or_eq_true,
    decide_eq_true_eq, isEmpty_eq_false_iff] at numeral
  obtain ⟨count, parts⟩ := numeral
  have decimal {c : Char} (digit : c.isDigit = true) : Pseudocode.isDigit c = true := by
    have ascii : c.toNat < 128 := by
      simp only [Char.isDigit, Bool.and_eq_true, decide_eq_true_eq, UInt32.le_iff_toNat_le] at digit
      exact lt_of_le_of_lt digit.2 (by decide)
    exact of_ascii (P := fun c => c.isDigit = true → Pseudocode.isDigit c = true) (by decide) ascii digit
  have digit {part : Text} (member : part ∈ digits) : ∀ c ∈ part, Pseudocode.isDigit c = true :=
    fun c inside => decimal ((parts part member).2 c inside)
  rcases count with one | two
  · obtain ⟨first, rfl⟩ := length_eq_one_iff.mp one
    have all := digit (.head _)
    obtain ⟨nonempty, -⟩ := parts first (.head _)
    simp [dotted, joinWith, ListLiteral.isNumber, takeWhile_eq_self_iff.mpr all,
      dropWhile_eq_nil_iff.mpr all, nonempty]
  · obtain ⟨first, second, rfl⟩ := length_eq_two.mp two
    have all := digit (.head _)
    have rest := digit (.tail _ (.head _))
    obtain ⟨nonempty, -⟩ := parts first (.head _)
    obtain ⟨full, -⟩ := parts second (.tail _ (.head _))
    have point : Pseudocode.isDigit '.' = false := by decide
    have shape : dotted [first, second] = first ++ '.' :: second := by simp [dotted_cons]
    have taken : (first ++ '.' :: second).takeWhile Pseudocode.isDigit = first := by
      rw [takeWhile_append_of_pos all, takeWhile_cons_of_neg (by simp [point]), append_nil]
    have dropped : (first ++ '.' :: second).dropWhile Pseudocode.isDigit = '.' :: second := by
      rw [dropWhile_append_of_pos all, dropWhile_cons_of_neg (by simp [point])]
    rw [shape, ListLiteral.isNumber, taken, dropped]
    simp [nonempty, full, takeWhile_eq_self_iff.mpr rest, dropWhile_eq_nil_iff.mpr rest]

/-- What is taken for the content of a list. -/
theorem Formed.isContent_masked (formed : expression.Formed (context.plain admits)) :
    ListLiteral.isContent (expression.masked Shape.built .source) = expression.isSoleItem := by
  have whole := Context.built_leads.whole Words.source_isFit formed
  have single : splitArguments (expression.masked Shape.built .source) =
      [expression.masked Shape.built .source] := by
    simpa using splitArguments_commaSeparated (forall_mem_singleton.mpr whole)
  rw [ListLiteral.isContent, single]
  simp only
  by_cases parts : ∀ operand, expression ≠ .atom operand
  · obtain ⟨c, member, separator⟩ := formed.separator Shape.built .source parts
    obtain ⟨letter, mark, digit, line, point, comma⟩ := isSeparator_mem separator
    have number : ListLiteral.isNumber (expression.masked Shape.built .source) = false := by
      by_contra number
      rcases isNumber_mem (by simpa using number) member with isDigit | rfl | rfl | rfl
      · simp [digit] at isDigit
      · exact point rfl
      · exact comma rfl
      · exact line rfl
    have sole : expression.isSoleItem = expression.opensWithList := by
      cases formed with
      | @atom operand _ => exact absurd rfl (parts operand)
      | negation _ _ | binary _ _ _ _ => rfl
      | @group kind _ allowed _ =>
        cases kind with
        | record name => exact absurd rfl (allowed.2 name)
        | call _ | access _ | array | list | paren | inline _ _ => rfl
    rw [isIdentifier_false member letter line, number, whole.isPlaceholder_mem member mark, sole]
    cases opens : expression.opensWithList with
    | true => simp [isBuilt_masked opens]
    | false =>
      have unbuilt := formed.unbuilt opens
      simp [unbuilt.isBuilt, unbuilt.head]
  · push Not at parts
    obtain ⟨operand, rfl⟩ := parts
    have unbuilt := formed.unbuilt rfl
    have head : (masked Shape.built .source (.atom operand)).head? ≠ some '\x7b' := unbuilt.head
    obtain ⟨proper⟩ := formed
    cases operand with
    | path names =>
      by_cases alone : names.length = 1
      · obtain ⟨name, rfl⟩ := length_eq_one_iff.mp alone
        have identifier := (isVariableName_identifier (proper.2 name (by simp))).1
        have named : isIdentifier (masked Shape.built .source (.atom (.path [name]))) = true := by
          simpa [masked, write, Atom.write] using isIdentifier_name identifier
        simp [named, isSoleItem]
      · obtain ⟨identifier, number, placeholder⟩ := path_fields proper.1 proper.2 alone
        have written : masked Shape.built .source (.atom (.path names)) = dotted names := rfl
        rw [unbuilt.isBuilt]
        rw [written] at head ⊢
        simp [identifier, number, placeholder, isSoleItem, alone, head]
    | numeral digits =>
      have number : ListLiteral.isNumber (masked Shape.built .source (.atom (.numeral digits))) = true :=
        isNumber_numeral proper
      simp [number, isSoleItem]
    | truth value => cases value <;> decide
    | literal index =>
      have placeholder : isPlaceholder (masked Shape.built .source (.atom (.literal index))) = true :=
        isPlaceholder_write index
      simp [placeholder, isSoleItem]

theorem isContent_items {items : List (Expression Nat)} (nonempty : items ≠ [])
    (formed : ∀ item ∈ items, item.Formed (context.plain admits)) :
    ListLiteral.isContent (commaSeparated (items.map (masked Shape.built .source))) = areListed items := by
  match items, nonempty with
  | [item], _ => simpa [areListed] using (formed item (by simp)).isContent_masked
  | first :: second :: items, _ =>
    refine ListLiteral.isContent_several (by simp) (forall_mem_map.mpr fun item member => ?_)
    exact Context.built_leads.whole Words.source_isFit (formed item member)

section Turns

variable {items : List (Expression Nat)} {afterKeyword : Bool} {last : Option Char}

theorem turns_items (each : ∀ item ∈ items, ∀ last, ListLiteral.mayOpen afterKeyword last = true →
      ListLiteral.Turns afterKeyword last (item.masked Shape.source .source)
        ((item.settled true).masked Shape.built .source))
    (opens : ListLiteral.mayOpen afterKeyword last = true) :
    ListLiteral.Turns afterKeyword last (commaSeparated (items.map (masked Shape.source .source)))
      (commaSeparated ((settledItems items).map (masked Shape.built .source))) := by
  refine ListLiteral.turns_commaSeparated ?_ opens
  rw [settledItems_eq, map_map, forall₂_map_left_iff, forall₂_map_right_iff, forall₂_same]
  exact each

/-- A parenthesis opens a list where it may and if what it holds is one. -/
theorem turns_round (afterKeyword : Bool) (last : Option Char)
    (formed : ∀ item ∈ items, item.Formed (context.plain admits)) (nonempty : 1 ≤ items.length)
    (below : ListLiteral.Turns false none (commaSeparated (items.map (masked Shape.source .source)))
      (commaSeparated ((settledItems items).map (masked Shape.built .source)))) :
    ListLiteral.Turns afterKeyword last
      ('(' :: commaSeparated (items.map (masked Shape.source .source)) ++ [')'])
      (Shape.built.group (if ListLiteral.mayOpen afterKeyword last && areListed (settledItems items)
        then .list else .paren) (writeItems (Shape.built.dialect .source) Placeholder.write
          (settledItems items))) := by
  have leads : context.Leads Shape.source := fun _ function => Context.isFunctionName_lead function
  have settled : ∀ item ∈ settledItems items, item.Formed (context.plain admits) := by
    rw [settledItems_eq]
    exact forall_mem_map.mpr fun item member =>
      (formed item member).settled (context.plain_blind admits) true
  have content := isContent_items (by
    rw [settledItems_eq, ← length_pos_iff, length_map]
    exact nonempty) settled
  have paren := ListLiteral.turns_paren afterKeyword last (leads.balanced Words.source_isFit formed) below
  rw [content, splitArguments_commaSeparated (forall_mem_map.mpr fun item member =>
    Context.built_leads.whole Words.source_isFit (settled item member))] at paren
  split
  · rename_i listed
    simp only [listed, if_true] at paren
    simp only [Shape.group, itemTexts_masked]
    exact paren
  · rename_i grouped
    simp only [if_neg grouped] at paren
    simp only [Shape.group, itemTexts_masked]
    exact paren

theorem path_unopened {path : List Text} (nonempty : path ≠ [])
    (named : ∀ name ∈ path, isVariableName name = true) : '(' ∉ dotted path := by
  obtain ⟨first, rest, split, run⟩ := isRun_path nonempty named
  exact fun member => absurd (run.chars '(' (split ▸ member)) (by decide)

end Turns

/-- Lists are built where a parenthesis can open one. -/
theorem Formed.turns {afterKeyword : Bool} {last : Option Char}
    (formed : expression.Formed (context.plain admits)) :
    ListLiteral.Turns afterKeyword last (expression.masked Shape.source .source)
      ((expression.settled (ListLiteral.mayOpen afterKeyword last)).masked Shape.built .source) := by
  have between {afterKeyword : Bool} {last : Option Char} (connective : Connective) :
      ListLiteral.Turns afterKeyword last (Words.source.opening connective)
        (Words.source.opening connective) :=
    ListLiteral.turns_plain fun member =>
      absurd (Words.opening_plain Words.source_isFit _ _ member) (by decide)
  induction formed generalizing afterKeyword last with
  | atom proper =>
    exact ListLiteral.turns_plain fun member =>
      absurd (Atom.write_plain Words.source_isFit proper _ member) (by decide)
  | negation _ _ ih => exact (between .negation).append ih
  | @binary operator _ _ _ _ _ _ ihLeft ihRight =>
    have opens (last : Option Char) : ListLiteral.mayOpen afterKeyword
        (lastSolid last (Words.source.opening (.operator operator))) = operator.opens := by
      cases operator <;> rfl
    have behind (last : Option Char) := @ihRight afterKeyword
      (lastSolid last (Words.source.opening (.operator operator)))
    simp only [opens] at behind
    exact ihLeft.append ((between (.operator operator)).append (behind _))
  | @group kind items allowed formed ih =>
    have leads : context.Leads Shape.source := fun _ function => Context.isFunctionName_lead function
    have balanced := leads.balanced Words.source_isFit formed
    have each {afterKeyword : Bool} (item : Expression Nat) (member : item ∈ items) (last : Option Char)
        (opens : ListLiteral.mayOpen afterKeyword last = true) :
        ListLiteral.Turns afterKeyword last (item.masked Shape.source .source)
          ((item.settled true).masked Shape.built .source) := by
      have turned := @ih item member afterKeyword last
      rwa [opens] at turned
    rw [Expression.settled, masked_group, masked_group]
    cases kind with
    | call name =>
      simp only [Group.taken, Shape.group, itemTexts_masked]
      exact ListLiteral.turns_call (Context.isFunctionName_lead allowed.1) balanced (turns_items each rfl)
    | record name => exact absurd rfl (allowed.2 name)
    | access path =>
      simp only [Group.taken, Shape.group, itemTexts_masked]
      exact ListLiteral.turns_square (path_unopened allowed.1.1.1 allowed.1.1.2) (turns_items each rfl)
    | array =>
      simp only [Group.taken, Shape.group, itemTexts_masked]
      exact ListLiteral.turns_square (by simp : '(' ∉ ([] : Text)) (turns_items each rfl)
    | list | paren =>
      have turned := turns_round afterKeyword last formed allowed.1 (turns_items each rfl)
      simp only [Group.taken, Shape.group, itemTexts_masked] at turned ⊢
      exact turned
    | inline form name =>
      simp only [Group.taken, Shape.group, itemTexts_masked]
      exact ListLiteral.turns_call (form.names_lead name allowed.1.1) balanced (turns_items each rfl)

theorem Formed.convert_lists (formed : expression.Formed (context.plain admits)) (afterKeyword : Bool) :
    ListLiteral.convert afterKeyword (expression.masked Shape.source .source) =
      (expression.settled !afterKeyword).masked Shape.built .source := by
  have turned : ListLiteral.Turns afterKeyword none _ _ := formed.turns
  replace turned := turned []
  rwa [append_nil, ListLiteral.convertFrom, append_nil] at turned

end Expression

section Grouped

variable {α : Type} {context : Context} {admits : α → Prop} {expression : Expression α}

/-- No operand of an expression starts with a list. -/
theorem Expression.Proper.opensWithList (proper : expression.Proper (context.grammar admits))
    (operates : expression.MayOperate (context.grammar admits)) : expression.opensWithList = false := by
  induction proper with
  | atom _ | negation _ _ _ => rfl
  | binary _ onLeft _ _ ih _ => exact ih onLeft
  | @group kind _ _ _ _ _ =>
    cases kind with
    | list => exact absurd rfl operates
    | call _ | record _ | access _ | array | paren | inline _ _ => rfl

theorem Expression.Proper.isSoleItem (proper : expression.Proper (context.grammar admits)) :
    expression.isSoleItem = expression.isListItem := by
  cases proper with
  | @atom operand _ => cases operand <;> rfl
  | negation _ _ => rfl
  | binary proper onLeft _ _ => exact proper.opensWithList onLeft
  | @group kind _ _ _ _ => cases kind <;> rfl

/-- Where lists are no operands and groupings no list items, parentheses are taken as they are meant. -/
theorem Expression.Proper.settled_eq {opens : Bool} (proper : expression.Proper (context.grammar admits))
    (place : expression.MayOperate (context.grammar admits) ∨ opens = true) :
    expression.settled opens = expression := by
  induction proper generalizing opens with
  | atom _ => rfl
  | negation _ operates ih => rw [Expression.settled, ih (.inl operates)]
  | binary _ onLeft _ onRight ihLeft ihRight =>
    rw [Expression.settled, ihLeft (.inl onLeft), ihRight (.inl onRight)]
  | @group kind items allowed proper single ih =>
    have kept : settledItems items = items := by
      rw [settledItems_eq]
      exact (map_congr_left fun item member => ih item member (.inr rfl)).trans (map_id _)
    rw [Expression.settled, kept]
    cases kind with
    | list =>
      obtain rfl : opens = true := place.resolve_left fun operates => operates rfl
      have several : areListed items = true := by
        match items, allowed with
        | _ :: _ :: _, _ => rfl
      simp [Group.taken, several]
    | paren =>
      obtain ⟨item, rfl⟩ := length_eq_one_iff.mp allowed
      have other : areListed [item] = false :=
        (proper item (by simp)).isSoleItem.trans (single rfl item (by simp))
      simp [Group.taken, other]
    | call _ | record _ | access _ | array | inline _ _ => rfl

end Grouped

end Pseudocode
