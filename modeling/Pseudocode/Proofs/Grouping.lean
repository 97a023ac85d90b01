import Pseudocode.Proofs.Translation

namespace Pseudocode

/-- Whether the operator compares its operands. The others are those of arithmetic and logic. -/
def Operator.compares : Operator → Bool
  | .equal | .unequal | .less | .greater | .atMost | .atLeast => true
  | .both | .either | .remainder | .quotient | .plus | .minus | .times | .over => false

theorem Operator.opens_eq_false {operator : Operator} (other : operator.compares = false) :
    operator.opens = false := by
  cases operator <;> first | rfl | simp [compares] at other

namespace Expression

variable {α : Type}

/-- A way from an expression to one of its parts. -/
inductive Step where
  | operand
  | left
  | right
  | item (index : Nat)
  deriving DecidableEq, Repr

/-- What a part is in the expression around it: a value of its own, as arguments and the content of
parentheses are, or an operand. -/
inductive Role where
  | value
  | negated
  | before (operator : Operator)
  | after (operator : Operator)
  deriving DecidableEq, Repr

/-- An operand of arithmetic or logic. -/
def Role.isOperand : Role → Bool
  | .value => false
  | .negated => true
  | .before operator | .after operator => !operator.compares

/-- A left operand. -/
def Role.isBefore : Role → Bool
  | .before _ => true
  | .value | .negated | .after _ => false

/-- A part of an expression with its role, and whether a parenthesis may open a list where it
starts. -/
structure Place (α : Type) where
  role : Role
  opens : Bool
  part : Expression α

namespace Place

/-- An expression that is a value of its own. -/
def whole (opens : Bool) (expression : Expression α) : Place α where
  role := .value
  opens
  part := expression

/-- A list may open at the start of a value and after `=`, but behind no other operator. -/
def step (place : Place α) : Step → Option (Place α)
  | .operand =>
    match place.part with
    | .negation operand => some { role := .negated, opens := false, part := operand }
    | _ => none
  | .left =>
    match place.part with
    | .binary operator left _ => some { role := .before operator, opens := place.opens, part := left }
    | _ => none
  | .right =>
    match place.part with
    | .binary operator _ right =>
      some { role := .after operator, opens := operator.opens, part := right }
    | _ => none
  | .item index =>
    match place.part with
    | .group _ items => items[index]?.map (whole true)
    | _ => none

/-- The place at the end of a path. -/
def follow (place : Place α) (path : List Step) : Option (Place α) :=
  path.foldlM step place

/-- The place with every parenthesis in its part as it is taken there. -/
def settled (place : Place α) : Place α :=
  { place with part := place.part.settled place.opens }

/-- The steps that can be taken from a place. -/
inductive Leads : Place α → Step → Place α → Prop
  | operand {role : Role} {opens : Bool} {operand : Expression α} :
      Leads ⟨role, opens, .negation operand⟩ .operand ⟨.negated, false, operand⟩
  | left {role : Role} {opens : Bool} {operator : Operator} {left right : Expression α} :
      Leads ⟨role, opens, .binary operator left right⟩ .left ⟨.before operator, opens, left⟩
  | right {role : Role} {opens : Bool} {operator : Operator} {left right : Expression α} :
      Leads ⟨role, opens, .binary operator left right⟩ .right ⟨.after operator, operator.opens, right⟩
  | item {role : Role} {opens : Bool} {kind : Group} {items : List (Expression α)} {index : Nat}
      {item : Expression α} : items[index]? = some item →
      Leads ⟨role, opens, .group kind items⟩ (.item index) (whole true item)

variable {place next : Place α} {way : Step} {path : List Step}

theorem leads_of_step (reached : place.step way = some next) : place.Leads way next := by
  obtain ⟨role, opens, part⟩ := place
  cases way with
  | operand =>
    cases part with
    | negation _ =>
      obtain rfl := Option.some.inj reached
      exact .operand
    | atom _ | binary _ _ _ | group _ _ => simp [step] at reached
  | left =>
    cases part with
    | binary _ _ _ =>
      obtain rfl := Option.some.inj reached
      exact .left
    | atom _ | negation _ | group _ _ => simp [step] at reached
  | right =>
    cases part with
    | binary _ _ _ =>
      obtain rfl := Option.some.inj reached
      exact .right
    | atom _ | negation _ | group _ _ => simp [step] at reached
  | item index =>
    cases part with
    | group _ _ =>
      obtain ⟨item, found, rfl⟩ := Option.map_eq_some_iff.mp reached
      exact .item found
    | atom _ | negation _ | binary _ _ _ => simp [step] at reached

theorem follow_keeps {holds : Place α → Prop}
    (step : ∀ {place next : Place α} {way : Step}, place.Leads way next → holds place → holds next)
    (start : holds place) (reached : place.follow path = some next) : holds next := by
  induction path generalizing place with
  | nil =>
    obtain rfl := Option.some.inj reached
    exact start
  | cons way path ih =>
    obtain ⟨middle, here, later⟩ := Option.bind_eq_some_iff.mp reached
    exact ih (step (leads_of_step here) start) later

/-- The parts of a settled expression are settled where they stand. -/
theorem Leads.settled (leads : place.Leads way next) : place.settled.step way = some next.settled := by
  cases leads with
  | operand | left | right => rfl
  | item found => simp [step, Place.settled, Expression.settled, settledItems_eq, found, whole]

theorem follow_settled (reached : place.follow path = some next) :
    place.settled.follow path = some next.settled := by
  induction path generalizing place with
  | nil =>
    obtain rfl := Option.some.inj reached
    rfl
  | cons way path ih =>
    obtain ⟨middle, here, later⟩ := Option.bind_eq_some_iff.mp reached
    exact Option.bind_eq_some_iff.mpr ⟨middle.settled, (leads_of_step here).settled, ih later⟩

/-- Behind an operator of arithmetic or logic no list opens. -/
def IsGuarded (place : Place α) : Prop :=
  place.role.isOperand = true → place.opens = true → place.role.isBefore = true

theorem follow_guarded {opens : Bool} {expression : Expression α}
    (reached : (whole opens expression).follow path = some next) : next.IsGuarded := by
  refine follow_keeps (fun leads _ => ?_) (fun operand => by simp [whole, Role.isOperand] at operand) reached
  intro operand opens
  cases leads with
  | operand => simp at opens
  | left => rfl
  | right =>
    rw [Operator.opens_eq_false (by simpa [Role.isOperand] using operand)] at opens
    simp at opens
  | item _ => simp [whole, Role.isOperand] at operand

theorem follow_formed {grammar : Grammar α} (formed : place.part.Formed grammar)
    (reached : place.follow path = some next) : next.part.Formed grammar := by
  have step {place next : Place α} {way : Step} (leads : place.Leads way next)
      (formed : place.part.Formed grammar) : next.part.Formed grammar := by
    cases leads with
    | operand =>
      cases formed with
      | negation formed _ => exact formed
    | left =>
      cases formed with
      | binary formed _ _ _ => exact formed
    | right =>
      cases formed with
      | binary _ _ formed _ => exact formed
    | item found =>
      cases formed with
      | group _ formed => exact formed _ (List.mem_of_getElem? found)
  exact follow_keeps step formed reached

/-- Parentheses that are an operand make a list, and not a grouping: they are the left operand where a
list may open, and what they hold would be an item by itself. -/
def isListed (place : Place α) (content : Expression α) : Bool :=
  place.role.isBefore && place.opens && (content.settled true).isSoleItem

theorem IsGuarded.settled_group {content : Expression α} (guarded : place.IsGuarded)
    (group : place.part = .group .paren [content]) (operand : place.role.isOperand = true) :
    place.settled = { place with
      part := .group (if place.isListed content then .list else .paren) [content.settled true] } := by
  have before : (place.role.isBefore && place.opens) = place.opens := by
    cases opens : place.opens with
    | false => rw [Bool.and_false]
    | true => rw [guarded operand opens, Bool.and_true]
  rw [isListed, before, Place.settled, group]
  rfl

end Place

end Expression

namespace Context

open Expression
open RecordTree (IsQuoted)

variable {context : Context} {usage : Usage} {expression content : Expression Text} {path : List Step}
  {place : Expression.Place Text}

/-- Parentheses that are an operand of arithmetic or logic stay a grouping around what they hold, at any
depth and whatever stands around them, unless they are a left operand at the start of a value, or after
`=`, and hold a single item: then they become a list. -/
theorem translate_operand_group {declarations : Text} (standard : context.language = standardLanguage)
    (collected : context.records = Records.collect standardLanguage declarations)
    (kept : ∀ pair ∈ context.records, isRespelled pair.2.name = false)
    (comparison : usage.comparison = true) (formed : expression.Formed (context.forms IsQuoted))
    (reached : (Expression.Place.whole (!usage.afterKeyword) expression).follow path = some place)
    (group : place.part = .group .paren [content]) (operand : place.role.isOperand = true) :
    context.translate usage (expression.write .source id) =
        .ok ((expression.settled !usage.afterKeyword).write (Dialect.lua context) id) ∧
      context.translate {} (content.write .source id) =
        .ok ((content.settled true).write (Dialect.lua context) id) ∧
      (Expression.Place.whole (!usage.afterKeyword) (expression.settled !usage.afterKeyword)).follow path =
        some { place with
          part := .group (if place.isListed content then .list else .paren) [content.settled true] } := by
  have named : context.records.IsNamed := collected ▸ Records.collect_named _ _
  have regular : context.records.IsRegular := { named with kept }
  have inside : content.Formed (context.forms IsQuoted) := by
    have whole := Expression.Place.follow_formed formed reached
    rw [group] at whole
    cases whole with
    | group _ formed => exact formed content (by simp)
  have settled := Expression.Place.follow_settled reached
  rw [(Expression.Place.follow_guarded reached).settled_group group operand] at settled
  exact ⟨translate_settled regular standard comparison formed,
    translate_settled regular standard rfl inside, settled⟩

/-- A name in parentheses, an operator and another name. -/
def parenthesized (operator : Operator) (first second : Text) : Expression Text :=
  .binary operator (.group .paren [.atom (.path [first])]) (.atom (.path [second]))

theorem formed_name {name : Text} (named : isVariableName name = true) :
    (Expression.atom (.path [name])).Formed (context.forms IsQuoted) :=
  .atom ⟨by simp, List.forall_mem_singleton.mpr named⟩

theorem parenthesized_formed (operator : Operator) {first second : Text}
    (left : isVariableName first = true) (right : isVariableName second = true) :
    (parenthesized operator first second).Formed (context.forms IsQuoted) :=
  .binary (.group (le_refl 1) (List.forall_mem_singleton.mpr (formed_name left))) trivial
    (formed_name right) trivial

/-- The outer parentheses are the right operand of a product. They stay, though what they hold starts
with a list. -/
theorem translate_operand_group_product :
    nestedTypes.translate {} "x * ((a) - b)".toList =
        .ok "x * (__psc_liste_from_table(\x7ba\x7d) - b)".toList ∧
      nestedTypes.translate {} "(a) - b".toList =
        .ok "__psc_liste_from_table(\x7ba\x7d) - b".toList := by
  have formed : (Expression.binary .times (.atom (.path [['x']]))
      (.group .paren [parenthesized .minus ['a'] ['b']])).Formed (nestedTypes.forms IsQuoted) := by
    have difference : (parenthesized .minus ['a'] ['b']).Formed (nestedTypes.forms IsQuoted) :=
      parenthesized_formed .minus (by decide +kernel) (by decide +kernel)
    refine .binary (formed_name (by decide +kernel)) trivial ?_ trivial
    exact .group (le_refl 1) (List.forall_mem_singleton.mpr difference)
  have place : (Expression.Place.whole true (Expression.binary .times (.atom (.path [['x']]))
      (.group .paren [parenthesized .minus ['a'] ['b']]))).follow [.right] =
        some ⟨.after .times, false, .group .paren [parenthesized .minus ['a'] ['b']]⟩ :=
    rfl
  have plain : ({} : Usage).comparison = true := rfl
  obtain ⟨product, difference, -⟩ := translate_operand_group nestedTypes_language nestedTypes_collected
    (by rw [nestedTypes_records]; decide) plain formed place rfl rfl
  exact ⟨product, difference⟩

/-- Parentheses at the start of a value, as the left operand of a sum. They are taken for a list. -/
theorem translate_lists_operand : nestedTypes.translate {} "(a) + b".toList =
    .ok "__psc_liste_from_table(\x7ba\x7d) + b".toList := by
  have named : nestedTypes.records.IsNamed := nestedTypes_collected ▸ Records.collect_named _ _
  have kept : ∀ pair ∈ nestedTypes.records, isRespelled pair.2.name = false := by
    rw [nestedTypes_records]
    decide
  have plain : ({} : Usage).comparison = true := rfl
  have sum : (parenthesized .plus ['a'] ['b']).Formed (nestedTypes.forms IsQuoted) :=
    parenthesized_formed .plus (by decide +kernel) (by decide +kernel)
  have printed : (parenthesized .plus ['a'] ['b']).write .source id = "(a) + b".toList := by decide
  have lua : ((parenthesized .plus ['a'] ['b']).settled true).write (Dialect.lua nestedTypes) id =
      "__psc_liste_from_table(\x7ba\x7d) + b".toList := by
    decide
  rw [← printed, ← lua]
  exact translate_settled { named with kept } nestedTypes_language plain sum

end Context

end Pseudocode
