import Pseudocode.Proofs.Shape

namespace Pseudocode

open List Placeholder
variable {expression : Expression Nat} {items : List (Expression Nat)}

/-- The expressions of a program that has put its records aside. -/
def Context.plain (context : Context) (admits : Nat → Prop) : Grammar Nat where
  admits
  allows kind count := context.Forms kind count ∧ ∀ name, kind ≠ .record name
  operand _ := True

/-- An expression whose literals and records have been put aside. -/
def Expression.masked (shape : Shape) (words : Words) (expression : Expression Nat) : Text :=
  expression.write (shape.dialect words) Placeholder.write

theorem Words.head_ne {words : Words} (fit : words.isFit = true) {word : Text}
    (member : word ∈ words.lexemes) (tail : Text) :
    ∃ c rest, word ++ tail = c :: rest ∧ isBlank c = false ∧ c ≠ '(' := by
  obtain ⟨c, rest, shape, sign, solid⟩ := isLexeme_head (isFit_lexeme fit member)
  refine ⟨c, rest ++ tail, by rw [shape, cons_append], solid, ?_⟩
  rintro rfl
  exact absurd sign (by decide)

theorem Words.closes_opening {words : Words} (fit : words.isFit = true) (operator : Operator) (text : Text) :
    closes (words.opening (.operator operator) ++ text) = true := by
  obtain ⟨c, rest, shape, solid, other⟩ := head_ne fit (words.operator_mem operator) (' ' :: text)
  have split : words.opening (.operator operator) ++ text = ' ' :: c :: rest := by
    simpa [opening] using shape
  rw [split]
  refine closes_space ?_
  simpa [head?_trimLeft_cons solid] using other

namespace Becomes

variable {run : Option Char → Text → Conversion Text} {text out rest more : Text}

theorem append_pure (before : Becomes run text (pure out)) (after : Becomes run rest (pure more))
    (closed : ∀ tail, closes tail = true → closes (rest ++ tail) = true) :
    Becomes run (text ++ rest) (pure (out ++ more)) := by
  simpa using before.append after closed

theorem enclosed_pure (walk : Walk run) {opener closer : Char} (pair : IsPair opener closer)
    (becomes : Becomes run text (pure out)) :
    Becomes run (opener :: text ++ [closer]) (pure (opener :: out ++ [closer])) := by
  simpa using becomes.enclosed walk pair

theorem sign_pure (walk : Walk run) {c : Char} (quiet : isQuiet c = true)
    (becomes : Becomes run text (pure out)) : Becomes run (c :: text) (pure (c :: out)) := by
  simpa using walk.becomes_sign quiet becomes

theorem commaSeparated_pure (walk : Walk run) {texts outs : List Text}
    (each : List.Forall₂ (fun text out => Becomes run text (pure out)) texts outs) :
    Becomes run (Pseudocode.commaSeparated texts) (pure (Pseudocode.commaSeparated outs)) := by
  have works : List.Forall₂ (Becomes run) texts (outs.map pure) := by
    rw [forall₂_map_right_iff]
    exact each
  have collected : (outs.map pure).mapM id = (pure outs : Conversion (List Text)) := by
    clear each works
    induction outs with
    | nil => rfl
    | cons out outs ih => simp [ih]
  simpa [collected] using Becomes.commaSeparated walk works

end Becomes

/-- A walk does its work on a text, also where a connective stands before it. -/
structure Passes (run : Option Char → Text → Conversion Text) (old new : Words) (text : Text)
    (work : Conversion Text) : Prop where
  alone : Becomes run text work
  after : ∀ connective,
    Becomes run (old.opening connective ++ text) (do return new.opening connective ++ (← work))

/-- A walk copies names, and turns the old words into the new ones. A parenthesis after a connective
may change how it goes on. -/
structure Wording (run : Option Char → Text → Conversion Text) (old new : Words) : Prop where
  walk : Walk run
  copy : ∀ {first rest}, IsRun first rest → Becomes run (first ++ rest) (pure (first ++ rest))
  truth : ∀ value, Becomes run (old.truth value) (pure (new.truth value))
  opening : ∀ connective {text work}, Whole text → text.head? ≠ some '(' → Becomes run text work →
    Becomes run (old.opening connective ++ text) (do return new.opening connective ++ (← work))
  opened : ∀ connective {inside work}, Balanced true inside → Becomes run inside work →
    Becomes run (old.opening connective ++ ('(' :: inside ++ [')']))
      (do return new.opening connective ++ ('(' :: (← work) ++ [')']))

/-- A walk turns the call of one function into that of another. -/
def Calls (run : Option Char → Text → Conversion Text) (name turned : Text) : Prop :=
  ∀ {inside work}, Balanced true inside → Becomes run inside work →
    Becomes run (name ++ '(' :: inside ++ [')']) (do return turned ++ '(' :: (← work) ++ [')'])

namespace Wording

variable {run : Option Char → Text → Conversion Text} {old new : Words} {text inside : Text}
  {work : Conversion Text}

variable (wording : Wording run old new)
include wording

theorem passes (whole : Whole text) (head : text.head? ≠ some '(')
    (alone : Becomes run text work) : Passes run old new text work :=
  ⟨alone, fun connective => wording.opening connective whole head alone⟩

theorem passes_run {first rest : Text} (isRun : IsRun first rest) :
    Passes run old new (first ++ rest) (pure (first ++ rest)) := by
  refine wording.passes isRun.whole ?_ (wording.copy isRun)
  simpa using isRun.head_ne '(' (by decide) []

theorem passes_atom (fit : old.isFit = true) {admits : Nat → Prop}
    {operand : Atom Nat} (proper : operand.Proper admits) :
    Passes run old new (operand.write old write) (pure (operand.write new write)) := by
  cases operand with
  | path names =>
    obtain ⟨first, rest, split, isRun⟩ := isRun_path proper.1 proper.2
    have written := wording.passes_run isRun
    rwa [← split] at written
  | numeral digits =>
    obtain ⟨first, rest, split, isRun⟩ := isRun_numeral proper
    have written := wording.passes_run isRun
    rwa [← split] at written
  | truth value =>
    obtain ⟨c, rest, shape, -, other⟩ := Words.head_ne fit (old.truth_mem value) []
    rw [append_nil] at shape
    have head : (old.truth value).head? ≠ some '(' := by simpa [shape] using other
    exact wording.passes (isLexeme_whole (Words.isFit_lexeme fit (old.truth_mem value))) head
      (wording.truth value)
  | literal index =>
    have copied : Becomes run (write index) (pure (write index)) :=
      wording.walk.becomes_quiet fun c member => by simp [isQuiet, isMark_of_mem_write c member]
    have head : (write index).head? ≠ some '(' := by
      rw [write_eq, head?_cons]
      decide
    exact wording.passes (write_whole index) head copied

theorem passes_call {name turned : Text} (calls : Calls run name turned)
    (lead : Whole name) (letters : ∀ c ∈ name, isRunChar c = true) (balanced : Balanced true inside)
    (below : Becomes run inside work) :
    Passes run old new (name ++ '(' :: inside ++ [')'])
      (do return turned ++ '(' :: (← work) ++ [')']) := by
  refine wording.passes (lead.called balanced) ?_ (calls balanced below)
  obtain ⟨c, rest, rfl⟩ := exists_cons_of_ne_nil lead.ne_nil
  rw [cons_append, cons_append, head?_cons, Ne, Option.some.injEq]
  rintro rfl
  exact absurd (letters '(' (.head _)) (by decide)

theorem passes_lead {name turned : Text} (calls : Calls run name turned)
    (lead : isLeadWord name = true) (balanced : Balanced true inside)
    (below : Becomes run inside work) :
    Passes run old new (name ++ '(' :: inside ++ [')'])
      (do return turned ++ '(' :: (← work) ++ [')']) :=
  wording.passes_call calls (isLeadWord_whole lead)
    (fun c member => by simp [isRunChar, (isLeadWord_iff.mp lead).1.2 c member]) balanced below

theorem passes_square (balanced : Balanced true inside) (below : Becomes run inside work) :
    Passes run old new ('[' :: inside ++ [']']) (do return '[' :: (← work) ++ [']']) :=
  wording.passes (.enclosed .square balanced) (by simp) (below.enclosed wording.walk .square)

theorem passes_access {first rest : Text} (isRun : IsRun first rest)
    (balanced : Balanced true inside) (below : Becomes run inside work) :
    Passes run old new (first ++ rest ++ '[' :: inside ++ [']'])
      (do return first ++ rest ++ '[' :: (← work) ++ [']']) := by
  have both := (wording.copy isRun).append (below.enclosed wording.walk .square) fun tail _ =>
    closes_sign IsPair.square.quiet.1 (by decide) (by decide) _
  have whole : Whole (first ++ rest ++ ('[' :: inside ++ [']'])) :=
    isRun.whole.append (.enclosed .square balanced)
  have head := isRun.head_ne '(' (by decide) ('[' :: inside ++ [']'])
  simpa using wording.passes whole head both

theorem passes_paren (balanced : Balanced true inside) (below : Becomes run inside work) :
    Passes run old new ('(' :: inside ++ [')']) (do return '(' :: (← work) ++ [')']) where
  alone := below.enclosed wording.walk .round
  after connective := by
    simp only [bind_assoc, pure_bind]
    exact wording.opened connective balanced below

theorem passes_negation (fit : old.isFit = true) (whole : Whole text) (below : Passes run old new text work) :
    Passes run old new (old.opening .negation ++ text)
      (do return new.opening .negation ++ (← work)) := by
  refine wording.passes ?_ ?_ (below.after .negation)
  · have word := isLexeme_whole (Words.isFit_lexeme fit old.negation_mem)
    simpa [Words.opening] using word.spaced whole
  · obtain ⟨c, rest, shape, -, other⟩ := Words.head_ne fit old.negation_mem (' ' :: text)
    have split : old.opening .negation ++ text = c :: rest := by simpa [Words.opening] using shape
    simpa [split] using other

end Wording

/-- A connective between two texts that have been passed. -/
theorem Passes.binary {run : Option Char → Text → Conversion Text} {old new : Words} {left right : Text}
    {first second : Conversion Text} (fit : old.isFit = true) (operator : Operator)
    (onLeft : Passes run old new left first) (onRight : Passes run old new right second) :
    Passes run old new (left ++ (old.opening (.operator operator) ++ right)) (do
      let first ← first
      let second ← second
      return first ++ (new.opening (.operator operator) ++ second)) := by
  have closed (tail : Text) (_ : closes tail = true) :
      closes (old.opening (.operator operator) ++ right ++ tail) = true := by
    rw [append_assoc]
    exact Words.closes_opening fit operator _
  constructor
  · simpa only [bind_assoc, pure_bind] using onLeft.alone.append (onRight.after _) closed
  · intro connective
    have both := (onLeft.after connective).append (onRight.after _) closed
    simpa only [bind_assoc, pure_bind, append_assoc] using both

/-- What a walk does to groups that are spelled by a name: it takes them from one shape to the next. -/
structure Rule (context : Context) (admits : Nat → Prop) (run : Option Char → Text → Conversion Text)
    (old new : Words) (before after : Shape) : Prop extends Wording run old new where
  call : ∀ {name}, context.isFunctionName name = true → Calls run (before.rename name) (after.rename name)
  built : before.listed = true → Calls run ListLiteral.builder ListLiteral.builder
  inline : ∀ {form name items}, context.Allows (.inline form name) items.length →
    (∀ item ∈ items, item.Formed (context.plain admits)) →
    (∀ item ∈ items, Passes run old new (item.masked before old) (pure (item.masked after new))) →
    Passes run old new (Expression.masked before old (.group (.inline form name) items))
      (pure (Expression.masked after new (.group (.inline form name) items)))

/-- Functions have names that can stand before a parenthesis. -/
def Context.Leads (context : Context) (shape : Shape) : Prop :=
  ∀ name, context.isFunctionName name = true → isLeadWord (shape.rename name) = true

namespace Context

variable {context : Context} {admits : Nat → Prop} {shape : Shape} {words : Words}

theorem Leads.fits (leads : context.Leads shape) (fit : words.isFit = true) :
    (shape.dialect words).Fits (context.plain admits) where
  words := fit
  group kind items allowed whole := by
    have named : context.Shapes { shape with record := Shape.source.record } :=
      ⟨leads, fun _ _ => whole_constructor⟩
    have others := named.group_whole allowed.1 whole
    cases kind with
    | record name => exact absurd rfl (allowed.2 name)
    | call _ | access _ | array | list | paren | inline _ _ => exact others

theorem Leads.whole (leads : context.Leads shape) (fit : words.isFit = true)
    (formed : expression.Formed (context.plain admits)) :
    Whole (expression.masked shape words) :=
  formed.whole (leads.fits fit) fun label _ => write_whole label

theorem Leads.balanced (leads : context.Leads shape) (fit : words.isFit = true)
    (formed : ∀ item ∈ items, item.Formed (context.plain admits)) :
    Balanced true (commaSeparated (items.map (Expression.masked shape words))) :=
  .commaSeparated (forall_mem_map.mpr fun item member =>
    (leads.whole fit (formed item member)).balanced.loosen)

end Context

theorem Expression.masked_group (shape : Shape) (words : Words) (kind : Group)
    (items : List (Expression Nat)) :
    masked shape words (.group kind items) =
      shape.group kind (writeItems (shape.dialect words) Placeholder.write items) := by
  rw [masked, write]
  rfl

theorem Expression.itemTexts_masked (shape : Shape) (words : Words) (items : List (Expression Nat)) :
    itemTexts (writeItems (shape.dialect words) Placeholder.write items) =
      commaSeparated (items.map (masked shape words)) :=
  itemTexts_writeItems _ _ _

namespace Rule

variable {context : Context} {admits : Nat → Prop} {run : Option Char → Text → Conversion Text}
  {old new : Words} {before after : Shape}

theorem becomes_items (walk : Walk run)
    (each : ∀ item ∈ items, Passes run old new (item.masked before old) (pure (item.masked after new))) :
    Becomes run (commaSeparated (items.map (Expression.masked before old)))
      (pure (commaSeparated (items.map (Expression.masked after new)))) := by
  refine .commaSeparated_pure walk ?_
  rw [forall₂_map_left_iff, forall₂_map_right_iff, forall₂_same]
  exact fun item member => (each item member).alone

/-- A walk takes a written expression to the same expression in the next shape and words. -/
theorem passes (rule : Rule context admits run old new before after) (fit : old.isFit = true)
    (leads : context.Leads before) (lists : after.listed = before.listed)
    (formed : expression.Formed (context.plain admits)) :
    Passes run old new (expression.masked before old) (pure (expression.masked after new)) := by
  induction formed with
  | atom proper => exact rule.passes_atom fit proper
  | negation formed _ ih =>
    have passed := rule.passes_negation fit (leads.whole fit formed) ih
    rw [pure_bind] at passed
    exact passed
  | @binary operator _ _ _ _ _ _ ihLeft ihRight =>
    have passed := ihLeft.binary fit operator ihRight
    simp only [pure_bind] at passed
    exact passed
  | @group kind items allowed formed ih =>
    have below := becomes_items rule.walk ih
    have balanced := leads.balanced fit formed
    rw [Expression.masked_group, Expression.masked_group]
    cases kind with
    | call name =>
      simp only [Shape.group, Expression.itemTexts_masked]
      simpa using rule.passes_lead (rule.call allowed.1) (leads name allowed.1) balanced below
    | record name => exact absurd rfl (allowed.2 name)
    | access path =>
      obtain ⟨first, rest, split, isRun⟩ := isRun_path allowed.1.1.1 allowed.1.1.2
      simp only [Shape.group, Expression.itemTexts_masked, split]
      simpa using rule.passes_access isRun balanced below
    | array =>
      simp only [Shape.group, Expression.itemTexts_masked]
      simpa using rule.passes_square balanced below
    | list =>
      simp only [Shape.group, Expression.itemTexts_masked, lists]
      split
      · rename_i listed
        have curly := below.enclosed_pure rule.walk .curly
        have passed := rule.passes_lead (rule.built listed) builder_lead (.enclosed .curly balanced) curly
        rw [pure_bind] at passed
        exact passed
      · simpa using rule.passes_paren balanced below
    | paren =>
      simp only [Shape.group, Expression.itemTexts_masked]
      simpa using rule.passes_paren balanced below
    | inline form name =>
      rw [← Expression.masked_group, ← Expression.masked_group]
      exact rule.inline allowed.1 formed ih

theorem converts (rule : Rule context admits run old new before after) (fit : old.isFit = true)
    (leads : context.Leads before) (lists : after.listed = before.listed)
    (formed : expression.Formed (context.plain admits)) :
    run none (expression.masked before old) = pure (expression.masked after new) :=
  (rule.passes fit leads lists formed).alone.eq rule.walk

end Rule

section Inlined

variable {context : Context} {admits : Nat → Prop} {run : Option Char → Text → Conversion Text}
  {old new : Words} {before after : Shape} {form : Inline} {name : Text} {items : List (Expression Nat)}

/-- A walk that leaves the names of built-ins alone. -/
theorem Wording.inline_named (wording : Wording run old new) (fit : old.isFit = true)
    (leads : context.Leads before) (spelled : before.inlined = false ∧ after.inlined = false)
    (calls : ∀ {form : Inline} {name}, name ∈ form.names → context.namesRecord name = false →
      Calls run name name) (allowed : context.Allows (.inline form name) items.length)
    (formed : ∀ item ∈ items, item.Formed (context.plain admits))
    (each : ∀ item ∈ items, Passes run old new (item.masked before old) (pure (item.masked after new))) :
    Passes run old new (Expression.masked before old (.group (.inline form name) items))
      (pure (Expression.masked after new (.group (.inline form name) items))) := by
  rw [Expression.masked_group, Expression.masked_group]
  simp only [Shape.group, spelled.1, spelled.2, Bool.false_eq_true, if_false, Expression.itemTexts_masked]
  simpa using wording.passes_lead (calls allowed.1 allowed.2.2.1) (form.names_lead name allowed.1)
    (leads.balanced fit formed) (Rule.becomes_items wording.walk each)

/-- A walk that copies the operator and the library function. -/
theorem Wording.inline_spelled (wording : Wording run old new) (fit : old.isFit = true)
    (leads : context.Leads before) (spelled : before.inlined = true ∧ after.inlined = true)
    (dots : ∀ {text out}, Becomes run text (pure out) →
      Becomes run (Inline.joint ++ text) (pure (Inline.joint ++ out)))
    (library : Calls run Inline.library Inline.library)
    (allowed : context.Allows (.inline form name) items.length)
    (formed : ∀ item ∈ items, item.Formed (context.plain admits))
    (each : ∀ item ∈ items, Passes run old new (item.masked before old) (pure (item.masked after new))) :
    Passes run old new (Expression.masked before old (.group (.inline form name) items))
      (pure (Expression.masked after new (.group (.inline form name) items))) := by
  have whole {item : Expression Nat} (member : item ∈ items) : Whole (item.masked before old) :=
    leads.whole fit (formed item member)
  have letters : ∀ c ∈ Inline.library, isRunChar c = true := by
    rw [Inline.library_eq]
    exact Inline.library_run.chars
  rw [Expression.masked_group, Expression.masked_group]
  simp only [Shape.group, spelled.1, spelled.2, if_true]
  cases form with
  | concatenation =>
    obtain ⟨first, second, rfl⟩ := length_eq_two.mp allowed.2.2.2
    have left := each first (by simp)
    have right := dots (each second (by simp)).alone
    have closed (tail : Text) (_ : closes tail = true) :
        closes (Inline.joint ++ second.masked before old ++ tail) = true := by
      show closes (' ' :: '.' :: '.' :: ' ' :: (second.masked before old ++ tail)) = true
      refine closes_space ?_
      rw [head?_trimLeft_cons (by decide)]
      decide
    refine ⟨left.alone.append_pure right closed, fun connective => ?_⟩
    have behind := left.after connective
    rw [pure_bind] at behind ⊢
    have both := behind.append_pure right closed
    rw [append_assoc, append_assoc] at both
    exact both
  | length =>
    obtain ⟨item, rfl⟩ := length_eq_one_iff.mp allowed.2.2.2
    have inside := each item (by simp)
    have balanced := (whole (mem_singleton_self item)).balanced.loosen
    have sharp {text out : Text} (whole : Whole text) (becomes : Becomes run text (pure out)) :
        Passes run old new ('#' :: text) (pure ('#' :: out)) := by
      have sign : Whole ['#'] := isLexeme_whole (by decide)
      exact wording.passes (sign.append whole) (by simp) (becomes.sign_pure wording.walk (by decide))
    simp only [Expression.writeItems, Inline.text]
    cases item.isBare with
    | true => exact sharp (whole (mem_singleton_self item)) inside.alone
    | false => exact sharp (.enclosed .round balanced) (inside.alone.enclosed_pure wording.walk .round)
  | character =>
    obtain ⟨subject, place, rfl⟩ := length_eq_two.mp allowed.2.2.2
    have onSubject := (each subject (by simp)).alone
    have onPlace := (each place (by simp)).alone
    have balanced : Balanced true (commaSeparated
        [subject.masked before old, place.masked before old, place.masked before old]) := by
      refine .commaSeparated ?_
      simpa using ⟨(whole (by simp : subject ∈ _)).balanced.loosen,
        (whole (by simp : place ∈ _)).balanced.loosen⟩
    have passed := wording.passes_call library Inline.library_whole letters balanced
      (.commaSeparated_pure wording.walk (.cons onSubject (.cons onPlace (.cons onPlace .nil))))
    rw [pure_bind] at passed
    exact passed
  | substring =>
    simp only [Inline.text, Expression.itemTexts_masked]
    simpa using wording.passes_call library Inline.library_whole letters (leads.balanced fit formed)
      (Rule.becomes_items wording.walk each)

end Inlined

end Pseudocode
