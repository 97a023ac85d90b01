import Pseudocode.Proofs.PlainValue

namespace Pseudocode

open List Placeholder
variable {store : Store} {items : List (Expression Nat)} {works : List (Conversion Text)}

/-- The part of a line at the index is a literal. -/
def Store.Quotes (store : Store) (index : Nat) : Prop :=
  ∃ text, store.held[index]? = some (.literal text) ∧ opening ∉ text

theorem Store.Quotes.mono {reached : Store} {index : Nat} (quotes : store.Quotes index)
    (grown : store.Extends reached) : reached.Quotes index := by
  obtain ⟨text, held, plain⟩ := quotes
  exact ⟨text, grown _ _ held, plain⟩

theorem isLeadWord_unopened {word : Text} (lead : isLeadWord word = true) : opening ∉ word := fun member => by
  have letter := (isLeadWord_iff.mp lead).1.2 _ member
  rw [isMark_not_wordChar (by decide)] at letter
  simp at letter

theorem dotted_unopened {path : List Text} (names : path ≠ [] ∧ ∀ name ∈ path, isVariableName name = true) :
    opening ∉ dotted path := by
  obtain ⟨first, rest, split, run⟩ := isRun_path names.1 names.2
  rw [split]
  exact fun member => isRunChar_ne_opening (run.chars _ member) rfl

namespace Expands

variable {stands : Nat → Text → Prop} {items outs : List Item}

theorem fenced (lead : Text) {inside out : Text} {opener closer : Char} (plain : opening ∉ lead)
    (begins : opener ≠ opening) (close : closer ≠ opening) (expands : Expands stands inside out) :
    Expands stands (lead ++ opener :: inside ++ [closer]) (lead ++ opener :: out ++ [closer]) :=
  (Expands.append (.of_plain plain) (.plain begins expands)).append (.of_plain (by simpa using Ne.symm close))

theorem itemTexts (each : List.Forall₂ (fun item out => Expands stands item.text out.text) items outs) :
    Expands stands (Pseudocode.itemTexts items) (Pseudocode.itemTexts outs) := by
  refine .commaSeparated ?_
  rw [forall₂_map_left_iff, forall₂_map_right_iff]
  exact each

theorem inline {form : Inline} (each : List.Forall₂ (fun item out =>
    Expands stands item.text out.text ∧ item.isBare = out.isBare) items outs) :
    Expands stands (form.text items) (form.text outs) := by
  have texts : Expands stands (Pseudocode.itemTexts items) (Pseudocode.itemTexts outs) :=
    .itemTexts (each.imp fun _ _ both => both.1)
  have library : opening ∉ Inline.library := by decide
  cases form with
  | concatenation =>
    match each with
    | .nil => exact .nil
    | .cons _ .nil => exact .nil
    | .cons first (.cons second .nil) => exact first.1.append (Expands.append (.of_plain (by decide)) second.1)
    | .cons _ (.cons _ (.cons _ _)) => exact .nil
  | length =>
    match each with
    | .nil => exact .nil
    | .cons (a := item) (b := out) both .nil =>
      rw [Inline.text, Inline.text, ← both.2]
      split
      · exact .plain (by decide) both.1
      · exact .plain (by decide) (.fenced [] (by simp) (by decide) (by decide) both.1)
    | .cons _ (.cons _ _) => exact .nil
  | character =>
    match each with
    | .nil => exact .nil
    | .cons _ .nil => exact .nil
    | .cons subject (.cons place .nil) =>
      exact .fenced _ library (by decide) (by decide)
        (.commaSeparated (.cons subject.1 (.cons place.1 (.cons place.1 .nil))))
    | .cons _ (.cons _ (.cons _ _)) => exact .nil
  | substring => exact .fenced _ library (by decide) (by decide) texts

end Expands

/-- No word of these starts a placeholder. -/
def Words.IsUnopened (words : Words) : Prop :=
  ∀ word ∈ words.lexemes, Placeholder.opening ∉ word

theorem source_unopened : Words.source.IsUnopened := by
  unfold Words.IsUnopened
  decide

theorem lua_unopened : Words.lua.IsUnopened := by
  unfold Words.IsUnopened
  decide

theorem Words.IsUnopened.connective {words : Words} (unopened : words.IsUnopened)
    (connective : Connective) : Placeholder.opening ∉ words.opening connective := by
  have blank : Placeholder.opening ≠ ' ' := by decide
  cases connective with
  | negation =>
    rw [Words.opening, mem_append, not_or, mem_singleton]
    exact ⟨unopened _ words.negation_mem, blank⟩
  | operator operator =>
    rw [Words.opening, cons_append, mem_cons, not_or, mem_append, not_or,
      mem_singleton]
    exact ⟨blank, unopened _ (words.operator_mem operator), blank⟩

theorem Atom.expands {words : Words} (unopened : words.IsUnopened) {admits : Nat → Prop}
    {operand : Atom Nat} (proper : operand.Proper admits) {stands : Nat → Text → Prop}
    {quote : Nat → Text} (literal : ∀ index, admits index → stands index (quote index)) :
    Expands stands (operand.write words Placeholder.write) (operand.write words quote) := by
  cases operand with
  | path names => exact .of_plain (dotted_unopened proper)
  | numeral digits =>
    obtain ⟨first, rest, split, run⟩ := isRun_numeral proper
    refine .of_plain fun member => ?_
    change opening ∈ dotted digits at member
    rw [split] at member
    exact isRunChar_ne_opening (run.chars _ member) rfl
  | truth value => exact .of_plain (unopened _ (words.truth_mem value))
  | literal index => exact .single (literal index proper)

/-- Functions have names that can stand before a parenthesis, and a record becomes what its values
become. -/
structure Context.Spreads (context : Context) (shape : Shape) : Prop where
  lead : ∀ name, context.isFunctionName name = true → isLeadWord (shape.rename name) = true
  record : ∀ {stands : Nat → Text → Prop} {name values outs},
    context.Allows (.record name) values.length → List.Forall₂ (Expands stands) values outs →
      Expands stands (shape.record name values) (shape.record name outs)

namespace Context

variable {context : Context}

theorem lua_spreads (standard : context.language = standardLanguage) (named : context.records.IsNamed) :
    context.Spreads (Shape.lua context) where
  lead _ function := luaName_lead standard function
  record {stands name values outs} allowed each := by
    obtain ⟨-, type, found, -⟩ := allowed
    obtain ⟨pair, listed, rfl⟩ := Records.get?_mem found
    have plain : ∀ field ∈ pair.2.fieldNames, opening ∉ field := fun field member inside =>
      isRunChar_ne_opening (by simp [isRunChar, named.fields pair listed field member _ inside]) rfl
    show Expands stands (context.luaRecord name values) (context.luaRecord name outs)
    rw [luaRecord, luaRecord, found]
    exact .record plain each

/-- A group becomes what its items become. -/
theorem Spreads.group {shape : Shape} (spreads : context.Spreads shape) {stands : Nat → Text → Prop}
    {kind : Group} {items outs : List Item} (allowed : context.Forms kind items.length)
    (each : List.Forall₂ (fun item out => Expands stands item.text out.text ∧ item.isBare = out.isBare)
      items outs) :
    Expands stands (shape.group kind items) (shape.group kind outs) := by
  have inside : Expands stands (itemTexts items) (itemTexts outs) :=
    .itemTexts (each.imp fun _ _ both => both.1)
  have called {name : Text} (lead : isLeadWord name = true) : Expands stands
      (name ++ '(' :: itemTexts items ++ [')']) (name ++ '(' :: itemTexts outs ++ [')']) :=
    .fenced _ (isLeadWord_unopened lead) (by decide) (by decide) inside
  have empty : opening ∉ ([] : Text) := by simp
  cases kind with
  | call name => exact called (spreads.lead name allowed)
  | record name =>
    have count : context.Allows (.record name) (items.map (·.text)).length := by
      rw [length_map]
      exact allowed
    refine spreads.record count ?_
    rw [forall₂_map_left_iff, forall₂_map_right_iff]
    exact each.imp fun _ _ both => both.1
  | access path => exact .fenced _ (dotted_unopened allowed.1) (by decide) (by decide) inside
  | array => exact .fenced [] empty (by decide) (by decide) inside
  | list =>
    simp only [Shape.group]
    split
    · exact .fenced _ (isLeadWord_unopened builder_lead) (by decide) (by decide) (.braced inside)
    · exact .fenced [] empty (by decide) (by decide) inside
  | paren => exact .fenced [] empty (by decide) (by decide) inside
  | inline form name =>
    simp only [Shape.group]
    split
    · exact .inline each
    · exact called (form.names_lead name allowed.1)

end Context

/-- The second expression is the first with its records put aside. Wherever it stands, it becomes what
the first stands for there once what was put aside is rendered. -/
structure Expression.Reduced (context : Context) (store : Store) (height : Nat)
    (expression reduced : Expression Nat) : Prop where
  formed : reduced.Formed (context.plain fun _ => True)
  expands : ∀ opens, Expands (context.Stands store height)
    ((reduced.settled opens).masked (Shape.lua context) .lua)
    ((expression.settled opens).masked (Shape.lua context) .lua)
  bare : reduced.isBare = expression.isBare
  leads : ∀ opens, (reduced.settled opens).opensWithList = (expression.settled opens).opensWithList
  item : ∀ opens, (reduced.settled opens).isSoleItem = (expression.settled opens).isSoleItem

namespace Expression

variable {context : Context} {store reached : Store} {height above : Nat}
  {expression reduced : Expression Nat}

theorem Reduced.mono (here : Reduced context store height expression reduced)
    (grown : store.Extends reached) (higher : height ≤ above) :
    Reduced context reached above expression reduced :=
  { here with
    expands := fun opens => (here.expands opens).mono fun _ _ stands => stands.mono grown higher }

theorem Reduced.lasts : Lasts (Reduced context) := fun _ _ _ _ _ _ => Reduced.mono

/-- The work leaves the expression with its records put aside. -/
abbrev Reduces (context : Context) : Store → Nat → Expression Nat → Conversion Text → Prop :=
  Works (masked Shape.source .source) (Reduced context)

/-- With its records rendered, an expression becomes what it stands for as a value. -/
theorem Reduced.values (standard : context.language = standardLanguage)
    (regular : context.records.IsRegular) (here : Reduced context store height expression reduced) :
    context.Values store (height + 1) (reduced.masked Shape.source .source)
      ((expression.settled true).masked (Shape.lua context) .lua) where
  gives {depth desk} deep extended := by
    obtain ⟨below, rfl⟩ : ∃ below, depth = below + 1 := ⟨depth - 1, by omega⟩
    have converted : Gives (context.convertValue {} (reduced.masked Shape.source .source)) desk
        ((reduced.settled true).masked (Shape.lua context) .lua) desk :=
      Context.convertValue_masked standard rfl here.formed
        (Context.convertRecords_plain regular here.formed desk)
    obtain ⟨reached, expanded, grown⟩ := Context.Expands.expand (here.expands true)
      (by omega : height ≤ below) extended
    exact ⟨reached, converted.bind expanded, grown⟩
  legible := Context.Expands.legible (fun _ _ stands => stands.legible) (here.expands true)

theorem Reduced.atom {operand : Atom Nat} (proper : operand.Proper store.Quotes) :
    Reduced context store height (.atom operand) (.atom operand) where
  formed := .atom (by cases operand <;> first | exact proper | trivial)
  expands _ := by
    refine Atom.expands lua_unopened proper fun index quotes => ?_
    obtain ⟨text, held, plain⟩ := quotes
    exact .literal held plain
  bare := rfl
  leads _ := rfl
  item _ := rfl

theorem Reduced.negation (here : Reduced context store height expression reduced) :
    Reduced context store height (.negation expression) (.negation reduced) where
  formed := .negation here.formed ((context.plain_blind _).mayOperate _)
  expands _ := by
    exact Expands.append (.of_plain (lua_unopened.connective _)) (here.expands false)
  bare := rfl
  leads _ := rfl
  item _ := rfl

theorem Reduced.binary {left right first second : Expression Nat} (operator : Operator)
    (onLeft : Reduced context store height left first)
    (onRight : Reduced context store height right second) :
    Reduced context store height (.binary operator left right) (.binary operator first second) where
  formed := .binary onLeft.formed ((context.plain_blind _).mayOperate _) onRight.formed
    ((context.plain_blind _).mayOperate _)
  expands opens := by
    exact (onLeft.expands opens).append
      (Expands.append (.of_plain (lua_unopened.connective _)) (onRight.expands operator.opens))
  bare := rfl
  leads opens := onLeft.leads opens
  item opens := onLeft.leads opens

theorem Reduced.areListed {others : List (Expression Nat)}
    (each : List.Forall₂ (Reduced context store height) items others) :
    Expression.areListed (settledItems others) = Expression.areListed (settledItems items) := by
  match each with
  | .nil => rfl
  | .cons here .nil => exact here.item true
  | .cons _ (.cons _ _) => rfl

theorem Reduced.group (standard : context.language = standardLanguage) (named : context.records.IsNamed)
    {kind : Group} {items others : List (Expression Nat)} (allowed : context.Forms kind items.length)
    (plain : ∀ name, kind ≠ .record name)
    (each : List.Forall₂ (Reduced context store height) items others) :
    Reduced context store height (.group kind items) (.group kind others) := by
  have taken (opens : Bool) :
      kind.taken opens (settledItems others) = kind.taken opens (settledItems items) := by
    cases kind with
    | list | paren => rw [Group.taken, Group.taken, Reduced.areListed each]
    | call _ | record _ | access _ | array | inline _ _ => rfl
  refine ⟨?_, fun opens => ?_, ?_, fun opens => ?_, fun opens => ?_⟩
  · refine .group ⟨each.length_eq ▸ allowed, plain⟩ fun other member => ?_
    obtain ⟨item, here⟩ := forall₂_mem_left each.flip member
    exact here.formed
  · rw [settled, settled, taken, masked_group, masked_group, settledItems_eq, settledItems_eq]
    refine (Context.lua_spreads standard named).group ?_ ?_
    · rw [writeItems_eq, length_map, length_map, ← each.length_eq]
      exact allowed.taken opens _
    · rw [writeItems_eq, writeItems_eq, forall₂_map_left_iff, forall₂_map_right_iff,
        forall₂_map_left_iff, forall₂_map_right_iff]
      refine each.flip.imp fun _ _ here => ⟨here.expands true, ?_⟩
      simp only [isBare_settled]
      exact here.bare
  · cases kind <;> rfl
  · rw [settled, settled, taken]
    cases kind.taken opens (settledItems items) <;> rfl
  · rw [settled, settled, taken]
    cases kind.taken opens (settledItems items) <;> rfl

end Expression

/-- A group of the pseudo-code with its items. -/
def Group.written : Group → List Text → Text
  | .call name, texts | .record name, texts | .inline _ name, texts =>
    name ++ '(' :: commaSeparated texts ++ [')']
  | .access path, texts => dotted path ++ '[' :: commaSeparated texts ++ [']']
  | .array, texts => '[' :: commaSeparated texts ++ [']']
  | .list, texts | .paren, texts => '(' :: commaSeparated texts ++ [')']

theorem Group.count_written (kind : Group) (texts : List Text) :
    (commaSeparated texts).count '(' ≤ (kind.written texts).count '(' := by
  cases kind <;> simp only [Group.written, append_assoc, count_append, cons_append,
    count_cons] <;> omega

theorem Expression.write_source {α : Type} (quote : α → Text) (kind : Group)
    (items : List (Expression α)) :
    write (Shape.source.dialect .source) quote (.group kind items) =
      kind.written (items.map (write (Shape.source.dialect .source) quote)) := by
  rw [write, ← map_text_writeItems]
  cases kind <;> rfl

theorem Expression.masked_source (kind : Group) (items : List (Expression Nat)) :
    masked Shape.source .source (.group kind items) =
      kind.written (items.map (masked Shape.source .source)) :=
  write_source Placeholder.write kind items

section Constructors

variable {context : Context} (regular : context.records.IsRegular)

include regular

theorem constructor_group {kind : Group} {count : Nat} {texts : List Text}
    (allowed : context.Forms kind count)
    (plain : ∀ name, kind ≠ .record name) (balanced : Balanced true (commaSeparated texts))
    (each : List.Forall₂ (Becomes context.records.constructorRun) texts works) :
    Passes context.records.constructorRun .source .source (kind.written texts)
      (do return kind.written (← works.mapM id)) := by
  have wording := constructor_wording regular
  have below := Becomes.commaSeparated wording.walk each
  cases kind with
  | call name =>
    obtain ⟨-, -, other, -⟩ := Context.isFunctionName_iff.mp allowed
    have lead := Context.isFunctionName_lead allowed
    simpa [Group.written] using
      wording.passes_lead (constructor_calls regular lead other) lead balanced below
  | record name => exact absurd rfl (plain name)
  | access path =>
    obtain ⟨first, rest, split, isRun⟩ := isRun_path allowed.1.1 allowed.1.2
    have passed := wording.passes_access isRun balanced below
    rw [← split] at passed
    simpa [Group.written] using passed
  | array => simpa [Group.written] using wording.passes_square balanced below
  | list | paren => simpa [Group.written] using wording.passes_paren balanced below
  | inline form name =>
    have lead := form.names_lead name allowed.1
    simpa [Group.written] using
      wording.passes_lead (constructor_calls regular lead allowed.2.2.1) lead balanced below

/-- A record is put aside, and stands for a table of its values. -/
theorem constructor_record (standard : context.language = standardLanguage) {height : Nat} {name : Text}
    (allowed : context.Allows (.record name) items.length)
    (whole : Whole (Group.written (.record name) (items.map (Expression.masked Shape.source .source))))
    (balanced : Balanced true (commaSeparated (items.map (Expression.masked Shape.source .source))))
    (each : List.Forall₂ (Becomes context.records.constructorRun)
      (items.map (Expression.masked Shape.source .source)) works)
    (reduces : List.Forall₂ (Expression.Reduces context store height) items works) :
    ∃ work, Passes context.records.constructorRun .source .source
        (Group.written (.record name) (items.map (Expression.masked Shape.source .source))) work ∧
      Expression.Reduces context store (height + 1) (.group (.record name) items) work := by
  obtain ⟨called, type, found, cased⟩ := allowed
  have wording := constructor_wording regular
  have letters : ∀ c ∈ name, isWordChar c = true := fun c => identifier?_mem called
  have nonempty : name ≠ [] := by
    rintro rfl
    simp [identifier?] at called
  have call : Becomes context.records.constructorRun (name ++ [] ++
      '(' :: commaSeparated (items.map (Expression.masked Shape.source .source)) ++ [')'])
      (works.mapM id >>= fun texts => Conversion.hold (.table (Records.constructed type
        (splitArguments (commaSeparated texts))))) :=
    regular.sound.becomes_call [] nonempty letters (by simp) balanced
      (Becomes.commaSeparated wording.walk each) (fun text head _ same _ texts => by simp [same, found])
      (fun text missed => absurd missed (Records.namedCallee_declared found cased text))
  rw [append_nil] at call
  refine ⟨_, wording.passes whole ?_ call, fun desk extended => ?_⟩
  · obtain ⟨c, rest, rfl⟩ := exists_cons_of_ne_nil nonempty
    rw [Group.written, cons_append, cons_append, head?_cons, Ne, Option.some.injEq]
    rintro rfl
    exact absurd (letters '(' (.head _)) (by decide)
  obtain ⟨others, middle, run, grown, reduced⟩ := Works.forall₂ Expression.Reduced.lasts reduces desk extended
  have wholes : ∀ text ∈ others.map (Expression.masked Shape.source .source), Whole text := by
    have leads : context.Leads Shape.source := fun _ function => Context.isFunctionName_lead function
    refine forall_mem_map.mpr fun other member => ?_
    obtain ⟨item, here⟩ := forall₂_mem_left reduced.flip member
    exact leads.whole Words.source_isFit here.formed
  set entries := Records.constructed type (others.map (Expression.masked Shape.source .source)) with
    entriesEq
  have grows := Store.Extends.hold middle.store (.table entries)
  set final := (middle.store.hold (.table entries)).1 with finalEq
  have nothing : context.Values final (height + 1) "nil".toList "nil".toList := by
    have atom : Expression.Reduced context final height (.atom (.path ["nil".toList]))
        (.atom (.path ["nil".toList])) :=
      .atom ⟨by simp, forall_mem_singleton.mpr (by decide)⟩
    simpa [Expression.settled, Expression.masked, Expression.write, Atom.write] using
      atom.values standard regular
  have values : List.Forall₂ (context.Values final (height + 1))
      (others.map (Expression.masked Shape.source .source))
      ((Expression.settledItems items).map (Expression.masked (Shape.lua context) .lua)) := by
    rw [Expression.settledItems_eq, forall₂_map_left_iff, forall₂_map_right_iff,
      forall₂_map_right_iff]
    exact reduced.flip.imp fun _ _ here => (here.mono grows le_rfl).values standard regular
  obtain ⟨outs, each, rendered⟩ := namedEntries_rendered type.fieldNames nothing values
  rw [← Records.constructed_eq, ← entriesEq] at each rendered
  have stands : context.Stands final (height + 1) middle.store.held.size
      (Expression.masked (Shape.lua context) .lua
        (.group (.record name) (Expression.settledItems items))) := by
    have held : final.held[middle.store.held.size]? = some (.table entries) := by
      simp [finalEq, Store.hold]
    have table := Context.Stands.table held (fun entry member field named => by
      rw [entriesEq, Records.constructed_eq] at member
      obtain ⟨pair, listed, rfl⟩ := Records.get?_mem found
      have letters := regular.fields pair listed field (namedEntries_names member field named)
      exact fun inside => isRunChar_ne_opening (by simp [isRunChar, letters _ inside]) rfl) each
    have texts := Expression.map_text_writeItems ((Shape.lua context).dialect .lua) write
      (Expression.settledItems items)
    rw [Expression.masked_group]
    show context.Stands final (height + 1) middle.store.held.size (context.luaRecord name _)
    rw [Context.luaRecord, found, texts]
    rw [rendered] at table
    exact table
  refine ⟨.atom (.literal middle.store.held.size), { middle with store := final }, ?_,
    grown.trans grows, .atom trivial, fun _ => .single stands, rfl, fun _ => rfl, fun _ => rfl⟩
  refine run.bind ?_
  rw [splitArguments_commaSeparated wholes]
  rfl

/-- Records are put aside from the inside out, and what is left stands for the same. -/
theorem Expression.Formed.reduces (standard : context.language = standardLanguage)
    {expression : Expression Nat} (formed : expression.Formed (context.forms store.Quotes)) :
    ∃ work, Passes context.records.constructorRun .source .source
        (expression.masked Shape.source .source) work ∧
      Reduces context store ((expression.masked Shape.source .source).count '(') expression work := by
  have wording := constructor_wording regular
  have whole {part : Expression Nat} (formed : part.Formed (context.forms store.Quotes)) :
      Whole (part.masked Shape.source .source) :=
    formed.whole ((Shape.source_shapes context).fits Words.source_isFit id) fun index _ => write_whole index
  induction formed with
  | @atom operand proper =>
    refine ⟨_, wording.passes_atom Words.source_isFit proper, fun desk extended => ?_⟩
    have quoted : operand.Proper desk.store.Quotes := by
      cases operand with
      | literal index => exact Store.Quotes.mono proper extended
      | path _ | numeral _ | truth _ => exact proper
    exact ⟨_, desk, .pure _ _, .refl _, .atom quoted⟩
  | @negation operand formed _ ih =>
    obtain ⟨work, passes, reduces⟩ := ih
    refine ⟨_, wording.passes_negation Words.source_isFit (whole formed) passes, fun desk extended => ?_⟩
    obtain ⟨reduced, reached, run, grown, here⟩ := reduces desk extended
    refine ⟨.negation reduced, reached, run.bind (.pure _ _), grown, ?_⟩
    refine here.negation.mono (.refl _) ?_
    exact (sublist_append_right _ _).count_le '('
  | @binary operator left right _ _ _ _ ihLeft ihRight =>
    obtain ⟨leftWork, onLeft, reducesLeft⟩ := ihLeft
    obtain ⟨rightWork, onRight, reducesRight⟩ := ihRight
    refine ⟨_, onLeft.binary Words.source_isFit operator onRight, fun desk extended => ?_⟩
    obtain ⟨first, middle, runLeft, grown, hereLeft⟩ := reducesLeft desk extended
    obtain ⟨second, reached, runRight, further, hereRight⟩ := reducesRight middle (extended.trans grown)
    refine ⟨.binary operator first second, reached, runLeft.bind (runRight.bind (.pure _ _)),
      grown.trans further, ?_⟩
    refine (hereLeft.mono further ?_).binary operator (hereRight.mono (.refl _) ?_)
    · exact (sublist_append_left _ _).count_le '('
    · exact ((sublist_append_right _ _).trans (sublist_append_right _ _)).count_le '('
  | @group kind items allowed formed ih =>
    obtain ⟨works, becomes, reduces⟩ := exists_works Reduced.lasts fun item member =>
      (ih item member).imp fun _ both => ⟨both.1.alone, both.2⟩
    have balanced : Balanced true (commaSeparated (items.map (masked Shape.source .source))) :=
      .commaSeparated (forall_mem_map.mpr fun item member =>
        (whole (formed item member)).balanced.loosen)
    by_cases record : ∃ name, kind = .record name
    · obtain ⟨name, rfl⟩ := record
      have here := whole (.group allowed formed)
      rw [masked_source] at here ⊢
      obtain ⟨work, passes, reduces⟩ := constructor_record regular standard allowed here balanced becomes
        reduces
      refine ⟨work, passes, reduces.mono Reduced.lasts ?_⟩
      simp only [Group.written, append_assoc, count_append, cons_append, count_cons_self]
      omega
    · push Not at record
      rw [masked_source]
      refine ⟨_, constructor_group regular allowed record balanced becomes, fun desk extended => ?_⟩
      obtain ⟨others, reached, run, grown, reduced⟩ := Works.forall₂ Reduced.lasts reduces desk extended
      refine ⟨.group kind others, reached, ?_, grown, ?_⟩
      · rw [masked_source]
        exact run.bind (.pure _ _)
      · refine (Reduced.group standard regular.toIsNamed allowed record reduced).mono (.refl _) ?_
        exact kind.count_written _

namespace Context

variable {usage : Usage} {expression : Expression Nat} {desk : Desk}

theorem convertValue_reduced (standard : context.language = standardLanguage)
    (comparison : usage.comparison = true)
    (formed : expression.Formed (context.forms desk.store.Quotes)) :
    ∃ reduced reached, Gives (context.convertValue usage (expression.masked Shape.source .source)) desk
        ((reduced.settled !usage.afterKeyword).masked (Shape.lua context) .lua) reached ∧
      desk.store.Extends reached.store ∧ Expression.Reduced context reached.store
        ((expression.masked Shape.source .source).count '(') expression reduced := by
  obtain ⟨work, passes, reduces⟩ := formed.reduces regular standard
  obtain ⟨reduced, reached, run, grown, here⟩ := reduces desk (.refl _)
  refine ⟨reduced, reached, ?_, grown, here⟩
  refine convertValue_masked standard comparison here.formed ?_
  rw [Records.convert, Records.convertConstructors_eq,
    passes.alone.eq (constructor_wording regular).walk]
  exact run.bind (context.records.convertLiterals_compares (here.formed.compares none) reached)

/-- An expression takes its Lua form but for brackets and literals. -/
theorem value_masked (standard : context.language = standardLanguage)
    (comparison : usage.comparison = true)
    (formed : expression.Formed (context.forms desk.store.Quotes)) :
    ∃ reached, Gives (context.value usage (expression.masked Shape.source .source)) desk
        ((expression.settled !usage.afterKeyword).masked (Shape.lua context) .lua) reached ∧
      desk.store.Extends reached.store := by
  obtain ⟨reduced, middle, converted, grown, here⟩ := convertValue_reduced regular standard comparison
    formed
  obtain ⟨depth, limit⟩ : ∃ depth,
      depthLimit desk.store (expression.masked Shape.source .source) = depth + 1 := ⟨_, rfl⟩
  have deep : (expression.masked Shape.source .source).count '(' ≤ depth := by
    have short := count_le_length (a := '(') (l := expression.masked Shape.source .source)
    simp only [depthLimit] at limit
    omega
  obtain ⟨reached, expanded, further⟩ := Expands.expand (here.expands _) deep (.refl _)
  refine ⟨reached, ?_, grown.trans further⟩
  rw [value, Gives, outcome_bind, outcome_get]
  simp only [limit]
  exact converted.bind expanded

end Context

end Constructors

end Pseudocode
