import Pseudocode.Proofs.Indexing

namespace Pseudocode

open Placeholder
variable {context : Context} {others : List Text} {quote : Nat → Text} {expression : Expression Nat}
  {shape : Shape} {stands : Nat → Text → Prop} {grammar : Grammar Nat}

def Atom.map {α β : Type} (change : α → β) : Atom α → Atom β
  | .path names => .path names
  | .numeral digits => .numeral digits
  | .truth value => .truth value
  | .literal label => .literal (change label)

namespace Expression

variable {α β : Type}

mutual

/-- The expression with other labels for its literals. -/
def map (change : α → β) : Expression α → Expression β
  | .atom operand => .atom (operand.map change)
  | .negation operand => .negation (operand.map change)
  | .binary operator left right => .binary operator (left.map change) (right.map change)
  | .group kind items => .group kind (mapItems change items)

def mapItems (change : α → β) : List (Expression α) → List (Expression β)
  | [] => []
  | item :: items => item.map change :: mapItems change items

end

variable (change : α → β) (expression : Expression α)

theorem mapItems_eq (items : List (Expression α)) : mapItems change items = items.map (map change) := by
  induction items with
  | nil => rfl
  | cons item items ih => rw [mapItems, ih, List.map_cons]

theorem isLiteral_map : (expression.map change).isLiteral = expression.isLiteral := by
  cases expression with
  | atom operand => cases operand <;> rfl
  | negation _ | binary _ _ _ | group _ _ => rfl

theorem isBare_map : (expression.map change).isBare = expression.isBare := by
  cases expression with
  | atom operand => cases operand <;> rfl
  | negation _ | binary _ _ _ => rfl
  | group kind _ => cases kind <;> rfl

theorem opensWithList_map : (expression.map change).opensWithList = expression.opensWithList := by
  fun_induction opensWithList expression with
  | case1 _ => rfl
  | case2 _ _ _ ih => exact ih
  | case3 expression group binary =>
    cases expression with
    | atom _ | negation _ => rfl
    | binary operator left right => exact absurd rfl (binary operator left right)
    | group kind items =>
      cases kind with
      | list => exact absurd rfl (group items)
      | call _ | record _ | access _ | array | paren | inline _ _ => rfl

theorem isSoleItem_map : (expression.map change).isSoleItem = expression.isSoleItem := by
  cases expression with
  | atom operand => cases operand <;> rfl
  | negation _ => rfl
  | binary _ left _ => exact opensWithList_map change left
  | group kind _ => cases kind <;> rfl

theorem areListed_map (items : List (Expression α)) :
    areListed (mapItems change items) = areListed items := by
  match items with
  | [] => rfl
  | [item] => exact isSoleItem_map change item
  | _ :: _ :: _ => rfl

mutual

theorem settled_map (opens : Bool) (expression : Expression α) :
    (expression.map change).settled opens = (expression.settled opens).map change := by
  cases expression with
  | atom _ => rfl
  | negation operand => rw [map, settled, settled, map, settled_map]
  | binary operator left right => rw [map, settled, settled, map, settled_map, settled_map]
  | group kind items =>
    have taken : kind.taken opens (mapItems change (settledItems items)) =
        kind.taken opens (settledItems items) := by
      cases kind with
      | list | paren => rw [Group.taken, Group.taken, areListed_map]
      | call _ | record _ | access _ | array | inline _ _ => rfl
    rw [map, settled, settled, map, settledItems_map, taken]

theorem settledItems_map (items : List (Expression α)) :
    settledItems (mapItems change items) = mapItems change (settledItems items) := by
  cases items with
  | nil => rfl
  | cons item items => rw [mapItems, settledItems, settledItems, mapItems, settled_map, settledItems_map]

end

mutual

theorem write_map (dialect : Dialect) (quote : β → Text) (expression : Expression α) :
    (expression.map change).write dialect quote = expression.write dialect (quote ∘ change) := by
  cases expression with
  | atom operand => cases operand <;> rfl
  | negation operand => rw [map, write, write, write_map]
  | binary operator left right => rw [map, write, write, write_map, write_map]
  | group kind items => rw [map, write, write, writeItems_map]

theorem writeItems_map (dialect : Dialect) (quote : β → Text) (items : List (Expression α)) :
    writeItems dialect quote (mapItems change items) = writeItems dialect (quote ∘ change) items := by
  cases items with
  | nil => rfl
  | cons item items =>
    rw [mapItems, writeItems, writeItems, write_map, isLiteral_map, isBare_map, writeItems_map]

end

end Expression

theorem isPlainSign_unquoted {c : Char} (plain : isPlainSign c = true) : c ≠ '"' ∧ c ≠ '\'' := by
  simp only [isPlainSign, Bool.and_eq_true, decide_eq_true_eq] at plain
  exact ⟨plain.1.2, plain.2⟩

/-- Only the items of a group have literals. -/
theorem Group.masks_written {kind : Group} {count start : Nat}
    {texts literals : List Text} (allowed : context.Forms kind count)
    (masks : Masks start (commaSeparated texts) literals (commaSeparated others)) :
    Masks start (kind.written texts) literals (kind.written others) := by
  have fenced (lead : Text) {opener closer : Char} (plain : ∀ c ∈ lead, isPlainSign c = true)
      (begins : opener ≠ '"' ∧ opener ≠ '\'') (close : closer ≠ '"' ∧ closer ≠ '\'') :
      Masks start (lead ++ opener :: commaSeparated texts ++ [closer]) literals
        (lead ++ opener :: commaSeparated others ++ [closer]) := by
    have before : Masks start lead [] lead := .code fun c member => isPlainSign_unquoted (plain c member)
    exact (before.append (masks.sign begins)).closed close
  have called {name : Text} (letters : ∀ c ∈ name, isWordChar c = true) :
      Masks start (name ++ '(' :: commaSeparated texts ++ [')']) literals
        (name ++ '(' :: commaSeparated others ++ [')']) :=
    fenced name (fun c member => (isWordChar_plain (letters c member)).1) (by decide) (by decide)
  cases kind with
  | call name => exact called (isLeadWord_iff.mp (Context.isFunctionName_lead allowed)).1.2
  | record name => exact called fun c => identifier?_mem allowed.1
  | access path =>
    obtain ⟨first, rest, split, run⟩ := isRun_path allowed.1.1 allowed.1.2
    refine fenced (dotted path) (fun c member => ?_) (by decide) (by decide)
    exact (isRunChar_plain (run.chars c (split ▸ member))).1
  | array => exact fenced [] (by simp) (by decide) (by decide)
  | list | paren => exact fenced [] (by simp) (by decide) (by decide)
  | inline form name => exact called (isLeadWord_iff.mp (form.names_lead name allowed.1)).1.2

namespace Expression

open RecordTree (IsQuoted)

variable {context : Context} {start : Nat} {literals : List Text}

/-- The label of each literal stands for it. -/
def Labels (start : Nat) (literals : List Text) (quote : Nat → Text) : Prop :=
  ∀ place text, literals[place]? = some text → quote (start + place) = text

theorem Labels.left (labels : Labels start (literals ++ others) quote) : Labels start literals quote := by
  intro place text found
  refine labels place text ?_
  rw [List.getElem?_append_left (List.getElem?_eq_some_iff.mp found).1]
  exact found

theorem Labels.right (labels : Labels start (literals ++ others) quote) :
    Labels (start + literals.length) others quote := by
  intro place text found
  rw [Nat.add_assoc]
  refine labels _ text ?_
  rw [List.getElem?_append_right (by omega)]
  simpa using found

theorem exists_labels (start : Nat) (literals : List Text) : ∃ quote, Labels start literals quote :=
  ⟨fun index => (literals[index - start]?).getD [], fun place text found => by simp [found]⟩

/-- The second expression is the first with its literals numbered from `start` on, in the order of
the text. -/
structure Numbered (context : Context) (start : Nat) (literals : List Text)
    (expression : Expression Text) (numbered : Expression Nat) : Prop where
  masks : Masks start (expression.write .source id) literals (numbered.masked Shape.source .source)
  formed : numbered.Formed (context.forms fun index => start ≤ index ∧ index < start + literals.length)
  plain : ∀ text ∈ literals, opening ∉ text
  labels : ∀ quote, Labels start literals quote → numbered.map quote = expression

namespace Numbered

variable {expression : Expression Text} {numbered : Expression Nat}

theorem atom {operand : Atom Text} (proper : operand.Proper IsQuoted) (start : Nat) :
    ∃ literals numbered, Numbered context start literals (.atom operand) numbered := by
  have plain (operand : Atom Nat) (proper : operand.Proper fun _ => False) :
      Masks start (operand.write .source Placeholder.write) [] (operand.write .source Placeholder.write) :=
    .code fun c member => isPlainSign_unquoted (Atom.write_plain Words.source_isFit proper c member)
  cases operand with
  | path names =>
    exact ⟨[], .atom (.path names), plain (.path names) proper, .atom proper, by simp, fun _ _ => rfl⟩
  | numeral digits =>
    exact ⟨[], .atom (.numeral digits), plain (.numeral digits) proper, .atom proper, by simp,
      fun _ _ => rfl⟩
  | truth value =>
    exact ⟨[], .atom (.truth value), plain (.truth value) trivial, .atom trivial, by simp, fun _ _ => rfl⟩
  | literal text =>
    refine ⟨[text], .atom (.literal start), .literal proper.1, .atom (by simp [Atom.Proper, Context.forms]),
      by simpa using proper.2, fun quote labels => ?_⟩
    rw [map, Atom.map, ← labels 0 text rfl, Nat.add_zero]

theorem mono {first last : Nat} (here : Numbered context start literals expression numbered)
    (lower : first ≤ start) (upper : start + literals.length ≤ last) :
    numbered.Formed (context.forms fun index => first ≤ index ∧ index < last) :=
  here.formed.mono (context.forms_within fun index bounds => by omega)

theorem negation (here : Numbered context start literals expression numbered) :
    Numbered context start literals (.negation expression) (.negation numbered) where
  masks := by
    have lead : Masks start (Words.source.opening .negation) [] (Words.source.opening .negation) :=
      .code fun c member => isPlainSign_unquoted (Words.opening_plain Words.source_isFit _ c member)
    exact lead.append here.masks
  formed := .negation here.formed ((context.forms_blind _).mayOperate _)
  plain := here.plain
  labels quote labels := by rw [map, here.labels quote labels]

theorem binary {left right : Expression Text} {first second : Expression Nat}
    {others : List Text} (operator : Operator) (onLeft : Numbered context start literals left first)
    (onRight : Numbered context (start + literals.length) others right second) :
    Numbered context start (literals ++ others) (.binary operator left right)
      (.binary operator first second) where
  masks := by
    have between {start : Nat} : Masks start (Words.source.opening (.operator operator)) []
        (Words.source.opening (.operator operator)) :=
      .code fun c member => isPlainSign_unquoted (Words.opening_plain Words.source_isFit _ c member)
    exact onLeft.masks.append (between.append onRight.masks)
  formed := by
    rw [List.length_append]
    exact .binary (onLeft.mono le_rfl (by omega)) ((context.forms_blind _).mayOperate _)
      (onRight.mono (by omega) (by omega)) ((context.forms_blind _).mayOperate _)
  plain := List.forall_mem_append.mpr ⟨onLeft.plain, onRight.plain⟩
  labels quote labels := by rw [map, onLeft.labels quote labels.left, onRight.labels quote labels.right]

/-- The items of a group, numbered one after the other. -/
structure Items (context : Context) (start : Nat) (literals : List Text)
    (items : List (Expression Text)) (numbered : List (Expression Nat)) : Prop where
  masks : Masks start (commaSeparated (items.map (write .source id))) literals
    (commaSeparated (numbered.map (masked Shape.source .source)))
  formed : ∀ item ∈ numbered,
    item.Formed (context.forms fun index => start ≤ index ∧ index < start + literals.length)
  plain : ∀ text ∈ literals, opening ∉ text
  labels : ∀ quote, Labels start literals quote → numbered.map (map quote) = items

theorem exists_items {items : List (Expression Text)}
    (each : ∀ item ∈ items, ∀ start, ∃ literals numbered, Numbered context start literals item numbered)
    (start : Nat) : ∃ literals numbered, Items context start literals items numbered := by
  induction items generalizing start with
  | nil => exact ⟨[], [], .nil, by simp, by simp, by simp⟩
  | cons item items ih =>
    obtain ⟨literals, numbered, here⟩ := each item (.head _) start
    obtain ⟨others, rest, later⟩ :=
      ih (fun other member => each other (.tail _ member)) (start + literals.length)
    refine ⟨literals ++ others, numbered :: rest, ?_, ?_,
      List.forall_mem_append.mpr ⟨here.plain, later.plain⟩, fun quote labels => ?_⟩
    · obtain ⟨quote, labels⟩ := exists_labels (start + literals.length) others
      have same := later.labels quote labels
      rw [List.map_cons, List.map_cons]
      cases rest with
      | nil =>
        obtain rfl : [] = items := by simpa using same
        simpa [commaSeparated, joinWith] using here.masks.append later.masks
      | cons next rest =>
        have more : items.map (write Dialect.source id) ≠ [] := by
          rw [← same]
          simp
        rw [commaSeparated_start _ more, commaSeparated_start _ (by simp)]
        exact here.masks.append (.sign (by simp) (.sign (by simp) later.masks))
    · rw [List.length_append]
      refine List.forall_mem_cons.mpr ⟨here.mono le_rfl (by omega), fun other member => ?_⟩
      exact (later.formed other member).mono (context.forms_within fun index bounds => by omega)
    · rw [List.map_cons, here.labels quote labels.left, later.labels quote labels.right]

theorem group {kind : Group} {items : List (Expression Text)} {others : List (Expression Nat)}
    (allowed : context.Forms kind items.length) (each : Items context start literals items others) :
    Numbered context start literals (.group kind items) (.group kind others) where
  masks := by
    rw [masked_source]
    have written := write_source id kind items
    change Masks start (write (Shape.source.dialect .source) id (.group kind items)) _ _
    rw [written]
    exact Group.masks_written allowed each.masks
  formed := by
    obtain ⟨quote, labels⟩ := exists_labels start literals
    refine .group ?_ each.formed
    rw [← each.labels quote labels, List.length_map] at allowed
    exact allowed
  plain := each.plain
  labels quote labels := by rw [map, mapItems_eq, each.labels quote labels]

end Numbered

theorem Formed.exists_numbered {expression : Expression Text}
    (formed : expression.Formed (context.forms IsQuoted)) (start : Nat) :
    ∃ literals numbered, Numbered context start literals expression numbered := by
  induction formed generalizing start with
  | atom proper => exact Numbered.atom proper start
  | negation _ _ ih =>
    obtain ⟨literals, numbered, here⟩ := ih start
    exact ⟨literals, _, here.negation⟩
  | binary _ _ _ _ ihLeft ihRight =>
    obtain ⟨literals, first, onLeft⟩ := ihLeft start
    obtain ⟨others, second, onRight⟩ := ihRight (start + literals.length)
    exact ⟨literals ++ others, _, onLeft.binary _ onRight⟩
  | group allowed _ ih =>
    obtain ⟨literals, others, each⟩ := Numbered.exists_items ih start
    exact ⟨literals, _, .group allowed each⟩

end Expression

namespace Context

variable {context : Context}

/-- A group with the brackets of Lua becomes what its items become. -/
theorem Spreads.indexed (spreads : context.Spreads shape)
    {kind : Group} {items outs : List Item} (allowed : context.Forms kind items.length)
    (each : List.Forall₂ (fun item out => Expands stands item.text out.text ∧
      item.isBare = out.isBare ∧ item.isLiteral = out.isLiteral) items outs) :
    Expands stands (shape.indexed kind items) (shape.indexed kind outs) := by
  cases kind with
  | access path =>
    refine Expands.append (.of_plain (dotted_unopened allowed.1)) ?_
    clear allowed
    induction each with
    | nil => exact .nil
    | @cons item out _ _ here _ ih =>
      obtain ⟨text, -, literal⟩ := here
      refine Expands.append ?_ ih
      rw [Item.index, Item.index, ← literal]
      split
      · exact .fenced [] (by simp) (by decide) (by decide) text
      · exact (Expands.append (.of_plain (by decide)) text).append (.of_plain (by decide))
  | array => exact .braced (.itemTexts (each.imp fun _ _ both => both.1))
  | call _ | record _ | list | paren | inline _ _ =>
    exact spreads.group allowed (each.imp fun _ _ both => ⟨both.1, both.2.1⟩)

end Context

/-- What an expression becomes depends on its labels only where they stand. -/
theorem Expression.Formed.indexed_expands {words : Words} (spreads : context.Spreads shape)
    (unopened : words.IsUnopened)
    (allows : ∀ {kind count}, grammar.allows kind count → context.Forms kind count)
    (formed : expression.Formed grammar)
    (literal : ∀ index, grammar.admits index → stands index (quote index)) :
    Expands stands (expression.indexed shape words) (expression.write (shape.indexedDialect words) quote) := by
  induction formed with
  | atom proper => exact Atom.expands unopened proper literal
  | negation _ _ ih => exact Expands.append (.of_plain (unopened.connective _)) ih
  | binary _ _ _ _ ihLeft ihRight =>
    exact ihLeft.append (Expands.append (.of_plain (unopened.connective _)) ihRight)
  | group allowed _ ih =>
    refine spreads.indexed (by simpa [writeItems_eq] using allows allowed) ?_
    rw [writeItems_eq, writeItems_eq, List.forall₂_map_left_iff, List.forall₂_map_right_iff,
      List.forall₂_same]
    exact fun item member => ⟨ih item member, rfl, rfl⟩

/-- The text of a literal that is known by its index. -/
def Store.literal (store : Store) (index : Nat) : Text :=
  store.literals[index]?.getD (write index)

theorem Store.literal_held {store : Store} {index : Nat} {text : Text}
    (held : store.held[index]? = some (.literal text)) : store.literal index = text := by
  rw [literal, Store.literals_getElem? held, Option.getD_some]

/-- The literals of an expression that has been converted are put back. -/
theorem Expression.Formed.restore_indexed {words : Words} {store : Store} (spreads : context.Spreads shape)
    (unopened : words.IsUnopened)
    (allows : ∀ {kind count}, grammar.allows kind count → context.Forms kind count)
    (quotes : ∀ index, grammar.admits index → store.Quotes index) (formed : expression.Formed grammar) :
    store.restore (expression.indexed shape words) =
      .ok (expression.write (shape.indexedDialect words) store.literal) := by
  have expands : Expands (fun index value => store.Quotes index ∧ value = Placeholder.write index)
      (expression.indexed shape words) (expression.indexed shape words) :=
    formed.indexed_expands spreads unopened allows fun index admitted => ⟨quotes index admitted, rfl⟩
  have legible : Legible false (Readable false store 0) (expression.indexed shape words) := by
    refine Context.Expands.legible ?_ expands
    rintro index _ ⟨⟨text, held, plain⟩, rfl⟩
    simpa using Legible.placeholder (.literal held plain) .nil
  rw [Store.restore_literals legible,
    Expands.fill (formed.indexed_expands spreads unopened allows fun _ _ => rfl)]
  rfl

theorem Masks.gives {start : Nat} {text masked : Text} {literals : List Text}
    (masks : Masks start text literals masked) {desk : Desk} (size : desk.store.held.size = start) :
    Gives (Conversion.mask text) desk masked { desk with store := desk.store.withLiterals literals } := by
  have split : desk.store.mask text = (desk.store.withLiterals literals, masked) := by
    simpa [Store.mask, Store.maskFrom] using masks desk.store [] size
  have run : outcome (Conversion.mask text) desk =
      (.ok (desk.store.mask text).2, { desk with store := (desk.store.mask text).1 }) := rfl
  rw [Gives, run, split]

/-- The literals are held in order from `start` on. -/
def Store.Holds (store : Store) (start : Nat) (literals : List Text) : Prop :=
  ∀ place text, literals[place]? = some text → store.held[start + place]? = some (.literal text)

namespace Store.Holds

variable {store reached : Store} {start : Nat} {literals others : List Text}

theorem mono (holds : store.Holds start literals) (grown : store.Extends reached) : reached.Holds start literals :=
  fun place text found => grown _ _ (holds place text found)

theorem withLiterals (literals : List Text) : (Store.withLiterals {} literals).Holds 0 literals := by
  intro place text found
  simp [Store.withLiterals, found]

theorem labels (holds : store.Holds start literals) : Expression.Labels start literals store.literal :=
  fun place text found => Store.literal_held (holds place text found)

end Store.Holds

namespace Context

variable {context : Context} {usage : Usage} {expression : Expression Text}

open RecordTree (IsQuoted)

section

variable (regular : context.records.IsRegular) (standard : context.language = standardLanguage)
variable (comparison : usage.comparison = true)
include regular standard comparison

/-- Wherever its literals are held, an expression becomes one of Lua with the parentheses as they are
taken. -/
theorem expression_numbered {start : Nat} {literals : List Text} {numbered : Expression Nat}
    (here : Expression.Numbered context start literals expression numbered) {desk : Desk}
    (holds : desk.store.Holds start literals) :
    ∃ reached, Gives (context.expression usage (numbered.masked Shape.source .source)) desk
        ((expression.settled !usage.afterKeyword).write (Dialect.lua context) id) reached ∧
      desk.store.Extends reached.store := by
  have quotes : numbered.Formed (context.forms desk.store.Quotes) := by
    refine here.formed.mono (context.forms_within fun index bounds => ?_)
    obtain ⟨place, rfl⟩ := Nat.exists_eq_add_of_le bounds.1
    obtain ⟨text, found⟩ : ∃ text, literals[place]? = some text :=
      ⟨_, List.getElem?_eq_getElem (by omega)⟩
    exact ⟨text, holds place text found, here.plain text (List.mem_of_getElem? found)⟩
  obtain ⟨reached, run, grown⟩ := rewritten_masked regular standard comparison quotes
  have settled := quotes.settled (context.forms_blind _) !usage.afterKeyword
  have restored : reached.store.restore
      ((numbered.settled !usage.afterKeyword).indexed (Shape.lua context) .lua) = _ :=
    settled.restore_indexed (lua_spreads standard regular.toIsNamed) lua_unopened
      (fun allowed => allowed) fun _ quoted => Store.Quotes.mono quoted grown
  refine ⟨reached, ?_, grown⟩
  rw [expression_eq]
  refine run.bind ?_
  rw [Gives, outcome_restore, restored, ← here.labels _ (holds.mono grown).labels, Expression.settled_map,
    Expression.write_map]
  rfl

/-- An expression of the pseudo-code becomes one of Lua with the parentheses as they are taken. -/
theorem translate_settled (formed : expression.Formed (context.forms IsQuoted)) :
    context.translate usage (expression.write .source id) =
      .ok ((expression.settled !usage.afterKeyword).write (Dialect.lua context) id) := by
  obtain ⟨literals, numbered, here⟩ := formed.exists_numbered 0
  have masked := @Masks.gives _ _ _ _ here.masks {} rfl
  obtain ⟨reached, run, -⟩ := @expression_numbered context usage _ regular standard comparison 0 literals _ here
    { store := Store.withLiterals {} literals } (.withLiterals literals)
  rw [translate, show outcome _ _ = _ from masked.bind run]

/-- An expression of the pseudo-code becomes the same expression of Lua. -/
theorem translate_write (proper : expression.Proper (context.grammar IsQuoted))
    (opens : expression.MayOperate (context.grammar IsQuoted) ∨ usage.afterKeyword = false) :
    context.translate usage (expression.write .source id) =
      .ok (expression.write (Dialect.lua context) id) := by
  have formed := proper.formed.mono (context.grammar_forms IsQuoted)
  rw [translate_settled regular standard comparison formed,
    proper.settled_eq (opens.imp_right fun start => by rw [start]; rfl)]

end

/-- Expressions keep their structure: with its operands in parentheses wherever they need them, an
expression of the pseudo-code becomes the same expression with the words, the helpers, the tables
and the indices of Lua. -/
theorem translate_preserves_structure {declarations : Text}
    (standard : context.language = standardLanguage)
    (collected : context.records = Records.collect standardLanguage declarations)
    (kept : ∀ pair ∈ context.records, isRespelled pair.2.name = false)
    (comparison : usage.comparison = true) (proper : expression.Proper (context.grammar IsQuoted))
    (opens : expression.MayOperate (context.grammar IsQuoted) ∨ usage.afterKeyword = false) :
    context.translate usage (expression.write .source id) =
      .ok (expression.write (Dialect.lua context) id) :=
  have named : context.records.IsNamed := collected ▸ Records.collect_named _ _
  translate_write { named with kept } standard comparison proper opens

/-- A list with a record, an index that is a string, and a negation. -/
def sampleList : Expression Text :=
  .group .list [
    .atom (.numeral [['1']]),
    .group (.record ['P']) [
      .group (.access [['t']]) [
        .binary .remainder (.atom (.path [['i']])) (.atom (.numeral [['2']])),
        .atom (.literal "\"k\"".toList)],
      .atom (.literal "\"u (v\"".toList)],
    .negation (.group .paren [.binary .equal (.atom (.path [['a']])) (.atom (.truth true))])]

/-- What the sample is translated to. -/
def sampleListLua : Text :=
  "__psc_liste_from_table(\x7b1, \x7bx = t[(i % 2) + 1][\"k\"], y = \"u (v\"\x7d, not (a == true)\x7d)".toList

theorem translate_preserves_structure_list :
    nestedTypes.translate {} "(1, P(t[i mod 2, \"k\"], \"u (v\"), non (a = vrai))".toList =
      .ok sampleListLua := by
  have found : nestedTypes.records.get? ['P'] = some pointType := by
    rw [nestedTypes_records]
    decide
  have point : nestedTypes.Allows (.record ['P']) 2 := ⟨by decide, pointType, found, rfl⟩
  have one {item : Expression Text} (proper : item.Proper (nestedTypes.grammar IsQuoted)) :
      ∀ other ∈ [item], other.Proper (nestedTypes.grammar IsQuoted) :=
    List.forall_mem_singleton.mpr proper
  have word (c : Char) (named : isVariableName [c] = true) :
      (Expression.atom (.path [[c]])).Proper (nestedTypes.grammar IsQuoted) :=
    .atom ⟨by simp, List.forall_mem_singleton.mpr named⟩
  have digit (c : Char) (numeral : isNumeral [[c]] = true) :
      (Expression.atom (.numeral [[c]])).Proper (nestedTypes.grammar IsQuoted) :=
    .atom numeral
  have index : (Expression.binary .remainder (.atom (.path [['i']])) (.atom (.numeral [['2']]))).Proper
      (nestedTypes.grammar IsQuoted) :=
    .binary (word 'i' (by decide +kernel)) trivial (digit '2' (by decide)) trivial
  have equal : (Expression.binary .equal (.atom (.path [['a']])) (.atom (.truth true))).Proper
      (nestedTypes.grammar IsQuoted) :=
    .binary (word 'a' (by decide +kernel)) trivial (.atom trivial) trivial
  have key : (Expression.atom (.literal "\"k\"".toList)).Proper (nestedTypes.grammar IsQuoted) :=
    .atom ⟨by decide, by decide⟩
  have bracket : (Expression.atom (.literal "\"u (v\"".toList)).Proper (nestedTypes.grammar IsQuoted) :=
    .atom ⟨by decide, by decide⟩
  have access : nestedTypes.Allows (.access [['t']]) 2 :=
    ⟨⟨by simp, List.forall_mem_singleton.mpr (by decide +kernel)⟩, by decide⟩
  have proper : sampleList.Proper (nestedTypes.grammar IsQuoted) := by
    refine .group (by decide : 2 ≤ 3) ?_ (by simp)
    refine List.forall_mem_cons.mpr ⟨digit '1' (by decide), List.forall_mem_cons.mpr ⟨?_, one ?_⟩⟩
    · refine .group point (List.forall_mem_cons.mpr ⟨?_, one bracket⟩) (by simp)
      exact .group access (List.forall_mem_cons.mpr ⟨index, one key⟩) (by simp)
    · exact .negation (.group rfl (one equal) fun _ => List.forall_mem_singleton.mpr rfl)
        (by simp [Expression.MayOperate, grammar])
  have printed : sampleList.write .source id =
      "(1, P(t[i mod 2, \"k\"], \"u (v\"), non (a = vrai))".toList := by
    decide
  have lua : sampleList.write (Dialect.lua nestedTypes) id = sampleListLua := by
    decide
  rw [← printed, ← lua]
  exact translate_preserves_structure nestedTypes_language nestedTypes_collected
    (by rw [nestedTypes_records]; decide) rfl proper (.inr rfl)

end Context

end Pseudocode
