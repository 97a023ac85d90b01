import Pseudocode.Proofs.Constructing

namespace Pseudocode

open List Placeholder

theorem Store.startsWithLiteral_write {store : Store} {index : Nat} {text : Text}
    (held : store.held[index]? = some (.literal text)) :
    store.startsWithLiteral (write index) = true := by
  have digits : digits? (write index) = some (encode index) := by
    simpa using digits?_write index []
  have start : trimLeft (write index) = write index := by
    simpa using (write_whole index).trimLeft []
  rw [startsWithLiteral, start, digits]
  simp [decode_encode, held]

namespace Index

/-- After what is written, the text is turned into another, and the conversion goes on. -/
def Turns (desk : Desk) (written text out : Text) : Prop :=
  ∀ tail more reached, Gives (convertFrom (out.reverse ++ written) tail) desk more reached →
    Gives (convertFrom written (text ++ tail)) desk (out ++ more) reached

/-- A word starts here, and a bracket opens an array. -/
structure Fresh (written : Text) : Prop where
  apart : Apart written
  array : isPosition written = false

/-- A sign that ends no operand. -/
def isFreshSign (c : Char) : Bool :=
  !isWordChar c && !isBlank c && c ≠ ')' && c ≠ ']'

variable {desk : Desk} {written text out rest more : Text}

theorem Fresh.nil : Fresh [] :=
  ⟨by simp [Apart], rfl⟩

theorem fresh_sign {c : Char} (sign : isFreshSign c = true) (written : Text) : Fresh (c :: written) := by
  simp only [isFreshSign, Bool.and_eq_true, Bool.not_eq_true', decide_eq_true_eq] at sign
  obtain ⟨⟨⟨letter, solid⟩, round⟩, square⟩ := sign
  refine ⟨by simpa [Apart] using letter, ?_⟩
  simp [isPosition, trimLeft, solid, round, square, letter]

theorem isPosition_blank (written : Text) : isPosition (' ' :: written) = isPosition written := by
  have start : trimLeft (' ' :: written) = trimLeft written :=
    dropWhile_cons_of_pos (by decide)
  rw [isPosition, isPosition, start]

theorem apart_blank (written : Text) : Apart (' ' :: written) := by
  intro c member
  obtain rfl : ' ' = c := by simpa using member
  decide

theorem fresh_blank (array : isPosition written = false) : Fresh (' ' :: written) :=
  ⟨apart_blank written, by rwa [isPosition_blank]⟩

theorem Turns.append (first : Turns desk written text out)
    (second : Turns desk (out.reverse ++ written) rest more) :
    Turns desk written (text ++ rest) (out ++ more) := by
  intro tail later reached run
  rw [append_assoc, append_assoc]
  refine first _ _ _ (second _ _ _ ?_)
  simpa using run

theorem Turns.gives (turns : Turns desk written text out) :
    Gives (convertFrom written text) desk out desk := by
  have run : Gives (convertFrom (out.reverse ++ written) []) desk [] desk := by
    rw [convertFrom]
    exact .pure _ _
  simpa using turns _ _ _ run

theorem turns_plain (plain : '[' ∉ text) : Turns desk written text text := by
  intro tail later reached run
  rw [convertFrom_passes fun c member => ne_of_mem_of_not_mem member plain]
  exact run.bind (.pure _ _)

theorem turns_square (balanced : Balanced true text) (below : Turns desk [] text out) :
    Turns desk written ('[' :: text ++ [']']) (group desk.store written out) := by
  intro tail later reached run
  have closed := balanced.splitClose?_enclosed .square tail
  have shape : '[' :: text ++ [']'] ++ tail = '[' :: (text ++ ']' :: tail) := by simp
  rw [shape, convertFrom_group closed]
  refine below.gives.bind ?_
  rw [Gives, outcome_bind, outcome_get]
  exact run.bind (.pure _ _)

theorem turns_commaSeparated {texts outs : List Text}
    (each : List.Forall₂ (fun text out => ∀ written, Fresh written → Turns desk written text out)
      texts outs) (fresh : Fresh written) :
    Turns desk written (commaSeparated texts) (commaSeparated outs) := by
  induction each generalizing written with
  | nil => exact turns_plain (by decide)
  | @cons text out texts outs here each ih =>
    cases each with
    | nil => simpa using here written fresh
    | cons next each =>
      have comma : Fresh ([',', ' '].reverse ++ (out.reverse ++ written)) :=
        fresh_blank (fresh_sign (by decide) _).array
      rw [commaSeparated_cons, commaSeparated_cons]
      exact (here written fresh).append ((turns_plain (by decide)).append (ih comma))

theorem turns_fenced (lead : Text) {opener closer : Char} (plain : '[' ∉ lead ++ [opener])
    (closed : closer ≠ '[') (fresh : isFreshSign opener = true)
    (inside : ∀ written, Fresh written → Turns desk written text out) :
    Turns desk written (lead ++ opener :: text ++ [closer]) (lead ++ opener :: out ++ [closer]) := by
  have before : Turns desk written (lead ++ [opener]) (lead ++ [opener]) := turns_plain plain
  have below := inside ((lead ++ [opener]).reverse ++ written) (by simpa using fresh_sign fresh _)
  have after {written : Text} : Turns desk written [closer] [closer] :=
    turns_plain (by simpa using Ne.symm closed)
  simpa using (before.append below).append after

theorem turns_fields {names texts outs : List Text}
    (letters : ∀ name ∈ names, ∀ c ∈ name, isWordChar c = true)
    (each : List.Forall₂ (fun text out => ∀ written, Fresh written → Turns desk written text out)
      texts outs) :
    List.Forall₂ (fun text out => ∀ written, Fresh written → Turns desk written text out)
      (fieldTexts names texts) (fieldTexts names outs) := by
  induction names generalizing texts outs with
  | nil => exact .nil
  | cons name names ih =>
    have plain (sign : Text) (other : '[' ∉ sign) : '[' ∉ name ++ sign := by
      rw [mem_append, not_or]
      exact ⟨fun member => absurd (letters name (.head _) _ member) (by decide), other⟩
    have later := fun other member => letters other (.tail _ member)
    cases each with
    | nil => exact .cons (fun written _ => turns_plain (plain _ (by decide))) (ih later .nil)
    | @cons text out texts outs here each =>
      refine .cons (fun written fresh => ?_) (ih later each)
      have lead : Turns desk written (name ++ " = ".toList) (name ++ " = ".toList) :=
        turns_plain (plain _ (by decide))
      have sign : Fresh ((name ++ " = ".toList).reverse ++ written) := by
        have equals : Fresh ('=' :: (' ' :: (name.reverse ++ written))) :=
          fresh_sign (by decide) _
        simpa using fresh_blank equals.array
      exact lead.append (here _ sign)

theorem access_items {store : Store} {items : List Item} (several : 1 ≤ items.length)
    (whole : ∀ item ∈ items, Whole item.text)
    (literal : ∀ item ∈ items,
      (isPlaceholder item.text && store.startsWithLiteral item.text) = item.isLiteral) :
    access store (itemTexts items) = items.flatMap Item.index := by
  have split : splitArguments (itemTexts items) = items.map (·.text) :=
    splitArguments_commaSeparated (by simpa using whole)
  have each : (items.map (·.text)).flatMap (bracketed store) = items.flatMap Item.index := by
    rw [flatMap_map]
    refine flatMap_congr fun item member => ?_
    rw [bracketed, literal item member, Item.index]
  rw [access, split, ← each]
  obtain ⟨item, items, rfl⟩ := exists_cons_of_length_pos several
  rfl

/-- After each connective a bracket opens an array. -/
def Frees (words : Words) : Prop :=
  ∀ connective written, (connective = .negation → Apart written) →
    isPosition ((words.opening connective).reverse ++ written) = false

theorem opening_reverse (words : Words) (connective : Connective) (written : Text) :
    ∃ before, (words.opening connective).reverse ++ written = ' ' :: before := by
  cases connective <;> simp [Words.opening]

theorem apart_opening (words : Words) (connective : Connective) (written : Text) :
    Apart ((words.opening connective).reverse ++ written) := by
  obtain ⟨before, shape⟩ := opening_reverse words connective written
  rw [shape]
  exact apart_blank before

theorem frees_lua : Frees .lua := by
  have word {name written : Text} (named : identifier? name = some (name, []))
      (listed : luaWords.contains name = true) (apart : Apart written) :
      isPosition (name.reverse ++ written) = false := by
    rw [isPosition_word named apart, listed, Bool.not_true]
  have kinds : Operator.all.all (fun operator =>
      identifier? (Words.lua.operator operator) = some (Words.lua.operator operator, []) &&
        luaWords.contains (Words.lua.operator operator) ||
      (Words.lua.operator operator).reverse.head?.any isFreshSign) = true := by
    decide
  intro connective written apart
  cases connective with
  | negation =>
    have position : isPosition (Words.lua.negation.reverse ++ written) = false :=
      word (by decide) (by decide) (apart rfl)
    simpa [Words.opening, isPosition_blank] using position
  | operator operator =>
    have split : (Words.lua.opening (.operator operator)).reverse ++ written =
        ' ' :: ((Words.lua.operator operator).reverse ++ ' ' :: written) := by
      simp [Words.opening]
    have kind := all_eq_true.mp kinds operator operator.mem_all
    simp only [Bool.or_eq_true, Bool.and_eq_true, decide_eq_true_eq] at kind
    rw [split, isPosition_blank]
    rcases kind with ⟨named, listed⟩ | sign
    · exact word named listed (apart_blank written)
    · obtain ⟨c, head, fresh⟩ := Option.any_eq_true .. |>.mp sign
      obtain ⟨rest, shape⟩ := List.head?_eq_some_iff.mp head
      rw [shape, cons_append]
      exact (fresh_sign fresh _).array

/-- A bracket after a variable or a field of one opens an index. -/
theorem isPosition_path {path : List Text} (nonempty : path ≠ [])
    (names : ∀ name ∈ path, isVariableName name = true) (apart : Apart written) :
    isPosition ((dotted path).reverse ++ written) = true := by
  induction path generalizing written with
  | nil => exact absurd rfl nonempty
  | cons name path ih =>
    cases path with
    | nil => simpa using isPosition_variable (names name (.head _)) apart
    | cons next path =>
      have point : Apart ('.' :: (name.reverse ++ written)) := (fresh_sign (by decide) _).apart
      have later := ih (by simp) (fun other member => names other (.tail _ member)) point
      simpa [dotted_cons] using later

theorem turns_inline {form : Inline} {items outs : List Item}
    (each : List.Forall₂ (fun item out => (∀ written, Fresh written →
      Turns desk written item.text out.text) ∧ item.isBare = out.isBare) items outs)
    (inside : ∀ written, Fresh written → Turns desk written (itemTexts items) (itemTexts outs))
    (count : items.length = form.arity) (fresh : Fresh written) :
    Turns desk written (form.text items) (form.text outs) := by
  have library : '[' ∉ Inline.library ++ ['('] := by decide
  cases form with
  | concatenation =>
    obtain ⟨left, right, rfl⟩ := length_eq_two.mp count
    cases each with
    | @cons _ out _ _ first rest =>
      rcases rest with _ | ⟨second, _ | _⟩
      have dots : Fresh (Inline.joint.reverse ++ (out.text.reverse ++ written)) :=
        fresh_blank (fresh_sign (by decide) _).array
      exact (first.1 written fresh).append ((turns_plain (by decide)).append (second.1 _ dots))
  | length =>
    obtain ⟨item, rfl⟩ := length_eq_one_iff.mp count
    rcases each with _ | ⟨both, _ | _⟩
    have sharp : Turns desk written ['#'] ['#'] := turns_plain (by decide)
    have after : Fresh ('#' :: written) := fresh_sign (by decide) written
    rw [Inline.text, Inline.text, both.2]
    split
    · exact sharp.append (both.1 _ after)
    · exact sharp.append (turns_fenced [] (by decide) (by decide) (by decide) both.1)
  | character =>
    obtain ⟨left, right, rfl⟩ := length_eq_two.mp count
    rcases each with _ | ⟨subject, _ | ⟨place, _ | _⟩⟩
    exact turns_fenced _ library (by decide) (by decide) fun written fresh =>
      turns_commaSeparated (.cons subject.1 (.cons place.1 (.cons place.1 .nil))) fresh
  | substring => exact turns_fenced _ library (by decide) (by decide) inside

end Index

/-- What the square brackets of expressions need. Records have none of their own, and where a
bracket can follow a connective, it opens an array. -/
structure Context.Indexes (context : Context) (grammar : Grammar Nat) (desk : Desk) (shape : Shape)
    (words : Words) : Prop where
  allows : ∀ {kind count}, grammar.allows kind count → context.Forms kind count
  admits : ∀ {index}, grammar.admits index → desk.store.Quotes index
  fit : words.isFit = true
  truth : ∀ value, ∃ c ∈ words.truth value, isMark c = false
  frees : Index.Frees words ∨ shape.inlined = false ∧ ¬ grammar.operand .array
  shapes : context.Shapes shape
  separator : ∀ name values, context.Allows (.record name) values.length →
    ∃ c ∈ shape.record name values, isSeparator c = true
  record : ∀ {name texts outs written}, context.Allows (.record name) texts.length →
    List.Forall₂ (fun text out => ∀ written, Index.Fresh written → Index.Turns desk written text out)
      texts outs → Index.Turns desk written (shape.record name texts) (shape.record name outs)

namespace Context.Indexes

variable {context : Context} {grammar : Grammar Nat} {desk : Desk} {shape : Shape} {words : Words}
  {kind : Group} {items outs : List Item} {written : Text}

theorem turns_group (indexes : context.Indexes grammar desk shape words) (allowed : context.Forms kind items.length)
    (each : List.Forall₂ (fun item out => (∀ written, Index.Fresh written →
      Index.Turns desk written item.text out.text) ∧ item.isBare = out.isBare) items outs)
    (whole : ∀ item ∈ items, Whole item.text) (outWhole : ∀ out ∈ outs, Whole out.text)
    (literal : ∀ out ∈ outs,
      (isPlaceholder out.text && desk.store.startsWithLiteral out.text) = out.isLiteral)
    (apart : Index.Apart written)
    (opens : Index.isPosition written = false ∨ kind ≠ .array ∧ shape.inlined = false) :
    Index.Turns desk written (shape.group kind items) (shape.indexed kind outs) := by
  have texts : List.Forall₂ (fun text out => ∀ written, Index.Fresh written →
      Index.Turns desk written text out) (items.map (·.text)) (outs.map (·.text)) := by
    rw [forall₂_map_left_iff, forall₂_map_right_iff]
    exact each.imp fun _ _ both => both.1
  have inside (written : Text) (fresh : Index.Fresh written) :
      Index.Turns desk written (itemTexts items) (itemTexts outs) :=
    Index.turns_commaSeparated texts fresh
  have square (written : Text) : Index.Turns desk written ('[' :: itemTexts items ++ [']'])
      (Index.group desk.store written (itemTexts outs)) :=
    Index.turns_square (balanced_itemTexts whole) (inside [] .nil)
  have called {name : Text} (lead : isLeadWord name = true) : Index.Turns desk written
      (name ++ '(' :: itemTexts items ++ [')']) (name ++ '(' :: itemTexts outs ++ [')']) := by
    obtain ⟨⟨nonempty, letters⟩, -⟩ := isLeadWord_iff.mp lead
    have plain : '[' ∉ name ++ ['('] := by
      rw [mem_append, not_or]
      exact ⟨fun member => absurd (letters _ member) (by decide), by decide⟩
    exact Index.turns_fenced name plain (by decide) (by decide) inside
  cases kind with
  | call name => exact called (indexes.shapes.lead name allowed)
  | record name =>
    have count : context.Allows (.record name) (items.map (·.text)).length := by
      rw [length_map]
      exact allowed
    exact indexes.record count texts
  | access path =>
    have count : 1 ≤ outs.length := each.length_eq ▸ allowed.2
    have lead : Index.Turns desk written (dotted path) (dotted path) := by
      obtain ⟨first, rest, split, run⟩ := isRun_path allowed.1.1 allowed.1.2
      exact Index.turns_plain fun member => absurd (run.chars '[' (split ▸ member)) (by decide)
    have position := Index.isPosition_path allowed.1.1 allowed.1.2 apart
    have index := square ((dotted path).reverse ++ written)
    rw [Index.group, position, if_pos rfl, Index.access_items count outWhole literal] at index
    simpa [Shape.group, Shape.indexed] using lead.append index
  | array =>
    have fresh := opens.resolve_right fun other => other.1 rfl
    have array := square written
    rwa [Index.group, fresh] at array
  | list =>
    simp only [Shape.indexed, Shape.group]
    split
    · refine Index.turns_fenced ListLiteral.builder (by decide) (by decide) (by decide) ?_
      exact fun written _ =>
        Index.turns_fenced [] (by decide) (by decide) (by decide) inside
    · exact Index.turns_fenced [] (by decide) (by decide) (by decide) inside
  | paren => exact Index.turns_fenced [] (by decide) (by decide) (by decide) inside
  | inline form name =>
    simp only [Shape.indexed, Shape.group]
    split
    · rename_i inlined
      have array := opens.resolve_right fun other => by simp [inlined] at other
      exact Index.turns_inline each inside allowed.2.2.2 ⟨apart, array⟩
    · exact called (form.names_lead name allowed.1)

end Context.Indexes

namespace Expression

/-- An expression whose square brackets are those of Lua, with its literals put aside. -/
def indexed (shape : Shape) (words : Words) (expression : Expression Nat) : Text :=
  expression.write (shape.indexedDialect words) Placeholder.write

variable {context : Context} {desk : Desk} {shape : Shape} {words : Words} {grammar : Grammar Nat}
  {expression : Expression Nat} {written : Text}

variable (indexes : context.Indexes grammar desk shape words) (formed : expression.Formed grammar)
include indexes formed

/-- A placeholder that makes up an index is that of a literal. -/
theorem Formed.isLiteral_indexed : (isPlaceholder (expression.indexed shape words) &&
      desk.store.startsWithLiteral (expression.indexed shape words)) = expression.isLiteral := by
  have whole : Whole (expression.indexed shape words) :=
    formed.whole (indexes.shapes.indexed_fits indexes.fit indexes.allows) fun index _ => write_whole index
  have plain {c : Char} (member : c ∈ expression.indexed shape words) (mark : isMark c = false) :
      isPlaceholder (expression.indexed shape words) = false :=
    whole.isPlaceholder_mem member mark
  have run {first rest : Text} (split : expression.indexed shape words = first ++ rest)
      (isRun : IsRun first rest) : isPlaceholder (expression.indexed shape words) = false := by
    obtain ⟨c, first, rfl⟩ := exists_cons_of_ne_nil isRun.nonempty
    refine plain (c := c) (by simp [split]) ?_
    by_contra mark
    simpa [isMark_not_wordChar (by simpa using mark)] using isRun.letters c (by simp)
  cases formed with
  | @atom operand proper =>
    cases operand with
    | path names =>
      obtain ⟨first, rest, split, isRun⟩ := isRun_path proper.1 proper.2
      rw [run split isRun]
      rfl
    | numeral digits =>
      obtain ⟨first, rest, split, isRun⟩ := isRun_numeral proper
      rw [run split isRun]
      rfl
    | truth value =>
      obtain ⟨c, member, mark⟩ := indexes.truth value
      rw [plain member mark]
      rfl
    | literal index =>
      obtain ⟨text, held, -⟩ := indexes.admits proper
      show (isPlaceholder (Placeholder.write index) &&
        desk.store.startsWithLiteral (Placeholder.write index)) = true
      rw [isPlaceholder_write, Store.startsWithLiteral_write held, Bool.and_true]
  | negation _ _ =>
    rw [plain (c := ' ') (by simp [indexed, write, Words.opening]) (by decide)]
    rfl
  | binary _ _ _ _ =>
    rw [plain (c := ' ') (by simp [indexed, write, Words.opening]) (by decide)]
    rfl
  | @group kind items allowed _ =>
    have allowed : context.Forms kind
        (writeItems (shape.indexedDialect words) Placeholder.write items).length := by
      simpa [writeItems_eq] using indexes.allows allowed
    obtain ⟨c, member, separator⟩ : ∃ c ∈ indexed shape words (.group kind items),
        isSeparator c = true := by
      by_cases record : ∃ name, kind = .record name
      · obtain ⟨name, rfl⟩ := record
        refine indexes.separator name _ ?_
        rw [length_map]
        exact allowed
      · exact Context.indexed_separator shape allowed fun name same => record ⟨name, same⟩
    rw [plain member (isSeparator_mem separator).2.1]
    rfl

theorem Formed.turns_indexed (apart : Index.Apart written) (opens : Index.isPosition written = false ∨
      shape.inlined = false ∧ ¬ grammar.operand .array ∧ expression.MayOperate grammar) :
    Index.Turns desk written (expression.masked shape words) (expression.indexed shape words) := by
  have between {written : Text} (connective : Connective) :
      Index.Turns desk written (words.opening connective) (words.opening connective) :=
    Index.turns_plain fun member => absurd (Words.opening_plain indexes.fit _ _ member) (by decide)
  have after {operand : Expression Nat} (operates : operand.MayOperate grammar) (connective : Connective)
      {written : Text} (apart : connective = .negation → Index.Apart written) :
      Index.isPosition ((words.opening connective).reverse ++ written) = false ∨
        shape.inlined = false ∧ ¬ grammar.operand .array ∧ operand.MayOperate grammar :=
    indexes.frees.imp (fun free => free connective written apart) fun both => ⟨both.1, both.2, operates⟩
  induction formed generalizing written with
  | atom proper =>
    exact Index.turns_plain fun member => absurd (Atom.write_plain indexes.fit proper _ member) (by decide)
  | negation _ operates ih =>
    exact (between .negation).append
      (ih (Index.apart_opening words _ _) (after operates .negation fun _ => apart))
  | @binary operator left right _ onLeft _ onRight ihLeft ihRight =>
    have before := ihLeft apart (opens.imp_right fun both => ⟨both.1, both.2.1, onLeft⟩)
    have free : Index.isPosition ((words.opening (.operator operator)).reverse ++
        ((left.indexed shape words).reverse ++ written)) = false ∨ _ :=
      after onRight (.operator operator) (by simp)
    have behind := ihRight (Index.apart_opening words _ _) free
    exact before.append ((between (.operator operator)).append behind)
  | @group kind items allowed formed ih =>
    have wholes (dialect : Dialect) (fits : dialect.Fits grammar) :
        ∀ item ∈ writeItems dialect Placeholder.write items, Whole item.text := by
      rw [writeItems_eq, List.forall_mem_map]
      exact fun item member => (formed item member).whole fits fun index _ => write_whole index
    refine indexes.turns_group (by simpa [writeItems_eq] using indexes.allows allowed) ?_
      (wholes _ (indexes.shapes.fits indexes.fit indexes.allows))
      (wholes _ (indexes.shapes.indexed_fits indexes.fit indexes.allows)) ?_
      apart ?_
    · rw [writeItems_eq, writeItems_eq, forall₂_map_left_iff, forall₂_map_right_iff,
        forall₂_same]
      exact fun item member =>
        ⟨fun written fresh => ih item member fresh.apart (.inl fresh.array), rfl⟩
    · rw [writeItems_eq, List.forall_mem_map]
      exact fun item member => (formed item member).isLiteral_indexed indexes
    · refine opens.imp_right fun ⟨inlined, unary, operates⟩ => ⟨?_, inlined⟩
      rintro rfl
      exact unary operates

theorem Formed.convert_indices :
    Gives (Index.convert (expression.masked shape words)) desk (expression.indexed shape words) desk :=
  (formed.turns_indexed indexes Index.Fresh.nil.apart (.inl Index.Fresh.nil.array)).gives

end Expression

namespace Context

variable {context : Context} {desk : Desk}

theorem lua_shapes (standard : context.language = standardLanguage) (named : context.records.IsNamed) :
    context.Shapes (Shape.lua context) where
  lead _ function := luaName_lead standard function
  record name values allowed whole := by
    obtain ⟨-, type, found, -⟩ := allowed
    obtain ⟨pair, listed, rfl⟩ := Records.get?_mem found
    have fields : ∀ text ∈ fieldTexts pair.2.fieldNames values, Balanced true text :=
      Balanced.fieldTexts (named.fields pair listed) fun value member => (whole value member).balanced.loosen
    show Whole (context.luaRecord name values)
    rw [luaRecord, found]
    exact .enclosed .curly (.commaSeparated fields)

theorem lua_indexes (standard : context.language = standardLanguage) (named : context.records.IsNamed) :
    context.Indexes (context.forms desk.store.Quotes) desk (Shape.lua context) .lua where
  allows := id
  admits := id
  fit := Words.lua_isFit
  truth value := by cases value <;> exact ⟨'e', by decide, by decide⟩
  frees := .inl Index.frees_lua
  shapes := lua_shapes standard named
  separator name values allowed := by
    obtain ⟨-, type, found, -⟩ := allowed
    refine ⟨'\x7b', ?_, by decide⟩
    show _ ∈ context.luaRecord name values
    rw [luaRecord, found]
    simp [ListLiteral.braced]
  record {name texts outs written} allowed each := by
    obtain ⟨-, type, found, -⟩ := allowed
    obtain ⟨pair, listed, rfl⟩ := Records.get?_mem found
    show Index.Turns desk written (context.luaRecord name texts) (context.luaRecord name outs)
    rw [luaRecord, luaRecord, found]
    have fields := Index.turns_fields (named.fields pair listed) each
    exact Index.turns_fenced [] (by decide) (by decide) (by decide) fun written fresh =>
      Index.turns_commaSeparated fields fresh

/-- An expression takes its Lua form but for literals. -/
theorem rewritten_masked (regular : context.records.IsRegular) (standard : context.language = standardLanguage)
    {usage : Usage} (comparison : usage.comparison = true) {expression : Expression Nat}
    (formed : expression.Formed (context.forms desk.store.Quotes)) :
    ∃ reached, Gives (context.rewritten usage (expression.masked Shape.source .source)) desk
        ((expression.settled !usage.afterKeyword).indexed (Shape.lua context) .lua) reached ∧
      desk.store.Extends reached.store := by
  obtain ⟨reached, run, grown⟩ := value_masked regular standard comparison formed
  have held : expression.Formed (context.forms reached.store.Quotes) :=
    formed.mono (context.forms_within fun _ quotes => quotes.mono grown)
  have settled := held.settled (context.forms_blind _) !usage.afterKeyword
  exact ⟨reached, run.bind (settled.convert_indices (lua_indexes standard regular.toIsNamed)), grown⟩

end Context

end Pseudocode
