import Pseudocode.Proofs.Atomic

namespace Pseudocode

open List Option Placeholder RecordTree
variable {names values outs : List Text} {means : Text → Text → Prop}

/-- The entries of named fields. Missing values are `nil`. -/
def namedEntries : (names values : List Text) → List Entry
  | [], _ => []
  | name :: names, [] => { name := some name, value := "nil".toList } :: namedEntries names []
  | name :: names, value :: values => { name := some name, value } :: namedEntries names values

theorem namedEntries_names {entry : Entry}
    (member : entry ∈ namedEntries names values) : ∀ name ∈ entry.name, name ∈ names := by
  induction names generalizing values with
  | nil => simp [namedEntries] at member
  | cons first names ih =>
    cases values with
    | nil =>
      rcases mem_cons.mp member with rfl | member
      · simp
      · exact fun name among => .tail _ (ih member name among)
    | cons value values =>
      rcases mem_cons.mp member with rfl | member
      · simp
      · exact fun name among => .tail _ (ih member name among)

namespace Records

theorem constructed_eq (type : RecordType) (arguments : List Text) :
    constructed type arguments = namedEntries type.fieldNames arguments := by
  have general (names arguments : List Text) :
      ((List.range names.length).zip names |>.map fun place =>
        ({ name := some place.2, value := arguments[place.1]?.getD "nil".toList } : Entry)) =
        namedEntries names arguments := by
    induction names generalizing arguments with
    | nil => rfl
    | cons name names ih =>
      rw [length_cons, range_succ_eq_map, zip_cons_cons, map_cons, zip_map_left,
        List.map_map]
      cases arguments with
      | nil => simpa [namedEntries, Function.comp_def, Prod.map] using ih []
      | cons argument arguments =>
        simpa [namedEntries, Function.comp_def, Prod.map] using ih arguments
  rw [constructed, show type.fields.length = type.fieldNames.length by simp [RecordType.fieldNames]]
  exact general type.fieldNames arguments

theorem zip_namedEntries (count : names.length = values.length) :
    (names.zip values |>.map fun (name, value) => ({ name := some name, value } : Entry)) =
      namedEntries names values := by
  induction names generalizing values with
  | nil => simp [namedEntries]
  | cons name names ih =>
    cases values with
    | nil => simp at count
    | cons value values => simpa [namedEntries] using ih (by simpa using count)

end Records

/-- Named fields take their values in order, and `nil` where there is none. -/
theorem namedEntries_rendered (names : List Text)
    (empty : means "nil".toList "nil".toList) (each : List.Forall₂ means values outs) :
    ∃ rendered, List.Forall₂ (fun entry out => means entry.value out) (namedEntries names values)
        rendered ∧
      zipWith Entry.rendered (namedEntries names values) rendered = fieldTexts names outs := by
  induction names generalizing values outs with
  | nil => exact ⟨[], .nil, by simp [namedEntries, fieldTexts]⟩
  | cons name names ih =>
    cases each with
    | nil =>
      obtain ⟨rendered, below, same⟩ := ih .nil
      refine ⟨_ :: rendered, .cons empty below, ?_⟩
      rw [namedEntries, zipWith_cons_cons, same, fieldTexts, Entry.rendered]
      simp
    | @cons value out values outs here later =>
      obtain ⟨rendered, below, same⟩ := ih later
      refine ⟨out :: rendered, .cons here below, ?_⟩
      rw [namedEntries, zipWith_cons_cons, same, fieldTexts, Entry.rendered]

theorem literalTable_rendered (records : Records) (content : Text) (empty : means "nil".toList "nil".toList)
    (each : List.Forall₂ means (splitArguments content) outs) :
    ∃ rendered, List.Forall₂ (fun entry out => means entry.value out) (records.literalTable content)
        rendered ∧
      ListLiteral.braced (commaSeparated
        (zipWith Entry.rendered (records.literalTable content) rendered)) =
        listed records outs := by
  have positional (values outs : List Text) (each : List.Forall₂ means values outs) :
      zipWith Entry.rendered (values.map fun value => { name := none, value }) outs = outs := by
    induction each with
    | nil => rfl
    | cons _ _ ih => simp [Entry.rendered, ih]
  rw [Records.literalTable, listed, each.length_eq]
  cases chosen : records.withFields? outs.length with
  | none =>
    refine ⟨outs, forall₂_map_left_iff.mpr each, ?_⟩
    simp only [positional _ _ each]
  | some type =>
    have count := find?_some chosen
    simp only [decide_eq_true_eq] at count
    simp only
    rw [Records.zip_namedEntries (by rw [RecordType.fieldNames, length_map, each.length_eq]; omega)]
    obtain ⟨rendered, below, same⟩ := namedEntries_rendered type.fieldNames empty each
    exact ⟨rendered, below, by rw [same]; rfl⟩

namespace Context

/-- A stretch of a text between commas: an atom, perhaps with brackets of literals on one side. -/
def Fragment (context : Context) (store : Store) (height : Nat) (text out : Text) : Prop :=
  ∃ opens closers atom meaning, (opens = 0 ∨ closers = 0) ∧ text = angled opens closers atom ∧
    out = angled opens closers meaning ∧ context.Atomic store height atom meaning

variable {context : Context} {store : Store} {height index : Nat}

theorem Fragment.of_atomic {atom out : Text} (atomic : context.Atomic store height atom out) :
    context.Fragment store height atom out :=
  ⟨0, 0, atom, out, .inl rfl, by simp [angled], by simp [angled], atomic⟩

theorem Fragment.nil : context.Fragment store height "nil".toList "nil".toList := by
  refine .of_atomic (.inl ⟨.inl (by decide), ?_⟩)
  decide

/-- A table of fragments stands for a table of what they mean. -/
theorem Atomic.of_table (standard : context.language = standardLanguage) {entries : List Entry}
    (held : store.held[index]? = some (.table entries))
    (names : ∀ entry ∈ entries, ∀ name ∈ entry.name, opening ∉ name ∧ '[' ∉ name)
    (each : List.Forall₂ (fun entry out => context.Fragment store height entry.value out)
      entries outs) :
    context.Atomic store (height + 1) (write index)
      (ListLiteral.braced (commaSeparated (zipWith Entry.rendered entries outs))) := by
  refine .inr ⟨index, rfl, .table held (fun entry member name named => (names entry member name named).1)
    (each.imp ?_), ?_⟩
  · rintro entry out ⟨opens, closers, atom, meaning, oneSided, text, rfl, atomic⟩
    exact text ▸ Atomic.values standard oneSided atomic
  · have parts : ∀ item ∈ zipWith Entry.rendered entries outs, '[' ∉ item := by
      clear held
      induction each with
      | nil => simp
      | @cons entry out entries outs here _ ih =>
        obtain ⟨opens, closers, atom, meaning, -, -, rfl, atomic⟩ := here
        have flat : '[' ∉ angled opens closers meaning :=
          not_mem_angled atomic.flat (by decide) (by decide)
        rw [zipWith_cons_cons]
        refine forall_mem_cons.mpr
          ⟨?_, ih fun other member => names other (.tail _ member)⟩
        rw [Entry.rendered]
        split
        · exact flat
        · rename_i name named
          simp [flat, (names entry (.head _) name named).2]
    simp only [ListLiteral.braced, cons_append, mem_cons, mem_append, not_mem_nil,
      or_false, not_or]
    exact ⟨by decide, not_mem_commaSeparated parts (by decide) (by decide), by decide⟩

end Context

/-- An atom as it is written, with what it means in Lua. -/
structure Token where
  code : Text
  meaning : Text

namespace RecordTree

/-- Literals inside literals, down to admitted labels. -/
inductive IsNest {α : Type} (admits : α → Prop) : RecordTree α → Prop
  | quoted {label : α} : admits label → IsNest admits (.quoted label)
  | literal {items : List (RecordTree α)} : 2 ≤ items.length → (∀ item ∈ items, IsNest admits item) →
      IsNest admits (.literal items)

section Parts

variable {α : Type} {admits : α → Prop} {tree : RecordTree α}

/-- Brackets of a stretch of parts point outwards: no part has them on both sides, and the outer
ones are the first and the last. -/
structure IsOutward (parts : List (Part α)) : Prop where
  nonempty : parts ≠ []
  oneSided : ∀ part ∈ parts, part.opens = 0 ∨ part.closes = 0
  first : ∀ part ∈ parts.head?, part.closes = 0
  last : ∀ part ∈ parts.getLast?, part.opens = 0

theorem IsOutward.append {parts others : List (Part α)} (left : IsOutward parts)
    (right : IsOutward others) : IsOutward (parts ++ others) where
  nonempty := by simp [left.nonempty]
  oneSided part member := (mem_append.mp member).elim (left.oneSided part) (right.oneSided part)
  first := by
    rw [head?_append_of_ne_nil _ left.nonempty]
    exact left.first
  last := by
    rw [getLast?_append_of_ne_nil _ right.nonempty]
    exact right.last

theorem closeLast_append (parts : List (Part α)) (part : Part α) :
    closeLast (parts ++ [part]) = parts ++ [{ part with closes := part.closes + 1 }] := by
  induction parts with
  | nil => rfl
  | cons first parts ih =>
    cases parts with
    | nil => rfl
    | cons next parts => simpa [closeLast] using ih

/-- Several parts in the brackets of a literal. -/
theorem openFirst_closeLast (first last : Part α) (middle : List (Part α)) :
    openFirst (closeLast (first :: (middle ++ [last]))) =
      { first with opens := first.opens + 1 } ::
        (middle ++ [{ last with closes := last.closes + 1 }]) := by
  rw [← cons_append, closeLast_append]
  rfl

theorem IsOutward.enclosed {parts : List (Part α)} (outward : IsOutward parts) (several : 2 ≤ parts.length) :
    IsOutward (openFirst (closeLast parts)) := by
  obtain ⟨first, middle, last, rfl⟩ := exists_ends several
  have closed : first.closes = 0 := outward.first first rfl
  have final (first last : Part α) : (first :: (middle ++ [last])).getLast? = some last := by
    rw [← cons_append, getLast?_concat]
  have opened : last.opens = 0 := outward.last last (final first last)
  rw [openFirst_closeLast]
  refine ⟨by simp, fun part member => ?_, by simp [closed], by simp [final, opened]⟩
  rcases mem_cons.mp member with rfl | member
  · exact .inr closed
  rcases mem_append.mp member with inside | ending
  · exact outward.oneSided part (by simp [inside])
  · obtain rfl := mem_singleton.mp ending
    exact .inl opened

theorem IsOutward.flatMap {items : List (RecordTree α)} (nonempty : items ≠ [])
    (each : ∀ item ∈ items, IsOutward item.parts) :
    IsOutward (items.flatMap parts) ∧ items.length ≤ (items.flatMap parts).length := by
  induction items with
  | nil => simp at nonempty
  | cons item items ih =>
    have here := each item (.head _)
    have filled := length_pos_of_ne_nil here.nonempty
    cases items with
    | nil => simpa using ⟨here, filled⟩
    | cons next items =>
      obtain ⟨later, count⟩ := ih (by simp) fun other member => each other (.tail _ member)
      rw [flatMap_cons, length_append, length_cons]
      exact ⟨here.append later, by omega⟩

theorem IsNest.outward (nest : tree.IsNest admits) : IsOutward tree.parts := by
  induction nest with
  | quoted =>
    rw [parts]
    exact ⟨by simp, by simp, by simp, by simp⟩
  | @literal items several each ih =>
    have nonempty : items ≠ [] := by
      rintro rfl
      simp at several
    obtain ⟨outward, count⟩ := IsOutward.flatMap nonempty ih
    rw [parts]
    exact outward.enclosed (several.trans count)

theorem IsNest.part (nest : tree.IsNest admits) {part : Part α} (member : part ∈ tree.parts) :
    ∃ label, admits label ∧ part.tree = .quoted label := by
  induction nest generalizing part with
  | @quoted label admitted =>
    rw [parts] at member
    obtain rfl := mem_singleton.mp member
    exact ⟨label, admitted, rfl⟩
  | @literal items several each ih =>
    rw [parts] at member
    obtain ⟨opened, inside, same⟩ := mem_openFirst member
    obtain ⟨old, inside, older⟩ := mem_closeLast inside
    obtain ⟨item, among, inside⟩ := mem_flatMap.mp inside
    rw [← same, ← older]
    exact ih item among inside

/-- A part as it is written. -/
def Part.print (quote : α → Text) (part : Part α) : Text :=
  angled part.opens part.closes (part.tree.print quote)

/-- A nest is its parts with commas between them. -/
theorem IsNest.print_eq (nest : tree.IsNest admits) (quote : α → Text) :
    tree.print quote = commaSeparated (tree.parts.map (·.print quote)) := by
  induction nest with
  | quoted => simp [print, parts, Part.print, angled]
  | @literal items several each ih =>
    have nonempty : items ≠ [] := by
      rintro rfl
      simp at several
    obtain ⟨outward, count⟩ := IsOutward.flatMap nonempty fun item member => (each item member).outward
    have inner : commaSeparated (items.map (print quote)) =
        commaSeparated ((items.flatMap parts).map (·.print quote)) := by
      rw [map_flatMap, commaSeparated_flatMap fun item member => by
        simpa using (each item member).outward.nonempty]
      exact congrArg _ (map_congr_left ih)
    obtain ⟨first, middle, last, shape⟩ := exists_ends (several.trans count)
    rw [print, inner, parts, shape, openFirst_closeLast]
    have opened (part : Part α) : Part.print quote { part with opens := part.opens + 1 } =
        ['<'] ++ part.print quote := by
      simp [Part.print, angled, replicate_succ]
    have closed (part : Part α) : Part.print quote { part with closes := part.closes + 1 } =
        part.print quote ++ ['>'] := by
      simp [Part.print, angled, replicate_succ']
    simp only [map_cons, map_append, map_nil, opened, closed]
    rw [commaSeparated_enclosed]
    rfl

end Parts

end RecordTree

namespace Records

variable {store : Store} {before content after : Text}

theorem angleContent?_inside (less : '<' ∉ content) (greater : '>' ∉ content) :
    angleContent? (content ++ '>' :: after) = some (content, after) := by
  have inside : ∀ c ∈ content, (decide (c ≠ '<') && decide (c ≠ '>')) = true := fun c member => by
    simp [ne_of_mem_of_not_mem member less, ne_of_mem_of_not_mem member greater]
  have stop : (decide ('>' ≠ '<') && decide ('>' ≠ '>')) = false := by decide
  rw [angleContent?]
  simp only [dropWhile_append_of_pos inside, takeWhile_append_of_pos inside]
  rw [dropWhile_cons_of_neg (by simp), takeWhile_cons_of_neg (by simp)]
  simp

theorem angleContent?_nested (greater : '>' ∉ before) :
    angleContent? (before ++ '<' :: after) = none := by
  have stops : ∃ rest, (before ++ '<' :: after).dropWhile
      (fun c => decide (c ≠ '<') && decide (c ≠ '>')) = '<' :: rest := by
    induction before with
    | nil => exact ⟨after, by simp⟩
    | cons c before ih =>
      rw [mem_cons, not_or] at greater
      by_cases less : c = '<'
      · exact ⟨before ++ '<' :: after, by simp [less]⟩
      · obtain ⟨rest, shape⟩ := ih greater.2
        exact ⟨rest, by simpa [less, Ne.symm greater.1] using shape⟩
  obtain ⟨rest, shape⟩ := stops
  rw [angleContent?]
  simp only [shape]
  rfl

/-- The innermost literal that is closed first is the first one found. -/
theorem firstLiteral?_found (greater : '>' ∉ before) (opens : opensLiteral before = true)
    (inner : '<' ∉ content ∧ '>' ∉ content) (structural : looksStructural store (trim content) = true) :
    firstLiteral? store [] (before ++ '<' :: (content ++ '>' :: after)) =
      some (before, trim content, after) := by
  have general (before : Text) (greater : '>' ∉ before) (passed : Text)
      (opens : opensLiteral (passed.reverse ++ before) = true) : firstLiteral? store passed
        (before ++ '<' :: (content ++ '>' :: after)) =
          some (passed.reverse ++ before, trim content, after) := by
    induction before generalizing passed with
    | nil =>
      rw [append_nil] at opens
      simp [firstLiteral?, angleContent?_inside inner.1 inner.2, opens, structural]
    | cons c before ih =>
      rw [mem_cons, not_or] at greater
      have below := ih greater.2 (c :: passed) (by simpa using opens)
      rw [cons_append, firstLiteral?]
      simp only [angleContent?_nested greater.2, bind_none, ite_self, orElse_eq_orElse, below]
      simp
  simpa using general before greater [] opens

end Records
theorem opensLiteral_sign {c : Char} (before : Text) (solid : isBlank c = false)
    (sign : (isAlphanumeric c || c = '_' || c = ')' || c = ']' || c = closing) = false) :
    Records.opensLiteral (before ++ [c]) = true := by
  rw [Records.opensLiteral, trimRight, dropEndWhile, reverse_append]
  simpa [solid] using sign

theorem opensLiteral_space {before : Text} (opens : Records.opensLiteral before = true) :
    Records.opensLiteral (before ++ [' ']) = true := by
  have blank : isBlank ' ' = true := by decide
  rw [Records.opensLiteral, trimRight, dropEndWhile, reverse_append]
  simpa [blank, Records.opensLiteral, trimRight, dropEndWhile] using opens

theorem opensLiteral_angle (before : Text) : Records.opensLiteral (before ++ ['<']) = true :=
  opensLiteral_sign before (by decide) (by decide)

theorem opensLiteral_comma (before : Text) : Records.opensLiteral (before ++ [',', ' ']) = true := by
  have comma := opensLiteral_sign (c := ',') before (by decide) (by decide)
  simpa using opensLiteral_space comma

theorem Context.Atomic.whole {context : Context} {store : Store} {height : Nat} {atom out : Text}
    (atomic : context.Atomic store height atom out) : Whole atom := by
  refine .of_plain atomic.chars.1 (fun c member => ?_) fun c member => ?_
  · rcases atomic.chars.2 c member with run | mark
    · exact (isRunChar_plain run).1
    · exact isPlainSign_beyond (by have := isMark_range mark; omega)
  · rcases atomic.chars.2 c member with run | mark
    · exact (isRunChar_plain run).2
    · exact isMark_not_blank mark

theorem looksStructural_comma (store : Store) {content : Text} (comma : ',' ∈ content) :
    Records.looksStructural store content = true := by
  cases content with
  | nil => simp at comma
  | cons c rest => simp [Records.looksStructural, comma]

/-- Record types and their fields have words for names. -/
structure Records.IsNamed (records : Records) : Prop where
  names : ∀ pair ∈ records, pair.2.name ≠ [] ∧ ∀ c ∈ pair.2.name, isWordChar c = true
  fields : ∀ pair ∈ records, ∀ name ∈ pair.2.fieldNames, ∀ c ∈ name, isWordChar c = true

theorem forall₂_mem_left {α β : Type} {related : α → β → Prop} {items : List α} {others : List β}
    (each : List.Forall₂ related items others) {item : α} (member : item ∈ items) :
    ∃ other, related item other := by
  induction each with
  | nil => simp at member
  | cons here _ ih =>
    rcases mem_cons.mp member with rfl | member
    · exact ⟨_, here⟩
    · exact ih member

namespace RecordTree

theorem IsNest.mono {α : Type} {admits others : α → Prop} (weaker : ∀ label, admits label → others label)
    {tree : RecordTree α} (nest : tree.IsNest admits) : tree.IsNest others := by
  induction nest with
  | quoted admitted => exact .quoted (weaker _ admitted)
  | literal several _ ih => exact .literal several ih

/-- A token whose code means what it says, with tables nested at most `height` deep. -/
def Token.Means (context : Context) (store : Store) (height : Nat) (token : Token) : Prop :=
  context.Atomic store height token.code token.meaning

section Literals

variable {context : Context} {height : Nat}

/-- The literals of a tree are converted to an atom that means its value. -/
def Collapses (context : Context) (height : Nat) (tree : RecordTree Token) : Prop :=
  ∀ (desk : Desk) (rounds : Nat) (before after : Text), tree.IsNest (Token.Means context desk.store height) →
    '>' ∉ before → Records.opensLiteral before = true →
    ∃ atom reached,
      context.Atomic reached.store (height + (tree.print Token.code).count '<') atom
        (tree.value context.records Token.meaning) ∧
      desk.store.Extends reached.store ∧
      outcome (context.records.convertLiteralsWithin (rounds + (tree.print Token.code).count '<')
        (before ++ (tree.print Token.code ++ after))) desk =
      outcome (context.records.convertLiteralsWithin rounds (before ++ (atom ++ after))) reached

theorem collapses_items {items : List (RecordTree Token)} (nonempty : items ≠ [])
    (each : ∀ item ∈ items, Collapses context height item) (desk : Desk) (rounds : Nat)
    (before after : Text) (nests : ∀ item ∈ items, item.IsNest (Token.Means context desk.store height))
    (greater : '>' ∉ before) (opens : Records.opensLiteral before = true) :
    ∃ atoms reached,
      List.Forall₂ (context.Atomic reached.store
          (height + (commaSeparated (items.map (print Token.code))).count '<')) atoms
        (items.map (value context.records Token.meaning)) ∧
      desk.store.Extends reached.store ∧
      outcome (context.records.convertLiteralsWithin
          (rounds + (commaSeparated (items.map (print Token.code))).count '<')
        (before ++ (commaSeparated (items.map (print Token.code)) ++ after))) desk =
      outcome (context.records.convertLiteralsWithin rounds
        (before ++ (commaSeparated atoms ++ after))) reached := by
  induction items generalizing desk before with
  | nil => simp at nonempty
  | cons item items ih =>
    have here := each item (.head _)
    have nest := nests item (.head _)
    cases items with
    | nil =>
      obtain ⟨atom, reached, atomic, grown, run⟩ := here desk rounds before after nest greater opens
      exact ⟨[atom], reached, by simpa using atomic, grown, by simpa using run⟩
    | cons next items =>
      set later := commaSeparated ((next :: items).map (print Token.code)) with laterEq
      obtain ⟨atom, middle, atomic, grown, first⟩ :=
        here desk (rounds + later.count '<') before (',' :: ' ' :: (later ++ after)) nest greater opens
      have plain : '>' ∉ before ++ (atom ++ [',', ' ']) := by
        simp [greater, atomic.not_mem (c := '>') (by decide) (by decide)]
      obtain ⟨atoms, reached, others, further, rest⟩ := ih (by simp)
        (fun other member => each other (.tail _ member)) middle
        (before ++ (atom ++ [',', ' ']))
        (fun other member => (nests other (.tail _ member)).mono
          fun token means => means.mono grown le_rfl) plain
        (by rw [← append_assoc]; exact opensLiteral_comma _)
      have count : (commaSeparated ((item :: next :: items).map (print Token.code))).count '<' =
          (item.print Token.code).count '<' + later.count '<' := by
        simp [laterEq, count_commaSeparated _ (show '<' ≠ ',' by decide) (show '<' ≠ ' ' by decide)]
      have nonempty : atoms ≠ [] := by
        rintro rfl
        simp at others
      rw [count]
      refine ⟨atom :: atoms, reached, .cons (atomic.mono further (by omega))
        (others.imp fun _ _ inner => inner.mono (.refl _) (by omega)), grown.trans further, ?_⟩
      rw [map_cons, commaSeparated_start _ (by simp), ← laterEq, commaSeparated_start _ nonempty]
      simp only [append_assoc, cons_append, nil_append] at first rest ⊢
      rw [show rounds + ((item.print Token.code).count '<' + later.count '<') =
        rounds + later.count '<' + (item.print Token.code).count '<' by omega, first, rest]

theorem collapses (standard : context.language = standardLanguage) (named : context.records.IsNamed)
    (tree : RecordTree Token) : Collapses context height tree := by
  induction tree using RecordTree.induction with
  | word | make =>
    intro desk rounds before after nest
    cases nest
  | quoted token =>
    intro desk rounds before after nest _ _
    cases nest with
    | quoted means =>
      have less : token.code.count '<' = 0 :=
        count_eq_zero.mpr (Context.Atomic.not_mem means (by decide) (by decide))
      refine ⟨token.code, desk, ?_, .refl _, ?_⟩
      · simpa [print, value] using Context.Atomic.mono means (.refl _) (Nat.le_add_right _ _)
      · simp [print, less]
  | literal items ih =>
    intro desk rounds before after nest greater opens
    cases nest with
    | literal several each =>
      have nonempty : items ≠ [] := by
        rintro rfl
        simp at several
      obtain ⟨atoms, middle, means, grown, run⟩ := collapses_items nonempty ih desk (rounds + 1)
        (before ++ ['<']) ('>' :: after) each (by simp [greater]) (opensLiteral_angle before)
      have count : ((literal items).print Token.code).count '<' =
          (commaSeparated (items.map (print Token.code))).count '<' + 1 := by
        simp [print]
      generalize total : (commaSeparated (items.map (print Token.code))).count '<' = inner at *
      have length : atoms.length = items.length := by simpa using means.length_eq
      have each (atom : Text) (member : atom ∈ atoms) :
          ∃ meaning, context.Atomic middle.store (height + inner) atom meaning :=
        forall₂_mem_left means member
      have whole : ∀ atom ∈ atoms, Whole atom := fun atom member => by
        obtain ⟨meaning, atomic⟩ := each atom member
        exact atomic.whole
      have absent {c : Char} (run : isRunChar c = false) (mark : isMark c = false) (comma : c ≠ ',')
          (space : c ≠ ' ') : c ∉ commaSeparated atoms :=
        not_mem_commaSeparated (fun atom member => by
          obtain ⟨meaning, atomic⟩ := each atom member
          exact atomic.not_mem run mark) comma space
      have content := trim_commaSeparated (by omega) whole
      have comma : ',' ∈ commaSeparated atoms := by
        obtain ⟨first, between, last, rfl⟩ := exists_ends (by omega : 2 ≤ atoms.length)
        simp [commaSeparated_start]
      have found : Records.firstLiteral? middle.store []
          (before ++ '<' :: (commaSeparated atoms ++ '>' :: after)) = _ :=
        Records.firstLiteral?_found greater opens ⟨absent (by decide) (by decide) (by decide) (by decide),
          absent (by decide) (by decide) (by decide) (by decide)⟩
        (by rw [content]; exact looksStructural_comma _ comma)
      rw [content] at found
      set table : Held := .table (context.records.literalTable (commaSeparated atoms)) with tableEq
      have grows := Store.Extends.hold middle.store table
      obtain ⟨outs, fragments, rendered⟩ := literalTable_rendered context.records
        (commaSeparated atoms) Context.Fragment.nil (by
          rw [splitArguments_commaSeparated whole]
          exact means.imp fun _ _ atomic => Context.Fragment.of_atomic (atomic.mono grows le_rfl))
      refine ⟨write middle.store.held.size, { middle with store := (middle.store.hold table).1 }, ?_,
        grown.trans grows, ?_⟩
      · rw [value, ← rendered, count]
        refine Context.Atomic.of_table standard ?_ ?_ fragments
        · simp [Store.hold, tableEq]
        · intro entry member name entryName
          obtain ⟨pair, among, field⟩ := (Records.literalTable_values member).2 name entryName
          have letters := named.fields pair among name field
          exact ⟨fun inside => isRunChar_ne_opening (by simp [isRunChar, letters _ inside]) rfl,
            fun inside => by have := letters _ inside; revert this; decide⟩
      · have shape : before ++ ((literal items).print Token.code ++ after) =
            before ++ ['<'] ++ (commaSeparated (items.map (print Token.code)) ++ '>' :: after) := by
          simp [print]
        rw [shape, count, show rounds + (inner + 1) = rounds + 1 + inner by omega, run,
          Records.convertLiteralsWithin, outcome_bind, outcome_get]
        simp only [append_assoc, cons_append, nil_append, found]
        rfl

end Literals

end RecordTree

end Pseudocode
