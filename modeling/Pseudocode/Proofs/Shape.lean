import Pseudocode.Proofs.Callees
import Pseudocode.Proofs.Grammar

namespace Pseudocode

open List Option
variable {word : Text} {values : List Text} {items : List Item}

/-- A name that can stand before a parenthesis without being taken for anything but a function. -/
def isLeadWord (word : Text) : Bool :=
  !word.isEmpty && word.all isWordChar && !isRespelled word && word.map caseKey ≠ inputName

theorem isLeadWord_iff : isLeadWord word = true ↔
    (word ≠ [] ∧ ∀ c ∈ word, isWordChar c = true) ∧ isRespelled word = false ∧
      word.map caseKey ≠ inputName := by
  simp [isLeadWord, and_assoc]

theorem builder_lead : isLeadWord ListLiteral.builder = true := by
  decide

theorem helper_lead : ∀ builtin ∈ standardLanguage.builtins, builtin.inline = false →
    isLeadWord builtin.helper = true := by
  decide +kernel

theorem Inline.names_lead (form : Inline) : ∀ name ∈ form.names, isLeadWord name = true := by
  cases form <;> decide

theorem isLeadWord_run (lead : isLeadWord word = true) : IsRun word [] := by
  obtain ⟨⟨nonempty, letters⟩, kept, -⟩ := isLeadWord_iff.mp lead
  exact ⟨nonempty, letters, kept, by simp, by simp⟩

theorem isLeadWord_whole (lead : isLeadWord word = true) : Whole word := by
  simpa using (isLeadWord_run lead).whole

/-- The library function is a name with a field. -/
theorem Inline.library_run : IsRun "string".toList ".sub".toList where
  nonempty := by decide
  letters := all_eq_true.mp (by decide : "string".toList.all isWordChar = true)
  kept := by decide
  fields := all_eq_true.mp (by decide : ".sub".toList.all isRunChar = true)
  point := by simp

theorem Inline.library_eq : Inline.library = "string".toList ++ ".sub".toList := by
  decide

theorem Inline.library_whole : Whole Inline.library :=
  Inline.library_eq ▸ Inline.library_run.whole

/-- A run starts with no parenthesis. -/
theorem IsRun.head_ne {first rest : Text} (run : IsRun first rest) (sign : Char)
    (other : isWordChar sign = false) (tail : Text) : (first ++ rest ++ tail).head? ≠ some sign := by
  obtain ⟨c, letters, rfl⟩ := exists_cons_of_ne_nil run.nonempty
  rw [cons_append, cons_append, head?_cons, Ne, Option.some.injEq]
  rintro rfl
  simp [run.letters c (.head _)] at other

namespace Context

variable {context : Context} {name : Text}

theorem isFunctionName_iff : context.isFunctionName name = true ↔
    (isAsciiName name = true ∧ isRespelled name = false ∧ preludeMark.isPrefixOf name = false) ∧
      (name.map caseKey ≠ inputName ∧ name.map caseKey ∉ structureNames) ∧
      context.namesRecord name = false ∧
      (context.declares name = true ∨ (context.language.builtin? name).any (·.inline) = false) := by
  simp [isFunctionName, and_assoc, inputName]

theorem isFunctionName_lead (function : context.isFunctionName name = true) :
    isLeadWord name = true := by
  obtain ⟨⟨ascii, kept, -⟩, ⟨other, -⟩, -⟩ := isFunctionName_iff.mp function
  exact isLeadWord_iff.mpr ⟨isAsciiName_letters ascii, kept, other⟩

theorem builtin?_mem {language : Language} {builtin : Builtin}
    (found : language.builtin? name = some builtin) :
    builtin ∈ language.builtins ∧ lower builtin.name = lower name := by
  have named := find?_some found
  exact ⟨mem_reverse.mp (mem_of_find?_eq_some found), by simpa using named⟩

theorem luaName_lead (standard : context.language = standardLanguage)
    (function : context.isFunctionName name = true) : isLeadWord (context.luaName name) = true := by
  have own := isFunctionName_lead function
  obtain ⟨-, -, -, inlined⟩ := isFunctionName_iff.mp function
  rw [luaName]
  split
  · exact own
  · rename_i undeclared
    have notInline := inlined.resolve_left undeclared
    split
    · rename_i builtin found
      rw [found, any_some] at notInline
      exact helper_lead builtin (standard ▸ (builtin?_mem found).1) notInline
    · exact own

/-- Functions have names that can stand before a parenthesis, and a record is one argument. -/
structure Shapes (context : Context) (shape : Shape) : Prop where
  lead : ∀ name, context.isFunctionName name = true → isLeadWord (shape.rename name) = true
  record : ∀ name values, context.Allows (.record name) values.length → (∀ value ∈ values, Whole value) →
    Whole (shape.record name values)

end Context

theorem Balanced.fieldTexts {names : List Text} (letters : ∀ name ∈ names, ∀ c ∈ name, isWordChar c = true)
    (balanced : ∀ value ∈ values, Balanced true value) :
    ∀ text ∈ fieldTexts names values, Balanced true text := by
  have named {name : Text} (word : ∀ c ∈ name, isWordChar c = true) {text : Text}
      (balanced : Balanced true text) : Balanced true (name ++ " = ".toList ++ text) := by
    have lead : Balanced true name := .of_plain fun c member => (isWordChar_plain (word c member)).1
    have sign : " = ".toList.all isPlainSign = true := by decide
    exact (lead.append (.of_plain (all_eq_true.mp sign))).append balanced
  induction names generalizing values with
  | nil => simp [Pseudocode.fieldTexts]
  | cons name names ih =>
    have here := letters name (.head _)
    have later := fun other member => letters other (.tail _ member)
    cases values with
    | nil =>
      have nothing : Balanced true "nil".toList := (isLexeme_whole (by decide)).balanced.loosen
      refine forall_mem_cons.mpr ⟨?_, ih later (by simp)⟩
      simpa using named here nothing
    | cons value values =>
      exact forall_mem_cons.mpr ⟨named here (balanced value (.head _)),
        ih later fun other member => balanced other (.tail _ member)⟩

theorem Whole.called {inside : Text} (lead : Whole word) (balanced : Balanced true inside) :
    Whole (word ++ '(' :: inside ++ [')']) := by
  have enclosed : Whole ('(' :: inside ++ [')']) := .enclosed .round balanced
  simpa using lead.append enclosed

theorem Whole.path {path : List Text} (names : path ≠ [] ∧ ∀ name ∈ path, isVariableName name = true) :
    Whole (dotted path) := by
  obtain ⟨first, rest, split, run⟩ := isRun_path names.1 names.2
  exact split ▸ run.whole

theorem balanced_itemTexts (whole : ∀ item ∈ items, Whole item.text) :
    Balanced true (itemTexts items) :=
  .commaSeparated (forall_mem_map.mpr fun item member => (whole item member).balanced.loosen)

theorem Item.index_whole {item : Item} (whole : Whole item.text) : Whole item.index := by
  rw [Item.index]
  split
  · exact .enclosed .square whole.balanced.loosen
  · have inner : Whole ('(' :: item.text ++ [')']) := .enclosed .round whole.balanced.loosen
    have plus : Whole ['+'] := isLexeme_whole (by decide)
    have one : Whole ['1'] := isLexeme_whole (by decide)
    have enclosed := Whole.enclosed .square ((inner.spaced plus).spaced one).balanced.loosen
    simpa using enclosed

theorem Inline.text_whole {form : Inline} (count : items.length = form.arity)
    (whole : ∀ item ∈ items, Whole item.text) : Whole (form.text items) := by
  cases form with
  | concatenation =>
    obtain ⟨first, second, rfl⟩ := length_eq_two.mp count
    have dots : Whole ['.', '.'] := isLexeme_whole (by decide)
    simpa [text, joint] using ((whole first (by simp)).spaced dots).spaced (whole second (by simp))
  | length =>
    obtain ⟨item, rfl⟩ := length_eq_one_iff.mp count
    have sharp : Whole ['#'] := isLexeme_whole (by decide)
    have inside := whole item (by simp)
    cases bare : item.isBare with
    | true => simpa [text, bare] using sharp.append inside
    | false =>
      have enclosed : Whole ('(' :: item.text ++ [')']) := .enclosed .round inside.balanced.loosen
      simpa [text, bare] using sharp.append enclosed
  | character =>
    obtain ⟨subject, place, rfl⟩ := length_eq_two.mp count
    have subjectLoose := (whole subject (by simp)).balanced.loosen
    have placeLoose := (whole place (by simp)).balanced.loosen
    have inside : Balanced true (commaSeparated [subject.text, place.text, place.text]) :=
      .commaSeparated (by simpa using ⟨subjectLoose, placeLoose⟩)
    exact library_whole.called inside
  | substring => exact library_whole.called (balanced_itemTexts whole)

namespace Context.Shapes

variable {context : Context} {shape : Shape}

theorem group_whole (shapes : context.Shapes shape) {kind : Group}
    (allowed : context.Forms kind items.length) (whole : ∀ item ∈ items, Whole item.text) :
    Whole (shape.group kind items) := by
  have inside := balanced_itemTexts whole
  cases kind with
  | call name => exact (isLeadWord_whole (shapes.lead name allowed)).called inside
  | record name =>
    have count : context.Allows (.record name) (items.map (·.text)).length := by
      rw [length_map]
      exact allowed
    exact shapes.record name _ count (forall_mem_map.mpr whole)
  | access path =>
    have enclosed : Whole ('[' :: itemTexts items ++ [']']) := .enclosed .square inside
    simpa [Shape.group] using (Whole.path allowed.1).append enclosed
  | array => exact .enclosed .square inside
  | list =>
    rw [Shape.group]
    split
    · exact (isLeadWord_whole builder_lead).called (.enclosed .curly inside)
    · exact .enclosed .round inside
  | paren => exact .enclosed .round inside
  | inline form name =>
    rw [Shape.group]
    split
    · exact Inline.text_whole allowed.2.2.2 whole
    · exact (isLeadWord_whole (form.names_lead name allowed.1)).called inside

theorem indexed_whole (shapes : context.Shapes shape) {kind : Group}
    (allowed : context.Forms kind items.length) (whole : ∀ item ∈ items, Whole item.text) :
    Whole (shape.indexed kind items) := by
  cases kind with
  | access path =>
    have indices (items : List Item) (whole : ∀ item ∈ items, Whole item.text) :
        ∀ {text : Text}, Whole text → Whole (text ++ items.flatMap Item.index) := by
      induction items with
      | nil => simp
      | cons item items ih =>
        intro text lead
        have here := lead.append (Item.index_whole (whole item (.head _)))
        simpa using ih (fun other member => whole other (.tail _ member)) here
    exact indices items whole (Whole.path allowed.1)
  | array => exact .enclosed .curly (balanced_itemTexts whole)
  | call _ | record _ | list | paren | inline _ _ => exact shapes.group_whole allowed whole

theorem fits {α : Type} {grammar : Grammar α} {words : Words} (shapes : context.Shapes shape)
    (fit : words.isFit = true)
    (allows : ∀ {kind count}, grammar.allows kind count → context.Forms kind count) :
    (shape.dialect words).Fits grammar where
  words := fit
  group _ _ allowed whole := shapes.group_whole (allows allowed) whole

theorem indexed_fits {α : Type} {grammar : Grammar α} {words : Words} (shapes : context.Shapes shape)
    (fit : words.isFit = true)
    (allows : ∀ {kind count}, grammar.allows kind count → context.Forms kind count) :
    (shape.indexedDialect words).Fits grammar where
  words := fit
  group _ _ allowed whole := shapes.indexed_whole (allows allowed) whole

end Context.Shapes

/-- The name of a record type before its values. -/
theorem Context.whole_constructor {context : Context} {name : Text}
    (allowed : context.Allows (.record name) values.length) (whole : ∀ value ∈ values, Whole value) :
    Whole (name ++ '(' :: commaSeparated values ++ [')']) := by
  have letters : ∀ c ∈ name, isWordChar c = true := fun c => identifier?_mem allowed.1
  have called := allowed.1
  have nonempty : name ≠ [] := by
    rintro rfl
    simp [identifier?] at called
  have lead : Whole name := .of_plain nonempty (fun c member => (isWordChar_plain (letters c member)).1)
    fun c member => (isWordChar_plain (letters c member)).2
  exact lead.called (.commaSeparated fun value member => (whole value member).balanced.loosen)

theorem Shape.source_shapes (context : Context) : context.Shapes Shape.source where
  lead _ function := Context.isFunctionName_lead function
  record _ _ := Context.whole_constructor

end Pseudocode
