import Pseudocode.Proofs.Pass

namespace Pseudocode

open List Option Placeholder

variable {strict : Bool}
variable {text : Text} {store : Store} {level : Nat} {desk : Desk}

/-- The brackets of a text that can come to be tables. -/
def brackets (text : Text) : Nat :=
  text.count '(' + text.count '<'

@[simp] theorem brackets_append (first second : Text) :
    brackets (first ++ second) = brackets first + brackets second := by
  simp only [brackets, count_append]
  omega

theorem brackets_le_of_sublist {part : Text} (sublist : part.Sublist text) :
    brackets part ≤ brackets text :=
  Nat.add_le_add (sublist.count_le '(') (sublist.count_le '<')

theorem brackets_le_length (text : Text) : brackets text ≤ text.length := by
  induction text with
  | nil => rfl
  | cons c rest ih =>
    unfold brackets at ih ⊢
    by_cases paren : c = '('
    · subst paren
      simp
      omega
    · by_cases angle : c = '<'
      · subst angle
        simp
        omega
      · simp [paren, angle]
        omega

theorem brackets_write (index : Nat) : brackets (write index) = 0 := by
  have absent {c : Char} (small : c.toNat < 0xe000) : (write index).count c = 0 := by
    refine count_eq_zero.mpr fun member => ?_
    exact isMark_ne (isMark_of_mem_write c member) small rfl
  simp [brackets, absent]

theorem trim_sublist (text : Text) : (trim text).Sublist text := by
  have right (text : Text) : (trimRight text).Sublist text := by
    have reversed := dropWhile_sublist isBlank (l := text.reverse)
    simpa [trimRight, dropEndWhile] using reversed.reverse
  exact (right _).trans (dropWhile_sublist isBlank)

theorem splitArguments_sublist {argument : Text} (member : argument ∈ splitArguments text) :
    argument.Sublist text := by
  unfold splitArguments at member
  split at member
  · simp at member
  · obtain ⟨piece, inside, rfl⟩ := mem_map.mp (dropEmptyLast_subset member)
    refine (trim_sublist piece).trans ?_
    obtain ⟨first, others, shape, ⟨after, starts, -⟩, later⟩ := segments_split .code 0 text
    rw [shape] at inside
    rcases mem_cons.mp inside with rfl | inside
    · rw [starts]
      exact sublist_append_left _ _
    · obtain ⟨before, after, split, -⟩ := later piece inside
      rw [split]
      exact ((sublist_append_left _ _).trans (sublist_cons_self _ _)).trans
        (sublist_append_right _ _)

/-- Everything that was held is still held. -/
def Store.Extends (old new : Store) : Prop :=
  ∀ (index : Nat) (part : Held), old.held[index]? = some part → new.held[index]? = some part

namespace Store.Extends

theorem refl (store : Store) : store.Extends store :=
  fun _ _ => id

theorem of_eq {old new : Store} (same : new = old) : old.Extends new :=
  same ▸ refl old

theorem trans {first second third : Store} (earlier : first.Extends second)
    (later : second.Extends third) : first.Extends third :=
  fun index part held => later index part (earlier index part held)

theorem hold (store : Store) (part : Held) : store.Extends (store.hold part).1 := by
  intro index other held
  obtain ⟨within, -⟩ := Array.getElem?_eq_some_iff.mp held
  rw [Store.hold, Array.getElem?_push_lt within, ← held, Array.getElem?_eq_getElem within]

end Store.Extends

/-- What is held at an index can be written out: a literal, or a table whose values are legible.
A table is above whatever its values hold and can come to hold. -/
inductive Readable (strict : Bool) (store : Store) : (level index : Nat) → Prop
  | literal {level index : Nat} {text : Text} :
      store.held[index]? = some (.literal text) → opening ∉ text → Readable strict store level index
  | table {level index : Nat} {entries : List Entry} (inner : Entry → Nat)
      (ok : Entry → Nat → Prop) : store.held[index]? = some (.table entries) → 0 < level →
      (∀ entry ∈ entries, ∀ name ∈ entry.name, IsClean strict name) →
      (∀ entry ∈ entries, inner entry + brackets entry.value < level) →
      (∀ entry ∈ entries, Legible strict (ok entry) entry.value) →
      (∀ entry ∈ entries, ∀ other, ok entry other → Readable strict store (inner entry) other) →
      Readable strict store level index

theorem Readable.mono {reached : Store} {above index : Nat}
    (readable : Readable strict store level index) (grown : store.Extends reached)
    (higher : level ≤ above) : Readable strict reached above index := by
  induction readable generalizing above with
  | literal held plain => exact .literal (grown _ _ held) plain
  | table inner ok held positive names lower legible _ ih =>
    refine .table inner ok (grown _ _ held) (by omega) names (fun entry member => ?_) legible
      fun entry member other admitted => ih entry member other admitted le_rfl
    have := lower entry member
    omega

theorem Legible.readable_mono {reached : Store} {above : Nat}
    (legible : Legible strict (Readable strict store level) text) (grown : store.Extends reached)
    (higher : level ≤ above) : Legible strict (Readable strict reached above) text :=
  legible.mono fun _ readable => readable.mono grown higher

/-- Below every table there are only literals. -/
theorem Readable.zero {index : Nat} (readable : Readable strict store 0 index) :
    ∃ text, store.held[index]? = some (.literal text) ∧ opening ∉ text := by
  cases readable with
  | literal held plain => exact ⟨_, held, plain⟩
  | table _ _ _ positive => omega

/-- What a text becomes is legible, and new tables have used up the brackets they came from. -/
def Affordable (strict : Bool) (store : Store) (level : Nat) (text out : Text) : Prop :=
  ∃ above, level ≤ above ∧ above + brackets out ≤ level + brackets text ∧
    Legible strict (Readable strict store above) out

namespace Affordable

variable {store reached : Store} {level : Nat} {text out : Text}

theorem same (legible : Legible strict (Readable strict store level) text) :
    Affordable strict store level text text :=
  ⟨level, le_rfl, le_rfl, legible⟩

theorem mono (affordable : Affordable strict store level text out) (grown : store.Extends reached) :
    Affordable strict reached level text out := by
  obtain ⟨above, higher, paid, legible⟩ := affordable
  exact ⟨above, higher, paid, legible.readable_mono grown le_rfl⟩

theorem append {first second firstOut secondOut : Text} (left : Affordable strict store level first firstOut)
    (right : Affordable strict store level second secondOut) :
    Affordable strict store level (first ++ second) (firstOut ++ secondOut) := by
  obtain ⟨above, higher, paid, legible⟩ := left
  obtain ⟨above', higher', paid', legible'⟩ := right
  refine ⟨max above above', by omega, ?_,
    (legible.readable_mono (.refl _) (le_max_left _ _)).append
      (legible'.readable_mono (.refl _) (le_max_right _ _))⟩
  simp only [brackets_append]
  omega

end Affordable

/-- A table whose values come from a text of `level` is readable above that text. -/
theorem Conversion.hold_settles {entries : List Entry} (source : Text)
    (names : ∀ entry ∈ entries, ∀ name ∈ entry.name, IsClean strict name)
    (fewer : ∀ entry ∈ entries, brackets entry.value ≤ brackets source)
    (legible : ∀ entry ∈ entries, Legible strict (Readable strict desk.store level) entry.value) :
    Settles strict (Conversion.hold (.table entries)) desk fun out reached =>
      desk.store.Extends reached.store ∧ brackets out = 0 ∧
        Legible strict (Readable strict reached.store (level + brackets source + 1)) out := by
  refine Gives.settles (show Gives _ desk _ _ from rfl) ⟨.hold _ _, brackets_write _, ?_⟩
  have grown := Store.Extends.hold desk.store (.table entries)
  have held : (desk.store.hold (.table entries)).1.held[desk.store.held.size]? =
      some (.table entries) := by
    simp [Store.hold]
  have readable : Readable strict (desk.store.hold (.table entries)).1 (level + brackets source + 1)
      desk.store.held.size :=
    .table (fun _ => level) (fun _ => Readable strict desk.store level) held (by omega) names
      (fun entry member => by have := fewer entry member; omega) legible
      fun _ _ _ readable => readable.mono grown le_rfl
  exact .single readable

/-- What conversion needs of the record types: they are listed by their names in small letters,
and no name or field spoils a placeholder. -/
structure Records.Regular (strict : Bool) (records : Records) : Prop where
  keys : ∀ pair ∈ records, pair.1 = lower pair.2.name
  names : ∀ pair ∈ records, pair.2.name ≠ [] ∧ IsClean strict pair.2.name
  fields : ∀ pair ∈ records, ∀ field ∈ pair.2.fields, IsClean strict field.name

namespace Records

variable {records : Records}
variable {entry : Entry} {content after : Text}

theorem get?_isSome (regular : records.Regular true) {name : Text}
    (plain : ∀ c ∈ name, isPlainCase c = true) {pair : Text × RecordType} (member : pair ∈ records)
    (letters : name.map caseKey = pair.2.name.map caseKey) :
    ∃ found ∈ records, records.get? name = some found.2 := by
  have same : lower name = pair.1 := by
    rw [lower_eq_map_caseKey plain, letters, regular.keys pair member,
      lower_eq_map_caseKey fun c inside =>
        ((regular.names pair member).2 c inside).2 rfl]
  cases found : records.get? name with
  | none =>
    have none := lookup_eq_none_iff.mp found pair member
    simp [same] at none
  | some type => exact ⟨(lower name, type), mem_of_lookup found, rfl⟩

theorem named_of_fields {holds : Text → Prop}
    (fields : ∀ pair ∈ records, ∀ name ∈ pair.2.fieldNames, holds name)
    (names : ∀ name ∈ entry.name, ∃ pair ∈ records, name ∈ pair.2.fieldNames) :
    ∀ name ∈ entry.name, holds name := by
  intro name named
  obtain ⟨pair, listed, field⟩ := names name named
  exact fields pair listed name field

theorem Regular.fieldNames (regular : records.Regular strict) :
    ∀ pair ∈ records, ∀ name ∈ pair.2.fieldNames, IsClean strict name :=
  fun pair listed => forall_mem_map.mpr (regular.fields pair listed)

theorem constructed_values {name : Text} {type : RecordType} {arguments : List Text}
    (found : records.get? name = some type) (member : entry ∈ constructed type arguments) :
    (entry.value = "nil".toList ∨ entry.value ∈ arguments) ∧
      ∀ name ∈ entry.name, ∃ pair ∈ records, name ∈ pair.2.fieldNames := by
  obtain ⟨⟨i, field⟩, zipped, rfl⟩ := mem_map.mp member
  refine ⟨?_, by simpa using ⟨_, type, mem_of_lookup found, (of_mem_zip zipped).2⟩⟩
  dsimp only
  cases argument : arguments[i]? with
  | none => exact .inl rfl
  | some value => exact .inr (mem_of_getElem? argument)

theorem convertConstructors_settles (regular : records.Regular strict)
    (legible : Legible strict (Readable strict desk.store level) text) :
    Settles strict (records.convertConstructors text) desk fun out reached =>
      desk.store.Extends reached.store ∧ Affordable strict reached.store level text out := by
  have listed {name : Text} (member : name ∈ longestFirst (records.map (·.2.name))) :
      ∃ pair ∈ records, pair.2.name = name := by
    rw [longestFirst, mem_mergeSort] at member
    exact mem_map.mp member
  unfold convertConstructors
  split
  · exact .pure ⟨.refl _, .same legible⟩
  · refine CallPass.settles (show CallPass _ _ _ _ desk (fun desk reached => desk.store.Extends reached.store)
      (fun desk => Affordable strict desk.store level) from ⟨Legible.seamless,
        namedCallee_mark fun name member => ?_,
        fun text head found => (namedCallee_eq_some found).1, .trans, fun _ _ => .refl _,
        fun grown affordable => affordable.mono grown,
        fun started legible => .same (legible.readable_mono started le_rfl), .append, ?_⟩)
      legible none
    · obtain ⟨pair, inside, rfl⟩ := listed member
      obtain ⟨nonempty, clean⟩ := regular.names pair inside
      exact ⟨nonempty, fun w member => (clean w member).1⟩
    · intro here head inside arguments text started found whole written affordable
      obtain ⟨-, name, member, letters⟩ := namedCallee_eq_some found
      obtain ⟨pair, type, rfl⟩ := listed member
      have listed (isStrict : strict = true) :
          ∃ found ∈ records, records.get? head.name = some found.2 := by
        subst isStrict
        refine get?_isSome regular (fun c inside => ?_) type letters
        exact written.plainCase rfl c (by simp [CallHead.written, inside])
      cases lookup : records.get? head.name with
      | none =>
        refine .throw (Bool.eq_false_iff.mpr fun isStrict => ?_)
        obtain ⟨_, -, known⟩ := listed isStrict
        simp [known] at lookup
      | some meant =>
        obtain ⟨above, higher, paid, argumentsLegible⟩ := affordable
        have values : ∀ entry ∈ constructed meant (splitArguments arguments),
            (∀ name ∈ entry.name, IsClean strict name) ∧
              brackets entry.value ≤ brackets arguments ∧
              Legible strict (Readable strict here.store above) entry.value := by
          intro entry member
          obtain ⟨value, names⟩ := constructed_values lookup member
          refine ⟨named_of_fields regular.fieldNames names, ?_⟩
          rcases value with absent | among
          · exact absent ▸ ⟨Nat.zero_le _, .of_ascii (by decide)⟩
          · exact ⟨brackets_le_of_sublist (splitArguments_sublist among),
              argumentsLegible.splitArguments _ among⟩
        refine (Conversion.hold_settles arguments (fun entry member => (values entry member).1)
          (fun entry member => (values entry member).2.1)
          fun entry member => (values entry member).2.2).mono ?_
        rintro out reached ⟨grown, spent, outLegible⟩
        refine ⟨grown, above + brackets arguments + 1, by omega, ?_, outLegible⟩
        have opened : brackets head.written = brackets (head.name ++ head.gap) + 1 := by
          rw [CallHead.written, brackets_append]
          rfl
        simp only [brackets_append, spent, opened]
        omega

theorem angleContent?_eq_some (found : angleContent? text = some (content, after)) :
    text = content ++ '>' :: after ∧ '<' ∉ content ∧ '>' ∉ content := by
  unfold angleContent? at found
  simp only at found
  split at found
  · rename_i rest
    obtain ⟨rfl, rfl⟩ := Prod.mk.inj (Option.some.inj found)
    refine ⟨by rw [← rest, takeWhile_append_dropWhile], fun member => ?_, fun member => ?_⟩
    all_goals simpa using mem_takeWhile_imp member
  · simp at found

/-- Where the first literal stands, and what it holds. -/
structure FoundLiteral (text before content after : Text) : Prop where
  opens : opensLiteral before = true
  split : ∃ inner, text = before ++ '<' :: (inner ++ '>' :: after) ∧ content = trim inner ∧
    '<' ∉ inner ∧ '>' ∉ inner

theorem FoundLiteral.of_firstLiteral? {passed before : Text}
    (found : firstLiteral? store passed text = some (before, content, after)) :
    FoundLiteral (passed.reverse ++ text) before content after := by
  induction text generalizing passed with
  | nil => simp [firstLiteral?] at found
  | cons c rest ih =>
    rw [firstLiteral?] at found
    simp only [orElse_eq_orElse, orElse_eq_or, or_eq_some_iff] at found
    rcases found with here | ⟨-, later⟩
    · split at here
      · rename_i opens
        subst opens
        obtain ⟨⟨inner, tail⟩, angled, here⟩ := bind_eq_some_iff.mp here
        split at here
        · rename_i fits
          obtain ⟨rfl, same⟩ := Prod.mk.inj (Option.some.inj here)
          obtain ⟨rfl, rfl⟩ := Prod.mk.inj same
          obtain ⟨split, less, greater⟩ := angleContent?_eq_some angled
          exact ⟨(Bool.and_eq_true_iff.mp fits).1, inner, by rw [split], rfl, less, greater⟩
        · simp at here
      · simp at here
    · simpa using ih later

theorem firstLiteral?_eq_some {passed before : Text}
    (found : firstLiteral? store passed text = some (before, content, after)) :
    ∃ inner, passed.reverse ++ text = before ++ '<' :: (inner ++ '>' :: after) ∧
      content = trim inner := by
  obtain ⟨inner, split, trimmed, -⟩ := (FoundLiteral.of_firstLiteral? found).split
  exact ⟨inner, split, trimmed⟩

theorem literalTable_values (member : entry ∈ records.literalTable content) :
    entry.value ∈ splitArguments content ∧
      ∀ name ∈ entry.name, ∃ pair ∈ records, name ∈ pair.2.fieldNames := by
  unfold literalTable at member
  simp only at member
  split at member
  · rename_i type found
    obtain ⟨⟨name, value⟩, zipped, rfl⟩ := mem_map.mp member
    obtain ⟨field, argument⟩ := of_mem_zip zipped
    obtain ⟨pair, listed, rfl⟩ := mem_map.mp (mem_of_find?_eq_some found)
    exact ⟨argument, by simpa using ⟨pair.1, pair.2, listed, field⟩⟩
  · obtain ⟨value, argument, rfl⟩ := mem_map.mp member
    exact ⟨argument, by simp⟩

theorem convertLiteralsWithin_settles (regular : records.Regular strict) (rounds : Nat)
    (legible : Legible strict (Readable strict desk.store level) text) :
    Settles strict (records.convertLiteralsWithin rounds text) desk fun out reached =>
      desk.store.Extends reached.store ∧ Affordable strict reached.store level text out := by
  induction rounds generalizing level text desk with
  | zero => exact .pure ⟨.refl _, .same legible⟩
  | succ rounds ih =>
    rw [convertLiteralsWithin]
    refine .get_bind ?_
    cases found : firstLiteral? desk.store [] text with
    | none => exact .pure ⟨.refl _, .same legible⟩
    | some parts =>
      obtain ⟨before, content, after⟩ := parts
      obtain ⟨inner, split, rfl⟩ := firstLiteral?_eq_some found
      rw [reverse_nil, nil_append] at split
      obtain ⟨beforeLegible, rest⟩ := legible.cut_at split (isMark_ascii (by decide))
      obtain ⟨innerLegible, afterLegible⟩ := rest.cut_at rfl (isMark_ascii (by decide))
      have names : ∀ entry ∈ records.literalTable (trim inner), ∀ name ∈ entry.name,
          IsClean strict name :=
        fun _ member => named_of_fields regular.fieldNames (literalTable_values member).2
      have held := Conversion.hold_settles inner names
        (fun entry member => brackets_le_of_sublist
          ((splitArguments_sublist (literalTable_values member).1).trans (trim_sublist inner)))
        (fun entry member => innerLegible.trim.splitArguments _ (literalTable_values member).1)
      refine held.bind fun placeholder reached ⟨grown, spent, placeholderLegible⟩ => ?_
      have next : Legible strict (Readable strict reached.store (level + brackets inner + 1))
          (before ++ placeholder ++ after) :=
        ((beforeLegible.readable_mono grown (by omega)).append placeholderLegible).append
          (afterLegible.readable_mono grown (by omega))
      refine (ih next).mono fun out final ⟨later, above, higher, paid, outLegible⟩ => ?_
      refine ⟨grown.trans later, above, by omega, ?_, outLegible⟩
      have opened : brackets text =
          brackets before + (brackets inner + brackets after + 1) := by
        have angles : brackets ('<' :: (inner ++ '>' :: after)) =
            brackets inner + brackets after + 1 := by
          simp [brackets]
          omega
        rw [split, brackets_append, angles]
      simp only [brackets_append, spent] at paid
      omega

theorem convert_settles (regular : records.Regular strict)
    (legible : Legible strict (Readable strict desk.store level) text) :
    Settles strict (records.convert text) desk fun out reached =>
      desk.store.Extends reached.store ∧ Affordable strict reached.store level text out := by
  refine (convertConstructors_settles regular legible).bind
    fun middle reached ⟨grown, above, higher, paid, middleLegible⟩ => ?_
  refine (convertLiteralsWithin_settles regular _ middleLegible).mono
    fun out final ⟨later, top, topHigher, topPaid, outLegible⟩ => ?_
  exact ⟨grown.trans later, top, by omega, by omega, outLegible⟩

end Records

end Pseudocode
