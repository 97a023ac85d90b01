import Pseudocode.Proofs.Kept
import Pseudocode.Proofs.Total

namespace Pseudocode

open Placeholder
variable {store : Store} {text : Text} {desk : Desk}

/-- A text without characters of the range that placeholders are kept in. -/
def Unreserved (text : Text) : Prop :=
  ∀ c ∈ text, isReserved c = false

namespace Unreserved

variable {text part : Text}

theorem of_subset (unreserved : Unreserved text) (inside : part ⊆ text) : Unreserved part :=
  fun c member => unreserved c (inside member)

theorem opening_notMem (unreserved : Unreserved text) : opening ∉ text :=
  fun member => absurd (unreserved _ member) (by decide)

theorem of_wordChars (letters : ∀ c ∈ text, isWordChar c = true) : Unreserved text := by
  intro c member
  by_contra reserved
  have letter := letters c member
  rw [isReserved_not_wordChar (by simpa using reserved)] at letter
  simp at letter

theorem joins : Seamless false Unreserved where
  nil := by simp [Unreserved]
  split whole _ := ⟨fun c member => whole c (by simp [member]), fun c member => whole c (by simp [member])⟩
  cased := by simp
  ascii ascii c member := isReserved_ascii (by simpa using List.all_eq_true.mp ascii c member)
  append first second c member := (List.mem_append.mp member).elim (first c) (second c)

end Unreserved

/-- A text whose reserved characters all stand in placeholders, with indices that `ok` admits. -/
structure Sealed (ok : Nat → Prop) (text : Text) : Prop where
  legible : Legible false ok text
  bare : ∀ c, .plain c ∈ pieces text → isReserved c = false

namespace Sealed

variable {ok admits : Nat → Prop} {text rest : Text}

theorem of_unreserved (unreserved : Unreserved text) : Sealed ok text where
  legible := .of_plain fun c member =>
    ⟨fun same => unreserved.opening_notMem (same ▸ member), by simp⟩
  bare c inside := by
    rw [pieces_of_plain unreserved.opening_notMem] at inside
    obtain ⟨d, member, rfl⟩ : ∃ d ∈ text, d = c := by simpa using inside
    exact unreserved d member

theorem placeholder {index : Nat} (admitted : ok index) : Sealed ok (write index) where
  legible := .single admitted
  bare c inside := by
    rw [← List.append_nil (write index), pieces_write, pieces_nil] at inside
    simp at inside

theorem mono (weaker : ∀ index, ok index → admits index) (here : Sealed ok text) : Sealed admits text :=
  ⟨here.legible.mono weaker, here.bare⟩

theorem append (first : Sealed ok text) (second : Sealed ok rest) : Sealed ok (text ++ rest) where
  legible := first.legible.append second.legible
  bare c inside := by
    rw [first.legible.pieces_append] at inside
    exact (List.mem_append.mp inside).elim (first.bare c) (second.bare c)

theorem seamless : Seamless false (Sealed ok) where
  nil := of_unreserved Unreserved.joins.nil
  split := by
    intro before after whole place
    obtain ⟨left, right⟩ := Legible.seamless.split whole.legible place
    have bare := whole.bare
    rw [left.pieces_append] at bare
    exact ⟨⟨left, fun c inside => bare c (List.mem_append_left _ inside)⟩,
      ⟨right, fun c inside => bare c (List.mem_append_right _ inside)⟩⟩
  cased := by simp
  ascii ascii := of_unreserved (Unreserved.joins.ascii ascii)
  append := append

/-- Without placeholders nothing reserved is left. -/
theorem unreserved (here : Sealed ok text) (unmarked : ∀ c ∈ text, isMark c = false) :
    Unreserved text := by
  have plain : opening ∉ text := fun member => absurd (unmarked _ member) (by decide)
  intro c member
  refine here.bare c ?_
  rw [pieces_of_plain plain]
  exact List.mem_map_of_mem member

end Sealed

/-- What a language puts into a text is not reserved. -/
structure Language.Unreserved (language : Language) : Prop where
  helpers : ∀ builtin ∈ language.builtins, Pseudocode.Unreserved builtin.helper
  targets : ∀ spelling ∈ language.spellings, Pseudocode.Unreserved spelling.target
  zeros : ∀ type ∈ language.types, ∀ zero ∈ type.zero, Pseudocode.Unreserved zero

theorem standardLanguage_unreserved : standardLanguage.Unreserved where
  helpers := by
    have all : ∀ builtin ∈ standardLanguage.builtins,
        builtin.helper.all (fun c => !isReserved c) = true := by decide +kernel
    simpa [Unreserved] using all
  targets := by
    have all : ∀ spelling ∈ standardLanguage.spellings,
        spelling.target.all (fun c => !isReserved c) = true := by decide +kernel
    simpa [Unreserved] using all
  zeros := by
    have all : ∀ type ∈ standardLanguage.types, ∀ zero ∈ type.zero,
        zero.all (fun c => !isReserved c) = true := by decide +kernel
    simpa [Unreserved] using all

theorem Sealed.carries {language : Language} (unreserved : language.Unreserved) (ok : Nat → Prop) :
    language.Carries false (Sealed ok) where
  toSeamless := Sealed.seamless
  helpers builtin member := .of_unreserved (unreserved.helpers builtin member)
  targets spelling member := .of_unreserved (unreserved.targets spelling member)
  kinds := by
    intro name member _
    have names : ∀ name ∈ Context.structureNames, Unreserved name ∧ name.map caseKey = name := by
      have all : ∀ name ∈ Context.structureNames,
          name.all (fun c => !isReserved c) = true ∧ name.map caseKey = name := by decide
      simpa [Unreserved] using all
    obtain ⟨free, small⟩ := names _ member
    exact .of_unreserved (lower_avoids (fun _ => id) (avoids_of_caseKey (fun _ => id) free small.symm))

/-- Nothing reserved is held but in placeholders. -/
def Held.Sealed : Held → Prop
  | .literal text => Unreserved text
  | .table entries => ∀ entry ∈ entries,
      (∀ name ∈ entry.name, Unreserved name) ∧ Pseudocode.Sealed (fun _ => True) entry.value

def Store.Sealed (store : Store) : Prop :=
  ∀ (index : Nat) (part : Held), store.held[index]? = some part → part.Sealed

theorem Store.Sealed.hold (here : store.Sealed) {part : Held} (more : part.Sealed) :
    (store.hold part).1.Sealed := by
  intro index other found
  rw [Store.hold, Array.getElem?_push] at found
  split at found
  · obtain rfl := Option.some.inj found
    exact more
  · exact here index other found

/-- Texts whose reserved characters all stand in placeholders stay such. -/
def Sealed.keeping : Keeping where
  quoted := Unreserved
  named := Unreserved
  holds _ := Sealed fun _ => True
  seamless _ := Sealed.seamless
  mono _ := id
  name := .of_unreserved
  placeholder _ := .placeholder trivial
  legible here := here.legible
  plain := by
    intro _ c rest ne here
    have bare := here.bare
    rw [pieces_plain ne] at bare
    have first : isReserved c = false := bare c (.head _)
    exact ⟨.of_unreserved (by simpa [Unreserved] using first), here.legible.tail,
      fun d inside => bare d (.tail _ inside)⟩
  written := by
    intro _ index rest here
    have bare := here.bare
    rw [pieces_write] at bare
    exact ⟨.placeholder trivial, here.legible.suffix rfl, fun d inside => bare d (.tail _ inside)⟩

theorem Store.sealed_iff : store.Sealed ↔ Sealed.keeping.Stored store := by
  refine forall₂_congr fun index part => imp_congr_right fun _ => ?_
  cases part <;> rfl

namespace Records

variable {records : Records}

/-- The names of the fields are not reserved. -/
def Unreserved (records : Records) : Prop :=
  ∀ pair ∈ records, ∀ name ∈ pair.2.fieldNames, Pseudocode.Unreserved name

theorem collect_unreserved (language : Language) (source : Text) :
    (Records.collect language source).Unreserved := by
  intro pair member name named
  obtain ⟨-, line, -, ofLine⟩ := mem_collect member
  obtain ⟨field, among, rfl⟩ := List.mem_map.mp named
  exact .of_wordChars fun c inside => ((RecordType.ofLine?_mem ofLine).2 field among c inside).1

end Records

namespace Context

/-- What a context adds to the emitted code is not reserved. -/
structure Unreserved (context : Context) : Prop where
  language : context.language.Unreserved
  records : context.records.Unreserved
  indent : Pseudocode.Unreserved context.layout.indent
  commentMark : Pseudocode.Unreserved context.layout.commentMark
  signatures : ∀ pair ∈ context.signatures, pair.2.Each Pseudocode.Unreserved

variable {context : Context}

theorem valueWithin_sealed (regular : context.Regular false) (unreserved : context.Unreserved)
    (depth : Nat) (usage : Usage) (stored : desk.store.Sealed)
    (here : Sealed (fun _ => True) text) :
    Settles false (context.valueWithin depth usage text) desk fun out reached =>
      reached.store.Sealed ∧ Sealed (fun _ => True) out := by
  have carries (size : Nat) : context.language.Carries false (Sealed.keeping.holds size) :=
    Sealed.carries unreserved.language _
  exact (Keeping.valueWithin_keeps regular carries unreserved.records depth usage (Store.sealed_iff.mp stored)
    here).mono fun _ _ kept => ⟨Store.sealed_iff.mpr kept.stored, kept.here⟩

/-- What an expression comes to before its literals are put back: these are all that is held back. -/
theorem value_sealed (regular : context.Regular false) (unreserved : context.Unreserved) (usage : Usage)
    (stored : desk.store.Sealed)
    (here : Sealed (Readable false desk.store 0) text) :
    Settles false (context.value usage text) desk fun out reached =>
      (desk.store.Extends reached.store ∧ reached.store.Sealed) ∧
        Sealed (Readable false reached.store 0) out := by
  have legible := value_settles regular usage here.legible
  have closed : Settles false (context.value usage text) desk fun out reached =>
      reached.store.Sealed ∧ Sealed (fun _ => True) out :=
    .get_bind (valueWithin_sealed regular unreserved _ usage stored (here.mono fun _ _ => trivial))
  exact (Settles.and legible closed).mono fun out reached ⟨⟨grown, outLegible⟩, kept, outSealed⟩ =>
    ⟨⟨grown, kept⟩, outLegible, outSealed.bare⟩

end Context

theorem Store.Sealed.fill (stored : store.Sealed)
    (here : Pseudocode.Sealed (Readable false store 0) text) :
    Unreserved (Pseudocode.fill store.literals text) := by
  obtain ⟨legible, bare⟩ := here
  induction legible with
  | nil => exact Unreserved.joins.nil
  | @plain c rest ne _ _ ih =>
    rw [pieces_plain ne] at bare
    rw [fill_cons _ ne]
    exact List.forall_mem_cons.mpr ⟨bare c (.head _),
      ih fun d inside => bare d (.tail _ inside)⟩
  | placeholder readable _ ih =>
    rw [pieces_write] at bare
    obtain ⟨literal, held, -⟩ := readable.zero
    rw [fill_write, literals_getElem? held, Option.getD_some]
    exact Unreserved.joins.append (stored _ _ held)
      (ih fun d inside => bare d (.tail _ inside))

theorem Conversion.restore_sealed (stored : desk.store.Sealed)
    (here : Sealed (Readable false desk.store 0) text) :
    Settles false (Conversion.restore text) desk fun out reached => reached = desk ∧ Unreserved out := by
  have run : Gives (Conversion.restore text) desk (fill desk.store.literals text) desk := by
    rw [Gives, outcome_restore, Store.restore_literals here.legible]
  exact run.settles ⟨rfl, stored.fill here⟩

namespace Context

variable {context : Context}

theorem finish_sealed (stored : desk.store.Sealed) (here : Sealed (Readable false desk.store 0) text) :
    Settles false (finish text) desk fun out reached =>
      reached.store = desk.store ∧ Pseudocode.Unreserved out := by
  refine (Index.convertFrom_settles Sealed.seamless here [] desk).bind
    fun out reached ⟨same, outSealed⟩ => ?_
  rw [← same] at outSealed stored
  exact (Conversion.restore_sealed stored outSealed).mono fun _ _ ⟨kept, free⟩ => ⟨kept ▸ same, free⟩

theorem sealed_seamless (stored : store.Sealed) :
    Seamless false fun text => store.Sealed ∧ Sealed (Readable false store 0) text where
  nil := ⟨stored, Sealed.seamless.nil⟩
  split whole place :=
    have parts := Sealed.seamless.split whole.2 place
    ⟨⟨stored, parts.1⟩, stored, parts.2⟩
  cased := by simp
  ascii ascii := ⟨stored, Sealed.seamless.ascii ascii⟩
  append first second := ⟨stored, first.2.append second.2⟩

/-- Every part of a line whose reserved characters stand in placeholders is emitted without any. -/
theorem emits_unreserved (regular : context.Regular false) (unreserved : context.Unreserved) :
    context.Emits false (fun store reached => store.Extends reached ∧ (store.Sealed → reached.Sealed))
      (fun store text => store.Sealed ∧ Sealed (Readable false store 0) text) Pseudocode.Unreserved where
  refl store := ⟨.refl store, id⟩
  trans first second := ⟨first.1.trans second.1, fun start => second.2 (first.2 start)⟩
  mono grown here := ⟨grown.2 here.1, here.2.mono fun _ readable => readable.mono grown.1 le_rfl⟩
  parts here := (sealed_seamless here.1).fitting
  undirected here :=
    (sealed_seamless here.1).substitute (CountedLoop.downward_neat (sealed_seamless here.1)) here
  joins := Unreserved.joins.fitting.toJoinable
  names named := named.1.2.unreserved named.2
  expression usage _ _ here :=
    (value_sealed regular unreserved usage here.1 here.2).bind
      fun _ _ ⟨⟨grown, kept⟩, outSealed⟩ => (finish_sealed kept outSealed).mono
        fun _ _ ⟨same, free⟩ => ⟨same ▸ ⟨grown, fun _ => kept⟩, free⟩
  finish here := finish_sealed here.1 here.2
  restore here := Conversion.restore_sealed here.1 here.2
  closed here :=
    have rest := ((sealed_seamless here.1).uncons here (isMark_ascii (by decide))).2
    (Conversion.restore_sealed rest.1 rest.2).mono fun _ _ ⟨same, free⟩ =>
      ⟨same, Unreserved.joins.cons_ascii (by decide) free⟩
  zeros := by
    intro element zero found
    obtain ⟨type, named, zeroed⟩ := Option.bind_eq_some_iff.mp found
    exact unreserved.language.zeros type (List.mem_reverse.mp (List.mem_of_find?_eq_some named)) zero zeroed
  calls := by
    have ascii : ∀ text ∈ emittedCalls, text.all (·.toNat < 128) = true := by decide
    exact fun text member => Unreserved.joins.ascii (ascii text member)
  indent here := Unreserved.joins.append unreserved.indent here
  signatures := unreserved.signatures

end Context

end Pseudocode
