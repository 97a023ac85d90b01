import Pseudocode.Proofs.AnglePass
import Pseudocode.Proofs.Kept
import Pseudocode.Proofs.RestoreMask

namespace Pseudocode

open List Placeholder

/-- Where so many parts are held, the placeholders of a text stand for them. -/
def grounding : Keeping where
  quoted text := opening ∉ text
  named := IsClean false
  holds size := Legible false (· < size)
  seamless _ := Legible.seamless
  mono larger := Legible.mono fun _ less => less.trans_le larger
  name := Legible.of_clean
  placeholder size := .single (Nat.lt_succ_self size)
  legible := Legible.mono fun _ _ => trivial
  plain ne here := ⟨.of_plain (by simpa using ne), here.tail⟩
  written here := by
    have known := here.of_mem_indices
    rw [indices_write] at known
    exact ⟨.single (known _ (.head _)), here.suffix rfl⟩

/-- The placeholders in the values of a table stand for parts that are held before it. -/
def Store.Grounded (store : Store) : Prop :=
  grounding.Stored store

/-- What a part adds to the depth that tables can be nested to. -/
def Held.weight : Held → Nat
  | .literal _ => 1
  | .table entries => (entries.map (·.value.length)).sum + 1

/-- The weight of the first parts of a store. -/
def Store.weight (store : Store) (count : Nat) : Nat :=
  ((store.held.toList.take count).map Held.weight).sum

namespace Store

variable {store : Store}

theorem weight_mono (store : Store) {count more : Nat} (le : count ≤ more) :
    store.weight count ≤ store.weight more :=
  (((take_prefix_take_left le).map Held.weight).sublist).sum_le_sum (by simp)

theorem weight_succ {index : Nat} {part : Held} (held : store.held[index]? = some part) :
    store.weight (index + 1) = store.weight index + part.weight := by
  rw [weight, weight, take_add_one, Array.getElem?_toList, held]
  simp

/-- The depth that an expression may be nested to is the weight of all that it has to do with. -/
theorem depthLimit_eq (store : Store) (text : Text) :
    Context.depthLimit store text = text.length + store.weight store.held.size + 1 := by
  unfold Context.depthLimit weight
  rw [take_of_length_le (by simp), ← Array.length_toList]
  generalize store.held.toList = parts
  induction parts with
  | nil => rfl
  | cons part parts ih => cases part <;> simp [Held.weight, sum_eq_foldr] at ih ⊢ <;> omega

/-- Every table is above what it holds: the weight of the parts up to it bounds how deep it goes. -/
theorem Grounded.readable (grounded : store.Grounded) {index : Nat} (within : index < store.held.size) :
    Readable false store (store.weight (index + 1)) index := by
  induction index using Nat.strong_induction_on with
  | _ index ih =>
    cases held : store.held[index]? with
    | none => simp [within] at held
    | some part =>
      have kept := grounded index part held
      cases part with
      | literal text => exact .literal held kept
      | table entries =>
        have weight := weight_succ held
        refine .table (fun _ => store.weight index) (fun _ => (· < index)) held ?_
          (fun entry member => (kept entry member).1)
          (fun entry member => ?_) (fun entry member => (kept entry member).2) fun entry member other less => ?_
        · rw [weight]
          exact Nat.succ_pos _
        · have few := brackets_le_length entry.value
          have among := le_sum_of_mem (mem_map_of_mem (f := (·.value.length)) member)
          rw [weight, Held.weight]
          omega
        · exact (ih other less (less.trans within)).mono (.refl _) (store.weight_mono less)

end Store

/-- Wherever the work starts, no fault stops it but an `allowed` one. -/
def FaultsOnly {α : Type} (allowed : Fault → Prop) (work : Conversion α) : Prop :=
  ∀ desk, Ends allowed work desk fun _ _ => True

theorem FaultsOnly.modular {allowed : Fault → Prop} : Modular allowed (FaultsOnly allowed) where
  pure _ _ := .pure trivial
  bind first second desk := (first desk).bind fun value reached _ => second value reached
  throw excused _ := .throw excused
  notify _ _ := trivial
  hold _ _ := trivial

namespace Context

variable (context : Context)

/-- All that can go wrong before tables are rendered is that something called is not found. -/
theorem convertValue_faults (usage : Usage) (text : Text) :
    FaultsOnly Fault.IsLookup (context.convertValue usage text) := by
  refine FaultsOnly.modular.convertValue (fun _ => id) (fun text desk => ?_) usage text
  obtain ⟨out, final, given, -⟩ := context.records.convertLiterals_rounds text desk
  exact given.ends trivial

theorem Regular.converts {context : Context} (regular : context.Regular false) :
    context.Converts false Fault.IsLookup := by
  intro usage level text desk legible
  have both := Ends.and (convertValue_settles regular usage legible) (context.convertValue_faults usage text desk)
  exact Ends.excuse (Ends.mono both fun _ _ known => known.1) fun _ excused => excused.2

/-- What masking, converting and rendering lead to on one desk, step by step, and the texts that were at
hand on the way. New texts have no placeholders of their own. -/
inductive Run : Desk → List Text → Prop
  | start {notices : Array Notice} : Run { notices } []
  | text {desk : Desk} {texts : List Text} {text : Text} :
      Run desk texts → opening ∉ text → Run desk (text :: texts)
  | mask {desk reached : Desk} {texts : List Text} {text out : Text} :
      Run desk texts → opening ∉ text → Gives (Conversion.mask text) desk out reached → Run reached (out :: texts)
  | part {desk : Desk} {texts : List Text} {before part after : Text} :
      Run desk texts → before ++ part ++ after ∈ texts →
      (∀ c ∈ before.getLast?, isMark c = false) → (∀ c ∈ after.head?, isMark c = false) → Run desk (part :: texts)
  | field {desk : Desk} {texts : List Text} {index : Nat} {entries : List Entry} {entry : Entry} :
      Run desk texts → desk.store.held[index]? = some (.table entries) → entry ∈ entries →
      Run desk (entry.value :: texts)
  | constructors {desk reached : Desk} {texts : List Text} {text out : Text} :
      Run desk texts → text ∈ texts → Gives (context.records.convertConstructors text) desk out reached →
      Run reached (out :: texts)
  | round {desk reached : Desk} {texts : List Text} {text out : Text} :
      Run desk texts → text ∈ texts → context.records.Round (desk, text) (reached, out) → Run reached (out :: texts)
  | rewrite {desk reached : Desk} {texts : List Text} {usage : Usage} {text out : Text} :
      Run desk texts → text ∈ texts → Gives (context.convertValue usage text) desk out reached →
      Run reached (out :: texts)
  | render {desk reached : Desk} {texts : List Text} {usage : Usage} {text out : Text} :
      Run desk texts → text ∈ texts → Gives (context.value usage text) desk out reached → Run reached (out :: texts)

end Context

section Scanned

variable {start : Nat} {text masked : Text} {literals : List Text}

theorem Scans.legible (scans : Scans start text literals masked) (plain : opening ∉ text) :
    Legible false (· < start + literals.length) masked := by
  induction scans with
  | nil => exact .nil
  | literal _ _ ih =>
    have later := ih fun member => plain (mem_append_right _ member)
    refine .placeholder (by simp) (later.mono fun index less => ?_)
    rw [length_cons]
    omega
  | code _ _ ih =>
    exact .plain (Ne.symm (ne_of_not_mem_cons plain)) (by simp) (ih (not_mem_of_not_mem_cons plain))

theorem mask_grounded {desk : Desk} (stored : desk.store.Grounded) (plain : opening ∉ text) :
    Settles false (Conversion.mask text) desk fun out reached => grounding.Kept desk out reached := by
  obtain ⟨literals, masked, scans⟩ := exists_scans desk.store.held.size text
  have run : Gives (Conversion.mask text) desk masked { desk with store := desk.store.withLiterals literals } := by
    show (_, _) = (_, _)
    rw [scans.maskFrom rfl]
  refine run.settles ⟨by simp, fun index part held => ?_, by simpa [grounding] using scans.legible plain⟩
  simp only [Store.withLiterals, Array.getElem?_append] at held
  split at held
  · exact stored index part held
  · obtain ⟨literal, listed, rfl⟩ : ∃ literal, literals[index - desk.store.held.size]? = some literal ∧
        Held.literal literal = part := by
      simpa using held
    exact fun marked => plain ((scans.isInfix literal (mem_of_getElem? listed)).2.subset marked)

end Scanned

namespace Context

variable {context : Context} {desk : Desk} {texts : List Text}

theorem Regular.fields (regular : context.Regular false) : grounding.Fields context.records := by
  intro pair member name named
  obtain ⟨field, among, rfl⟩ := mem_map.mp named
  exact regular.records.fields pair member field among

theorem Regular.carries (regular : context.Regular false) (size : Nat) :
    context.language.Carries false (grounding.holds size) :=
  Legible.carries regular.language _

/-- One step of a run, whatever it does, adds a text and keeps all that is there. -/
theorem keeps_all {reached : Desk} {out : Text}
    (grounded : ∀ text ∈ texts, grounding.holds desk.store.held.size text)
    (kept : grounding.Kept desk out reached) :
    reached.store.Grounded ∧ ∀ text ∈ out :: texts, grounding.holds reached.store.held.size text :=
  ⟨kept.stored, forall_mem_cons.mpr
    ⟨kept.here, fun text member => grounding.mono kept.grown (grounded text member)⟩⟩

/-- In every run tables hold older parts only, and the texts at hand have placeholders of what is held. -/
theorem Run.grounded (regular : context.Regular false) (run : context.Run desk texts) :
    desk.store.Grounded ∧ ∀ text ∈ texts, grounding.holds desk.store.held.size text := by
  induction run with
  | start => exact ⟨fun index part held => by simp at held, by simp⟩
  | text _ plain ih =>
    refine ⟨ih.1, forall_mem_cons.mpr ⟨?_, ih.2⟩⟩
    exact Legible.of_plain fun c member => ⟨fun same => plain (same ▸ member), by simp⟩
  | mask _ plain given ih => exact keeps_all ih.2 ((mask_grounded ih.1 plain).of_gives given)
  | part _ member left right ih =>
    have whole := ih.2 _ member
    have seamless := grounding.seamless
    refine ⟨ih.1, forall_mem_cons.mpr ⟨?_, ih.2⟩⟩
    exact ((seamless _).split ((seamless _).split whole (.inr right)).1 (.inl left)).2
  | @field desk texts index entries entry _ held member ih =>
    obtain ⟨within, -⟩ := Array.getElem?_eq_some_iff.mp held
    exact ⟨ih.1, forall_mem_cons.mpr ⟨grounding.mono within.le (ih.1 _ _ held entry member).2, ih.2⟩⟩
  | constructors _ member given ih =>
    exact keeps_all ih.2 ((Keeping.convertConstructors_keeps regular.records regular.fields ih.1
      (ih.2 _ member)).of_gives given)
  | @round desk reached texts text out _ member round ih =>
    have given : Gives (context.records.convertLiteralsWithin 1 text) desk out reached := by
      cases round with
      | replace found => rw [Gives, Records.outcome_convertLiteralsWithin, found]; rfl
    exact keeps_all ih.2 ((Keeping.convertLiteralsWithin_keeps regular.fields 1 ih.1
      (ih.2 _ member)).of_gives given)
  | rewrite _ member given ih =>
    exact keeps_all ih.2 ((Keeping.convertValue_keeps regular regular.carries regular.fields _ ih.1
      (ih.2 _ member)).of_gives given)
  | @render desk reached texts usage text out _ member given ih =>
    have settled : Settles false (context.value usage text) desk fun out reached =>
        grounding.Kept desk out reached :=
      .get_bind (Keeping.valueWithin_keeps regular regular.carries regular.fields _ usage ih.1 (ih.2 _ member))
    exact keeps_all ih.2 (settled.of_gives given)

/-- Rendering comes to an end at the depth it is given, with nothing but literals left to put back, or a
name that is called is not found. -/
theorem value_ends (regular : context.Regular false) (grounded : desk.store.Grounded) (usage : Usage) {text : Text}
    (here : grounding.holds desk.store.held.size text) :
    Ends Fault.IsLookup (context.value usage text) desk fun out reached =>
      desk.store.Extends reached.store ∧ Legible false (Readable false reached.store 0) out ∧
        ∃ converted middle, Gives (context.convertValue usage text) desk converted middle ∧
          (middle.store.quotedIndices converted).Sublist (indices out) := by
  have legible : Legible false (Readable false desk.store (desk.store.weight desk.store.held.size)) text :=
    here.mono fun index less => (grounded.readable less).mono (.refl _) (desk.store.weight_mono less)
  have few := brackets_le_length text
  refine .get_bind ?_
  rw [Store.depthLimit_eq]
  refine (Ends.with_gives (regular.converts usage legible)).bind
    fun converted middle ⟨given, grown, above, paid, convertedLegible⟩ => ?_
  have renders : Conversion.Renders false Fault.IsLookup
      (renderTable (context.valueWithin (text.length + desk.store.weight desk.store.held.size) {})) above :=
    renderTable_renders fun desk text inner lower legible => valueWithin_ends regular.converts {} legible (by omega)
  exact (Conversion.expand_ends renders convertedLegible).mono fun out final ⟨later, outLegible, kept⟩ =>
    ⟨grown.trans later, outLegible, converted, middle, given, kept⟩

/-- What is held is well founded. In every run, placeholders stand for what is held, and those in the values
of a table for what was held before the table. So the pass over angle brackets ends, each of its rounds taking
a pair of them away, and so does rendering, unless a name that is called is not found: it leaves no
placeholder of a table and keeps those of the literals, which stand for what they stood for. -/
theorem run_wellFounded {declarations : Text} (standard : context.language = standardLanguage)
    (collected : context.records = Records.collect standardLanguage declarations) (run : context.Run desk texts) :
    (∀ text ∈ texts, ∀ index ∈ indices text, index < desk.store.held.size) ∧
    (∀ index entries, desk.store.held[index]? = some (.table entries) →
      ∀ entry ∈ entries, ∀ inner ∈ indices entry.value, inner < index) ∧
    ∀ text ∈ texts,
      (∃ out final, Gives (context.records.convertLiterals text) desk out final ∧
        Relation.ReflTransGen context.records.Round (desk, text) (final, out) ∧
        Records.firstLiteral? final.store [] out = none) ∧
      (∀ reached next, context.records.Round (desk, text) (reached, next) →
        next.count '<' + 1 = text.count '<' ∧ next.count '>' + 1 = text.count '>') ∧
      ∀ usage,
        (∃ converted middle out reached, Gives (context.convertValue usage text) desk converted middle ∧
          Gives (context.value usage text) desk out reached ∧
          (∀ index ∈ indices out, ∃ literal, desk.store.held[index]? = some (.literal literal) ∧
            reached.store.held[index]? = some (.literal literal)) ∧
          (middle.store.quotedIndices converted).Sublist (indices out)) ∨
        ∃ fault reached, outcome (context.value usage text) desk = (.error fault, reached) ∧ fault.IsLookup := by
  have regular : context.Regular false :=
    ⟨standard ▸ standardLanguage_regular, collected ▸ Records.collect_regular (by simp) _⟩
  obtain ⟨grounded, known⟩ := run.grounded regular
  refine ⟨fun text member => (known text member).of_mem_indices,
    fun index entries held entry member => (grounded index _ held entry member).2.of_mem_indices,
    fun text member => ⟨context.records.convertLiterals_rounds text desk, fun _ _ round => round.count,
      fun usage => ?_⟩⟩
  rcases (value_ends regular grounded usage (known text member)).gives_or_fault with
    ⟨out, reached, given, grown, legible, converted, middle, rewritten, kept⟩ | faulted
  · refine .inl ⟨converted, middle, out, reached, rewritten, given, fun index among => ?_, kept⟩
    obtain ⟨literal, held, -⟩ := (legible.of_mem_indices index among).zero
    have old := (context.value_blind usage text).old_literal given held
    have same := grown index _ (Array.getElem?_eq_getElem old)
    exact ⟨literal, by rw [Array.getElem?_eq_getElem old, ← same, held], held⟩
  · exact .inr faulted

/-- A record inside a record, with its two literals masked. -/
def nestedText : Text :=
  '<' :: write 0 ++ ", <1, ".toList ++ write 1 ++ ">>".toList

def nestedDesk : Desk where
  store := { held := #[.literal "\"a\"".toList, .literal "\"b\"".toList] }

/-- Both records are held, the inner one first. -/
theorem run_wellFounded_nested :
    ∃ desk texts, Run {} desk texts ∧ desk.store.held.size = 4 ∧
      (∀ text ∈ texts, ∀ index ∈ indices text, index < 4) ∧
      ∀ index entries, desk.store.held[index]? = some (.table entries) →
        ∀ entry ∈ entries, ∀ inner ∈ indices entry.value, inner < index := by
  have masked : Gives (Conversion.mask "<\"a\", <1, \"b\">>".toList) {} nestedText nestedDesk :=
    Prod.ext (by decide +kernel) (by decide +kernel)
  have inner : Records.firstLiteral? nestedDesk.store [] nestedText =
      some ('<' :: write 0 ++ ", ".toList, "1, ".toList ++ write 1, ['>']) := by
    decide +kernel
  have first : Records.Round [] _ _ := .replace inner
  have outer : Records.firstLiteral?
      (nestedDesk.holding (.table (Records.literalTable [] ("1, ".toList ++ write 1)))).store []
      ('<' :: write 0 ++ ", ".toList ++ write 2 ++ ['>']) = some ([], write 0 ++ ", ".toList ++ write 2, []) := by
    decide +kernel
  have second : Records.Round [] _ _ := .replace outer
  have run : Run {} _ _ :=
    .round (.round (.mask .start (by decide) masked) (.head _) first) (.head _) second
  have none : Records.collect standardLanguage [] = [] := by decide +kernel
  obtain ⟨known, older, -⟩ := run_wellFounded rfl none.symm run
  exact ⟨_, _, run, rfl, known, older⟩

end Context

end Pseudocode
