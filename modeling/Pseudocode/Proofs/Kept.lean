import Pseudocode.Proofs.Value

namespace Pseudocode

open Placeholder

/-- What conversion keeps of the texts that it works on: what is true of every literal and of every name of
a field, and what is true of a text while so many parts are held. -/
structure Keeping where
  quoted : Text → Prop
  named : Text → Prop
  holds : Nat → Text → Prop
  seamless : ∀ size, Seamless false (holds size)
  mono : ∀ {size larger : Nat} {text : Text}, size ≤ larger → holds size text → holds larger text
  name : ∀ {size : Nat} {text : Text}, named text → holds size text
  placeholder : ∀ size, holds (size + 1) (write size)
  legible : ∀ {size : Nat} {text : Text}, holds size text → Legible false (fun _ => True) text
  plain : ∀ {size : Nat} {c : Char} {rest : Text}, c ≠ opening → holds size (c :: rest) →
    holds size [c] ∧ holds size rest
  written : ∀ {size index : Nat} {rest : Text}, holds size (write index ++ rest) →
    holds size (write index) ∧ holds size rest

namespace Keeping

variable (keeping : Keeping)

/-- What is true of a part that is held under an index: its texts are older than itself. -/
def Part (index : Nat) : Held → Prop
  | .literal text => keeping.quoted text
  | .table entries => ∀ entry ∈ entries,
      (∀ name ∈ entry.name, keeping.named name) ∧ keeping.holds index entry.value

def Stored (store : Store) : Prop :=
  ∀ (index : Nat) (part : Held), store.held[index]? = some part → keeping.Part index part

/-- The store has grown, and it and a text are kept. -/
structure Kept (desk : Desk) (text : Text) (reached : Desk) : Prop where
  grown : desk.store.held.size ≤ reached.store.held.size
  stored : keeping.Stored reached.store
  here : keeping.holds reached.store.held.size text

variable {keeping} {records : Records} {context : Context} {text : Text} {desk middle reached : Desk}

theorem Kept.trans {out : Text} (first : keeping.Kept desk text middle) (second : keeping.Kept middle out reached) :
    keeping.Kept desk out reached :=
  ⟨first.grown.trans second.grown, second.stored, second.here⟩

theorem Stored.hold {store : Store} (stored : keeping.Stored store) {part : Held}
    (more : keeping.Part store.held.size part) : keeping.Stored (store.hold part).1 := by
  intro index other found
  rw [Store.hold, Array.getElem?_push] at found
  split at found
  · rename_i last
    obtain rfl := Option.some.inj found
    exact last ▸ more
  · exact stored index other found

theorem hold_keeps (stored : keeping.Stored desk.store) {part : Held}
    (more : keeping.Part desk.store.held.size part) :
    Settles false (Conversion.hold part) desk fun out reached => keeping.Kept desk out reached := by
  refine Gives.settles (show Gives _ desk _ _ from rfl) ⟨?_, stored.hold more, ?_⟩
  · simp
  · simpa [Store.hold] using keeping.placeholder desk.store.held.size

/-- The names of the fields of all record types. -/
def Fields (keeping : Keeping) (records : Records) : Prop :=
  ∀ pair ∈ records, ∀ name ∈ pair.2.fieldNames, keeping.named name

theorem convertConstructors_keeps (regular : records.Regular false) (fields : keeping.Fields records)
    (stored : keeping.Stored desk.store) (here : keeping.holds desk.store.held.size text) :
    Settles false (records.convertConstructors text) desk fun out reached => keeping.Kept desk out reached := by
  unfold Records.convertConstructors
  split
  · exact .pure ⟨le_rfl, stored, here⟩
  · refine (CallPass.settles (show CallPass _ _ _ _ desk
        (fun desk reached => desk.store.held.size ≤ reached.store.held.size ∧
          (keeping.Stored desk.store → keeping.Stored reached.store))
        (fun desk _ out => keeping.holds desk.store.held.size out) from
      ⟨keeping.seamless _, namedCallee_mark fun name member => ?_,
        fun text head found => (namedCallee_eq_some found).1,
        fun first second => ⟨first.1.trans second.1, fun start => second.2 (first.2 start)⟩,
        fun _ _ => ⟨le_rfl, id⟩, fun grown => keeping.mono grown.1, fun grown => keeping.mono grown.1,
        (keeping.seamless _).append, ?_⟩) here none).mono
      fun out reached ⟨grown, outHolds⟩ => ⟨grown.1, grown.2 stored, outHolds⟩
    · rw [longestFirst, List.mem_mergeSort] at member
      obtain ⟨pair, inside, rfl⟩ := List.mem_map.mp member
      obtain ⟨nonempty, clean⟩ := regular.names pair inside
      exact ⟨nonempty, fun w member => (clean w member).1⟩
    · intro here head inside arguments text started found whole written argumentsHold
      cases lookup : records.get? head.name with
      | none => exact .throw rfl
      | some meant =>
        refine (hold_keeps (started.2 stored) fun entry member => ?_).mono
          fun out reached kept => ⟨⟨kept.grown, fun _ => kept.stored⟩, kept.here⟩
        obtain ⟨value, names⟩ := Records.constructed_values lookup member
        refine ⟨Records.named_of_fields fields names, ?_⟩
        rcases value with absent | among
        · exact absent ▸ (keeping.seamless _).ascii (by decide)
        · exact (keeping.seamless _).splitArguments argumentsHold _ among

theorem convertLiteralsWithin_keeps (fields : keeping.Fields records) (rounds : Nat)
    (stored : keeping.Stored desk.store) (here : keeping.holds desk.store.held.size text) :
    Settles false (records.convertLiteralsWithin rounds text) desk fun out reached =>
      keeping.Kept desk out reached := by
  induction rounds generalizing text desk with
  | zero => exact .pure ⟨le_rfl, stored, here⟩
  | succ rounds ih =>
    rw [Records.convertLiteralsWithin]
    refine .get_bind ?_
    cases found : Records.firstLiteral? desk.store [] text with
    | none => exact .pure ⟨le_rfl, stored, here⟩
    | some parts =>
      have seamless := keeping.seamless desk.store.held.size
      obtain ⟨before, content, after⟩ := parts
      obtain ⟨inner, split, rfl⟩ := Records.firstLiteral?_eq_some found
      rw [List.reverse_nil, List.nil_append] at split
      obtain ⟨beforeHolds, rest⟩ := seamless.cut_at here split (isMark_ascii (by decide))
      obtain ⟨innerHolds, afterHolds⟩ := seamless.cut_at rest rfl (isMark_ascii (by decide))
      refine (hold_keeps stored fun entry member => ?_).bind fun placeholder reached kept => ?_
      · obtain ⟨value, names⟩ := Records.literalTable_values member
        exact ⟨Records.named_of_fields fields names, seamless.splitArguments (seamless.trim innerHolds) _ value⟩
      · have later := keeping.seamless reached.store.held.size
        exact (ih kept.stored (later.append (later.append (keeping.mono kept.grown beforeHolds) kept.here)
          (keeping.mono kept.grown afterHolds))).mono fun out final => kept.trans

theorem convert_keeps (regular : records.Regular false) (fields : keeping.Fields records)
    (stored : keeping.Stored desk.store) (here : keeping.holds desk.store.held.size text) :
    Settles false (records.convert text) desk fun out reached => keeping.Kept desk out reached :=
  (convertConstructors_keeps regular fields stored here).bind fun _ _ kept =>
    (convertLiteralsWithin_keeps fields _ kept.stored kept.here).mono fun _ _ => kept.trans

section Rendering

variable {render : List Entry → Conversion Text}

/-- Tables are rendered as texts that are kept. -/
def Renders (keeping : Keeping) (render : List Entry → Conversion Text) : Prop :=
  ∀ (desk : Desk) (entries : List Entry), keeping.Stored desk.store →
    keeping.Part desk.store.held.size (.table entries) →
      Settles false (render entries) desk fun out reached => keeping.Kept desk out reached

theorem expandOnce_keeps (renders : keeping.Renders render) (stored : keeping.Stored desk.store)
    (here : keeping.holds desk.store.held.size text) :
    Settles false (Conversion.expandOnce render text) desk fun out reached => keeping.Kept desk out reached := by
  have legible := keeping.legible here
  induction legible generalizing desk with
  | nil => exact .pure ⟨le_rfl, stored, here⟩
  | @plain c rest ne _ _ ih =>
    obtain ⟨single, restHolds⟩ := keeping.plain ne here
    rw [Conversion.expandOnce_cons ne]
    refine (ih stored restHolds).bind fun out reached kept => .pure ⟨kept.grown, kept.stored, ?_⟩
    exact (keeping.seamless _).append (keeping.mono kept.grown single) kept.here
  | @placeholder index rest _ _ ih =>
    obtain ⟨token, restHolds⟩ := keeping.written here
    have first : Settles false (Conversion.expandPiece render (.placeholder index (write index))) desk
        fun out reached => keeping.Kept desk out reached := by
      rw [Conversion.expandPiece]
      refine .get_bind ?_
      cases held : desk.store.held[index]? with
      | none => exact .throw rfl
      | some part =>
        obtain ⟨within, -⟩ := Array.getElem?_eq_some_iff.mp held
        cases part with
        | literal text => exact .pure ⟨le_rfl, stored, token⟩
        | table entries =>
          refine renders desk entries stored fun entry member => ?_
          obtain ⟨names, value⟩ := stored _ _ held entry member
          exact ⟨names, keeping.mono within.le value⟩
    rw [Conversion.expandOnce_write]
    refine first.bind fun piece reached kept => ?_
    refine (ih kept.stored (keeping.mono kept.grown restHolds)).bind fun out final later => .pure ?_
    exact ⟨kept.grown.trans later.grown, later.stored,
      (keeping.seamless _).append (keeping.mono later.grown kept.here) later.here⟩

theorem expand_keeps (renders : keeping.Renders render) (stored : keeping.Stored desk.store)
    (here : keeping.holds desk.store.held.size text) :
    Settles false (Conversion.expand render text) desk fun out reached => keeping.Kept desk out reached := by
  have within (rounds : Nat) : ∀ {text : Text} {desk : Desk}, keeping.Stored desk.store →
      keeping.holds desk.store.held.size text → Settles false (Conversion.expandWithin render rounds text) desk
        fun out reached => keeping.Kept desk out reached := by
    induction rounds with
    | zero => exact fun _ _ => .throw rfl
    | succ rounds ih =>
      intro text desk stored here
      rw [Conversion.expandWithin]
      refine (expandOnce_keeps renders stored here).bind fun out reached kept => ?_
      split
      · exact .pure ⟨kept.grown, kept.stored, keeping.mono kept.grown here⟩
      · exact (ih kept.stored kept.here).mono fun _ _ => kept.trans
  exact .get_bind (within _ stored here)

theorem renderTable_renders {value : Text → Conversion Text}
    (values : ∀ (desk : Desk) (text : Text), keeping.Stored desk.store → keeping.holds desk.store.held.size text →
      Settles false (value text) desk fun out reached => keeping.Kept desk out reached) :
    keeping.Renders (Context.renderTable value) := by
  intro desk entries stored table
  refine (Ends.mapM_growing (fun desk reached : Desk => desk.store.held.size ≤ reached.store.held.size ∧
      (keeping.Stored desk.store → keeping.Stored reached.store))
    (fun desk => keeping.holds desk.store.held.size) (fun _ => ⟨le_rfl, id⟩)
    (fun first second => ⟨first.1.trans second.1, fun start => second.2 (first.2 start)⟩)
    (fun grown => keeping.mono grown.1) ?_ ⟨le_rfl, id⟩).bind fun outs reached ⟨grown, outsHold⟩ =>
      .pure ⟨grown.1, grown.2 stored, (keeping.seamless _).fitting.braced
        ((keeping.seamless _).fitting.commaSeparated outsHold)⟩
  intro entry member here grown
  obtain ⟨names, value⟩ := table entry member
  refine (values here entry.value (grown.2 stored) (keeping.mono grown.1 value)).bind
    fun rendered reached kept => .pure ⟨⟨kept.grown, fun _ => kept.stored⟩, ?_⟩
  cases named : entry.name with
  | none => exact kept.here
  | some name =>
    have seamless := keeping.seamless reached.store.held.size
    exact seamless.append (seamless.append (keeping.name (names name (by simp [named])))
      (seamless.ascii (by decide)))
      kept.here

end Rendering

/-- The language adds nothing to a text that would not be kept. -/
theorem convertValue_keeps (regular : context.Regular false)
    (carries : ∀ size, context.language.Carries false (keeping.holds size))
    (fields : keeping.Fields context.records) (usage : Usage) (stored : keeping.Stored desk.store)
    (here : keeping.holds desk.store.held.size text) :
    Settles false (context.convertValue usage text) desk fun out reached => keeping.Kept desk out reached :=
  (convert_keeps regular.records fields stored here).bind fun _ reached kept =>
    (Context.converted_settles regular.language (carries _) usage kept.here reached).mono
      fun _ _ ⟨same, outHolds⟩ => ⟨same ▸ kept.grown, same ▸ kept.stored, same ▸ outHolds⟩

theorem valueWithin_keeps (regular : context.Regular false)
    (carries : ∀ size, context.language.Carries false (keeping.holds size))
    (fields : keeping.Fields context.records) (depth : Nat) (usage : Usage) (stored : keeping.Stored desk.store)
    (here : keeping.holds desk.store.held.size text) :
    Settles false (context.valueWithin depth usage text) desk fun out reached => keeping.Kept desk out reached := by
  induction depth generalizing usage text desk with
  | zero => exact .throw rfl
  | succ depth ih =>
    refine (convertValue_keeps regular carries fields usage stored here).bind fun out reached kept => ?_
    exact (expand_keeps (renderTable_renders fun desk text => ih {}) kept.stored kept.here).mono
      fun _ _ => kept.trans

end Keeping

end Pseudocode
