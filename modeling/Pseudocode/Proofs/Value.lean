import Pseudocode.Proofs.Readable

namespace Pseudocode

open Placeholder

variable {strict : Bool} {allowed : Fault → Prop}
variable {c : Char} {index level : Nat} {entries : List Entry} {desk : Desk} {text : Text}

namespace Store

/-- The placeholders in a text that stand for literals. -/
def quotedIndices (store : Store) (text : Text) : List Nat :=
  (indices text).filter fun index => store.held[index]? matches some (.literal _)

theorem quotedIndices_plain (store : Store) (plain : c ≠ opening) (rest : Text) :
    store.quotedIndices (c :: rest) = store.quotedIndices rest := by
  simp [quotedIndices, indices_plain plain]

theorem quotedIndices_write (store : Store) (index : Nat) (rest : Text) :
    store.quotedIndices (write index ++ rest) = store.quotedIndices (write index) ++ store.quotedIndices rest := by
  rw [quotedIndices, quotedIndices, quotedIndices, indices_write, indices_placeholder, ← List.filter_append]
  rfl

theorem quotedIndices_table (store : Store)
    (held : store.held[index]? = some (.table entries)) : store.quotedIndices (write index) = [] := by
  simp [quotedIndices, indices_placeholder, held]

end Store

namespace Conversion

variable {render : List Entry → Conversion Text}

theorem expandOnce_cons (plain : c ≠ opening) (rest : Text) :
    expandOnce render (c :: rest) = do return c :: (← expandOnce render rest) := by
  simp [expandOnce, pieces_plain plain, expandPiece]

theorem expandOnce_write (index : Nat) (rest : Text) :
    expandOnce render (write index ++ rest) = do
      let first ← expandPiece render (.placeholder index (write index))
      return first ++ (← expandOnce render rest) := by
  simp [expandOnce, pieces_write]

theorem expandPiece_literal {written : Text} (held : desk.store.held[index]? = some (.literal text)) :
    Gives (expandPiece render (.placeholder index written)) desk written desk := by
  show outcome (expandPiece render (.placeholder index written)) desk = _
  rw [expandPiece, outcome_bind, outcome_get]
  simp only [held, outcome_pure]

theorem expandPiece_table {written : Text} (held : desk.store.held[index]? = some (.table entries)) :
    outcome (expandPiece render (.placeholder index written)) desk =
      outcome (render entries) desk := by
  rw [expandPiece, outcome_bind, outcome_get]
  simp only [held]

/-- A text without tables stays as it is. -/
theorem expandOnce_literals (legible : Legible strict (Readable strict desk.store 0) text) :
    Gives (expandOnce render text) desk text desk := by
  induction legible with
  | nil => exact .pure [] desk
  | plain ne _ _ ih =>
    rw [expandOnce_cons ne]
    exact ih.bind (.pure _ desk)
  | placeholder readable _ ih =>
    obtain ⟨literal, held, -⟩ := readable.zero
    rw [expandOnce_write]
    exact (expandPiece_literal held).bind (ih.bind (.pure _ desk))

/-- A table at the given level can be rendered wherever its values are readable, unless one of the
`allowed` faults stops the work. -/
def Renders (strict : Bool) (allowed : Fault → Prop) (render : List Entry → Conversion Text) (level : Nat) : Prop :=
  ∀ (desk : Desk) (entries : List Entry) (inner : Entry → Nat),
    (∀ entry ∈ entries, ∀ name ∈ entry.name, IsClean strict name) →
    (∀ entry ∈ entries, inner entry + brackets entry.value < level) →
    (∀ entry ∈ entries, Legible strict (Readable strict desk.store (inner entry)) entry.value) →
    Ends allowed (render entries) desk fun out reached =>
      desk.store.Extends reached.store ∧ Legible strict (Readable strict reached.store 0) out

theorem expandOnce_ends (renders : Renders strict allowed render level)
    (legible : Legible strict (Readable strict desk.store level) text) :
    Ends allowed (expandOnce render text) desk fun out reached =>
      desk.store.Extends reached.store ∧ Legible strict (Readable strict reached.store 0) out ∧
        (desk.store.quotedIndices text).Sublist (indices out) := by
  suffices all : ∀ here : Desk, desk.store.Extends here.store →
      Ends allowed (expandOnce render text) here fun out reached =>
        here.store.Extends reached.store ∧ Legible strict (Readable strict reached.store 0) out ∧
          (desk.store.quotedIndices text).Sublist (indices out) from
    all desk (.refl _)
  induction legible with
  | nil => exact fun here _ => .pure ⟨.refl _, .nil, .slnil⟩
  | plain ne plainCase _ ih =>
    intro here grown
    rw [expandOnce_cons ne, desk.store.quotedIndices_plain ne]
    refine (ih here grown).bind fun out reached ⟨later, legible, kept⟩ =>
      .pure ⟨later, .plain ne plainCase legible, ?_⟩
    rwa [indices_plain ne]
  | @placeholder index rest readable _ ih =>
    intro here grown
    have first : Ends allowed (expandPiece render (.placeholder index (write index))) here
        fun out reached => here.store.Extends reached.store ∧
          Legible strict (Readable strict reached.store 0) out ∧
            (desk.store.quotedIndices (write index)).Sublist (indices out) := by
      cases readable with
      | literal held plain =>
        exact (expandPiece_literal (grown _ _ held)).ends
          ⟨.refl _, .single (.literal (grown _ _ held) plain), List.filter_sublist⟩
      | table inner ok held _ names lower legible readable =>
        have none : desk.store.quotedIndices (write index) = [] := desk.store.quotedIndices_table held
        refine Ends.congr (expandPiece_table (grown _ _ held)) ?_
        refine (renders here _ inner names lower fun entry member => (legible entry member).mono
          fun other admitted => (readable entry member other admitted).mono grown le_rfl).mono
          fun out reached ⟨later, outLegible⟩ => ⟨later, outLegible, ?_⟩
        rw [none]
        exact List.nil_sublist _
    rw [expandOnce_write]
    refine first.bind fun piece reached ⟨later, pieceLegible, pieceKept⟩ => ?_
    refine (ih reached (grown.trans later)).bind fun out final ⟨last, outLegible, kept⟩ => ?_
    refine .pure ⟨later.trans last, (pieceLegible.readable_mono last le_rfl).append outLegible, ?_⟩
    rw [desk.store.quotedIndices_write, pieceLegible.indices_append]
    exact pieceKept.append kept

/-- One round renders all tables, and a second one finds nothing left to do. -/
theorem expand_ends (renders : Renders strict allowed render level)
    (legible : Legible strict (Readable strict desk.store level) text) :
    Ends allowed (expand render text) desk fun out reached =>
      desk.store.Extends reached.store ∧ Legible strict (Readable strict reached.store 0) out ∧
        (desk.store.quotedIndices text).Sublist (indices out) := by
  refine .get_bind ?_
  have twice : desk.store.roundLimit text = desk.store.held.size + text.length + 1 + 1 := rfl
  rw [twice, expandWithin]
  refine (expandOnce_ends renders legible).bind fun out reached ⟨grown, outLegible, kept⟩ => ?_
  split
  · rename_i same
    exact .pure ⟨grown, same ▸ outLegible, same ▸ kept⟩
  · have again : Gives (expandWithin render (desk.store.held.size + text.length + 1) out) reached
        out reached := by
      rw [expandWithin]
      refine (expandOnce_literals outLegible).bind ?_
      rw [if_pos rfl]
      exact .pure out reached
    exact again.ends ⟨grown, outLegible, kept⟩

end Conversion

/-- A template with literals in place of its placeholders. -/
def fill (literals : List Text) (template : Text) : Text :=
  (pieces template).flatMap fun
    | .plain c => [c]
    | .placeholder index written => literals[index]?.getD written

section Fill

variable (literals : List Text)

@[simp] theorem fill_nil : fill literals [] = [] :=
  rfl

theorem fill_cons (plain : c ≠ opening) (rest : Text) :
    fill literals (c :: rest) = c :: fill literals rest := by
  simp [fill, pieces_plain plain]

theorem fill_write (index : Nat) (rest : Text) :
    fill literals (write index ++ rest) =
      literals[index]?.getD (write index) ++ fill literals rest := by
  simp [fill, pieces_write]

variable {literals}

theorem fill_congr {ok : Nat → Prop} {others : List Text} {template : Text}
    (legible : Legible strict ok template) (same : ∀ index, ok index → literals[index]? = others[index]?) :
    fill literals template = fill others template := by
  induction legible with
  | nil => rfl
  | plain ne _ _ ih => rw [fill_cons _ ne, fill_cons _ ne, ih]
  | placeholder held _ ih => rw [fill_write, fill_write, ih, same _ held]

end Fill

namespace Store

variable {store : Store}

/-- The literals of a store by index. -/
def literals (store : Store) : List Text :=
  store.held.toList.map fun
    | .literal text => text
    | .table _ => []

theorem literals_getElem?
    (held : store.held[index]? = some (.literal text)) : store.literals[index]? = some text := by
  simp [literals, held]

theorem restoreOnce_literals (legible : Legible strict (Readable strict store 0) text) :
    store.restoreOnce text = .ok (fill store.literals text) ∧ opening ∉ fill store.literals text := by
  induction legible with
  | nil => exact ⟨rfl, by simp⟩
  | @plain c rest ne _ _ ih =>
    obtain ⟨restored, plain⟩ := ih
    rw [fill_cons _ ne]
    refine ⟨?_, by simp [plain, Ne.symm ne]⟩
    rw [store.restoreOnce_cons ne, restored]
    rfl
  | placeholder readable _ ih =>
    obtain ⟨restored, plain⟩ := ih
    obtain ⟨literal, held, literalPlain⟩ := readable.zero
    rw [fill_write, literals_getElem? held, Option.getD_some]
    refine ⟨?_, by simp [plain, literalPlain]⟩
    rw [restoreOnce_literal held, restored]
    rfl

/-- Literals are put back in one round, and a second one finds none left. -/
theorem restore_literals (legible : Legible strict (Readable strict store 0) text) :
    store.restore text = .ok (fill store.literals text) := by
  obtain ⟨restored, plain⟩ := restoreOnce_literals legible
  exact restore_of_once restored (store.restoreOnce_plain plain)

end Store

theorem Conversion.restore_settles (legible : Legible strict (Readable strict desk.store 0) text) :
    Settles strict (Conversion.restore text) desk fun _ reached => reached = desk := by
  have run : Gives (Conversion.restore text) desk (fill desk.store.literals text) desk := by
    rw [Gives, outcome_restore, Store.restore_literals legible]
  exact run.settles rfl

namespace Context

/-- What conversion needs of a context. -/
structure Regular (strict : Bool) (context : Context) : Prop where
  language : context.language.Regular
  records : context.records.Regular strict

variable {context : Context}

/-- The passes after the one over records leave the store alone and keep what the language carries. -/
theorem converted_settles {holds : Text → Prop} (regular : context.language.Regular)
    (carries : context.language.Carries strict holds) (usage : Usage)
    (here : holds text) (desk : Desk) :
    Settles strict (do
      let text := ListLiteral.convert usage.afterKeyword text
      let text ← context.convertStructures text
      let text ← context.convertInline text
      let text ← context.convertBuiltins text
      let text := context.language.respell text
      let text := substitute (equality usage.comparison) text
      return substitute inputCall text) desk fun out reached =>
        reached.store = desk.store ∧ holds out := by
  have seamless := carries.toSeamless
  have listed : holds (ListLiteral.convert usage.afterKeyword text) :=
    ListLiteral.convertFrom_seamless seamless here
  refine (convertStructures_settles carries listed desk).bind
    fun structured second ⟨sameSecond, structuredHolds⟩ => ?_
  refine (convertInline_settles regular carries structuredHolds second).bind
    fun inlined third ⟨sameThird, inlinedHolds⟩ => ?_
  refine (convertBuiltins_settles carries inlinedHolds third).bind
    fun called fourth ⟨sameFourth, calledHolds⟩ => ?_
  refine .pure ⟨sameFourth.trans (sameThird.trans sameSecond), ?_⟩
  exact seamless.substitute (inputCall_neat seamless)
    (seamless.substitute (equality_neat seamless _) (carries.respell regular calledHolds))

theorem convertValue_settles (regular : context.Regular strict) (usage : Usage)
    (legible : Legible strict (Readable strict desk.store level) text) :
    Settles strict (context.convertValue usage text) desk fun out reached =>
      desk.store.Extends reached.store ∧ ∃ above, above ≤ level + brackets text ∧
        Legible strict (Readable strict reached.store above) out := by
  refine (Records.convert_settles regular.records legible).bind
    fun tabled reached ⟨grown, above, _, paid, tabledLegible⟩ => ?_
  have carries : context.language.Carries strict (Legible strict (Readable strict reached.store above)) :=
    Legible.carries regular.language _
  exact (converted_settles regular.language carries usage tabledLegible reached).mono
    fun out final ⟨same, outLegible⟩ => ⟨same ▸ grown, above, by omega, same ▸ outLegible⟩

theorem renderTable_renders {value : Text → Conversion Text}
    (values : ∀ (desk : Desk) (text : Text) (inner : Nat), inner + brackets text < level →
      Legible strict (Readable strict desk.store inner) text →
      Ends allowed (value text) desk fun out reached =>
        desk.store.Extends reached.store ∧ Legible strict (Readable strict reached.store 0) out) :
    Conversion.Renders strict allowed (renderTable value) level := by
  intro desk entries inner names lower legible
  refine (Ends.mapM_growing (fun desk reached : Desk => desk.store.Extends reached.store)
    (fun desk => Legible strict (Readable strict desk.store 0)) (fun _ => .refl _) .trans
    (fun grown legible => legible.readable_mono grown le_rfl) ?_ (.refl desk.store)).bind
    fun outs reached ⟨grown, outsLegible⟩ =>
      .pure ⟨grown, Legible.seamless.fitting.braced (Legible.seamless.fitting.commaSeparated outsLegible)⟩
  intro entry member here grown
  have fits := (legible entry member).readable_mono grown le_rfl
  refine (values here entry.value (inner entry) (lower entry member) fits).bind
    fun rendered reached ⟨later, renderedLegible⟩ => .pure ⟨later, ?_⟩
  cases named : entry.name with
  | none => exact renderedLegible
  | some name =>
    have clean := names entry member name (by simp [named])
    exact ((Legible.of_clean clean).append (.of_ascii (by decide))).append renderedLegible

/-- Every legible text is converted, unless one of the `allowed` faults stops the work, and it pays with
its brackets for the tables that it comes to hold. -/
def Converts (context : Context) (strict : Bool) (allowed : Fault → Prop) : Prop :=
  ∀ (usage : Usage) {level : Nat} {text : Text} {desk : Desk},
    Legible strict (Readable strict desk.store level) text →
      Ends allowed (context.convertValue usage text) desk fun out reached =>
        desk.store.Extends reached.store ∧ ∃ above, above ≤ level + brackets text ∧
          Legible strict (Readable strict reached.store above) out

theorem valueWithin_ends (converts : context.Converts strict allowed) {depth : Nat} (usage : Usage)
    (legible : Legible strict (Readable strict desk.store level) text)
    (deep : level + brackets text < depth) :
    Ends allowed (context.valueWithin depth usage text) desk fun out reached =>
      desk.store.Extends reached.store ∧ Legible strict (Readable strict reached.store 0) out := by
  induction depth generalizing level usage text desk with
  | zero => omega
  | succ depth ih =>
    refine (converts usage legible).bind fun converted reached ⟨grown, above, paid, convertedLegible⟩ => ?_
    have renders : Conversion.Renders strict allowed (renderTable (context.valueWithin depth {})) above :=
      renderTable_renders fun desk text inner lower legible => ih {} legible (by omega)
    exact (Conversion.expand_ends renders convertedLegible).mono
      fun out final ⟨later, outLegible, _⟩ => ⟨grown.trans later, outLegible⟩

theorem valueWithin_settles (regular : context.Regular strict) {depth : Nat} (usage : Usage)
    (legible : Legible strict (Readable strict desk.store level) text)
    (deep : level + brackets text < depth) :
    Settles strict (context.valueWithin depth usage text) desk fun out reached =>
      desk.store.Extends reached.store ∧ Legible strict (Readable strict reached.store 0) out :=
  valueWithin_ends (fun usage => convertValue_settles regular usage) usage legible deep

theorem value_settles (regular : context.Regular strict) (usage : Usage)
    (legible : Legible strict (Readable strict desk.store 0) text) :
    Settles strict (context.value usage text) desk fun out reached =>
      desk.store.Extends reached.store ∧ Legible strict (Readable strict reached.store 0) out := by
  refine .get_bind ?_
  have fewer := brackets_le_length text
  refine valueWithin_settles regular usage legible ?_
  unfold depthLimit
  simp only
  omega

theorem finish_settles (legible : Legible strict (Readable strict desk.store 0) text) :
    Settles strict (finish text) desk fun _ reached => reached.store = desk.store := by
  refine (Index.convertFrom_settles Legible.seamless legible [] desk).bind fun out reached ⟨same, outLegible⟩ => ?_
  rw [← same] at outLegible
  exact (Conversion.restore_settles outLegible).mono fun _ _ here => here ▸ same

theorem expression_settles (regular : context.Regular strict) (usage : Usage)
    (legible : Legible strict (Readable strict desk.store 0) text) :
    Settles strict (context.expression usage text) desk fun _ reached =>
      desk.store.Extends reached.store := by
  refine (value_settles regular usage legible).bind fun out reached ⟨grown, outLegible⟩ => ?_
  exact (finish_settles outLegible).mono fun _ _ same => grown.trans (.of_eq same)

end Context

/-- A name that is called was not found, or something was not handed to it. -/
def Fault.IsLookup (fault : Fault) : Prop :=
  fault = .unlistedBuiltin ∨ fault = .unlistedRecord ∨ fault = .missingArgument

/-- A property that work has if its pieces have it, and if it stops with no fault but an `allowed` one. -/
structure Modular (allowed : Fault → Prop) (holds : ∀ {α : Type}, Conversion α → Prop) : Prop where
  pure : ∀ {α : Type} (value : α), holds (Pure.pure value)
  bind : ∀ {α β : Type} {work : Conversion α} {next : α → Conversion β}, holds work →
    (∀ value, holds (next value)) → holds (work >>= next)
  throw : ∀ {α : Type} {fault : Fault}, allowed fault → holds (throw fault : Conversion α)
  notify : ∀ notice, holds (Conversion.notify notice)
  hold : ∀ entries, holds (Conversion.hold (.table entries))

namespace Modular

variable {allowed : Fault → Prop} {holds : ∀ {α : Type}, Conversion α → Prop}
  (modular : Modular allowed holds)

include modular

theorem convertCalls {callee : Callee} {onOpen : Text → Notice} {build : CallHead → Text → Conversion Text}
    (built : ∀ head arguments, holds (build head arguments)) (before : Option Char) (text : Text) :
    holds (convertCalls callee onOpen build before text) := by
  fun_induction Pseudocode.convertCalls callee onOpen build before text with
  | case1 => exact modular.pure []
  | case2 before c rest none ih => exact modular.bind ih fun _ => modular.pure _
  | case3 before c rest head found unclosed => exact modular.bind (modular.notify _) fun _ => modular.pure _
  | case4 before c rest head found inside after closed _ _ ihInside ihAfter =>
    split
    exact modular.bind ihInside fun _ => modular.bind (built _ _) fun _ =>
      modular.bind ihAfter fun _ => modular.pure _

theorem inlineForm (missing : allowed .missingArgument) (builtin : Builtin) (arguments : List Text) :
    holds (Context.inlineForm builtin arguments) := by
  have argument (place : Nat) : holds (Context.argumentAt arguments place) := by
    unfold Context.argumentAt
    split
    · exact modular.pure _
    · exact modular.throw missing
  have both {next : Text → Text → Text} :
      holds (do return next (← Context.argumentAt arguments 0) (← Context.argumentAt arguments 1)) :=
    modular.bind (argument 0) fun _ => modular.bind (argument 1) fun _ => modular.pure _
  unfold Context.inlineForm
  split
  · exact modular.bind (argument 0) fun _ => modular.pure _
  · split
    · exact both
    · split
      · exact both
      · exact modular.pure _

/-- The passes over a value have the property if the one over record literals has it. -/
theorem convertValue {context : Context} (lookup : ∀ fault, fault.IsLookup → allowed fault)
    (literals : ∀ text, holds (context.records.convertLiterals text)) (usage : Usage) (text : Text) :
    holds (context.convertValue usage text) := by
  have constructors : holds (context.records.convertConstructors text) := by
    unfold Records.convertConstructors
    split
    · exact modular.pure text
    · refine modular.convertCalls (fun head arguments => ?_) none text
      split
      · exact modular.hold _
      · exact modular.throw (lookup _ (.inr (.inl rfl)))
  have inline (text : Text) : holds (context.convertInline text) := by
    unfold Context.convertInline Context.inlineCall
    simp only
    split
    · exact modular.pure text
    · refine modular.convertCalls (fun head arguments => ?_) none text
      split
      · exact modular.pure _
      · split
        · exact modular.throw (lookup _ (.inl rfl))
        · split
          · exact modular.pure _
          · exact modular.inlineForm (lookup _ (.inr (.inr rfl))) _ _
  refine modular.bind (modular.bind constructors literals) fun _ => ?_
  refine modular.bind (modular.convertCalls (fun _ _ => modular.pure _) none _) fun structured => ?_
  refine modular.bind (inline structured) fun _ => ?_
  exact modular.bind (modular.convertCalls (fun _ _ => modular.pure _) none _) fun _ => modular.pure _

end Modular

end Pseudocode
