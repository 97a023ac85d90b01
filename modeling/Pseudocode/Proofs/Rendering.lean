import Pseudocode.Proofs.Bracketing
import Pseudocode.Proofs.Value

namespace Pseudocode

open Placeholder

/-- The first text with every placeholder replaced by a text that it stands for. -/
inductive Expands (stands : Nat → Text → Prop) : Text → Text → Prop
  | nil : Expands stands [] []
  | plain {c : Char} {text out : Text} :
      c ≠ opening → Expands stands text out → Expands stands (c :: text) (c :: out)
  | placeholder {index : Nat} {value text out : Text} :
      stands index value → Expands stands text out → Expands stands (write index ++ text) (value ++ out)

namespace Expands

variable {stands : Nat → Text → Prop} {text out rest more : Text}

theorem of_plain (plain : opening ∉ text) : Expands stands text text := by
  induction text with
  | nil => exact .nil
  | cons c text ih =>
    rw [List.mem_cons, not_or] at plain
    exact .plain (Ne.symm plain.1) (ih plain.2)

theorem single {index : Nat} {value : Text} (holds : stands index value) :
    Expands stands (write index) value := by
  simpa using Expands.placeholder holds .nil

theorem append (first : Expands stands text out) (second : Expands stands rest more) :
    Expands stands (text ++ rest) (out ++ more) := by
  induction first with
  | nil => exact second
  | plain other _ ih => exact .plain other ih
  | placeholder holds _ ih =>
    rw [List.append_assoc, List.append_assoc]
    exact .placeholder holds ih

theorem mono {others : Nat → Text → Prop} (weaker : ∀ index value, stands index value → others index value)
    (expands : Expands stands text out) : Expands others text out := by
  induction expands with
  | nil => exact .nil
  | plain other _ ih => exact .plain other ih
  | placeholder holds _ ih => exact .placeholder (weaker _ _ holds) ih

theorem commaSeparated {items outs : List Text} (each : List.Forall₂ (Expands stands) items outs) :
    Expands stands (Pseudocode.commaSeparated items) (Pseudocode.commaSeparated outs) := by
  induction each with
  | nil => exact .nil
  | cons here each ih =>
    cases each with
    | nil => simpa using here
    | cons next each =>
      rw [commaSeparated_cons, commaSeparated_cons]
      exact here.append (.plain (by decide) (.plain (by decide) ih))

theorem braced {text out : Text} (expands : Expands stands text out) :
    Expands stands (ListLiteral.braced text) (ListLiteral.braced out) :=
  (Expands.plain (by decide) expands).append (.of_plain (by decide))

/-- A template is filled by what its placeholders stand for. -/
theorem fill {literals : List Text} {text out : Text}
    (expands : Expands (fun index value => value = literals[index]?.getD (write index)) text out) :
    Pseudocode.fill literals text = out := by
  induction expands with
  | nil => rfl
  | plain other _ ih => rw [fill_cons _ other, ih]
  | placeholder same _ ih => rw [fill_write, ih, same]

end Expands

/-- An entry of a table with its value in Lua. -/
def Entry.rendered (entry : Entry) (value : Text) : Text :=
  match entry.name with
  | none => value
  | some name => name ++ " = ".toList ++ value

def Entry.render (value : Text → Conversion Text) (entry : Entry) : Conversion Text :=
  return entry.rendered (← value entry.value)

namespace Context

variable (context : Context)

/-- With the parts that `store` holds at hand, a text becomes `out`, at `height` levels or more. -/
structure Values (store : Store) (height : Nat) (text out : Text) : Prop where
  gives : ∀ {depth desk}, height ≤ depth → store.Extends desk.store → ∃ reached,
    Gives (context.valueWithin depth {} text) desk out reached ∧ desk.store.Extends reached.store
  legible : Legible false (Readable false store 0) out

/-- What the placeholder of a held part is rendered as. -/
structure Stands (store : Store) (height index : Nat) (out : Text) : Prop where
  gives : ∀ {depth desk}, height ≤ depth → store.Extends desk.store → ∃ reached,
    Gives (Conversion.expandPiece (renderTable (context.valueWithin depth {}))
      (.placeholder index (write index))) desk out reached ∧ desk.store.Extends reached.store
  legible : Legible false (Readable false store 0) out

variable {context} {store reached : Store} {height above index : Nat} {text out : Text}

theorem Stands.mono (stands : context.Stands store height index out) (grown : store.Extends reached)
    (higher : height ≤ above) : context.Stands reached above index out where
  gives deep held := stands.gives (higher.trans deep) (grown.trans held)
  legible := stands.legible.readable_mono grown le_rfl

theorem Stands.literal {literal : Text} (held : store.held[index]? = some (.literal literal))
    (plain : opening ∉ literal) : context.Stands store height index (write index) where
  gives {_ desk} _ extended :=
    ⟨desk, Conversion.expandPiece_literal (extended _ _ held), .refl _⟩
  legible := by simpa using Legible.placeholder (.literal held plain) .nil

/-- A table whose values are known is rendered entry by entry. -/
theorem Stands.table {entries : List Entry} {values : List Text}
    (held : store.held[index]? = some (.table entries))
    (names : ∀ entry ∈ entries, ∀ name ∈ entry.name, opening ∉ name)
    (each : List.Forall₂ (fun entry value => context.Values store height entry.value value)
      entries values) :
    context.Stands store height index
      (ListLiteral.braced (commaSeparated (List.zipWith Entry.rendered entries values))) where
  gives {depth desk} deep extended := by
    have fields : ∃ reached, Gives (entries.mapM (Entry.render (context.valueWithin depth {}))) desk
        (List.zipWith Entry.rendered entries values) reached ∧ desk.store.Extends reached.store := by
      clear names held
      induction each generalizing desk with
      | nil => exact ⟨desk, .pure _ _, .refl _⟩
      | @cons entry value entries values here _ ih =>
        obtain ⟨middle, first, grown⟩ := here.gives deep extended
        obtain ⟨reached, rest, further⟩ := ih (extended.trans grown)
        refine ⟨reached, ?_, grown.trans further⟩
        have shown : Gives (entry.render (context.valueWithin depth {})) desk (entry.rendered value)
            middle := first.bind (.pure _ _)
        rw [List.mapM_cons]
        exact shown.bind (rest.bind (.pure _ _))
    obtain ⟨reached, run, grown⟩ := fields
    refine ⟨reached, ?_, grown⟩
    rw [Gives, Conversion.expandPiece_table (extended _ _ held)]
    exact run.bind (.pure _ _)
  legible := by
    refine Legible.seamless.fitting.braced (Legible.seamless.fitting.commaSeparated fun item member => ?_)
    clear held
    induction each with
    | nil => simp at member
    | @cons entry value entries values here _ ih =>
      rw [List.zipWith_cons_cons] at member
      rcases List.mem_cons.mp member with rfl | member
      · rw [Entry.rendered]
        split
        · exact here.legible
        · rename_i name named
          have plain : ∀ c ∈ name, c ≠ opening ∧ (false = true → isPlainCase c = true) :=
            fun c inside => ⟨ne_of_mem_of_not_mem inside
              (names entry (.head _) name named), by simp⟩
          exact ((Legible.of_plain plain).append (.of_ascii (by decide))).append here.legible
      · exact ih (fun entry among => names entry (.tail _ among)) member

theorem Expands.legible {stands : Nat → Text → Prop}
    (readable : ∀ index value, stands index value → Legible false (Readable false store 0) value)
    (expands : Expands stands text out) : Legible false (Readable false store 0) out := by
  induction expands with
  | nil => exact .nil
  | plain other _ ih => exact .plain other (by simp) ih
  | placeholder holds _ ih => exact (readable _ _ holds).append ih

theorem Expands.expandOnce {depth : Nat} {desk : Desk}
    (expands : Expands (context.Stands store height) text out) (deep : height ≤ depth)
    (extended : store.Extends desk.store) : ∃ reached,
      Gives (Conversion.expandOnce (renderTable (context.valueWithin depth {})) text) desk out
        reached ∧ desk.store.Extends reached.store := by
  induction expands generalizing desk with
  | nil => exact ⟨desk, .pure _ _, .refl _⟩
  | plain other _ ih =>
    obtain ⟨reached, run, grown⟩ := ih extended
    exact ⟨reached, Conversion.expandOnce_cons other _ ▸ run.bind (.pure _ _), grown⟩
  | placeholder holds _ ih =>
    obtain ⟨middle, first, grown⟩ := holds.gives deep extended
    obtain ⟨reached, run, further⟩ := ih (extended.trans grown)
    refine ⟨reached, ?_, grown.trans further⟩
    rw [Conversion.expandOnce_write]
    exact first.bind (run.bind (.pure _ _))

/-- One round renders every table, and a second finds none. -/
theorem Expands.expand {depth : Nat} {desk : Desk}
    (expands : Expands (context.Stands store height) text out) (deep : height ≤ depth)
    (extended : store.Extends desk.store) : ∃ reached,
      Gives (Conversion.expand (renderTable (context.valueWithin depth {})) text) desk out
        reached ∧ desk.store.Extends reached.store := by
  obtain ⟨reached, first, grown⟩ := Expands.expandOnce expands deep extended
  have legible := (Expands.legible (fun _ _ holds => holds.legible) expands).readable_mono
    (extended.trans grown) le_rfl
  refine ⟨reached, ?_, grown⟩
  have limit : desk.store.roundLimit text = desk.store.held.size + text.length + 1 + 1 := rfl
  rw [Conversion.expand, Gives, outcome_bind, outcome_get]
  simp only [limit, Conversion.expandWithin]
  refine first.bind ?_
  split
  · rename_i same
    rw [same]
    exact .pure _ _
  · refine (Conversion.expandOnce_literals legible).bind ?_
    simp only [if_true]
    exact .pure _ _

end Context

end Pseudocode
