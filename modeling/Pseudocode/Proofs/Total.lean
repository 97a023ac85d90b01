import Pseudocode.Proofs.Declared
import Pseudocode.Proofs.Emission
import Pseudocode.Proofs.Value

namespace Pseudocode

open Placeholder

variable {strict : Bool}
variable {text source : Text} {language : Language}

/-- Legible parts of a line settle, and their placeholders stay readable. -/
theorem Context.emits_legible {context : Context} (regular : context.Regular strict) :
    context.Emits strict Store.Extends (fun store => Legible strict (Readable strict store 0))
      (fun _ => True) where
  refl := .refl
  trans := .trans
  mono grown legible := legible.readable_mono grown le_rfl
  parts _ := Legible.seamless.fitting
  undirected := Legible.seamless.substitute (CountedLoop.downward_neat Legible.seamless)
  joins := ⟨fun _ => trivial, fun _ _ _ => trivial⟩
  names _ := trivial
  expression usage _ _ legible :=
    (expression_settles regular usage legible).mono fun _ _ grown => ⟨grown, trivial⟩
  finish legible := (finish_settles legible).mono fun _ _ same => ⟨same, trivial⟩
  restore legible := (Conversion.restore_settles legible).mono fun _ _ same => ⟨same, trivial⟩
  closed legible := (Conversion.restore_settles legible.tail).mono fun _ _ same => ⟨same, trivial⟩
  zeros _ := trivial
  calls _ _ := trivial
  indent _ := trivial
  signatures _ _ := ⟨trivial, fun _ _ => trivial⟩

theorem doubleQuotedRest?_starts {rest : Text} (found : doubleQuotedRest? text = some rest) :
    rest <+: text := by
  fun_induction doubleQuotedRest? text generalizing rest with
  | case1 | case2 | case3 => simp at found
  | case4 c tail _ ih =>
    obtain ⟨quoted, inner, rfl⟩ := Option.map_eq_some_iff.mp found
    simpa using ih inner
  | case5 tail =>
    obtain rfl := Option.some.inj found
    simp
  | case6 c tail _ _ _ ih =>
    obtain ⟨quoted, inner, rfl⟩ := Option.map_eq_some_iff.mp found
    simpa using ih inner

theorem literal?_starts {literal : Text} (found : literal? text = some literal) :
    literal <+: text ∧ literal ≠ [] := by
  unfold literal? at found
  split at found
  · obtain ⟨rest, quoted, rfl⟩ := Option.map_eq_some_iff.mp found
    simpa using doubleQuotedRest?_starts quoted
  · split at found
    · simp at found
    · obtain rfl := Option.some.inj found
      simp
  · split at found
    · simp at found
    · obtain rfl := Option.some.inj found
      simp
  · simp at found

/-- A masked text is legible: its literals are held, and nothing else was a placeholder. -/
theorem Store.maskFrom_legible {text : Text}
    (plain : ∀ c ∈ text, c ≠ opening ∧ (strict = true → isPlainCase c = true)) (store : Store)
    (skip : Nat) :
    store.Extends (store.maskFrom skip text).1 ∧
      Legible strict (Readable strict (store.maskFrom skip text).1 0) (store.maskFrom skip text).2 := by
  induction text generalizing store skip with
  | nil => cases skip <;> exact ⟨.refl _, .nil⟩
  | cons c rest ih =>
    have later := ih fun d member => plain d (.tail _ member)
    cases skip with
    | succ skip => exact later store skip
    | zero =>
      rw [maskFrom]
      cases found : literal? (c :: rest) with
      | none =>
        obtain ⟨grown, legible⟩ := later store 0
        obtain ⟨ne, plainCase⟩ := plain c (.head _)
        exact ⟨grown, .plain ne plainCase legible⟩
      | some literal =>
        obtain ⟨grown, legible⟩ := later (store.hold (.literal literal)).1 (literal.length - 1)
        have held : (store.hold (.literal literal)).1.held[store.held.size]? =
            some (.literal literal) := by
          simp [hold]
        refine ⟨(Store.Extends.hold store _).trans grown,
          .placeholder (.literal (grown _ _ held) fun member => ?_) legible⟩
        exact (plain _ ((literal?_starts found).1.subset member)).1 rfl

theorem Conversion.mask_settles
    (plain : ∀ c ∈ text, c ≠ opening ∧ (strict = true → isPlainCase c = true)) (desk : Desk) :
    Settles strict (Conversion.mask text) desk fun out reached =>
      Legible strict (Readable strict reached.store 0) out :=
  (Store.maskFrom_legible plain desk.store 0).2

/-- Every record type collected from a source stands on a line of it. -/
theorem Records.mem_collect {pair : Text × RecordType} (member : pair ∈ Records.collect language source) :
    pair.1 = lower pair.2.name ∧
      ∃ line ∈ lines source, RecordType.ofLine? language line = some pair.2 := by
  rcases mem_foldl_assign member with old | ⟨same, listed⟩
  · simp at old
  · obtain ⟨line, inside, ofLine⟩ := List.mem_filterMap.mp listed
    exact ⟨same, line, inside, ofLine⟩

theorem Records.collect_regular
    (plain : strict = true → ∀ c ∈ source, isPlainCase c = true) (language : Language) :
    (Records.collect language source).Regular strict := by
  have clean {word line : Text} (member : line ∈ lines source)
      (letters : ∀ c ∈ word, isWordChar c = true ∧ c ∈ line) : IsClean strict word := by
    intro c inside
    obtain ⟨isWord, ofLine⟩ := letters c inside
    refine ⟨?_, fun isStrict => plain isStrict c (lines_mem member c ofLine).1⟩
    by_contra mark
    rw [isMark_not_wordChar (by simpa using mark)] at isWord
    simp at isWord
  refine ⟨fun pair member => (mem_collect member).1, fun pair member => ?_,
    fun pair member field among => ?_⟩
  · obtain ⟨-, line, inside, ofLine⟩ := mem_collect member
    obtain ⟨⟨nonempty, name⟩, -⟩ := RecordType.ofLine?_mem ofLine
    exact ⟨nonempty, clean inside name⟩
  · obtain ⟨-, line, inside, ofLine⟩ := mem_collect member
    exact clean inside ((RecordType.ofLine?_mem ofLine).2 field among)

namespace Context

theorem ofSource_regular (regular : language.Regular) (layout : Layout)
    (plain : ∀ c ∈ source, c ≠ opening ∧ isPlainCase c = true) :
    (ofSource language layout source).Regular true :=
  ⟨regular, Records.collect_regular (fun _ c member => (plain c member).2) language⟩

variable {context : Context}

theorem convertCode_settles (regular : context.Regular strict) (number : Nat) (progress : Progress)
    {code : Text} (plain : ∀ c ∈ code, c ≠ opening ∧ (strict = true → isPlainCase c = true))
    (desk : Desk) : Settles strict (context.convertCode number progress code) desk fun _ _ => True := by
  have frames : ∀ frame ∈ progress.frames, frame.Each fun _ => True := by
    intro frame _
    unfold Frame.Each
    split
    · exact ⟨trivial, fun _ _ => trivial⟩
    · trivial
  exact ((emits_legible regular).convertCode (Conversion.mask_settles plain desk) number frames).mono
    fun _ _ _ => trivial

/-- No line of plain characters stops the work. -/
theorem lineStep_ok (regular : context.Regular true) (number : Nat) {raw : Text}
    (plain : ∀ c ∈ raw, c ≠ opening ∧ isPlainCase c = true) (progress : Progress) :
    (context.lineStep number raw progress).1 = .ok () := by
  have straight : ∀ c ∈ straightQuotes raw, c ≠ opening ∧ isPlainCase c = true := by
    intro c member
    obtain ⟨d, inside, rfl⟩ := List.mem_map.mp member
    split
    · decide
    · exact plain d inside
  have code : ∀ c ∈ trim (splitLine progress.inComment (straightQuotes raw)).code,
      c ≠ opening ∧ isPlainCase c = true := fun c member =>
    straight c (splitComments_code_mem ((trim_sublist _).mem member))
  unfold lineStep
  simp only
  split
  · rfl
  · obtain ⟨result, desk, run, -⟩ := (convertCode_settles regular number progress
      (fun c member => ⟨(code c member).1, fun _ => (code c member).2⟩)
      { notices := progress.notices }).yields
    rw [show outcome _ _ = _ from run]
    obtain ⟨statement, _ | effect⟩ := result <;> rfl

theorem processFrom_settles (regular : context.Regular true) {ls : List Text}
    (plain : ∀ line ∈ ls, ∀ c ∈ line, c ≠ opening ∧ isPlainCase c = true) (number : Nat)
    (progress : Progress) :
    Settles true (context.processFrom number ls) progress fun _ _ => True := by
  induction ls generalizing number progress with
  | nil => exact .pure trivial
  | cons line rest ih =>
    have step := lineStep_ok regular number (plain line (.head _)) progress
    have first : Settles true (context.processLine number line) progress fun _ _ => True := by
      have run : Gives (context.processLine number line) progress ()
          (context.lineStep number line progress).2 := by
        rw [Gives, outcome_processLine]
        exact Prod.ext step rfl
      exact run.settles trivial
    exact first.bind fun _ reached _ =>
      ih (fun other member => plain other (.tail _ member)) (number + 1) reached

theorem processSource_yields (regular : context.Regular true)
    (plain : ∀ c ∈ source, c ≠ opening ∧ isPlainCase c = true) (progress : Progress) :
    Yields (context.processSource source) progress fun _ _ => True := by
  refine Settles.yields ?_
  refine (processFrom_settles regular (fun line member c inside => plain c (lines_mem member c inside).1)
    1 progress).bind fun _ reached _ => ?_
  refine .get_bind ?_
  split
  · exact Settles.bind (show Settles true _ _ fun _ _ => True from trivial)
      fun _ _ _ => .pure trivial
  · exact .pure trivial

end Context

/-- Every source becomes a program, whatever its lines, brackets and quotes look like, unless it
holds the mark of a placeholder or letters whose case is in doubt. No line is taken for output or
an assignment without the mark where it is cut apart. -/
theorem convert_total (layout : Layout) {source : Text}
    (plain : ∀ c ∈ source, c ≠ opening ∧ isPlainCase c = true) :
    (∃ lua, convert layout source = .ok lua) ∧
      ∀ line, (Statement.ofLine standardLanguage line).IsCut line := by
  refine ⟨?_, Statement.ofLine_isCut standardLanguage⟩
  have regular := Context.ofSource_regular standardLanguage_regular layout plain
  obtain ⟨body, progress, run, -⟩ := Context.processSource_yields regular plain {}
  exact ⟨_, by
    unfold convert Assembly.run
    simp only [Assembly.runPasses, List.foldl_nil]
    rw [show ((Context.ofSource standardLanguage layout source).processSource source).run.run {} = _
      from run]⟩

theorem convert_total_unbalanced :
    (∀ c ∈ "x ← P(1, <2\nFSi\nécrire(\"a".toList, c ≠ opening ∧ isPlainCase c = true) ∧
      ∃ lua, convert {} "x ← P(1, <2\nFSi\nécrire(\"a".toList = .ok lua := by
  have plain : ∀ c ∈ "x ← P(1, <2\nFSi\nécrire(\"a".toList,
      c ≠ opening ∧ isPlainCase c = true := by
    have all : "x ← P(1, <2\nFSi\nécrire(\"a".toList.all
        (fun c => c ≠ opening && isPlainCase c) = true := by
      decide
    simpa using all
  exact ⟨plain, (convert_total {} plain).1⟩

end Pseudocode
