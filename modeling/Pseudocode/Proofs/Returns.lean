import Pseudocode.Proofs.Blocks
import Pseudocode.Proofs.ClosingBracket

namespace Pseudocode

open List Option

namespace Signature

/-- What a return hands back before the `InOut` parameters: the value that is written, or `nil` where
the function declares a value and none is written. -/
def ownValues (signature : Signature) : (written : Option Text) → List Text
  | some value => [value]
  | none => if signature.returnsValue then ["nil".toList] else []

/-- The return that hands back a written value, or none, and then the `InOut` parameters. -/
def returnCode (signature : Signature) (written : Option Text) : Text :=
  "return ".toList ++ commaSeparated (signature.ownValues written ++ signature.inOutNames)

theorem implicitValues_eq (signature : Signature) :
    Frame.implicitValues signature = signature.ownValues none ++ signature.inOutNames := by
  unfold Frame.implicitValues ownValues
  split
  · rfl
  · rfl

end Signature

namespace Frame

def isFunction : Frame → Bool
  | function _ _ => true
  | _ => false

/-- The innermost function decides, whatever blocks are open inside it. -/
theorem currentFunction?_eq {inner outer : List Frame} {signature : Option Signature} {opened : Bool}
    (others : ∀ frame ∈ inner, frame.isFunction = false) :
    currentFunction? (inner ++ function signature opened :: outer) = signature := by
  induction inner with
  | nil => rfl
  | cons frame inner ih =>
    have later := ih fun other member => others other (.tail _ member)
    cases frame with
    | function => simp [isFunction] at others
    | main => exact later
    | control keyword => exact later

theorem isReturn_iff {code : Text} :
    isReturn code = true ↔ ∃ rest, code = "return".toList ++ rest ∧ atWordEnd rest = true := by
  have length : "return".toList.length = 6 := by decide
  have dropped (rest : Text) : ("return".toList ++ rest).drop 6 = rest := drop_left' length
  rw [isReturn, Bool.and_eq_true, isPrefixOf_iff_prefix]
  constructor
  · rintro ⟨⟨rest, rfl⟩, ends⟩
    exact ⟨rest, rfl, dropped rest ▸ ends⟩
  · rintro ⟨rest, rfl, ends⟩
    exact ⟨⟨rest, rfl⟩, (dropped rest).symm ▸ ends⟩

/-- Blanks at the end of a line do not make it another one. -/
theorem isReturn_trimRight (code : Text) : isReturn (trimRight code) = isReturn code := by
  have parts : code = trimRight code ++ takeEndWhile isBlank code := by
    have whole := congrArg List.reverse
      (takeWhile_append_dropWhile (p := isBlank) (l := code.reverse))
    rw [reverse_append, reverse_reverse] at whole
    exact whole.symm
  have blanks : ∀ c ∈ takeEndWhile isBlank code, isBlank c = true := fun c member =>
    mem_takeWhile_imp (mem_reverse.mp member)
  have ends (rest : Text) : atWordEnd (rest ++ takeEndWhile isBlank code) = atWordEnd rest := by
    cases rest with
    | cons c rest => rfl
    | nil =>
      cases tail : takeEndWhile isBlank code with
      | nil => rfl
      | cons c tail => simp [atWordEnd, isBlank_not_wordChar (blanks c (by simp [tail]))]
  rw [Bool.eq_iff_iff, isReturn_iff, isReturn_iff]
  constructor
  · rintro ⟨rest, shape, stop⟩
    exact ⟨rest ++ takeEndWhile isBlank code, by rw [← append_assoc, ← shape, ← parts],
      (ends rest).trans stop⟩
  · rintro ⟨rest, shape, stop⟩
    rcases append_eq_append_iff.mp (parts.symm.trans shape) with
      ⟨cut, word, tail⟩ | ⟨more, start, after⟩
    · -- a blank cannot stand among the letters of the word
      cases cut with
      | nil => exact ⟨[], by simpa using word.symm, rfl⟩
      | cons c cut =>
        have letter : c ∈ "return".toList := by rw [word]; simp
        have solid : "return".toList.all (!isBlank ·) = true := by decide
        have blank := blanks c (by rw [tail]; simp)
        simpa [blank] using all_eq_true.mp solid c letter
    · exact ⟨more, start, by rw [← ends more, ← after, stop]⟩

end Frame

/-- A pair of parentheses around the whole of a text is taken off if it holds one argument at most. -/
inductive Unwraps (text : Text) : Text → Prop
  | single {inside : Text} : text = '(' :: (inside ++ [')']) → Paired '(' ')' inside →
      (splitArguments inside).length ≤ 1 → Unwraps text (trim inside)
  | whole : (∀ inside, text = '(' :: (inside ++ [')']) → Paired '(' ')' inside →
      1 < (splitArguments inside).length) → Unwraps text text

namespace Statement

variable {line value : Text} {language : Language}

/-- What a return hands back on its line: the text after the word, without parentheses around it. -/
def GivesBack (line value : Text) : Prop :=
  ∃ word after, line = word ++ after ∧ (Spells ["retourner"] word ∨ Spells ["retourne"] word) ∧
    atWordEnd after = true ∧ Unwraps (trim after) value

theorem returned_unwraps (after : Text) : Unwraps (trim after) (returned after) := by
  have closed {inside after : Text} : splitParen? (inside ++ ')' :: after) = some (inside, after) ↔
      Paired '(' ')' inside := by
    rw [splitParen?, splitClose?_eq_some_iff (by decide)]
    simp
  unfold returned
  dsimp only
  split
  · rename_i rest shape
    rw [shape]
    split
    · rename_i inside found
      obtain ⟨rfl, paired⟩ := (splitClose?_eq_some_iff (by decide)).mp found
      split
      · exact .single rfl paired ‹_›
      · rename_i several
        refine .whole fun other same _ => ?_
        obtain rfl : inside = other := by simpa using same
        omega
    · rename_i unclosed
      refine .whole fun inside same paired => ?_
      obtain rfl : rest = inside ++ [')'] := by simpa using same
      exact (unclosed inside (closed.mpr paired)).elim
  · rename_i other
    exact .whole fun inside same _ => (other _ same).elim

/-- A line that is read as a return starts with the word, and the value is what stands after it. -/
theorem Fits.givesBack (fits : Fits language line (.giveBack value)) : GivesBack line value := by
  cases fits with
  | arrayDeclaration found =>
    obtain ⟨_, _, _, _, same, -⟩ := array?_eq_some found
    cases same
  | read found =>
    obtain ⟨_, same, -⟩ := read?_eq_some found
    cases same
  | forEach found =>
    obtain ⟨_, _, _, same, -⟩ := forEach?_eq_some found
    cases same
  | @giveBack after found =>
    obtain ⟨_, spelling, _, listed, word, -⟩ := findSome?_eq_some_iff.mp found
    obtain ⟨dropped, whole⟩ := filter_eq_some_iff.mp word
    obtain ⟨split, same⟩ := dropWord?_eq_some dropped
    have member : spelling ∈ ["retourner", "retourne"] := by rw [listed]; simp
    refine ⟨_, after, split, ?_, whole, returned_unwraps after⟩
    rcases mem_cons.mp member with rfl | member
    · exact .inl (.one same)
    · obtain rfl := mem_singleton.mp member
      exact .inr (.one same)

end Statement

namespace Context

/-- A part of the line comes to `text` as an expression, with the literals of the line put back. -/
def Translates (context : Context) (progress : Progress) (raw part text : Text) : Prop :=
  ∃ notices reached, Gives (context.expression {} part)
    { store := (({} : Store).mask (readCode progress raw)).1, notices } text reached

variable {context : Context} {number : Nat} {raw : Text} {progress : Progress}

/-- A handled line had its literals held back, and its effect is that of the statement it was read as. -/
theorem handled?_eq_some {handled : Handled} (here : context.handled? number raw progress = some handled) :
    ∃ notices effect reached,
      Gives (context.effect handled.statement handled.line progress.frames progress.lastCode)
        { store := (({} : Store).mask (readCode progress raw)).1, notices } effect reached ∧
      handled.statement = .ofLine context.language handled.line ∧
      handled.before = progress.frames ∧ handled.laid.code = effect.lines ∧
      handled.after = effect.frames := by
  obtain ⟨effect, _, run, before, after, laid⟩ := handled?_gives here
  obtain ⟨masked, _, mask, run⟩ := run.of_bind
  obtain ⟨_, _, notified, run⟩ := run.of_bind
  cases mask
  cases notified
  split at run
  · obtain ⟨same, -⟩ := run.of_pure
    simp at same
  · obtain ⟨found, _, effected, run⟩ := run.of_bind
    obtain ⟨same, -⟩ := run.of_pure
    obtain ⟨statement, equal⟩ := Prod.mk.inj same
    obtain rfl := Option.some.inj equal
    have line : handled.line = (({} : Store).mask (readCode progress raw)).2 := handled?_line here
    rw [line, statement]
    exact ⟨_, _, _, effected, rfl, before, congrArg Laid.code laid, after⟩

/-- The code lines that a run emitted, in order. -/
def emitted (history : List Handled) : List Text :=
  history.flatMap (·.laid.code)

/-- What a run remembers of its last code line, where `before` was remembered at its start. -/
def remembered (before : Text) (code : List Text) : Text :=
  (code.getLast?.map trim).getD before

theorem remembered_append (before : Text) (first second : List Text) :
    remembered before (first ++ second) = remembered (remembered before first) second := by
  unfold remembered
  cases second with
  | nil => simp
  | cons line second => simp [getLast?_append, getLast?_cons]

/-- One line changes what is remembered only by the code that it emits. -/
theorem lineStep_lastCode {next : Progress}
    (step : context.lineStep number raw progress = (.ok (), next)) :
    next.lastCode =
      remembered progress.lastCode (emitted (context.handled? number raw progress).toList) := by
  unfold lineStep at step
  unfold handled? laidLine
  by_cases header : progress.inHeader = true
  · simp only [if_pos header, Prod.mk.injEq, true_and] at step ⊢
    subst step
    rfl
  · simp only [if_neg header] at step ⊢
    split at step
    · simp at step
    · rename_i given
      obtain ⟨-, rfl⟩ := Prod.mk.inj step
      simp [given, emitted, remembered]
    · rename_i statement effect desk given
      obtain ⟨-, rfl⟩ := Prod.mk.inj step
      simp only [given, toList_some, emitted, flatMap_cons, flatMap_nil,
        append_nil, Progress.emit, remembered]
      cases effect.lines.getLast? with
      | none => rfl
      | some last => rfl

/-- What is remembered is the last code line in the output, through comments, skipped lines and blocks
that emit nothing. -/
theorem processFrom_lastCode {ls : List Text} {reached : Progress}
    (run : Gives (context.processFrom number ls) progress () reached) :
    reached.lastCode = remembered progress.lastCode (emitted (context.historyFrom number ls progress)) := by
  induction ls generalizing number progress with
  | nil =>
    obtain ⟨-, rfl⟩ := Gives.of_pure run
    rfl
  | cons raw rest ih =>
    obtain ⟨_, next, first, run⟩ := Gives.of_bind run
    rw [Gives, outcome_processLine] at first
    have later := ih run
    rw [lineStep_lastCode first] at later
    rw [later, historyFrom, first, ← remembered_append]
    simp [emitted]

theorem returnLine_inOut {signature : Signature} (inOut : signature.inOutNames ≠ []) {value : Text}
    {desk reached : Desk} {code : Text}
    (run : Gives (context.returnLine (some signature) value) desk code reached) :
    ∃ written, (value = [] → written = none) ∧
      (value ≠ [] → ∃ text, written = some text ∧ ∃ final,
        Gives (context.expression {} value) desk text final) ∧
      code = signature.returnCode written := by
  have nonempty (own : List Text) : own ++ signature.inOutNames ≠ [] := by
    simp [inOut]
  by_cases empty : value = []
  · simp only [returnLine, List.isEmpty_iff, empty, inOut, if_true, if_false, pure_bind,
      signature.implicitValues_eq, nonempty] at run
    obtain ⟨rfl, -⟩ := run.of_pure
    exact ⟨none, fun _ => rfl, fun full => absurd empty full, rfl⟩
  · simp only [returnLine, List.isEmpty_iff, empty, inOut, if_false, pure_bind, reduceCtorEq,
      nonempty] at run
    obtain ⟨text, final, given, run⟩ := run.of_bind
    obtain ⟨rfl, -⟩ := run.of_pure
    exact ⟨some text, fun none => absurd none empty, fun _ => ⟨text, rfl, final, given⟩, rfl⟩

/-- What a closer emits that ends only the block of a function. -/
theorem closing_inOut (layout : Layout) (lastCode : Text) {signature : Signature} (opened : Bool)
    (inOut : signature.inOutNames ≠ []) :
    Frame.closing layout lastCode (.function (some signature) opened) =
      if Frame.isReturn lastCode then [endLine]
      else [layout.indent ++ signature.returnCode none, endLine] := by
  have line : layout.indent ++ "return ".toList ++ commaSeparated (Frame.implicitValues signature) =
      layout.indent ++ signature.returnCode none := by
    rw [signature.implicitValues_eq, append_assoc]
    rfl
  have some : signature.inOutNames.isEmpty = false := by simpa using inOut
  rw [Frame.closing, line, some, Bool.false_or]
  rfl

theorem close_single {layout : Layout} {lastCode : Text} {closed : Option BlockKeyword} {frame : Frame}
    {rest : List Frame} (single : (Frame.close layout lastCode closed (frame :: rest)).2 = rest) :
    (Frame.close layout lastCode closed (frame :: rest)).1 = Frame.closing layout lastCode frame := by
  obtain ⟨popped, split, -, code⟩ := Frame.close_pops layout lastCode closed (cons_ne_nil frame rest)
  rw [single] at split
  have one : popped = [frame] := append_cancel_right split.symm
  rw [code, one, flatMap_singleton]

/-- The last code line of a run starts with the word, its indentation aside. -/
def LastReturns (code : List Text) : Prop :=
  ∃ line, code.getLast? = some line ∧ Frame.isReturn (trimLeft line) = true

theorem isReturn_remembered (code : List Text) :
    Frame.isReturn (remembered [] code) = true ↔ LastReturns code := by
  unfold remembered LastReturns
  cases last : code.getLast? with
  | none => simp [Frame.isReturn]
  | some line => simp [trim, Frame.isReturn_trimRight]

/-- Every return of a function with `InOut` parameters hands them back in the order of their
declaration, after the value that is written on its line or the `nil` that stands for one. A closer that ends only
the block of the function finds a return in front of its `end`, and puts one there only if the last
code line was none. -/
theorem returns_inOut {done : List Text} {raw : Text} {progress : Progress} {handled : Handled}
    {signature : Signature} (reached : Gives (context.processFrom 1 done) {} () progress)
    (here : context.handled? number raw progress = some handled)
    (inOut : signature.inOutNames ≠ []) :
    progress.output.toList = (context.historyFrom 1 done {}).flatMap (·.laid.lines) ∧
    (∀ value inner opened outer, handled.statement = .giveBack value →
      handled.before = inner ++ .function (some signature) opened :: outer →
      (∀ frame ∈ inner, frame.isFunction = false) →
      Statement.GivesBack handled.line value ∧
      ∃ written, (value = [] → written = none) ∧
        (value ≠ [] → ∃ text, written = some text ∧ context.Translates progress raw value text) ∧
        handled.laid.code = [signature.returnCode written]) ∧
    ∀ closed opened rest, handled.statement = .blockClose closed →
      handled.before = .function (some signature) opened :: rest → handled.after = rest →
      (LastReturns (emitted (context.historyFrom 1 done {})) ∧ handled.laid.code = [endLine]) ∨
      (¬LastReturns (emitted (context.historyFrom 1 done {})) ∧
        handled.laid.code = [context.layout.indent ++ signature.returnCode none, endLine]) := by
  obtain ⟨notices, effect, final, run, read, frames, code, after⟩ := handled?_eq_some here
  have last := processFrom_lastCode reached
  have output := (context.historyFrom_run 1 done {}).2
  rw [reached] at output
  refine ⟨by simpa using congrArg Array.toList output, ?_, ?_⟩
  · intro value inner opened outer isReturn split others
    have fits := Statement.ofLine_fits context.language handled.line
    rw [← read, isReturn] at fits
    rw [isReturn, ← frames, split] at run
    obtain ⟨text, _, given, run⟩ := Gives.of_bind run
    obtain ⟨rfl, -⟩ := run.of_pure
    rw [Frame.currentFunction?_eq others] at given
    obtain ⟨written, bare, full, rfl⟩ := returnLine_inOut inOut given
    refine ⟨fits.givesBack, written, bare, fun nonempty => ?_, code⟩
    obtain ⟨text, same, final, translated⟩ := full nonempty
    exact ⟨text, same, notices, final, translated⟩
  · intro closed opened rest isCloser split single
    rw [isCloser, ← frames, split] at run
    obtain ⟨_, _, -, run⟩ := Gives.of_bind run
    obtain ⟨rfl, -⟩ := run.of_pure
    have emits := (code.trans (close_single (after.symm.trans single))).trans
      (closing_inOut context.layout progress.lastCode opened inOut)
    have known := isReturn_remembered (emitted (context.historyFrom 1 done {}))
    rw [← last] at known
    rw [emits, ← known]
    by_cases returns : Frame.isReturn progress.lastCode = true
    · exact .inl ⟨returns, if_pos returns⟩
    · exact .inr ⟨returns, if_neg returns⟩

theorem gives_of_isOk {ε σ : Type} {work : ExceptT ε (StateM σ) Unit} {state : σ}
    (ends : (outcome work state).1.isOk = true) : Gives work state () (outcome work state).2 := by
  refine Prod.ext ?_ rfl
  cases result : (outcome work state).1 with
  | error fault => simp [result, Except.isOk, Except.toBool] at ends
  | ok _ => rfl

/-- The body of a function that hands a parameter back, up to its last line. -/
def sampleBody : List Text :=
  ["Fonction f(InOut a) : entier", "Début", "Retourner (b)", "// fin"].map (·.toList)

def sampleSignature : Signature where
  name := ['f']
  parameters := [⟨['a'], true⟩]
  returnsValue := true

def sampleContext : Context where
  language := bareContext.language
  signatures := [(['f'], sampleSignature)]

/-- The value in parentheses is handed back before the parameter, and a comment after the return does
not hide it from the closer. -/
theorem returns_inOut_comment :
    sampleSignature.inOutNames ≠ [] ∧
    (∃ progress handled, Gives (sampleContext.processFrom 1 (sampleBody.take 2)) {} () progress ∧
      sampleContext.handled? 3 "Retourner (b)".toList progress = some handled ∧
      Statement.GivesBack "Retourner (b)".toList ['b'] ∧
      ∃ text, sampleContext.Translates progress "Retourner (b)".toList ['b'] text ∧
        handled.laid.code = [sampleSignature.returnCode (some text)]) ∧
    ∃ progress handled, Gives (sampleContext.processFrom 1 sampleBody) {} () progress ∧
      sampleContext.handled? 5 "Fin".toList progress = some handled ∧ handled.laid.code = [endLine] := by
  have inOut : sampleSignature.inOutNames ≠ [] := by decide
  refine ⟨inOut, ?_, ?_⟩
  · obtain ⟨progress, reached, shape⟩ : ∃ progress,
        Gives (sampleContext.processFrom 1 (sampleBody.take 2)) {} () progress ∧
        (sampleContext.handled? 3 "Retourner (b)".toList progress).map (fun handled =>
          (handled.line, handled.statement, handled.before)) =
        some ("Retourner (b)".toList, .giveBack ['b'], [.function (some sampleSignature) true]) :=
      ⟨_, gives_of_isOk (by decide +kernel), by decide +kernel⟩
    obtain ⟨handled, here, parts⟩ := map_eq_some_iff.mp shape
    obtain ⟨line, parts⟩ := Prod.mk.inj parts
    obtain ⟨isReturn, before⟩ := Prod.mk.inj parts
    obtain ⟨hands, written, -, given, code⟩ :=
      (returns_inOut reached here inOut).2.1 ['b'] [] true [] isReturn before (by simp)
    rw [line] at hands
    obtain ⟨text, rfl, translates⟩ := given (by simp)
    exact ⟨progress, handled, reached, here, hands, text, translates, code⟩
  · obtain ⟨progress, reached, shape⟩ : ∃ progress,
        Gives (sampleContext.processFrom 1 sampleBody) {} () progress ∧
        (sampleContext.handled? 5 "Fin".toList progress).map (fun handled =>
          (handled.statement, handled.before, handled.after)) =
        some (.blockClose none, [.function (some sampleSignature) true], []) :=
      ⟨_, gives_of_isOk (by decide +kernel), by decide +kernel⟩
    obtain ⟨handled, here, parts⟩ := map_eq_some_iff.mp shape
    obtain ⟨closer, parts⟩ := Prod.mk.inj parts
    obtain ⟨before, after⟩ := Prod.mk.inj parts
    have last : LastReturns (emitted (sampleContext.historyFrom 1 sampleBody {})) :=
      ⟨"return b, a".toList, by decide +kernel, by decide +kernel⟩
    have closes := (returns_inOut reached here inOut).2.2 none true [] closer before after
    exact ⟨progress, handled, reached, here, (closes.resolve_right fun other => other.1 last).2⟩

end Context

end Pseudocode
