import Pseudocode.Proofs.BlockWords
import Pseudocode.Proofs.CommentFree

namespace Pseudocode

open List Option
variable {frames : List Frame} {progress : Progress} {context : Context} {source : Text}

/-- The line that closes a block in Lua. -/
def endLine : Text :=
  ['e', 'n', 'd']

namespace Frame

variable {closed : Option BlockKeyword}

/-- Blocks of functions and control statements are closed by a line of their own. -/
def needsEnd : Frame → Bool
  | main => false
  | _ => true

/-- How many lines are still to come that close a block. -/
def owed (frames : List Frame) : Nat :=
  frames.countP needsEnd

/-- The blocks that a closer ends, from the innermost on, and those that stay open. A closer ends the
innermost block that it names and all blocks inside that one, or the innermost block of all if it names
none that is open. -/
inductive Pops (closed : Option BlockKeyword) : (popped rest : List Frame) → Prop
  | named {keyword : BlockKeyword} {inner rest : List Frame} {frame : Frame} :
      closed = some keyword → frame.keyword? = some keyword →
        (∀ other ∈ inner, other.keyword? ≠ some keyword) → Pops closed (inner ++ [frame]) rest
  | innermost {frame : Frame} {rest : List Frame} :
      (∀ keyword, closed = some keyword → ∀ other ∈ frame :: rest, other.keyword? ≠ some keyword) →
        Pops closed [frame] rest

theorem Pops.ne_nil {popped rest : List Frame} (pops : Pops closed popped rest) : popped ≠ [] := by
  cases pops <;> simp

@[simp] theorem owed_nil : owed [] = 0 :=
  rfl

theorem owed_cons (frame : Frame) (frames : List Frame) :
    owed (frame :: frames) = owed frames + if frame.needsEnd then 1 else 0 :=
  countP_cons

theorem owed_append (first second : List Frame) : owed (first ++ second) = owed first + owed second :=
  countP_append

/-- The beginning of a block opens nothing that needs a line to close it. -/
theorem owed_begin (frames : List Frame) : owed (begin frames) = owed frames := by
  unfold begin
  split
  · simp [owed_cons, needsEnd]
  · simp [owed_cons, needsEnd]

theorem count_closing (layout : Layout) (lastCode : Text) (frame : Frame) :
    (closing layout lastCode frame).count endLine = if frame.needsEnd then 1 else 0 := by
  have single : ["end".toList].count endLine = 1 := by decide
  cases frame with
  | main => rfl
  | control keyword => exact single
  | function signature opened =>
    cases signature with
    | none => exact single
    | some signature =>
      simp only [closing]
      split
      · exact single
      · have longer : layout.indent ++ "return ".toList ++ commaSeparated (implicitValues signature) ≠
            endLine := by
          intro same
          have length := congrArg List.length same
          have keyword : "return ".toList.length = 7 := by decide
          have word : endLine.length = 3 := rfl
          simp only [length_append] at length
          omega
        rw [count_cons_of_ne longer]
        exact single

/-- Where each block is closed by one line if it needs one, as many are emitted as were owed. -/
theorem count_flatMap {pieces : Frame → List Text}
    (once : ∀ frame, (pieces frame).count endLine = if frame.needsEnd then 1 else 0)
    (popped : List Frame) : (popped.flatMap pieces).count endLine = owed popped := by
  induction popped with
  | nil => rfl
  | cons frame popped ih =>
    rw [flatMap_cons, count_append, once, ih, owed_cons]
    omega

theorem pops_of_closedCount (filled : frames ≠ []) :
    Pops closed (frames.take ((closedCount? closed frames).getD 1))
      (frames.drop ((closedCount? closed frames).getD 1)) := by
  obtain ⟨top, below, rfl⟩ := exists_cons_of_ne_nil filled
  cases closed with
  | none => exact .innermost (by simp)
  | some keyword =>
    rw [closedCount?]
    cases found : (top :: below).findIdx? fun frame => frame.keyword? = some keyword with
    | none =>
      have unnamed := findIdx?_eq_none_iff.mp found
      refine .innermost fun named same other member => ?_
      cases same
      simpa using unnamed other member
    | some index =>
      obtain ⟨within, here, earlier⟩ := findIdx?_eq_some_iff_getElem.mp found
      rw [map_some, getD_some, take_add_one, getElem?_eq_getElem within]
      refine .named rfl (by simpa using here) fun other member => ?_
      obtain ⟨place, before, rfl⟩ := mem_iff_getElem.mp member
      rw [length_take] at before
      have other := earlier place (by omega)
      rw [getElem_take]
      simpa using other

/-- A closer on open blocks ends some of them, and each of those is closed once. -/
theorem close_pops (layout : Layout) (lastCode : Text) (closed : Option BlockKeyword)
    (filled : frames ≠ []) :
    ∃ popped, frames = popped ++ (close layout lastCode closed frames).2 ∧
      Pops closed popped (close layout lastCode closed frames).2 ∧
      (close layout lastCode closed frames).1 = popped.flatMap (closing layout lastCode) := by
  have nonempty : frames.isEmpty = false := by simpa using filled
  refine ⟨frames.take ((closedCount? closed frames).getD 1), ?_, ?_, ?_⟩
  · simp [close, nonempty]
  · simpa [close, nonempty] using pops_of_closedCount filled
  · simp [close, nonempty]

end Frame

namespace Statement

theorem opened?_eq_some {statement : Statement} {signature : Option Signature} {words : List String}
    {frame : Frame} (opened : statement.opened? signature = some (words, frame)) :
    statement.opensBlock = true ∧ frame.needsEnd = true := by
  cases statement <;> cases opened <;> exact ⟨rfl, rfl⟩

/-- What a statement does to the open blocks, and the code that it emits. A header opens the block that
its first words tell, and a closer names the blocks that its words tell. -/
inductive Moves (context : Context) (statement : Statement) (line : Text) (before : List Frame) :
    List Text → List Frame → Prop
  | opens {header : Text} {words : List String} {frame : Frame} :
      statement.opened? (context.headerSignature? line) = some (words, frame) → Begins words line →
        Moves context statement line before [header] (frame :: before)
  | closes {closed : Option BlockKeyword} {popped rest : List Frame} {pieces : Frame → List Text} :
      statement = .blockClose closed → (∀ keyword, closed = some keyword ↔ keyword.IsNamedBy line) →
        before = popped ++ rest → Frame.Pops closed popped rest →
        (∀ frame, (pieces frame).count endLine = if frame.needsEnd then 1 else 0) →
        Moves context statement line before (popped.flatMap pieces) rest
  | stray {closed : Option BlockKeyword} :
      statement = .blockClose closed → (∀ keyword, closed = some keyword ↔ keyword.IsNamedBy line) →
        before = [] → Moves context statement line before [endLine] []
  | begins : statement = .sectionMarker → Moves context statement line before [] (Frame.begin before)
  | keeps {code : List Text} :
      statement.opensBlock = false → statement.kind ≠ .blockClose →
        Moves context statement line before code before

end Statement

namespace Context

variable {context : Context}
variable {statement : Statement}

theorem effect_moves {line lastCode : Text} {desk reached : Desk} {effect : Effect}
    (read : statement = .ofLine context.language line)
    (run : Gives (context.effect statement line frames lastCode) desk effect reached) :
    statement.Moves context line frames effect.lines effect.frames := by
  have fits := Statement.ofLine_fits context.language line
  rw [← read] at fits
  have starts {words : List String} {frame : Frame}
      (opened : statement.opened? (context.headerSignature? line) = some (words, frame)) : Begins words line :=
    fits.begins opened
  unfold Context.effect at run
  cases statement with
  | blank | algorithmHeader | lexique | typeDeclaration | variableDeclaration | read | elseBranch =>
    obtain ⟨rfl, -⟩ := run.of_pure
    exact .keeps rfl (by simp [Statement.kind])
  | sectionMarker =>
    obtain ⟨rfl, -⟩ := run.of_pure
    exact .begins rfl
  | arrayDeclaration | elseIf | giveBack | write | assignment | expression =>
    obtain ⟨code, _, -, run⟩ := run.of_bind
    obtain ⟨rfl, -⟩ := run.of_pure
    exact .keeps rfl (by simp [Statement.kind])
  | functionHeader | forEach | counted | whileLoop | ifThen =>
    obtain ⟨code, _, -, run⟩ := run.of_bind
    obtain ⟨rfl, -⟩ := run.of_pure
    exact .opens rfl (starts rfl)
  | blockClose closed =>
    have names := fits.isNamedBy_iff
    obtain ⟨_, _, -, run⟩ := run.of_bind
    obtain ⟨rfl, -⟩ := run.of_pure
    by_cases empty : frames = []
    · subst empty
      exact .stray rfl names rfl
    · obtain ⟨popped, split, pops, code⟩ :=
        Frame.close_pops context.layout lastCode closed empty
      have moves := @Statement.Moves.closes context _ line _ _ _ _ _ rfl names split pops
        (Frame.count_closing context.layout lastCode)
      rw [← code] at moves
      exact moves

theorem convertCode_effect {number : Nat} {code : Text} {desk reached : Desk} {effect : Effect}
    (run : Gives (context.convertCode number progress code) desk (statement, some effect) reached) :
    statement.Moves context (desk.store.mask code).2 progress.frames effect.lines effect.frames := by
  obtain ⟨masked, _, mask, run⟩ := run.of_bind
  obtain ⟨_, _, notified, run⟩ := run.of_bind
  cases mask
  cases notified
  split at run
  · obtain ⟨same, -⟩ := run.of_pure
    simp at same
  · obtain ⟨given, _, effected, run⟩ := run.of_bind
    obtain ⟨same, -⟩ := run.of_pure
    obtain ⟨rfl, equal⟩ := Prod.mk.inj same
    obtain rfl := Option.some.inj equal
    exact effect_moves rfl effected

end Context

/-- A line that was read as a statement and had an effect: the line with its literals held back, what it
was read as, the blocks that were open before and after it, and what it added to the output. -/
structure Handled where
  line : Text
  statement : Statement
  before : List Frame
  laid : Laid
  after : List Frame

namespace Context

/-- The code of a line that is read at some point of a run. -/
def readCode (progress : Progress) (raw : Text) : Text :=
  trim (splitLine progress.inComment (straightQuotes raw)).code

/-- What becomes of a line, unless it is passed over. -/
def handled? (context : Context) (number : Nat) (raw : Text) (progress : Progress) : Option Handled :=
  if progress.inHeader then none
  else
    match (outcome (context.convertCode number progress
        (trim (splitLine progress.inComment (straightQuotes raw)).code))
      { notices := progress.notices }).1 with
    | .ok (statement, some effect) =>
      some { line := (({} : Store).mask (readCode progress raw)).2, statement, before := progress.frames,
             laid := context.laidLine number raw progress, after := effect.frames }
    | _ => none

/-- A handled line was converted, and what came of it is laid out with its indentation and comment. -/
theorem handled?_gives {number : Nat} {raw : Text} {handled : Handled}
    (found : context.handled? number raw progress = some handled) :
    ∃ effect desk, Gives (context.convertCode number progress (readCode progress raw))
        { notices := progress.notices } (handled.statement, some effect) desk ∧
      handled.before = progress.frames ∧ handled.after = effect.frames ∧
      handled.laid =
        { indent := indentation (straightQuotes raw)
          comment := (splitLine progress.inComment (straightQuotes raw)).comment.map context.layout.comment
          code := effect.lines } := by
  unfold handled? at found
  split at found
  · simp at found
  · rename_i outside
    split at found
    · rename_i statement effect given
      obtain rfl := Option.some.inj found
      refine ⟨effect, _, Prod.ext given rfl, rfl, rfl, ?_⟩
      simp only [laidLine, if_neg outside, given]
    · simp at found

theorem handled?_line {number : Nat} {raw : Text} {handled : Handled}
    (found : context.handled? number raw progress = some handled) :
    handled.line = (({} : Store).mask (readCode progress raw)).2 := by
  unfold handled? at found
  split at found
  · simp at found
  · split at found
    · obtain rfl := Option.some.inj found
      rfl
    · simp at found

/-- What becomes of consecutive lines, up to a fault that stops the work. -/
def historyFrom (context : Context) (number : Nat) : List Text → Progress → List Handled
  | [], _ => []
  | raw :: rest, progress =>
    match context.lineStep number raw progress with
    | (.error _, _) => []
    | (.ok _, next) =>
      (context.handled? number raw progress).toList ++ context.historyFrom (number + 1) rest next

end Context

/-- Lines handled one after the other: each finds the blocks open that the one before it left. -/
inductive Chain (context : Context) : List Frame → List Handled → List Frame → Prop
  | nil {frames : List Frame} : Chain context frames [] frames
  | cons {handled : Handled} {rest : List Handled} {final : List Frame} :
      handled.statement.Moves context handled.line handled.before handled.laid.code handled.after →
        Chain context handled.after rest final → Chain context handled.before (handled :: rest) final

/-- The blocks that are open in the end are those after the last line that was handled. -/
theorem Chain.final {before after : List Frame} {history : List Handled}
    (run : Chain context before history after) : after = (history.getLast?.map (·.after)).getD before := by
  induction run with
  | nil => rfl
  | @cons handled rest final _ _ ih =>
    rw [ih, getLast?_cons]
    cases rest.getLast? <;> rfl

namespace Context

variable {context : Context} {number : Nat} {raw : Text} {progress : Progress}
variable {next : Progress}

theorem lineStep_error {fault : Fault} (step : context.lineStep number raw progress = (.error fault, next)) :
    next.frames = progress.frames ∧ next.output = progress.output := by
  unfold lineStep at step
  simp only at step
  split at step
  · simp at step
  · split at step
    · obtain ⟨-, rfl⟩ := Prod.mk.inj step
      exact ⟨rfl, rfl⟩
    · simp at step
    · simp at step

/-- A line is handled in one move, or leaves blocks and output as they are. -/
theorem lineStep_handled {rest : List Handled} {final : List Frame}
    (step : context.lineStep number raw progress = (.ok (), next)) (later : Chain context next.frames rest final) :
    Chain context progress.frames ((context.handled? number raw progress).toList ++ rest) final ∧
      next.output = progress.output ++
        ((context.handled? number raw progress).toList.flatMap (·.laid.lines)).toArray := by
  have output := lineStep_output step
  unfold lineStep at step
  unfold handled?
  unfold laidLine at output ⊢
  by_cases header : progress.inHeader = true
  · simp only [if_pos header, Prod.mk.injEq, true_and] at step output ⊢
    subst step
    exact ⟨later, by simp⟩
  · simp only [if_neg header] at step output ⊢
    split at step
    · simp at step
    · rename_i given
      simp only [given] at output ⊢
      obtain ⟨-, rfl⟩ := Prod.mk.inj step
      exact ⟨later, by simp⟩
    · rename_i statement effect desk given
      simp only [given] at output ⊢
      obtain ⟨-, rfl⟩ := Prod.mk.inj step
      exact ⟨@Chain.cons context ⟨_, statement, progress.frames, _, effect.frames⟩ rest final
        (convertCode_effect given) later, by simpa using output⟩

theorem lineStep_inComment (step : context.lineStep number raw progress = (.ok (), next)) :
    next.inComment = (splitLine progress.inComment (straightQuotes raw)).inBlock := by
  unfold lineStep at step
  simp only at step
  split at step
  · cases step
    rfl
  · split at step
    · simp at step
    · cases step
      rfl
    · cases step
      rfl

/-- What holds of every line that is handled, from what one line comes to while the open blocks keep a
property. -/
theorem historyFrom_each (raws codes : Text → Prop) {framed : Frame → Prop} {holds : Handled → Prop}
    (step : ∀ {number raw progress handled}, raws raw →
      codes (splitLine progress.inComment (straightQuotes raw)).code →
      (∀ frame ∈ progress.frames, framed frame) → context.handled? number raw progress = some handled →
        holds handled ∧ ∀ frame ∈ handled.after, framed frame)
    {ls : List Text} (given : ∀ raw ∈ ls, raws raw) (number : Nat)
    (read : ∀ code ∈ codeLines progress.inComment (ls.map straightQuotes), codes code)
    (frames : ∀ frame ∈ progress.frames, framed frame) :
    ∀ handled ∈ context.historyFrom number ls progress, holds handled := by
  induction ls generalizing number progress with
  | nil => simp [historyFrom]
  | cons raw rest ih =>
    obtain ⟨rawHolds, restHold⟩ := forall_mem_cons.mp given
    obtain ⟨codeHolds, codesHold⟩ := forall_mem_cons.mp read
    rw [historyFrom]
    split
    · simp
    · rename_i next moved
      intro handled member
      have here {handled : Handled} (found : context.handled? number raw progress = some handled) :=
        step rawHolds codeHolds frames found
      have later : ∀ frame ∈ next.frames, framed frame := by
        have final := (lineStep_handled moved .nil).1.final
        cases found : context.handled? number raw progress with
        | none =>
          have same : next.frames = progress.frames := by simpa [found] using final
          exact same ▸ frames
        | some handled =>
          have same : next.frames = handled.after := by simpa [found] using final
          exact same ▸ (here found).2
      rcases mem_append.mp member with first | others
      · exact (here (by simpa using first)).1
      · exact ih restHold (number + 1) (lineStep_inComment moved ▸ codesHold) later handled others

theorem historyFrom_run (context : Context) (number : Nat) (ls : List Text) (progress : Progress) :
    Chain context progress.frames (context.historyFrom number ls progress)
        (outcome (context.processFrom number ls) progress).2.frames ∧
      (outcome (context.processFrom number ls) progress).2.output = progress.output ++
        ((context.historyFrom number ls progress).flatMap (·.laid.lines)).toArray := by
  induction ls generalizing number progress with
  | nil => exact ⟨.nil, by simp [processFrom, historyFrom]⟩
  | cons raw rest ih =>
    rw [processFrom, outcome_bind, outcome_processLine, historyFrom]
    rcases step : context.lineStep number raw progress with ⟨fault | _, next⟩
    · obtain ⟨frames, output⟩ := lineStep_error step
      simp only [frames, output]
      exact ⟨.nil, by simp⟩
    · obtain ⟨later, added⟩ := ih (number + 1) next
      obtain ⟨run, output⟩ := lineStep_handled step later
      refine ⟨run, ?_⟩
      simp only [added, output, flatMap_append, Array.append_assoc]
      simp

/-- The text of a source is made of the lines that its run has put out. -/
theorem processSource_output {text : Text} {final : Progress}
    (run : Gives (context.processSource source) {} text final) :
    ∃ reached, Gives (context.processFrom 1 (lines source)) {} () reached ∧
      text = unlines reached.output.toList := by
  obtain ⟨_, reached, processed, run⟩ := run.of_bind
  obtain ⟨_, _, got, run⟩ := run.of_bind
  cases got
  refine ⟨reached, processed, ?_⟩
  split at run
  · obtain ⟨_, _, -, run⟩ := run.of_bind
    exact run.of_pure.1
  · exact run.of_pure.1

/-- The emitted text is what the handled lines add to the output. -/
theorem processSource_history {body : Text} (run : Gives (context.processSource source) {} body progress) :
    body = unlines ((context.historyFrom 1 (lines source) {}).flatMap (·.laid.lines)) := by
  obtain ⟨-, output⟩ := context.historyFrom_run 1 (lines source) {}
  obtain ⟨reached, processed, rfl⟩ := processSource_output run
  rw [show outcome (context.processFrom 1 (lines source)) {} = _ from processed] at output
  rw [output]
  simp

end Context

theorem convert_of_gives {layout : Layout} {body : Text}
    (run : Gives ((Context.ofSource standardLanguage layout source).processSource source) {} body progress) :
    convert layout source =
      .ok (if layout.emitPrelude then Prelude.text ++ '\n' :: body else body) := by
  unfold convert Assembly.run
  simp only [Assembly.runPasses, foldl_nil]
  rw [show ((Context.ofSource standardLanguage layout source).processSource source).run.run {} = _
    from run]

/-- A program is the emitted text of its source, with the prelude before it if that is asked for. -/
theorem convert_body {layout : Layout} {lua : Text} (run : convert layout source = .ok lua) :
    ∃ body, lua = (if layout.emitPrelude then Prelude.text ++ '\n' :: body else body) ∧
      body = unlines (((Context.ofSource standardLanguage layout source).historyFrom 1
        (lines source) {}).flatMap (·.laid.lines)) := by
  unfold convert Assembly.run at run
  simp only [Assembly.runPasses, foldl_nil] at run
  rcases ended : ((Context.ofSource standardLanguage layout source).processSource source).run.run {}
    with ⟨fault | body, progress⟩
  · rw [ended] at run
    simp at run
  · rw [ended] at run
    have given : Gives ((Context.ofSource standardLanguage layout source).processSource source) {}
        body progress := ended
    exact ⟨body, (Except.ok.inj run).symm, Context.processSource_history given⟩

/-- What the accounts are kept of: headers of blocks and lines that close them. -/
inductive Mark where
  | header
  | ending
  deriving DecidableEq, Repr

namespace Handled

def isCloser (handled : Handled) : Bool :=
  handled.statement.kind = .blockClose

/-- A closer that met no open block. -/
def isStray (handled : Handled) : Bool :=
  handled.isCloser && handled.before.isEmpty

/-- The closing lines that a closer emitted. -/
def ends (handled : Handled) : Nat :=
  if handled.isCloser then handled.laid.code.count endLine else 0

/-- The marks that a line leaves in the output, in order. -/
def marks (handled : Handled) : List Mark :=
  if handled.statement.opensBlock then [.header] else List.replicate handled.ends .ending

end Handled

/-- The headers handled in a run. -/
def headers (history : List Handled) : Nat :=
  history.countP (·.statement.opensBlock)

/-- The closing lines emitted for blocks that were open. -/
def closings (history : List Handled) : Nat :=
  ((history.filter (!·.isStray)).map Handled.ends).sum

/-- The closers that met no open block. -/
def strays (history : List Handled) : Nat :=
  history.countP Handled.isStray

namespace Statement.Moves

variable {handled : Handled}

/-- One move keeps the books: what it opens, closes and leaves open adds up, and a closer that meets no
block emits one line. -/
theorem balance
    (moves : handled.statement.Moves context handled.line handled.before handled.laid.code handled.after) :
    (if handled.statement.opensBlock then 1 else 0) + Frame.owed handled.before =
        (if handled.isStray then 0 else handled.ends) + Frame.owed handled.after ∧
      (handled.isStray = true → handled.ends = 1) := by
  obtain ⟨line, statement, before, ⟨indent, comment, code⟩, after⟩ := handled
  simp only at moves ⊢
  cases moves with
  | opens opened =>
    obtain ⟨isHeader, needs⟩ := opened?_eq_some opened
    have other : statement.kind ≠ .blockClose := by
      rintro isCloser
      cases statement <;> simp [Statement.kind, Statement.opensBlock] at isCloser isHeader
    simp [Handled.isStray, Handled.isCloser, Handled.ends, isHeader, other, Frame.owed_cons, needs]
    omega
  | @closes closed popped rest pieces isCloser _ split pops once =>
    subst isCloser split
    have filled := pops.ne_nil
    have count := Frame.count_flatMap once popped
    simp [Handled.isStray, Handled.isCloser, Handled.ends, Statement.kind, Statement.opensBlock, filled,
      count, Frame.owed_append]
  | stray isCloser _ empty =>
    subst isCloser empty
    simp [Handled.isStray, Handled.isCloser, Handled.ends, Statement.kind, Statement.opensBlock]
  | begins isMarker =>
    subst isMarker
    simp [Handled.isStray, Handled.isCloser, Handled.ends, Statement.kind, Statement.opensBlock,
      Frame.owed_begin]
  | keeps notHeader notCloser =>
    simp [Handled.isStray, Handled.isCloser, Handled.ends, notHeader, notCloser]

end Statement.Moves

namespace Chain

variable {before after : List Frame} {history : List Handled}

theorem balance (run : Chain context before history after) :
    headers history + Frame.owed before = closings history + Frame.owed after := by
  induction run with
  | nil => simp [headers, closings]
  | @cons handled rest final moves _ ih =>
    obtain ⟨step, -⟩ := moves.balance
    simp only [headers, closings, countP_cons, filter_cons] at ih ⊢
    cases stray : handled.isStray <;> simp [stray] at step ⊢ <;> omega

theorem ends_eq (run : Chain context before history after) :
    (history.map Handled.ends).sum = closings history + strays history := by
  induction run with
  | nil => rfl
  | @cons handled rest final moves _ ih =>
    obtain ⟨-, one⟩ := moves.balance
    simp only [strays, closings, map_cons, sum_cons, countP_cons, filter_cons] at ih ⊢
    cases stray : handled.isStray with
    | true =>
      have single := one stray
      simp
      omega
    | false =>
      simp
      omega

end Chain

namespace Statement.Moves

variable {handled : Handled}

theorem count_marks
    (moves : handled.statement.Moves context handled.line handled.before handled.laid.code handled.after) :
    handled.marks.count .ending = handled.ends ∧
      handled.marks.count .header = if handled.statement.opensBlock then 1 else 0 := by
  unfold Handled.marks
  by_cases isHeader : handled.statement.opensBlock = true
  · have other : handled.isCloser = false := by
      obtain ⟨_, statement, _, _, _⟩ := handled
      cases statement <;> simp [Handled.isCloser, Statement.kind, Statement.opensBlock] at isHeader ⊢
    simp [isHeader, Handled.ends, other]
  · simp [isHeader, count_replicate]

end Statement.Moves

namespace Chain

variable {before after : List Frame} {history : List Handled}

theorem count_marks (run : Chain context before history after) :
    (history.flatMap Handled.marks).count .ending = (history.map Handled.ends).sum ∧
      (history.flatMap Handled.marks).count .header = headers history := by
  induction run with
  | nil => exact ⟨rfl, rfl⟩
  | cons moves _ ih =>
    obtain ⟨ending, header⟩ := moves.count_marks
    simp only [flatMap_cons, count_append, map_cons, sum_cons, headers,
      countP_cons, ending, header] at ih ⊢
    omega

/-- Where every closer met an open block, no part of the output from its start on closes more blocks than
it opens and than were open before. -/
theorem prefix_le (run : Chain context before history after) (met : strays history = 0) {word : List Mark}
    (starts : word <+: history.flatMap Handled.marks) :
    word.count .ending ≤ word.count .header + Frame.owed before := by
  induction run generalizing word with
  | nil =>
    obtain rfl := prefix_nil.mp starts
    simp
  | @cons handled rest final moves _ ih =>
    obtain ⟨step, -⟩ := moves.balance
    obtain ⟨ending, header⟩ := moves.count_marks
    have here : handled.isStray = false ∧ strays rest = 0 := by
      simp only [strays, countP_cons] at met ⊢
      cases stray : handled.isStray <;> simp [stray] at met ⊢
      exact met
    simp only [here.1, Bool.false_eq_true, if_false] at step
    rw [flatMap_cons] at starts
    rcases prefix_or_prefix_of_prefix starts (prefix_append _ _) with inside | ⟨later, rfl⟩
    · have fewer := inside.sublist.count_le Mark.ending
      by_cases isHeader : handled.statement.opensBlock = true
      · have none : handled.marks = [.header] := by simp [Handled.marks, isHeader]
        rw [none] at fewer
        simp at fewer
        omega
      · simp only [isHeader, Bool.false_eq_true, if_false] at step
        omega
    · have bound := ih here.2 ((prefix_append_right_inj _).mp starts)
      simp only [count_append]
      omega

end Chain

/-- The books of a run from the start of a source: every header is paid for by a closing line or by a
block that is still open. -/
structure Accounted (context : Context) (history : List Handled) (reached : Progress) : Prop where
  run : Chain context [] history reached.frames
  output : reached.output.toList = history.flatMap (·.laid.lines)
  balance : headers history = closings history + Frame.owed reached.frames
  ends : (history.map Handled.ends).sum = closings history + strays history
  neverOverclosed : strays history = 0 → ∀ word, word <+: history.flatMap Handled.marks →
    word.count .ending ≤ word.count .header
  settled : strays history = 0 → reached.frames = [] →
    (history.flatMap Handled.marks).count .ending = (history.flatMap Handled.marks).count .header

/-- The books are in order after every line of every source. -/
theorem Context.blocks_accounted (context : Context) (source : Text) (count : Nat) :
    Accounted context (context.historyFrom 1 ((lines source).take count) {})
      (outcome (context.processFrom 1 ((lines source).take count)) {}).2 := by
  obtain ⟨run, output⟩ := context.historyFrom_run 1 ((lines source).take count) {}
  have balance := run.balance
  have ends := run.ends_eq
  obtain ⟨ending, header⟩ := run.count_marks
  refine ⟨run, by simp [output], by simpa using balance, ends, fun met word starts => ?_,
    fun met empty => ?_⟩
  · simpa using run.prefix_le met starts
  · have none : Frame.owed (outcome (context.processFrom 1 ((lines source).take count)) {}).2.frames = 0 := by
      rw [empty]
      rfl
    have start : Frame.owed ({} : Progress).frames = 0 := rfl
    rw [ending, header]
    omega

/-- A language without words of its own. -/
def bareContext : Context where
  language := { types := [], keywords := [], builtins := [], spellings := [] }

/-- Two loops inside a test, and a closer that names the test. -/
def nestedBlocks : Text :=
  "Si a Alors\nPour i de 1 à 2 Faire\nTant que b Faire\nFIN  Si\n".toList

/-- A named closer ends the blocks inside the one that it names, each with a line of its own. -/
theorem blocks_accounted_named :
    BlockKeyword.si.IsNamedBy "FIN  Si".toList ∧
      (bareContext.historyFrom 1 ((lines nestedBlocks).take 4) {}).map (fun handled =>
        (handled.line, handled.after)) = [
          ("Si a Alors".toList, [.control .si]),
          ("Pour i de 1 à 2 Faire".toList, [.control .pour, .control .si]),
          ("Tant que b Faire".toList, [.control .tantQue, .control .pour, .control .si]),
          ("FIN  Si".toList, [])] ∧
      closings (bareContext.historyFrom 1 ((lines nestedBlocks).take 4) {}) = 3 := by
  have balance := (bareContext.blocks_accounted nestedBlocks 4).balance
  have opened : headers (bareContext.historyFrom 1 ((lines nestedBlocks).take 4) {}) = 3 := by
    decide +kernel
  have settled : Frame.owed (outcome
      (bareContext.processFrom 1 ((lines nestedBlocks).take 4)) {}).2.frames = 0 := by
    decide +kernel
  exact ⟨BlockKeyword.isNamedBy_iff.mpr (by decide), by decide +kernel, by omega⟩

end Pseudocode
