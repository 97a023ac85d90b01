import Pseudocode.Proofs.Returns

namespace Pseudocode

/-- Lines of code laid out with a comment: it stands behind the last of them, or on a line of its own
where there is no code. An empty comment leaves no trace. -/
inductive Carries (indent : Text) : (comment : Text) → (code lines : List Text) → Prop
  | bare {code : List Text} : Carries indent [] code (code.map (indent ++ ·))
  | alone {comment : Text} : comment ≠ [] → Carries indent comment [] [indent ++ comment]
  | behind {comment last : Text} {code : List Text} :
      comment ≠ [] → Carries indent comment (code ++ [last])
        (code.map (indent ++ ·) ++ [indent ++ last ++ ' ' :: comment])

theorem layLines_cons (indent line : Text) (comment : Option Text) {code : List Text} (more : code ≠ []) :
    layLines indent comment (line :: code) = (indent ++ line) :: layLines indent comment code := by
  cases code with
  | nil => exact absurd rfl more
  | cons next code => rfl

theorem layLines_carries (indent comment : Text) (code : List Text) :
    Carries indent comment code (layLines indent (some comment) code) := by
  cases comment with
  | nil =>
    have lines : layLines indent (some []) code = code.map (indent ++ ·) := by
      induction code with
      | nil => rfl
      | cons line code ih =>
        by_cases more : code = []
        · subst more
          rfl
        · rw [layLines_cons indent line _ more, ih, List.map_cons]
    exact lines ▸ .bare
  | cons c body =>
    have solid : c :: body ≠ [] := by simp
    cases code using List.reverseRecOn with
    | nil => exact .alone solid
    | append_singleton code last =>
      have lines : layLines indent (some (c :: body)) (code ++ [last]) =
          code.map (indent ++ ·) ++ [indent ++ last ++ ' ' :: c :: body] := by
        clear * -
        induction code with
        | nil => rfl
        | cons line code ih =>
          rw [List.cons_append, layLines_cons _ _ _ (by simp), ih, List.map_cons, List.cons_append]
      exact lines ▸ .behind solid

/-- A comment in Lua: a space keeps a bracket at its start away from the comment mark. -/
theorem Layout.comment_eq (layout : Layout) (body : Text) :
    layout.comment body = layout.commentMark ++ (if body.head? = some '[' then [' '] else []) ++ body := by
  unfold comment
  split <;> simp

/-- Whether a block comment is open after these lines, the first of which stands in one or not. -/
def openComment (inBlock : Bool) (ls : List Text) : Bool :=
  ls.foldl (fun inBlock raw => (splitLine inBlock (straightQuotes raw)).inBlock) inBlock

namespace Context

/-- The line is not converted: it stands in an algorithm header, or it is no more than one of the
declarations that are passed over. -/
def PassesOver (context : Context) (progress : Progress) (raw : Text) : Prop :=
  progress.inHeader = true ∨ progress.inLexique = true ∧
    endsLexique (Statement.ofLine context.language (({} : Store).mask (readCode progress raw)).2).kind = false

variable {context : Context} {number : Nat} {raw : Text} {progress next : Progress}

theorem convertCode_none {statement : Statement} {desk : Desk} {notices : Array Notice}
    (run : Gives (context.convertCode number progress (readCode progress raw)) { notices } (statement, none) desk) :
    context.PassesOver progress raw := by
  obtain ⟨masked, _, mask, rest⟩ := run.of_bind
  obtain ⟨_, _, notified, rest⟩ := rest.of_bind
  cases mask
  cases notified
  split at rest
  · rename_i passed
    exact .inr (by simpa [Store.mask] using passed)
  · obtain ⟨_, _, -, rest⟩ := rest.of_bind
    have same := rest.of_pure.1
    simp at same

/-- Block comments are carried from line to line, whatever the lines come to. -/
theorem processFrom_inComment {ls : List Text} {reached : Progress}
    (run : Gives (context.processFrom number ls) progress () reached) :
    reached.inComment = openComment progress.inComment ls := by
  induction ls generalizing number progress with
  | nil =>
    cases run
    rfl
  | cons raw ls ih =>
    obtain ⟨_, next, first, later⟩ := run.of_bind
    rw [Gives, outcome_processLine] at first
    rw [ih later, lineStep_inComment first]
    rfl

/-- What one line that is converted adds to the output. -/
theorem lineStep_carries {body : Text} (step : context.lineStep number raw progress = (.ok (), next))
    (converted : ¬context.PassesOver progress raw)
    (comment : (splitLine progress.inComment (straightQuotes raw)).comment = some body) :
    ∃ statement effect desk lines,
      Gives (context.convertCode number progress (readCode progress raw)) { notices := progress.notices }
        (statement, some effect) desk ∧
      Carries (indentation (straightQuotes raw)) (context.layout.comment body) effect.lines lines ∧
      next.output = progress.output ++ lines.toArray := by
  unfold lineStep at step
  simp only [if_neg fun header => converted (.inl header)] at step
  split at step
  · simp at step
  · rename_i given
    exact absurd (convertCode_none given) converted
  · rename_i statement effect desk given
    obtain ⟨-, rfl⟩ := Prod.mk.inj step
    refine ⟨statement, effect, desk, _, given, layLines_carries _ _ _, ?_⟩
    simp only [Progress.emit, comment, Option.map_some]

theorem outcome_processFrom_append (context : Context) (number : Nat) {before : List Text} {reached : Progress}
    (run : Gives (context.processFrom number before) progress () reached) (after : List Text) :
    outcome (context.processFrom number (before ++ after)) progress =
      outcome (context.processFrom (number + before.length) after) reached := by
  induction before generalizing number progress with
  | nil =>
    cases run
    rfl
  | cons raw before ih =>
    obtain ⟨_, next, first, later⟩ := run.of_bind
    rw [List.cons_append, processFrom, outcome_bind, show outcome _ _ = _ from first]
    simp only
    rw [ih (number + 1) later, List.length_cons]
    congr 2
    omega

/-- A comment survives. Where a line that is converted ends in a comment, the lines that it adds to the
output are those of its code, and the last of them carries the comment. -/
theorem processSource_comment {source : Text} {before after : List Text}
    (split : lines source = before ++ raw :: after)
    (earlier : Gives (context.processFrom 1 before) {} () progress)
    (here : Gives (context.processLine (before.length + 1) raw) progress () next) {body : Text}
    (comment : (splitLine (openComment false before) (straightQuotes raw)).comment = some body)
    (converted : ¬context.PassesOver progress raw) :
    ∃ statement effect desk added,
      Gives (context.convertCode (before.length + 1) progress (readCode progress raw))
        { notices := progress.notices } (statement, some effect) desk ∧
      Carries (indentation (straightQuotes raw))
        (context.layout.commentMark ++ (if body.head? = some '[' then [' '] else []) ++ body) effect.lines added ∧
      next.output = progress.output ++ added.toArray ∧
      ∀ text final, Gives (context.processSource source) {} text final →
        ∃ later, text = unlines (progress.output.toList ++ added ++ later) := by
  rw [Gives, outcome_processLine] at here
  have carried := processFrom_inComment earlier
  obtain ⟨statement, effect, desk, added, given, carries, output⟩ :=
    lineStep_carries here converted (by rw [carried]; exact comment)
  rw [Layout.comment_eq] at carries
  refine ⟨statement, effect, desk, added, given, carries, output, fun text final run => ?_⟩
  obtain ⟨reached, processed, rfl⟩ := processSource_output run
  rw [split, Gives, context.outcome_processFrom_append 1 earlier, Nat.add_comm] at processed
  obtain ⟨_, same, first, rest⟩ := Gives.of_bind processed
  rw [Gives, outcome_processLine, here] at first
  cases first
  have ended := (context.historyFrom_run (before.length + 1 + 1) after next).2
  rw [show outcome _ _ = _ from rest, output] at ended
  refine ⟨(context.historyFrom (before.length + 1 + 1) after next).flatMap (·.laid.lines), ?_⟩
  rw [ended]
  simp

/-- The body of a function that hands a parameter back, with a block comment that its last line closes. -/
def blockBody : List Text :=
  ["Fonction f(InOut a) : entier", "Début /* b"].map (·.toList)

/-- How far the work is before the last line. -/
def blockReached : Progress :=
  (outcome (sampleContext.processFrom 1 blockBody) {}).2

/-- The last line closes the function, and carries a comment that is kept from opening a long one. -/
theorem processSource_comment_bracket :
    ∃ code added, Carries [] "-- [x".toList code added ∧
      (outcome (sampleContext.processLine 3 "*/ Fin //[x".toList) blockReached).2.output =
        blockReached.output ++ added.toArray := by
  have earlier : Gives (sampleContext.processFrom 1 blockBody) {} () blockReached :=
    gives_of_isOk (by decide +kernel)
  have here : Gives (sampleContext.processLine 3 "*/ Fin //[x".toList) blockReached () _ :=
    gives_of_isOk (by decide +kernel)
  have split : lines (unlines (blockBody ++ ["*/ Fin //[x".toList])) = blockBody ++ "*/ Fin //[x".toList :: [] := by
    decide +kernel
  have comment : (splitLine (openComment false blockBody) (straightQuotes "*/ Fin //[x".toList)).comment =
      some "[x".toList := by
    decide +kernel
  have converted : ¬sampleContext.PassesOver blockReached "*/ Fin //[x".toList := by
    unfold PassesOver
    decide +kernel
  obtain ⟨_, effect, _, added, -, carries, output, -⟩ :=
    processSource_comment split earlier here comment converted
  exact ⟨effect.lines, added, carries, output⟩

end Context

end Pseudocode
