import Pseudocode.Program.Line
import Pseudocode.Proofs.Outcome

namespace Pseudocode

namespace Context

/-- What one line comes to. A line of an algorithm header only tells whether the header ends; any
other is converted, and its code is laid out unless it is passed over as a declaration. -/
def lineStep (context : Context) (number : Nat) (raw : Text) (progress : Progress) :
    Except Fault Unit × Progress :=
  let split := splitLine progress.inComment (straightQuotes raw)
  let code := trim split.code
  let reached : Progress := { progress with inComment := split.inBlock }
  if progress.inHeader then
    (.ok (), { reached with inHeader := !context.endsHeader code })
  else
    match outcome (context.convertCode number progress code) { notices := progress.notices } with
    | (.error fault, desk) => (.error fault, { reached with notices := desk.notices })
    | (.ok (_, none), desk) => (.ok (), { reached with notices := desk.notices })
    | (.ok (statement, some effect), desk) =>
      let next : Progress := { reached with
        frames := effect.frames
        inHeader := statement.kind = .algorithmHeader
        inLexique := statement.kind = .lexique
        notices := desk.notices }
      (.ok (), next.emit (indentation (straightQuotes raw)) effect.lines
        (split.comment.map context.layout.comment))

theorem outcome_converting {α : Type} (conversion : Conversion α) (progress : Progress) :
    outcome (converting conversion) progress =
      ((outcome conversion { notices := progress.notices }).1,
        { progress with notices := (outcome conversion { notices := progress.notices }).2.notices }) :=
  rfl

theorem outcome_processLine (context : Context) (number : Nat) (raw : Text) (progress : Progress) :
    outcome (context.processLine number raw) progress = context.lineStep number raw progress := by
  unfold processLine lineStep
  simp only [outcome_bind, outcome_get, outcome_modify]
  by_cases header : progress.inHeader = true
  · rw [if_pos header, if_pos header]
    by_cases ends :
        context.endsHeader (trim (splitLine progress.inComment (straightQuotes raw)).code) = true
    · simp [ends]
    · simp [ends, header]
  · rw [if_neg header, if_neg header]
    simp only [outcome_bind, outcome_converting]
    rcases outcome (context.convertCode number progress
      (trim (splitLine progress.inComment (straightQuotes raw)).code))
      { notices := progress.notices } with ⟨fault | ⟨statement, none | effect⟩, desk⟩
    · rfl
    · rfl
    · rfl

end Context

end Pseudocode
