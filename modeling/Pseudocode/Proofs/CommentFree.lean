import Pseudocode.Program.Assembly
import Pseudocode.Proofs.Comment
import Pseudocode.Proofs.Line

namespace Pseudocode

open List
variable {c : Char} {text line : Text} {ls : List Text}

theorem consHead_mem {piece : Text} {pieces : List Text} (member : piece ∈ consHead c pieces) :
    piece = [c] ∨ piece ∈ pieces ∨ ∃ old ∈ pieces, piece = c :: old := by
  cases pieces with
  | nil =>
    simp only [consHead, mem_singleton] at member
    exact .inl member
  | cons first others =>
    simp only [consHead, mem_cons] at member
    rcases member with rfl | member
    · exact .inr (.inr ⟨first, .head _, rfl⟩)
    · exact .inr (.inl (.tail _ member))

theorem lines_mem (member : line ∈ lines text) :
    ∀ c ∈ line, c ∈ text ∧ isLineBreak c = false := by
  fun_induction lines text generalizing line with
  | case1 => simp at member
  | case2 rest ih =>
    rcases mem_cons.mp member with rfl | later
    · simp
    · intro c inside
      exact ⟨by simp [(ih later c inside).1], (ih later c inside).2⟩
  | case3 c rest _ isBreak ih =>
    rcases mem_cons.mp member with rfl | later
    · simp
    · intro d inside
      exact ⟨by simp [(ih later d inside).1], (ih later d inside).2⟩
  | case4 c rest _ notBreak ih =>
    have plain : isLineBreak c = false := by simpa using notBreak
    intro d inside
    rcases consHead_mem member with rfl | later | ⟨old, later, rfl⟩
    · cases mem_singleton.mp inside
      exact ⟨.head _, plain⟩
    · exact ⟨.tail _ (ih later d inside).1, (ih later d inside).2⟩
    · rcases mem_cons.mp inside with rfl | inside
      · exact ⟨.head _, plain⟩
      · exact ⟨.tail _ (ih later d inside).1, (ih later d inside).2⟩

theorem lines_cons (plain : isLineBreak c = false) (rest : Text) :
    lines (c :: rest) = consHead c (lines rest) := by
  rw [lines, if_neg (by simp [plain])]
  rintro tail rfl rfl
  exact absurd plain (by decide)

theorem lines_append_break (unbroken : ∀ c ∈ line, isLineBreak c = false) (rest : Text) :
    lines (line ++ '\n' :: rest) = line :: lines rest := by
  induction line with
  | nil =>
    rw [nil_append, lines]
    · rfl
    · rintro tail equal
      exact absurd equal (by decide)
  | cons c line ih =>
    rw [cons_append, lines_cons (unbroken c (.head _)),
      ih fun d inside => unbroken d (.tail _ inside)]
    rfl

theorem lines_unlines (unbroken : ∀ line ∈ ls, ∀ c ∈ line, isLineBreak c = false) :
    lines (unlines ls) = ls := by
  induction ls with
  | nil => rfl
  | cons line ls ih =>
    have first := lines_append_break (unbroken line (.head _)) (unlines ls)
    rw [ih fun other member => unbroken other (.tail _ member)] at first
    simpa [unlines] using first

theorem splitComments_code_mem {reading : Reading}
    (member : c ∈ (splitComments reading text).code) : c ∈ text := by
  fun_induction splitComments reading text with
  | case1 | case2 | case3 | case8 => simp at member
  | case4 _ ih | case5 _ _ _ ih | case9 _ ih => simp [ih member]
  | case6 _ d _ ih =>
    simp only [consCode_code, mem_cons] at member
    grind
  | case7 _ d _ _ ih | case10 d _ _ _ _ ih =>
    simp only [consCode_code, mem_cons] at member
    grind

/-- The code of consecutive lines, the first of which stands in a block comment or not. -/
def codeLines : (inBlock : Bool) → List Text → List Text
  | _, [] => []
  | inBlock, line :: rest =>
    let split := splitLine inBlock line
    split.code :: codeLines split.inBlock rest

/-- A source with every line cut down to its code. -/
def withoutComments (source : Text) : Text :=
  unlines (codeLines false (lines source))

theorem codeLines_mem {inBlock : Bool} {code : Text}
    (member : code ∈ codeLines inBlock ls) : ∃ line ∈ ls, ∀ c ∈ code, c ∈ line := by
  induction ls generalizing inBlock with
  | nil => simp [codeLines] at member
  | cons line rest ih =>
    rcases mem_cons.mp member with rfl | later
    · exact ⟨line, .head _, fun c => splitComments_code_mem⟩
    · obtain ⟨other, inside, subset⟩ := ih later
      exact ⟨other, .tail _ inside, subset⟩

theorem lines_withoutComments (source : Text) :
    lines (withoutComments source) = codeLines false (lines source) := by
  refine lines_unlines fun code member c inside => ?_
  obtain ⟨line, fromSource, subset⟩ := codeLines_mem member
  exact (lines_mem fromSource c (subset c inside)).2

/-- What a line adds to the output: code, with the indentation and the comment it is laid out
with. -/
structure Laid where
  indent : Text
  comment : Option Text
  code : List Text

def Laid.lines (laid : Laid) : List Text :=
  layLines laid.indent laid.comment laid.code

namespace Context

variable {commented bare : Progress}

/-- What a line adds to the output. Lines of an algorithm header and passed-over declarations add
nothing, not even their comments. -/
def laidLine (context : Context) (number : Nat) (raw : Text) (progress : Progress) : Laid :=
  let split := splitLine progress.inComment (straightQuotes raw)
  let indent := indentation (straightQuotes raw)
  let nothing : Laid := { indent, comment := none, code := [] }
  if progress.inHeader then nothing
  else
    match (outcome (context.convertCode number progress (trim split.code))
      { notices := progress.notices }).1 with
    | .ok (_, some effect) =>
      { indent, comment := split.comment.map context.layout.comment, code := effect.lines }
    | _ => nothing

/-- What consecutive lines add to the output, or the fault that stops the work. -/
def laidFrom (context : Context) (number : Nat) : List Text → Progress → Except Fault (List Laid)
  | [], _ => .ok []
  | line :: rest, progress =>
    match context.lineStep number line progress with
    | (.error fault, _) => .error fault
    | (.ok _, next) =>
      (context.laidFrom (number + 1) rest next).map (context.laidLine number line progress :: ·)

/-- What the lines of a source add to the output. -/
def laid (context : Context) (source : Text) : Except Fault (List Laid) :=
  context.laidFrom 1 (lines source) {}

theorem lineStep_output {context : Context} {number : Nat} {raw : Text} {progress next : Progress}
    (run : context.lineStep number raw progress = (.ok (), next)) :
    next.output = progress.output ++ (context.laidLine number raw progress).lines.toArray := by
  unfold lineStep at run
  unfold laidLine
  by_cases header : progress.inHeader = true
  · simp only [if_pos header, Prod.mk.injEq, true_and] at run
    subst run
    simp [header, Laid.lines, layLines]
  · simp only [if_neg header] at run ⊢
    split at run
    · simp at run
    · rename_i given
      simp only [given]
      cases run
      simp [Laid.lines, layLines]
    · rename_i given
      simp only [given]
      cases run
      rfl

theorem outcome_processFrom (context : Context) (number : Nat) (ls : List Text)
    (progress : Progress) :
    match context.laidFrom number ls progress with
    | .ok laid => ∃ final, outcome (context.processFrom number ls) progress = (.ok (), final) ∧
        final.output = progress.output ++ (laid.flatMap Laid.lines).toArray
    | .error fault => (outcome (context.processFrom number ls) progress).1 = .error fault := by
  induction ls generalizing number progress with
  | nil => exact ⟨progress, rfl, by simp⟩
  | cons line rest ih =>
    simp only [processFrom, laidFrom, outcome_bind, outcome_processLine]
    rcases step : context.lineStep number line progress with ⟨fault | _, next⟩
    · rfl
    · have later := ih (number + 1) next
      have added := lineStep_output step
      simp only
      cases laid : context.laidFrom (number + 1) rest next with
      | error fault =>
        simp only [laid] at later
        exact later
      | ok laid =>
        simp only [laid] at later
        obtain ⟨final, run, output⟩ := later
        refine ⟨final, run, ?_⟩
        rw [output, added]
        simp [Array.append_assoc]

/-- The Lua text of a source is what its lines add, in order. -/
theorem processSource_laid (context : Context) (source : Text) :
    (outcome (context.processSource source) {}).1 =
      (context.laid source).map fun laid => unlines (laid.flatMap Laid.lines) := by
  have run := context.outcome_processFrom 1 (lines source) {}
  unfold processSource laid
  rw [outcome_bind]
  cases given : context.laidFrom 1 (lines source) {} with
  | error fault =>
    simp only [given] at run
    rcases ended : outcome (context.processFrom 1 (lines source)) {} with ⟨result, final⟩
    rw [ended] at run
    simp only at run
    subst run
    rfl
  | ok laid =>
    simp only [given] at run
    obtain ⟨final, ended, output⟩ := run
    simp only [ended, outcome_bind, outcome_get]
    by_cases closed : final.frames.isEmpty = true
    · simp [closed, output, Except.map]
    · simp [closed, output, Except.map]

/-- Two runs stand at the same point, the second outside comments, whatever they have written. -/
structure SameCode (commented bare : Progress) : Prop where
  frames : bare.frames = commented.frames
  inHeader : bare.inHeader = commented.inHeader
  inLexique : bare.inLexique = commented.inLexique
  lastCode : bare.lastCode = commented.lastCode
  notices : bare.notices = commented.notices
  outside : bare.inComment = false

theorem SameCode.convertCode (same : SameCode commented bare)
    (context : Context) (number : Nat) (code : Text) :
    context.convertCode number bare code = context.convertCode number commented code := by
  unfold Context.convertCode
  rw [same.inLexique, same.frames, same.lastCode]

/-- A line and its code alone move both runs on alike. -/
theorem SameCode.lineStep (same : SameCode commented bare)
    (context : Context) (number : Nat) (straight : straightQuotes line = line)
    {code : Text} (isCode : code = (splitLine commented.inComment line).code)
    (codeStraight : straightQuotes code = code) :
    (context.laidLine number code bare).code = (context.laidLine number line commented).code ∧
      (context.lineStep number code bare).1 = (context.lineStep number line commented).1 ∧
      (context.lineStep number line commented).2.inComment =
        (splitLine commented.inComment line).inBlock ∧
      SameCode (context.lineStep number line commented).2 (context.lineStep number code bare).2 := by
  have again : splitLine false code = { code } := by rw [isCode, splitLine_code]
  unfold Context.lineStep laidLine
  simp only [straight, codeStraight, same.outside, again, same.inHeader, same.notices,
    same.convertCode, ← isCode]
  by_cases header : commented.inHeader = true
  · simp only [if_pos header, true_and]
    exact ⟨same.frames, rfl, same.inLexique, same.lastCode, rfl, rfl⟩
  · simp only [if_neg header]
    rcases outcome (context.convertCode number commented (trim code))
      { notices := commented.notices } with ⟨fault | ⟨statement, none | effect⟩, desk⟩
    · exact ⟨rfl, rfl, rfl, same.frames, rfl, same.inLexique, same.lastCode, rfl, rfl⟩
    · exact ⟨rfl, rfl, rfl, same.frames, rfl, same.inLexique, same.lastCode, rfl, rfl⟩
    · refine ⟨rfl, rfl, rfl, rfl, rfl, rfl, ?_, rfl, rfl⟩
      simp only [Progress.emit, same.lastCode]

theorem straightQuotes_of_mem (straight : ∀ c ∈ text, c ≠ '“' ∧ c ≠ '”') :
    straightQuotes text = text := by
  refine (map_congr_left fun c member => ?_).trans (map_id text)
  obtain ⟨left, right⟩ := straight c member
  simp [left, right]

theorem laidFrom_codeLines (context : Context)
    (straight : ∀ line ∈ ls, ∀ c ∈ line, c ≠ '“' ∧ c ≠ '”') (number : Nat)
    (same : SameCode commented bare) :
    (context.laidFrom number (codeLines commented.inComment ls) bare).map (List.map Laid.code) =
      (context.laidFrom number ls commented).map (List.map Laid.code) := by
  induction ls generalizing number commented bare with
  | nil => rfl
  | cons line rest ih =>
    have here := straight line (.head _)
    obtain ⟨code, result, block, next⟩ := same.lineStep context number
      (straightQuotes_of_mem here) rfl
      (straightQuotes_of_mem fun c inside => here c (splitComments_code_mem inside))
    have later := ih (fun other member => straight other (.tail _ member))
      (number + 1) next
    rw [block] at later
    simp only [codeLines, laidFrom]
    generalize context.lineStep number line commented = first at *
    generalize context.lineStep number (splitLine commented.inComment line).code bare = second at *
    obtain ⟨ended, reached⟩ := first
    obtain ⟨bareEnded, bareReached⟩ := second
    obtain rfl : bareEnded = ended := result
    cases bareEnded with
    | error fault => rfl
    | ok _ =>
      cases laid : context.laidFrom (number + 1) rest reached with
      | error fault =>
        cases bareLaid : context.laidFrom (number + 1)
            (codeLines (splitLine commented.inComment line).inBlock rest) bareReached with
        | error bareFault => simpa [laid, bareLaid, Except.map] using later
        | ok => simp [laid, bareLaid, Except.map] at later
      | ok laidLater =>
        cases bareLaid : context.laidFrom (number + 1)
            (codeLines (splitLine commented.inComment line).inBlock rest) bareReached with
        | error => simp [laid, bareLaid, Except.map] at later
        | ok => simpa [laid, bareLaid, Except.map, code] using later

/-- The code statements that a source comes to, indentation and comments aside. -/
def codeOf (context : Context) (source : Text) : Except Fault (List Text) :=
  (context.laid source).map (List.flatMap Laid.code)

/-- With the same declarations known, comments leave the code statements as they are. -/
theorem codeOf_withoutComments (context : Context) {source : Text}
    (straight : ∀ c ∈ source, c ≠ '“' ∧ c ≠ '”') :
    context.codeOf (withoutComments source) = context.codeOf source := by
  have same : SameCode {} {} := ⟨rfl, rfl, rfl, rfl, rfl, rfl⟩
  have perLine := context.laidFrom_codeLines
    (fun line member c inside => straight c (lines_mem member c inside).1) 1 same
  have flat : ∀ given : Except Fault (List Laid), given.map (List.flatMap Laid.code) =
      (given.map (List.map Laid.code)).map List.flatten := by
    rintro (_ | _) <;> rfl
  unfold codeOf laid
  rw [lines_withoutComments, flat, flat]
  exact congrArg (Except.map List.flatten) perLine

end Context

/-- What one line declares: a function, a record type, and types of variables. -/
def declarations (language : Language) (line : Text) :
    Option Signature × Option RecordType × List (Text × Text) :=
  (Signature.ofLine? line, RecordType.ofLine? language line, Hints.ofLine language (trim line))

/-- Every line declares what its code does. -/
def DeclaresByCode (language : Language) (source : Text) : Prop :=
  (codeLines false (lines source)).map (declarations language) =
    (lines source).map (declarations language)

/-- A source declares and does the same without its comments. -/
structure CommentsAreInert (language : Language) (layout : Layout) (source : Text) : Prop where
  declared : Context.ofSource language layout (withoutComments source) =
    Context.ofSource language layout source
  code : (Context.ofSource language layout (withoutComments source)).codeOf (withoutComments source) =
    (Context.ofSource language layout source).codeOf source

theorem DeclaresByCode.ofSource {language : Language} {source : Text}
    (byCode : DeclaresByCode language source) (layout : Layout) :
    Context.ofSource language layout (withoutComments source) =
      Context.ofSource language layout source := by
  have signatures := congrArg (List.filterMap (·.1)) byCode
  have records := congrArg (List.filterMap (·.2.1)) byCode
  have hints := congrArg (List.flatMap (·.2.2)) byCode
  simp only [filterMap_map, flatMap_map] at signatures records hints
  unfold Context.ofSource Signatures.collect Records.collect Hints.collect
  rw [lines_withoutComments]
  congr 2

/-- Comments act on a program through what is declared and in no other way. A comment after a
declaration, or a declaration inside a block comment, does change what is declared. The code
compared is that of the Lua text, line by line. -/
theorem commentsAreInert_iff (language : Language) (layout : Layout) (source : Text)
    (straight : ∀ c ∈ source, c ≠ '“' ∧ c ≠ '”') :
    (CommentsAreInert language layout source ↔
      Context.ofSource language layout (withoutComments source) =
        Context.ofSource language layout source) ∧
    (DeclaresByCode language source → CommentsAreInert language layout source) ∧
    ∀ text : Text, (outcome ((Context.ofSource language layout source).processSource text) {}).1 =
      ((Context.ofSource language layout source).laid text).map fun laid =>
        unlines (laid.flatMap Laid.lines) := by
  have inert (declared : Context.ofSource language layout (withoutComments source) =
      Context.ofSource language layout source) : CommentsAreInert language layout source := by
    refine ⟨declared, ?_⟩
    rw [declared]
    exact Context.codeOf_withoutComments _ straight
  exact ⟨⟨CommentsAreInert.declared, inert⟩, fun byCode => inert (byCode.ofSource layout),
    Context.processSource_laid _⟩

theorem commentsAreInert_iff_variable :
    (∀ c ∈ "n : entier // un".toList, c ≠ '“' ∧ c ≠ '”') ∧
      CommentsAreInert standardLanguage {} "n : entier // un".toList := by
  have straight : ∀ c ∈ "n : entier // un".toList, c ≠ '“' ∧ c ≠ '”' := by simp
  refine ⟨straight, (commentsAreInert_iff standardLanguage {} _ straight).2.1 ?_⟩
  have line : lines "n : entier // un".toList = ["n : entier // un".toList] := by cbv
  have code : codeLines false ["n : entier // un".toList] = ["n : entier ".toList] := by cbv
  rw [DeclaresByCode, line, code]
  generalize standardLanguage = language
  cbv

/-- A comment after the declaration of a record type hides it. -/
theorem not_commentsAreInert_type :
    ¬CommentsAreInert standardLanguage {}
      "P = <x : entier, y : entier> // type\np ← P(1, 2)\n".toList := by
  intro inert
  have declared := congrArg (fun context => context.records.length) inert.declared
  have bare (language : Language) : (Records.collect language (withoutComments
      "P = <x : entier, y : entier> // type\np ← P(1, 2)\n".toList)).length = 1 := by cbv
  have commented (language : Language) : (Records.collect language
      "P = <x : entier, y : entier> // type\np ← P(1, 2)\n".toList).length = 0 := by cbv
  have none : 1 = 0 := (bare standardLanguage).symm.trans (declared.trans (commented standardLanguage))
  exact absurd none (by decide)

end Pseudocode
