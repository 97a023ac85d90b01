import Pseudocode.Proofs.Blocks
import Pseudocode.Proofs.PreludeHelpers
import Pseudocode.Proofs.Sealed

namespace Pseudocode

open List Option Placeholder
variable {text raw source : Text} {progress : Progress}

theorem Store.maskFrom_sealed (unreserved : Unreserved text) {store : Store}
    (stored : store.Sealed) (skip : Nat) :
    (store.maskFrom skip text).1.Sealed ∧
      Pseudocode.Sealed (fun _ => True) (store.maskFrom skip text).2 := by
  induction text generalizing store skip with
  | nil => cases skip <;> exact ⟨stored, Sealed.seamless.nil⟩
  | cons c rest ih =>
    have later {store : Store} (stored : store.Sealed) :=
      ih (fun d member => unreserved d (.tail _ member)) stored
    cases skip with
    | succ skip => exact later stored skip
    | zero =>
      rw [maskFrom]
      cases found : literal? (c :: rest) with
      | none =>
        obtain ⟨kept, masked⟩ := later stored 0
        have first : Pseudocode.Sealed (fun _ => True) [c] :=
          .of_unreserved (by simpa [Unreserved] using unreserved c (.head _))
        exact ⟨kept, first.append masked⟩
      | some literal =>
        have literalFree : (Held.literal literal).Sealed :=
          unreserved.of_subset (literal?_starts found).1.subset
        obtain ⟨kept, masked⟩ := later (stored.hold literalFree) (literal.length - 1)
        exact ⟨kept, (Sealed.placeholder trivial).append masked⟩

theorem Conversion.mask_sealed (unreserved : Unreserved text) {desk : Desk} (stored : desk.store.Sealed) :
    Settles false (Conversion.mask text) desk fun out reached =>
      reached.store.Sealed ∧ Sealed (Readable false reached.store 0) out := by
  have plain : ∀ c ∈ text, c ≠ opening ∧ (false = true → isPlainCase c = true) := fun c member =>
    ⟨fun same => unreserved.opening_notMem (same ▸ member), by simp⟩
  obtain ⟨kept, masked⟩ := Store.maskFrom_sealed unreserved stored 0
  exact ⟨kept, (Store.maskFrom_legible plain desk.store 0).2, masked.bare⟩

section Declared

theorem substitute_sublist {replacer : Replacer}
    (erases : ∀ before text n new, replacer before text = some (n, new) → new = []) (text : Text) :
    (substitute replacer text).Sublist text := by
  have within (before : Option Char) (skip : Nat) :
      (substituteFrom replacer before skip text).Sublist text := by
    fun_induction substituteFrom replacer before skip text with
    | case1 _ _ _ _ found => rw [erases _ _ _ _ found]
    | case2 => exact .slnil
    | case3 _ _ _ _ ih => exact ih.cons _
    | case4 _ _ _ _ found ih =>
      rw [erases _ _ _ _ found]
      exact ih.cons_cons _
    | case5 _ _ _ _ _ found ih =>
      rw [erases _ _ _ _ found]
      exact ih.cons _
    | case6 _ _ _ _ ih => exact ih.cons_cons _
  exact within none 0

namespace Signature

theorem ofLine?_subset {line : Text} {signature : Signature} (found : ofLine? line = some signature) :
    ∀ parameter ∈ signature.parameters, parameter.name ⊆ line := by
  have erases : ∀ before text n new, inOutModifier before text = some (n, new) → new = [] := by
    intro before text n new read
    unfold inOutModifier at read
    split at read
    · obtain ⟨_, -, same⟩ := map_eq_some_iff.mp read
      exact (Prod.mk.inj same).2.symm
    · simp at read
  intro parameter member
  obtain ⟨named, inside, shape⟩ := (ofLine?_isInfix found).2 parameter member
  rw [shape]
  exact List.Subset.trans ((trim_sublist _).trans (substitute_sublist erases named)).subset inside.subset

end Signature

end Declared

theorem straightQuotes_unreserved (unreserved : Unreserved raw) :
    Unreserved (straightQuotes raw) := by
  intro c member
  obtain ⟨d, inside, rfl⟩ := mem_map.mp member
  split
  · decide
  · exact unreserved d inside

theorem splitComments_comment_suffix {reading : Reading} {comment : Text}
    (found : (splitComments reading text).comment = some comment) : comment <:+ text := by
  fun_induction splitComments reading text with
  | case1 | case2 | case3 => simp at found
  | case8 rest =>
    obtain rfl := Option.some.inj found
    exact (suffix_cons _ _).trans (suffix_cons _ _)
  | case4 _ ih | case6 _ _ _ ih | case9 _ ih =>
    exact (ih found).trans ((suffix_cons _ _).trans (suffix_cons _ _))
  | case5 _ _ _ ih | case7 _ _ _ _ ih | case10 _ _ _ _ _ ih => exact (ih found).trans (suffix_cons _ _)

/-- Every line of code stands in a line of the output. -/
theorem layLines_subset {indent : Text} {comment : Option Text} {code : List Text} {line : Text}
    (member : line ∈ code) : ∃ laid ∈ layLines indent comment code, line ⊆ laid := by
  fun_induction layLines indent comment code with
  | case1 | case2 => simp at member
  | case3 | case4 =>
    rw [mem_singleton.mp member]
    exact ⟨_, mem_singleton_self _, fun c inside => by simp [inside]⟩
  | case5 code rest _ ih =>
    rcases mem_cons.mp member with rfl | later
    · exact ⟨_, .head _, subset_append_right _ _⟩
    · obtain ⟨laid, among, inside⟩ := ih later
      exact ⟨laid, .tail _ among, inside⟩

namespace Context

variable {context : Context}

theorem ofSource_unreserved {language : Language} (unreserved : language.Unreserved) {layout : Layout}
    (indent : Pseudocode.Unreserved layout.indent) (commentMark : Pseudocode.Unreserved layout.commentMark)
    (plain : Pseudocode.Unreserved source) :
    (ofSource language layout source).Unreserved where
  language := unreserved
  records := Records.collect_unreserved language source
  indent := indent
  commentMark := commentMark
  signatures pair member := by
    obtain ⟨-, line, inside, read⟩ := Signatures.mem_collect member
    refine ⟨.of_wordChars fun c => identifier?_mem (Signature.ofLine?_name read), fun parameter among => ?_⟩
    exact plain.of_subset fun c here =>
      (lines_mem inside c (Signature.ofLine?_subset read parameter among here)).1

/-- What a line is read as, and what a loop over a collection emits: its variable as it stands. -/
theorem convertCode_reads {number : Nat} {code : Text} {desk reached : Desk}
    {statement : Statement} {effect : Option Effect}
    (run : Gives (context.convertCode number progress code) desk (statement, effect) reached) :
    statement = Statement.ofLine context.language (desk.store.mask code).2 ∧
      (progress.inLexique = false → effect ≠ none) ∧
      ∀ emitted ∈ effect, ∀ item collection place, statement = .forEach item collection place →
        ∃ header ∈ emitted.lines, item ⊆ header := by
  obtain ⟨masked, _, masking, run⟩ := run.of_bind
  cases masking
  obtain ⟨_, _, -, run⟩ := run.of_bind
  split at run
  · rename_i passed
    obtain ⟨same, -⟩ := run.of_pure
    obtain ⟨rfl, rfl⟩ := Prod.mk.inj same
    refine ⟨rfl, fun outside => ?_, by simp⟩
    simp [outside] at passed
  · obtain ⟨given, _, emitted, run⟩ := run.of_bind
    obtain ⟨same, -⟩ := run.of_pure
    obtain ⟨rfl, rfl⟩ := Prod.mk.inj same
    refine ⟨rfl, fun _ => by simp, ?_⟩
    rintro other ⟨⟩ item collection place read
    rw [read] at emitted
    obtain ⟨after, _, -, emitted⟩ := emitted.of_bind
    obtain ⟨rfl, -⟩ := emitted.of_pure
    refine ⟨_, mem_singleton_self _, fun c inside => ?_⟩
    simp [inside]

/-- What is handled of a line is emitted without reserved characters if and only if the variable of a
loop over a collection has none, and the names of open blocks have none either way. -/
theorem handled_unreserved (regular : context.Regular false) (unreserved : context.Unreserved)
    {number : Nat} (plain : Pseudocode.Unreserved raw)
    (frames : ∀ frame ∈ progress.frames, frame.Each Pseudocode.Unreserved) {handled : Handled}
    (found : context.handled? number raw progress = some handled) :
    ((∀ line ∈ handled.laid.lines, Pseudocode.Unreserved line) ↔
        ∀ item collection place, handled.statement = .forEach item collection place →
          Pseudocode.Unreserved item) ∧
      ∀ frame ∈ handled.after, frame.Each Pseudocode.Unreserved := by
  have straight := straightQuotes_unreserved plain
  have indent : Pseudocode.Unreserved (indentation (straightQuotes raw)) :=
    straight.of_subset (takeWhile_sublist _).subset
  have comment : ∀ body ∈ (splitLine progress.inComment (straightQuotes raw)).comment.map
      context.layout.comment, Pseudocode.Unreserved body := by
    intro body member
    obtain ⟨text, found, rfl⟩ := map_eq_some_iff.mp member
    have textFree := straight.of_subset (splitComments_comment_suffix found).subset
    unfold Layout.comment
    split
    · exact Unreserved.joins.append unreserved.commentMark (Unreserved.joins.cons_ascii (by decide) textFree)
    · exact Unreserved.joins.append unreserved.commentMark textFree
  have code : Pseudocode.Unreserved (readCode progress raw) :=
    straight.of_subset fun c member => splitComments_code_mem ((trim_sublist _).mem member)
  have empty : ({ notices := progress.notices } : Desk).store.Sealed := by
    intro index part held
    simp at held
  obtain ⟨effect, desk, run, -, afterEq, laid⟩ := handled?_gives found
  obtain ⟨after, lines⟩ := ((emits_unreserved regular unreserved).convertCode
    (Conversion.mask_sealed code empty) number frames).of_gives run effect rfl
  refine ⟨⟨fun free item collection place read => ?_, fun items => ?_⟩, afterEq ▸ after⟩
  · obtain ⟨-, -, emitted⟩ := convertCode_reads run
    obtain ⟨header, among, inside⟩ := emitted effect rfl item collection place read
    obtain ⟨laidLine, listed, within⟩ := layLines_subset among
    rw [laid] at free
    exact (free laidLine listed).of_subset (List.Subset.trans inside within)
  · rw [laid]
    exact layLines_each Unreserved.joins.fitting.toJoinable (Unreserved.joins.append indent) comment (lines items)

/-- What every handled line of a source emits. -/
theorem historyFrom_unreserved (regular : context.Regular false) (unreserved : context.Unreserved)
    {ls : List Text} (plain : ∀ raw ∈ ls, Pseudocode.Unreserved raw) (number : Nat)
    (frames : ∀ frame ∈ progress.frames, frame.Each Pseudocode.Unreserved) :
    ∀ handled ∈ context.historyFrom number ls progress,
      (∀ line ∈ handled.laid.lines, Pseudocode.Unreserved line) ↔
        ∀ item collection place, handled.statement = .forEach item collection place →
          Pseudocode.Unreserved item :=
  historyFrom_each Pseudocode.Unreserved (fun _ => True)
    (fun raw _ each found => handled_unreserved regular unreserved raw each found) plain number
    (fun _ _ => trivial) frames

end Context

theorem unlines_unreserved {ls : List Text} :
    Unreserved (unlines ls) ↔ ∀ line ∈ ls, Unreserved line := by
  simp only [Unreserved, unlines, mem_flatMap, mem_append, mem_singleton]
  refine ⟨fun all line member c inside => all c ⟨line, member, .inl inside⟩, ?_⟩
  rintro each c ⟨line, member, inside | rfl⟩
  · exact each line member c inside
  · decide

namespace Context

variable {context : Context}

/-- A first line of plain characters is handled as the statement it is read as. -/
theorem historyFrom_reads (regular : context.Regular true)
    (plain : ∀ c ∈ raw, c ≠ opening ∧ isPlainCase c = true)
    (outside : progress.inHeader = false ∧ progress.inLexique = false) (number : Nat) (rest : List Text) :
    ∃ handled later, context.historyFrom number (raw :: rest) progress = handled :: later ∧
      context.handled? number raw progress = some handled ∧
      handled.statement = Statement.ofLine context.language
        (({} : Store).mask (trim (splitLine progress.inComment (straightQuotes raw)).code)).2 ∧
      later = context.historyFrom (number + 1) rest (context.lineStep number raw progress).2 := by
  have step := lineStep_ok regular number plain progress
  rcases ended : outcome (context.convertCode number progress
      (trim (splitLine progress.inComment (straightQuotes raw)).code)) { notices := progress.notices }
    with ⟨fault | ⟨statement, none | effect⟩, desk⟩
  · simp [lineStep, outside, ended] at step
  · exact absurd rfl ((convertCode_reads ended).2.1 outside.2)
  · have found : context.handled? number raw progress = some
        { line := (({} : Store).mask (readCode progress raw)).2, statement, before := progress.frames,
          laid := context.laidLine number raw progress, after := effect.frames } := by
      simp [handled?, outside, ended]
    refine ⟨⟨_, statement, progress.frames, context.laidLine number raw progress, effect.frames⟩, _, ?_, found,
      (convertCode_reads ended).1, rfl⟩
    rw [historyFrom, found]
    rcases reached : context.lineStep number raw progress with ⟨fault | _, next⟩
    · simp [reached] at step
    · rfl

end Context

/-- A source of one line is converted by the statement that the line is read as. -/
theorem convert_single (plain : ∀ c ∈ source, c ≠ opening ∧ isPlainCase c = true)
    (single : lines source = [raw]) (layout : Layout) :
    ∃ lua handled, convert layout source = .ok lua ∧
      (Context.ofSource standardLanguage layout source).historyFrom 1 (lines source) {} = [handled] ∧
      (Context.ofSource standardLanguage layout source).handled? 1 raw {} = some handled ∧
      handled.statement = Statement.ofLine standardLanguage
        (({} : Store).mask (trim (splitLine false (straightQuotes raw)).code)).2 := by
  have regular := Context.ofSource_regular standardLanguage_regular layout plain
  obtain ⟨body, progress, run, -⟩ := Context.processSource_yields regular plain {}
  have rawPlain : ∀ c ∈ raw, c ≠ opening ∧ isPlainCase c = true := fun c member =>
    plain c (lines_mem (single ▸ mem_singleton_self raw) c member).1
  have outside : ({} : Progress).inHeader = false ∧ ({} : Progress).inLexique = false := ⟨rfl, rfl⟩
  obtain ⟨handled, later, history, found, read, rfl⟩ := Context.historyFrom_reads regular rawPlain outside 1 []
  exact ⟨_, handled, convert_of_gives run, single ▸ history, found, read⟩

theorem Context.ofSource_history_unreserved {layout : Layout} (indent : Pseudocode.Unreserved layout.indent)
    (commentMark : Pseudocode.Unreserved layout.commentMark)
    (plain : Pseudocode.Unreserved source) :
    ∀ handled ∈ (ofSource standardLanguage layout source).historyFrom 1 (lines source) {},
      (∀ line ∈ handled.laid.lines, Pseudocode.Unreserved line) ↔
        ∀ item collection place, handled.statement = .forEach item collection place →
          Pseudocode.Unreserved item := by
  have start : ∀ frame ∈ ({} : Progress).frames, frame.Each Pseudocode.Unreserved := by simp
  exact historyFrom_unreserved
    ⟨standardLanguage_regular, Records.collect_regular (by simp) standardLanguage⟩
    (ofSource_unreserved standardLanguage_unreserved indent commentMark plain)
    (fun raw member => plain.of_subset fun c inside => (lines_mem member c inside).1) 1 start

/-- The text of a program is unreserved if and only if its body is: the prelude is. -/
theorem unreserved_program_iff (layout : Layout) (body : Text) :
    Unreserved (if layout.emitPrelude then Prelude.text ++ '\n' :: body else body) ↔ Unreserved body := by
  split
  · constructor
    · exact fun free => free.of_subset fun c member => by simp [member]
    · intro free c member
      rcases mem_append.mp member with inside | inside
      · exact Prelude.text_unreserved c inside
      · rcases mem_cons.mp inside with rfl | inside
        · decide
        · exact free c inside
  · rfl

/-- The program of a source without reserved characters has none either, if and only if no loop over a
collection has a literal in the place of its variable: whatever else a line holds back is put in again
before the line is emitted, and the prelude holds none. -/
theorem convert_unreserved_iff {layout : Layout} (indent : Unreserved layout.indent)
    (commentMark : Unreserved layout.commentMark) {source lua : Text} (plain : Unreserved source)
    (run : convert layout source = .ok lua) :
    Unreserved Prelude.text ∧
    ∃ body, lua = (if layout.emitPrelude then Prelude.text ++ '\n' :: body else body) ∧
      (Unreserved lua ↔ Unreserved body) ∧
      (Unreserved body ↔
        ∀ handled ∈ (Context.ofSource standardLanguage layout source).historyFrom 1 (lines source) {},
          ∀ item collection place, handled.statement = .forEach item collection place →
            Unreserved item) := by
  obtain ⟨body, rfl, emitted⟩ := convert_body run
  have each := Context.ofSource_history_unreserved indent commentMark plain
  refine ⟨Prelude.text_unreserved, body, rfl, unreserved_program_iff layout body, ?_⟩
  rw [emitted, unlines_unreserved]
  refine ⟨fun free handled member => (each handled member).mp fun line inside => ?_, fun items => ?_⟩
  · exact free line (mem_flatMap.mpr ⟨handled, member, inside⟩)
  · intro line member
    obtain ⟨handled, among, inside⟩ := mem_flatMap.mp member
    exact (each handled among).mpr (items handled among) line inside

/-- Output of a string and a character. -/
def quotedOutput : Text :=
  "écrire(\"a\", 'b')\n".toList

theorem convert_unreserved_iff_output :
    Unreserved quotedOutput ∧ ∃ lua, convert {} quotedOutput = .ok lua ∧ Unreserved lua := by
  have plain : ∀ c ∈ quotedOutput, c ≠ opening ∧ isPlainCase c = true := by
    have all : quotedOutput.all (fun c => c ≠ opening && isPlainCase c) = true := by decide
    simpa using all
  have free : Unreserved quotedOutput := by
    have all : quotedOutput.all (fun c => !isReserved c) = true := by decide
    simpa [Unreserved] using all
  have single : lines quotedOutput = ["écrire(\"a\", 'b')".toList] := by decide
  obtain ⟨lua, handled, run, history, -, read⟩ := convert_single plain single {}
  obtain ⟨-, body, -, whole, unreserved⟩ := convert_unreserved_iff (Unreserved.joins.ascii (by decide))
    (Unreserved.joins.ascii (by decide)) free run
  refine ⟨free, lua, run, whole.mpr (unreserved.mpr ?_)⟩
  rw [history]
  intro other member item collection place loop
  have isOutput : Statement.ofLine standardLanguage (({} : Store).mask (trim (splitLine false
      (straightQuotes "écrire(\"a\", 'b')".toList)).code)).2 = .write := by
    decide +kernel
  rw [mem_singleton.mp member, read, isOutput] at loop
  simp at loop

/-- A literal in the place of the variable: the placeholder is emitted as it stands. -/
theorem convert_leaks_literal :
    ∃ lua, convert { emitPrelude := false } "Pour \"a\" de t Faire\n".toList = .ok lua ∧
      ¬ Unreserved lua := by
  have plain : ∀ c ∈ "Pour \"a\" de t Faire\n".toList, c ≠ opening ∧ isPlainCase c = true := by
    have all : "Pour \"a\" de t Faire\n".toList.all (fun c => c ≠ opening && isPlainCase c) = true := by
      decide
    simpa using all
  have free : Unreserved "Pour \"a\" de t Faire\n".toList := Unreserved.joins.ascii (by decide)
  have single : lines "Pour \"a\" de t Faire\n".toList = ["Pour \"a\" de t Faire".toList] := by decide
  obtain ⟨lua, handled, run, history, -, read⟩ := convert_single plain single { emitPrelude := false }
  refine ⟨lua, run, fun unreserved => ?_⟩
  obtain ⟨body, shape, emitted⟩ := convert_body run
  obtain rfl : lua = body := shape
  rw [emitted, unlines_unreserved, history] at unreserved
  have each := Context.ofSource_history_unreserved (Unreserved.joins.ascii (by decide))
    (Unreserved.joins.ascii (by decide)) free handled (history ▸ mem_singleton_self handled)
  have code : trim (splitLine false (straightQuotes "Pour \"a\" de t Faire".toList)).code =
      "Pour \"a\" de t Faire".toList := by
    decide
  have masked : (({} : Store).mask "Pour \"a\" de t Faire".toList).2 =
      "Pour ".toList ++ write 0 ++ " de t Faire".toList :=
    rfl
  have token : write 0 = [opening, digit 0, closing] := by
    rw [write_eq, encode]
    rfl
  have isLoop : Statement.ofLine standardLanguage ("Pour ".toList ++ write 0 ++ " de t Faire".toList) =
      .forEach (write 0) ['t'] 12 := by
    rw [token]
    decide +kernel
  rw [code, masked, isLoop] at read
  have loopVariable : Unreserved (write 0) :=
    each.mp (fun line inside => unreserved line (by simpa using inside)) _ _ _ read
  exact absurd (loopVariable opening (by simp [write_eq])) (by decide)

end Pseudocode
