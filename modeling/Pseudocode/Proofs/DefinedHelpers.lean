import Pseudocode.Proofs.ArrayDeclaration
import Pseudocode.Proofs.HelperNames
import Pseudocode.Proofs.PreludeHelpers
import Pseudocode.Proofs.RestoreMask
import Pseudocode.Proofs.Unreserved

namespace Pseudocode

open List Option Placeholder
variable {raw : Text} {layout : Layout} {known : Text → Prop}

theorem IsLiteral.fenced {literal : Text} (isLiteral : IsLiteral literal) : Fenced literal := by
  cases isLiteral with
  | @string body _ => exact .enclosed (show ['"'] ≠ [] ∧ atWordEnd ['"'] = true by decide) (by decide) body
  | @escape c _ =>
    exact .enclosed (show ['\''] ≠ [] ∧ atWordEnd ['\''] = true by decide) (by decide) ['\\', c]
  | @character c _ _ =>
    exact .enclosed (show ['\''] ≠ [] ∧ atWordEnd ['\''] = true by decide) (by decide) [c]

section Masked

variable {known : Text → Prop} {start : Nat} {text masked : Text} {literals : List Text}

/-- No stem comes about where a literal is held back. -/
theorem Scans.stemless (scans : Scans start text literals masked) {passed : Text}
    (here : Stemless (passed ++ text)) : Stemless (passed ++ masked) := by
  induction scans generalizing passed with
  | nil => exact here
  | @literal start literal rest masked literals isLiteral _ ih =>
    have fenced := isLiteral.fenced
    have token : Fenced (write start) := .of_marks isMark_of_mem_write (write_ne_nil start)
    have opens : Apart passed (literal ++ rest) := .inr ((atWordEnd_append fenced.1 rest).trans fenced.2.1)
    have next := ih (Stemless.jointed.replace_fenced here opens (fenced.apart rest)
      (Stemless.of_wordless (wordless_of_marks isMark_of_mem_write)) token)
    simpa using next
  | @code start c rest masked literals _ _ ih =>
    have next := ih (show Stemless ((passed ++ [c]) ++ rest) by simpa using here)
    simpa using next

theorem Scans.mem_masked (scans : Scans start text literals masked) {c : Char} (member : c ∈ masked) :
    c ∈ text ∨ isMark c = true := by
  induction scans with
  | nil => simp at member
  | literal _ _ ih =>
    rcases mem_append.mp member with mark | later
    · exact .inr (isMark_of_mem_write _ mark)
    · exact (ih later).imp_left (mem_append_right _)
  | code _ _ ih =>
    rcases mem_cons.mp member with rfl | later
    · exact .inl (.head _)
    · exact (ih later).imp_left (.tail _)

theorem Store.Vouched.withLiterals {store : Store} (stored : store.Vouched known)
    (more : ∀ literal ∈ literals, (Held.literal literal).Vouched known) :
    (store.withLiterals literals).Vouched known := by
  induction literals generalizing store with
  | nil => simpa [Store.withLiterals] using stored
  | cons literal literals ih =>
    obtain ⟨first, others⟩ := forall_mem_cons.mp more
    exact Store.withLiterals_append store [literal] literals ▸ ih (stored.hold first) others

/-- A line without helpers is ready to be converted once its literals are held back. -/
theorem Conversion.mask_readied {desk : Desk} (stored : desk.store.Vouched known) (stemless : Stemless text)
    (plain : ∀ c ∈ text, c ≠ opening ∧ isVariant c = false) (parted : Parted (desk.store.mask text).2) :
    Settles false (Conversion.mask text) desk fun out reached => Readied known reached.store out := by
  obtain ⟨literals, masked, scans⟩ := exists_scans desk.store.held.size text
  have run : desk.store.mask text = (desk.store.withLiterals literals, masked) := scans.maskFrom rfl
  have legible := (@Store.maskFrom_legible false _
    (fun c member => ⟨(plain c member).1, by simp⟩) desk.store 0).2
  rw [← Store.mask, run] at legible
  rw [run] at parted
  have given : Gives (Conversion.mask text) desk masked
      { desk with store := desk.store.withLiterals literals } := by
    rw [Conversion.mask, Gives, outcome_modifyGet, run]
  refine given.settles ⟨?_, ⟨scans.stemless (show Stemless ([] ++ text) from stemless), parted, ?_⟩, legible⟩
  · refine stored.withLiterals fun literal member => ?_
    obtain ⟨isLiteral, inside⟩ := scans.isInfix literal member
    exact ⟨stemless.of_infix inside, isLiteral.fenced⟩
  · exact fun c member => (scans.mem_masked member).elim (fun inside => (plain c inside).2) isVariant_mark

end Masked

section Source

variable {known : Text → Prop}

theorem inOutModifier_fitting : Signature.inOutModifier.Fitting Stemless := by
  intro before written text n new here found
  unfold Signature.inOutModifier at found
  split at found
  · rename_i starts
    obtain ⟨rest, whole, same⟩ := map_eq_some_iff.mp found
    obtain ⟨rfl, rfl⟩ := Prod.mk.inj same
    obtain ⟨word, ends⟩ := filter_eq_some_iff.mp whole
    obtain ⟨split, letters⟩ := dropWord?_eq_some word
    have length : (text.take 5).length = 5 := by simpa using congrArg List.length letters
    refine ⟨text.take 5, rest, split, length.symm, fun empty => ?_, Stemless.jointed.nil, .inl starts, .inr ends,
      .inl rfl, .inr ends⟩
    simp [empty] at length
  · simp at found

theorem Stemless.straightQuotes (stemless : Stemless raw) : Stemless (straightQuotes raw) := by
  intro stem
  obtain ⟨part, inside, same⟩ := infix_map_iff.mp stem
  -- No letter of the stem is a quote, so its letters were there before.
  have kept : ∀ c ∈ part, (if c = '“' ∨ c = '”' then '"' else c) = c := by
    intro c member
    split
    · rename_i curly
      have quote : '"' ∈ helperStem := same ▸ mem_map.mpr ⟨c, member, if_pos curly⟩
      exact absurd quote (by decide)
    · rfl
  rw [List.map_congr_left kept, List.map_id'] at same
  exact stemless (same ▸ inside)

/-- What a source without helpers declares names none. -/
theorem Context.ofSource_vouched {language : Language} (emitted : ∀ name ∈ emittedHelpers, known name)
    (vouched : language.Vouched known) (indent : ∀ c ∈ layout.indent, isWordChar c = false)
    (commentMark : ∀ c ∈ layout.commentMark, isWordChar c = false) {source : Text} (stemless : Stemless source)
    (cased : ∀ c ∈ source, isVariant c = false) : (ofSource language layout source).Vouched known where
  emitted := emitted
  language := vouched
  records pair member name named := by
    obtain ⟨-, line, inside, read⟩ := Records.mem_collect member
    obtain ⟨field, among, rfl⟩ := mem_map.mp named
    obtain ⟨standing, word⟩ := (RecordType.ofLine?_isInfix read).2 field among
    have within := standing.trans ((lines_isCutInto source).2 line inside)
    refine ⟨(stemless.of_infix within).clean, .of_open fun paren => ?_, fun c letter => cased c (within.mem letter)⟩
    exact absurd (identifier?_mem word paren) (by decide)
  indent := indent
  commentMark := commentMark
  signatures pair member := by
    obtain ⟨-, line, inside, read⟩ := Signatures.mem_collect member
    obtain ⟨name, parameters⟩ := Signature.ofLine?_isInfix read
    have within := (lines_isCutInto source).2 line inside
    refine ⟨(stemless.of_infix (name.trans within)).clean, fun parameter among => ?_⟩
    obtain ⟨named, standing, same⟩ := parameters parameter among
    have erased := Stemless.jointed.substitute inOutModifier_fitting (stemless.of_infix (standing.trans within))
    rw [same]
    exact (Stemless.jointed.trim erased).clean

end Source

/-- Signs before a text keep clear of its words. -/
theorem Clean.after_wordless {front text : Text} (wordless : ∀ c ∈ front, isWordChar c = false)
    (here : Clean known text) : Clean known (front ++ text) :=
  (clean_append (.inl (wordless_ends wordless).2)).mpr ⟨(Stemless.of_wordless wordless).clean, here⟩

theorem Layout.comment_clean
    (commentMark : ∀ c ∈ layout.commentMark, isWordChar c = false) {body : Text} (here : Clean known body) :
    Clean known (layout.comment body) := by
  unfold Layout.comment
  split
  · exact (Clean.jointed.lead (show isLead [' '] = true by decide) here).after_wordless commentMark
  · exact here.after_wordless commentMark

namespace Context

variable {context : Context} {known : Text → Prop}

/-- The lines that a line without helpers comes to name known helpers only, and so do the open blocks. -/
theorem handled_clean (regular : context.Regular false) (vouched : context.Vouched known) {number : Nat}
    (plain : Stemless raw ∧ ∀ c ∈ raw, c ≠ opening ∧ isVariant c = false) {progress : Progress}
    (code : Stemless (splitLine progress.inComment (straightQuotes raw)).code ∧
      Parted (({} : Store).mask (readCode progress raw)).2)
    (frames : ∀ frame ∈ progress.frames, frame.Each (Clean known)) {handled : Handled}
    (found : context.handled? number raw progress = some handled) :
    (∀ line ∈ handled.laid.lines, Clean known line) ∧ ∀ frame ∈ handled.after, frame.Each (Clean known) := by
  have characters : ∀ c ∈ readCode progress raw, c ≠ opening ∧ isVariant c = false := by
    intro c member
    obtain ⟨d, inside, rfl⟩ := mem_map.mp (splitComments_code_mem ((trim_sublist _).mem member))
    split
    · decide
    · exact plain.2 d inside
  have blanks : ∀ c ∈ indentation (straightQuotes raw), isWordChar c = false := fun c member =>
    isBlank_not_wordChar (mem_takeWhile_imp member)
  have comment : ∀ body ∈ (splitLine progress.inComment (straightQuotes raw)).comment.map
      context.layout.comment, Clean known body := by
    intro body member
    obtain ⟨text, found, rfl⟩ := map_eq_some_iff.mp member
    exact Layout.comment_clean vouched.commentMark
      (plain.1.straightQuotes.of_infix (splitComments_comment_suffix found).isInfix).clean
  have empty : ({ notices := progress.notices } : Desk).store.Vouched known := by
    intro index part held
    simp at held
  have masked := Conversion.mask_readied empty (Stemless.jointed.trim code.1) characters code.2
  obtain ⟨effect, desk, run, -, afterEq, laid⟩ := handled?_gives found
  obtain ⟨after, lines⟩ := ((emits_clean regular vouched).convertCode masked number frames).of_gives run effect rfl
  refine ⟨?_, afterEq ▸ after⟩
  rw [laid]
  refine layLines_each Clean.jointed.toJoinable (fun here => here.after_wordless blanks) comment
    (lines fun item collection place read => ?_)
  -- The variable of a loop over a collection is a part of the line.
  have readied : Readied known (({} : Store).mask (readCode progress raw)).1
      (({} : Store).mask (readCode progress raw)).2 := masked.of_gives (show Gives _ _ _ _ from rfl)
  have parts : handled.statement.Each (Readied known (({} : Store).mask (readCode progress raw)).1) :=
    (convertCode_reads run).1 ▸
      Statement.ofLine_each context.language (Readied.fitting readied.stored).toSeverable readied
  rw [show handled.statement = _ from read] at parts
  exact parts.1.free.stemless.clean

end Context

theorem emittedHelpers_defined :
    ∀ name ∈ Context.emittedHelpers, name ∈ Prelude.definedHelpers Prelude.text := fun name member =>
  (Prelude.emitted_mem_definedHelpers name (mem_append_left _ member)).2

/-- Built-ins are spelled with helpers of the prelude, or with operators and functions of Lua. -/
theorem standardLanguage_vouched :
    standardLanguage.Vouched (· ∈ Prelude.definedHelpers Prelude.text) where
  names := by decide
  helpers builtin member := by
    cases inline : builtin.inline with
    | true =>
      have fixed : ∀ builtin ∈ standardLanguage.builtins, builtin.inline = true →
          isFixed builtin.helper = true := by
        decide
      exact Vouched.jointed.fixed (fixed builtin member inline)
    | false =>
      have listed : builtin.helper ∈ (standardLanguage.builtins.filter (!·.inline)).map (·.helper) :=
        mem_map_of_mem (mem_filter.mpr ⟨member, by simp [inline]⟩)
      obtain ⟨word, defined⟩ := Prelude.emitted_mem_definedHelpers _ (mem_append_right _ listed)
      exact .of_word word defined
  targets spelling member := by
    have fixed : ∀ spelling ∈ standardLanguage.spellings, isFixed spelling.target = true := by decide
    exact Vouched.jointed.fixed (fixed spelling member)
  fits := by decide +kernel
  zeros type member zero zeroed := by
    have fixed : ∀ type ∈ standardLanguage.types, ∀ zero ∈ type.zero, isFixed zero = true := by decide
    exact Clean.jointed.fixed (fixed type member zero zeroed)

theorem unlines_clean {ls : List Text} (each : ∀ line ∈ ls, Clean known line) :
    Clean known (unlines ls) := by
  induction ls with
  | nil => exact Clean.jointed.nil
  | cons line ls ih =>
    obtain ⟨first, others⟩ := forall_mem_cons.mp each
    have both : Clean known (line ++ ['\n'] ++ unlines ls) :=
      Clean.jointed.between first (by decide) (ih others)
    simpa [unlines] using both

/-- A source of one line, with no literal on it, becomes what the statement on it comes to. -/
theorem convert_line {source : Text} (plain : ∀ c ∈ source, c ≠ opening ∧ isPlainCase c = true)
    (single : lines source = [raw]) (bare : layout.emitPrelude = false) {code : Text}
    (isCode : Context.readCode {} raw = code) (unquoted : ∀ c ∈ code, c ≠ '"' ∧ c ≠ '\'') {statement : Statement}
    (read : Statement.ofLine standardLanguage code = statement) {effect : Effect} {desk : Desk}
    (run : Gives ((Context.ofSource standardLanguage layout source).effect statement code [] [])
      { notices := #[.lineRead 1 statement.kind] } effect desk) :
    convert layout source = .ok (unlines (layLines (indentation (straightQuotes raw))
      ((splitLine false (straightQuotes raw)).comment.map layout.comment) effect.lines)) := by
  obtain ⟨lua, handled, converted, history, found, -⟩ := convert_single plain single layout
  obtain ⟨body, shape, rfl⟩ := convert_body converted
  obtain ⟨other, _, given, -, -, laid⟩ := Context.handled?_gives found
  have converts : Gives ((Context.ofSource standardLanguage layout source).convertCode 1 {} code) {}
      (statement, some effect) desk := by
    refine (mask_plain unquoted {}).bind ?_
    simp only [show Statement.ofLine (Context.ofSource standardLanguage layout source).language code = _ from read]
    exact Gives.bind (show Gives (Conversion.notify _) {} () { notices := #[.lineRead 1 statement.kind] } from rfl)
      (run.bind (.pure _ _))
  rw [← isCode] at converts
  have same := Eq.trans (Eq.symm converts) given
  simp only [Prod.mk.injEq, Except.ok.injEq, Option.some.injEq] at same
  rw [converted, shape, bare, history, same.1.2]
  simp [laid, Laid.lines, Context.ofSource]

/-- Every helper that an emitted text names is defined in the prelude, where the source names none,
with its comments or without, and no word comes right after a parenthesis in its code: the call of a
built-in that has a spelling of its own gives way to its arguments, and a word at its end would go on
with the last of them. -/
theorem convert_helpers_defined {layout : Layout} (indent : ∀ c ∈ layout.indent, isWordChar c = false)
    (commentMark : ∀ c ∈ layout.commentMark, isWordChar c = false) {source lua : Text} (stemless : Stemless source)
    (plain : ∀ c ∈ source, c ≠ opening ∧ isVariant c = false)
    (read : ∀ code ∈ codeLines false ((lines source).map straightQuotes),
      Stemless code ∧ Parted (({} : Store).mask (trim code)).2)
    (run : convert layout source = .ok lua) :
    ∃ body, lua = (if layout.emitPrelude then Prelude.text ++ '\n' :: body else body) ∧
      ∀ word, IsWordOf word body → helperStem <:+: word → word ∈ Prelude.definedHelpers Prelude.text := by
  obtain ⟨body, shape, rfl⟩ := convert_body run
  refine ⟨_, shape, unlines_clean fun line member => ?_⟩
  obtain ⟨handled, among, inside⟩ := List.mem_flatMap.mp member
  have regular : (Context.ofSource standardLanguage layout source).Regular false :=
    ⟨standardLanguage_regular, Records.collect_regular (by simp) standardLanguage⟩
  have vouched := Context.ofSource_vouched emittedHelpers_defined standardLanguage_vouched
    indent commentMark stemless
    fun c member => (plain c member).2
  have raws : ∀ raw ∈ lines source, Stemless raw ∧ ∀ c ∈ raw, c ≠ opening ∧ isVariant c = false := fun raw among =>
    have standing := (lines_isCutInto source).2 raw among
    ⟨stemless.of_infix standing, fun c member => plain c (standing.mem member)⟩
  exact Context.historyFrom_each (fun raw => Stemless raw ∧ ∀ c ∈ raw, c ≠ opening ∧ isVariant c = false)
    (fun code => Stemless code ∧ Parted (({} : Store).mask (trim code)).2)
    (fun raw code frames found => Context.handled_clean regular vouched raw code frames found) raws 1 read
    (by simp) handled among line inside

section Samples

theorem finish_gives {text : Text} (unindexed : '[' ∉ text) (plain : opening ∉ text) (desk : Desk) :
    Gives (Context.finish text) desk text desk :=
  Context.finish_plain unindexed plain ▸ .pure _ _

/-- Output of a variable. -/
def variableOutput : Text :=
  "écrire(x)\n".toList

theorem convert_variableOutput : convert { emitPrelude := false } variableOutput =
    .ok "__psc_write(x)\n".toList := by
  have plain : ∀ c ∈ variableOutput, c ≠ opening ∧ isPlainCase c = true := by
    have all : variableOutput.all (fun c => c ≠ opening && isPlainCase c) = true := by decide
    simpa using all
  have single : lines variableOutput = ["écrire(x)".toList] := by decide
  have read : Statement.ofLine standardLanguage "écrire(x)".toList = .write := by decide
  have cut : cutAt? '(' "écrire(x)".toList = some ("écrire".toList, "x)".toList) := by decide
  have closed : splitParen? "x)".toList = some (['x'], []) := by decide
  have written (desk : Desk) :
      Gives ((Context.ofSource standardLanguage { emitPrelude := false } variableOutput).writeLine
        "écrire(x)".toList) desk "__psc_write(x)".toList desk := by
    have value : Gives ((Context.ofSource standardLanguage { emitPrelude := false } variableOutput).value {} ['x'])
        desk ['x'] desk :=
      Context.value_plain {} (by decide) (by decide) (by decide) (by decide) (by decide)
    have restored : Gives (Conversion.restore []) desk [] desk := by
      rw [Gives, outcome_restore, Store.restore_plain _ (by simp)]
    simp only [Context.writeLine, cut, Option.getD_some, closed, pure_bind]
    exact (value.bind (finish_gives (by decide) (by decide) desk)).bind (restored.bind (.pure _ _))
  rw [convert_line plain single rfl (by decide) (by simp) read ((written _).bind (.pure _ _))]
  decide

theorem convert_helpers_defined_output :
    convert { emitPrelude := false } variableOutput = .ok "__psc_write(x)\n".toList ∧
      ∀ word, IsWordOf word "__psc_write(x)\n".toList → helperStem <:+: word →
        word ∈ Prelude.definedHelpers Prelude.text := by
  have plain : ∀ c ∈ variableOutput, c ≠ opening ∧ isVariant c = false := by
    have all : variableOutput.all (fun c => c ≠ opening && !isVariant c) = true := by decide
    simpa using all
  have read : ∀ code ∈ codeLines false ((lines variableOutput).map straightQuotes),
      Stemless code ∧ Parted (({} : Store).mask (trim code)).2 := by
    have codes : codeLines false ((lines variableOutput).map straightQuotes) = ["écrire(x)".toList] := by decide
    rw [codes]
    decide +kernel
  have wordless : (∀ c ∈ ['\t'], isWordChar c = false) ∧ ∀ c ∈ "--".toList, isWordChar c = false := by
    have all : ['\t', '-'].all (fun c => !isWordChar c) = true := by decide
    simpa using all
  obtain ⟨body, shape, defined⟩ := convert_helpers_defined wordless.1 wordless.2
    (show Stemless variableOutput by decide) plain read convert_variableOutput
  obtain rfl : _ = body := shape
  exact ⟨convert_variableOutput, defined⟩

/-- The length of a variable, with a word right after it. -/
def runOn : Text :=
  "longueur(__p)sc_x".toList

theorem convertInline_runOn (context : Context) (standard : context.language = standardLanguage)
    (undeclared : context.declares "longueur".toList = false) :
    context.convertInline runOn = pure "#__psc_x".toList := by
  have found : callAt? (namedCallee (Context.inlineNames standardLanguage)) none runOn =
      some { name := "longueur".toList, gap := [] } := by
    rw [Context.inlineNames_standard]
    decide
  have closed : splitParen? (runOn.drop 9) = some ("__p".toList, "sc_x".toList) := by decide
  have idle {text : Text} (plain : '(' ∉ text) (before : Option Char) :
      convertCalls (namedCallee (Context.inlineNames standardLanguage)) .openCall context.inlineCall before text =
        pure text :=
    convertCalls_idle (fun text head found => (namedCallee_eq_some found).1) plain before
  have built : context.inlineCall { name := "longueur".toList, gap := [] } "__p".toList = pure "#__p".toList := by
    rw [Context.inlineCall, undeclared, standard]
    rfl
  have shape : runOn = 'l' :: "ongueur(__p)sc_x".toList := by decide
  rw [Context.convertInline, standard]
  rw [if_neg (by rw [Context.inlineNames_standard]; decide)]
  rw [shape] at found closed ⊢
  rw [convertCalls_call found closed, idle (by decide), pure_bind, built, pure_bind, idle (by decide), pure_bind]
  rfl

theorem convertValue_runOn (layout : Layout) (desk : Desk) :
    Gives (Context.convertValue { layout } {} runOn) desk "#__psc_x".toList desk := by
  have shape : runOn =
      'l' :: 'o' :: 'n' :: 'g' :: 'u' :: 'e' :: 'u' :: 'r' :: '(' :: ("__p".toList ++ ')' :: "sc_x".toList) := by
    decide
  have records : Gives (Records.convert [] runOn) desk runOn desk :=
    (Gives.pure _ _).bind (Records.convertLiteralsWithin_idle [] (.inl (by decide)) _ desk)
  have listed : ListLiteral.convert false runOn = runOn := by
    rw [shape, ListLiteral.convert]
    iterate 8 rw [ListLiteral.convertFrom_cons (by decide)]
    rw [ListLiteral.convertFrom_group (show splitParen? _ = some ("__p".toList, "sc_x".toList) by decide),
      ListLiteral.convertFrom_idle (by decide), ListLiteral.convertFrom_idle (by decide)]
    rfl
  have structures : Context.convertStructures { layout } runOn = pure runOn := by
    rw [shape, Context.convertStructures]
    iterate 9 rw [convertCalls_plain (by cbv)]
    rw [convertCalls_idle (fun text head found => (namedCallee_eq_some found).1) (by decide)]
    rfl
  have builtins : Context.convertBuiltins { layout } "#__psc_x".toList = pure "#__psc_x".toList :=
    convertCalls_idle (fun text head found => anyCallee_eq_some found) (by decide) none
  have spelled : standardLanguage.respell "#__psc_x".toList = "#__psc_x".toList := by decide
  have compared : substitute (equality true) "#__psc_x".toList = "#__psc_x".toList := by decide
  have called : substitute inputCall "#__psc_x".toList = "#__psc_x".toList := by decide
  refine records.bind ?_
  simp only [listed, structures, convertInline_runOn { layout } rfl rfl, builtins, spelled, compared,
    called, pure_bind]
  exact .pure _ _

theorem assignmentLine_runOn (layout : Layout) (desk : Desk) :
    Gives (Context.assignmentLine { layout } "y ← longueur(__p)sc_x".toList) desk "y = #__psc_x".toList desk := by
  have cut : cutAt? '←' "y ← longueur(__p)sc_x".toList = some ("y ".toList, " longueur(__p)sc_x".toList) := by
    decide
  have target : trim "y ".toList = ['y'] := by decide
  have value : trim " longueur(__p)sc_x".toList = runOn := by decide
  have unwritten : Context.inOutCall? { layout } (Context.calls runOn) = pure none := by
    have undeclared (calls : List (Nat × CallHead × Text)) : Context.inOutCall? { layout } calls = pure none := by
      induction calls with
      | nil => rfl
      | cons call calls ih => simpa [Context.inOutCall?, Signatures.get?] using ih
    exact undeclared _
  have left : Context.finish ['y'] = pure ['y'] := Context.finish_plain (by decide) (by decide)
  obtain ⟨depth, limit⟩ : ∃ depth, Context.depthLimit desk.store runOn = depth + 1 := ⟨_, rfl⟩
  have converted : Gives (Context.value { layout } {} runOn) desk "#__psc_x".toList desk := by
    rw [Context.value, Gives, outcome_bind, outcome_get]
    simp only [limit, Context.valueWithin]
    exact (convertValue_runOn layout desk).bind (Conversion.expand_plain _ (by decide))
  simp only [Context.assignmentLine, cut, getD_some, target, value, unwritten, pure_bind, map_none,
    getD_none, filter_nil, Context.assignment, commaSeparated, joinWith, intercalate_singleton, left]
  exact (converted.bind (finish_gives (by decide) (by decide) desk)).bind (.pure _ _)

/-- A source that names no helper, whose text names one that is not defined: the parenthesis that kept
two parts of the name apart goes with the call. -/
theorem convert_undefined_helper :
    Stemless "y ← longueur(__p)sc_x\n".toList ∧
      convert { emitPrelude := false } "y ← longueur(__p)sc_x\n".toList = .ok "y = #__psc_x\n".toList ∧
      IsWordOf "__psc_x".toList "y = #__psc_x\n".toList ∧
      "__psc_x".toList ∉ Prelude.definedHelpers Prelude.text := by
  have plain : ∀ c ∈ "y ← longueur(__p)sc_x\n".toList, c ≠ opening ∧ isPlainCase c = true := by
    have all : "y ← longueur(__p)sc_x\n".toList.all (fun c => c ≠ opening && isPlainCase c) = true := by decide
    simpa using all
  have single : lines "y ← longueur(__p)sc_x\n".toList = ["y ← longueur(__p)sc_x".toList] := by decide
  have read : Statement.ofLine standardLanguage "y ← longueur(__p)sc_x".toList = .assignment := by decide +kernel
  have declared : Context.ofSource standardLanguage { emitPrelude := false } "y ← longueur(__p)sc_x\n".toList =
      { layout := { emitPrelude := false } } := by
    simp only [Context.ofSource, show Signatures.collect "y ← longueur(__p)sc_x\n".toList = [] by decide +kernel,
      show Records.collect standardLanguage "y ← longueur(__p)sc_x\n".toList = [] by decide +kernel,
      show Hints.collect standardLanguage "y ← longueur(__p)sc_x\n".toList = [] by decide +kernel]
  have run (desk : Desk) : Gives ((Context.ofSource standardLanguage { emitPrelude := false }
      "y ← longueur(__p)sc_x\n".toList).effect .assignment "y ← longueur(__p)sc_x".toList [] []) desk
      { lines := ["y = #__psc_x".toList], frames := [] } desk := by
    rw [declared]
    exact (assignmentLine_runOn _ _).bind (.pure _ _)
  refine ⟨by decide, ?_, ⟨all_eq_true.mp (by decide), by decide, "y = #".toList, ['\n'],
    by decide, by decide, by decide⟩, ?_⟩
  · rw [convert_line plain single rfl (by decide) (by simp) read (run _)]
    decide
  · rw [Prelude.definedHelpers_text]
    decide +kernel

end Samples

end Pseudocode
