import Pseudocode.Proofs.Appearance

namespace Pseudocode

open List Placeholder
variable {names : List Text} {word text name : Text} {head : CallHead} {expression : Expression Nat}

theorem source_letters :
    [Words.source.truth true, Words.source.truth false, Words.source.negation].all
      (·.all isWordChar) = true := by
  decide

theorem source_lexeme : ∀ word ∈ Words.source.lexemes,
    word ≠ [] ∧ (word.all isWordChar = true ∨ word.all isOperatorSign = true) := by
  decide +kernel

namespace Callee.Sound

variable {callee : Callee} {onOpen : Text → Notice} {build : CallHead → Text → Conversion Text}
  {word text inside : Text} {work : Conversion Text}

theorem becomes_breaks (sound : callee.Sound) {signs : Text} (broken : ∀ c ∈ signs, isBreak c = true)
    (becomes : Becomes (convertCalls callee onOpen build) (' ' :: text) work) :
    Becomes (convertCalls callee onOpen build) (signs ++ ' ' :: text)
      (do return signs ++ (← work)) := by
  intro before tail _ closed
  obtain ⟨next, passed⟩ := convertCalls_passes onOpen build
    (fun c member rest => sound.break_none (broken c member) rest) before (' ' :: text ++ tail)
  rw [append_assoc, passed, sound.walk.resume next (by simp), becomes none tail rfl closed]
  simp only [pure_bind, bind_assoc, append_assoc]

theorem becomes_word (sound : callee.Sound) (letters : ∀ c ∈ word, isWordChar c = true) :
    Becomes (convertCalls callee onOpen build) word (pure word) := by
  have fields : ∀ c ∈ ([] : Text), isRunChar c = true := by simp
  simpa using sound.becomes_run letters fields (by simp)

theorem calls (sound : callee.Sound) {turned : Text} (lead : isLeadWord word = true)
    (found : ∀ text head, callee text = some head → head.name = word → head.gap = [] →
      ∀ arguments, build head arguments = return turned ++ '(' :: arguments ++ [')'])
    (missed : ∀ text, callee (word ++ '(' :: text) = none → turned = word) :
    Calls (convertCalls callee onOpen build) word turned := by
  intro inside work balanced below
  obtain ⟨⟨nonempty, letters⟩, -⟩ := isLeadWord_iff.mp lead
  have below : Becomes (convertCalls callee onOpen build) inside (do return id (← work)) := by
    simpa using below
  have built : Becomes (convertCalls callee onOpen build) (word ++ [] ++ '(' :: inside ++ [')'])
      (work >>= fun arguments => return turned ++ '(' :: arguments ++ [')']) :=
    sound.becomes_call [] nonempty letters (by simp) balanced below found fun text none arguments => by
      rw [missed text (by simpa using none), append_nil]
      rfl
  rwa [append_nil] at built

/-- A name that is put together again when it is found stays. -/
theorem calls_kept (sound : callee.Sound) (lead : isLeadWord word = true)
    (found : ∀ text head, callee text = some head → head.name = word →
      ∀ arguments, build head arguments = return head.apply arguments) :
    Calls (convertCalls callee onOpen build) word word :=
  sound.calls lead
    (fun text head recognized named gapped arguments => by
      rw [found text head recognized named, CallHead.apply, CallHead.written, named, gapped]
      simp)
    fun _ _ => rfl

/-- A name with a field before a parenthesis is no call. -/
theorem calls_library (sound : callee.Sound) :
    Calls (convertCalls callee onOpen build) Inline.library Inline.library := by
  intro inside work _ below before tail fresh closed
  have run := Inline.library_run
  have enclosed := below.enclosed sound.walk .round none tail rfl closed
  have kept : callee (Inline.library ++ ('(' :: inside ++ [')'] ++ tail)) = none := by
    rw [Inline.library_eq, append_assoc]
    refine sound.none_of_head run.letters (by simpa using (by decide : isBreak '.' = true)) ?_
    have shape : ".sub".toList = '.' :: "sub".toList := by decide
    rw [shape, cons_append, head?_trimLeft_cons (by decide)]
    decide
  obtain ⟨next, passed⟩ := convertCalls_run onOpen build (Inline.library_eq ▸ run.chars) before
    fun _ => kept
  have quiet : ∀ c ∈ ('(' :: inside ++ [')'] ++ tail).head?, isQuiet c = true := by
    simpa using IsPair.round.quiet.1
  have shape : Inline.library ++ '(' :: inside ++ [')'] ++ tail =
      Inline.library ++ ('(' :: inside ++ [')'] ++ tail) := by simp
  rw [shape, passed, sound.walk.resume next quiet, enclosed]
  simp only [pure_bind, bind_assoc, append_assoc, cons_append]

theorem joint (sound : callee.Sound) {out : Text}
    (becomes : Becomes (convertCalls callee onOpen build) text (pure out)) :
    Becomes (convertCalls callee onOpen build) (Inline.joint ++ text) (pure (Inline.joint ++ out)) := by
  have broken : ∀ c ∈ ['.', '.'], isBreak c = true := all_eq_true.mp (by decide)
  have spaced := sound.becomes_breaks broken (becomes.sign_pure sound.walk isQuiet_space)
  rw [pure_bind] at spaced
  exact spaced.sign_pure sound.walk isQuiet_space

section Wording

variable (sound : callee.Sound)
  (kept : ∀ {text head}, callee text = some head → head.name ∈ Words.source.lexemes →
    ∀ arguments, build head arguments = return head.apply arguments)

include sound

/-- A keyword before a text does not make a call of it. -/
theorem becomes_keyword (letters : ∀ c ∈ word, isWordChar c = true) (whole : Whole text)
    (simple : text.head? ≠ some '(') (below : Becomes (convertCalls callee onOpen build) text work) :
    Becomes (convertCalls callee onOpen build) (word ++ ' ' :: text)
      (do return word ++ ' ' :: (← work)) := by
  have both := (sound.becomes_word letters).append (sound.walk.becomes_sign isQuiet_space below)
    fun tail _ => closes_operand whole simple tail
  simpa using both

include kept

/-- A keyword before a parenthesis is found, and put together again. -/
theorem becomes_keyword_opened (listed : word ∈ Words.source.lexemes)
    (letters : ∀ c ∈ word, isWordChar c = true) (balanced : Balanced true inside)
    (below : Becomes (convertCalls callee onOpen build) inside work) :
    Becomes (convertCalls callee onOpen build) (word ++ ' ' :: ('(' :: inside ++ [')']))
      (do return word ++ ' ' :: ('(' :: (← work) ++ [')'])) := by
  have below : Becomes (convertCalls callee onOpen build) inside (do return id (← work)) := by
    simpa using below
  have called : Becomes (convertCalls callee onOpen build) (word ++ [' '] ++ '(' :: inside ++ [')'])
      (work >>= fun arguments => return word ++ ' ' :: ('(' :: arguments ++ [')'])) :=
    sound.becomes_call [' '] (source_lexeme word listed).1 letters (by simp) balanced below
      (fun text head found named gapped arguments => by
        rw [kept found (named ▸ listed), CallHead.apply, CallHead.written, named, gapped]
        simp)
      fun text none arguments => by simp
  simpa using called

theorem wording : Wording (convertCalls callee onOpen build) .source .source := by
  have negation : Words.source.negation.all isWordChar = true :=
    all_eq_true.mp source_letters _ (by simp)
  have led {operator : Operator} {text : Text} {work : Conversion Text}
      (becomes : Becomes (convertCalls callee onOpen build)
        (Words.source.operator operator ++ ' ' :: text)
        (do return Words.source.operator operator ++ ' ' :: (← work))) :
      Becomes (convertCalls callee onOpen build) (Words.source.opening (.operator operator) ++ text)
        (do return Words.source.opening (.operator operator) ++ (← work)) := by
    simpa [Words.opening] using sound.walk.becomes_sign isQuiet_space becomes
  have signed {operator : Operator} {text : Text} {work : Conversion Text}
      (signs : (Words.source.operator operator).all isOperatorSign = true)
      (becomes : Becomes (convertCalls callee onOpen build) text work) :
      Becomes (convertCalls callee onOpen build) (Words.source.opening (.operator operator) ++ text)
        (do return Words.source.opening (.operator operator) ++ (← work)) := by
    have broken : ∀ c ∈ Words.source.operator operator, isBreak c = true := fun c member =>
      isOperatorSign_break (all_eq_true.mp signs c member)
    have after := sound.becomes_breaks broken (sound.walk.becomes_sign isQuiet_space becomes)
    simp only [bind_assoc, pure_bind] at after
    exact led after
  refine ⟨sound.walk, fun run => sound.becomes_run run.letters run.fields run.point, fun value => ?_,
    fun connective text work whole simple below => ?_,
    fun connective inside work balanced below => ?_⟩
  · have letters : (Words.source.truth value).all isWordChar = true :=
      all_eq_true.mp source_letters _ (by cases value <;> simp)
    exact sound.becomes_word (all_eq_true.mp letters)
  · cases connective with
    | negation =>
      simpa [Words.opening] using sound.becomes_keyword (all_eq_true.mp negation) whole simple below
    | operator operator =>
      rcases (source_lexeme _ (Words.source.operator_mem operator)).2 with letters | signs
      · exact led (sound.becomes_keyword (all_eq_true.mp letters) whole simple below)
      · exact signed signs below
  · cases connective with
    | negation =>
      simpa [Words.opening] using sound.becomes_keyword_opened kept Words.source.negation_mem
        (all_eq_true.mp negation) balanced below
    | operator operator =>
      rcases (source_lexeme _ (Words.source.operator_mem operator)).2 with letters | signs
      · have opened := sound.becomes_keyword_opened kept (Words.source.operator_mem operator)
          (all_eq_true.mp letters) balanced below
        simpa [Words.opening] using sound.walk.becomes_sign isQuiet_space opened
      · have opened := signed signs (below.enclosed sound.walk .round)
        simpa using opened

end Wording

end Callee.Sound

/-- Lists have been built. -/
def Shape.built : Shape :=
  { Shape.source with listed := true }

/-- Lists have been built, and built-ins on strings are spelled out. -/
def Shape.spelled : Shape :=
  { Shape.built with inlined := true }

namespace Context

variable {context : Context}

theorem built_leads : context.Leads Shape.built :=
  fun _ function => isFunctionName_lead function

theorem spelled_leads : context.Leads Shape.spelled :=
  fun _ function => isFunctionName_lead function

theorem lua_leads (standard : context.language = standardLanguage) :
    context.Leads (Shape.lua context) :=
  fun _ function => luaName_lead standard function

end Context

/-- A word that is none of the names, in whatever case, is not found among them. -/
theorem namedCallee_other (other : word.map caseKey ∉ names.map (·.map caseKey))
    (found : namedCallee names text = some head) : head.name ≠ word := by
  rintro rfl
  obtain ⟨-, name, member, same⟩ := namedCallee_eq_some found
  exact other (mem_map.mpr ⟨name, member, same.symm⟩)

theorem namedCallee_found (listed : name ∈ names)
    (cased : word.map caseKey = name.map caseKey) (rest : Text) :
    namedCallee names (word ++ '(' :: rest) ≠ none := by
  rw [namedCallee, ne_eq, findSome?_eq_none_iff]
  intro missed
  have length : name.length = word.length := by simpa using congrArg List.length cased.symm
  have here := missed _ listed
  rw [dropWord?_append cased, Option.bind_some, length] at here
  simp [headAt?, trimLeft, isBlank] at here

section Structures

variable {context : Context} {admits : Nat → Prop}

theorem structureNames_letters : ∀ name ∈ Context.structureNames,
    name ≠ [] ∧ ∀ c ∈ name, isWordChar c = true := by
  have all : Context.structureNames.all (fun name => !name.isEmpty && name.all isWordChar) = true := by
    decide
  intro name member
  simpa using all_eq_true.mp all name member

theorem structureNames_other : (ListLiteral.builder :: Words.source.lexemes ++
    [Inline.concatenation, .length, .character, .substring].flatMap Inline.names).all
      (fun word => !(Context.structureNames.map (·.map caseKey)).contains (word.map caseKey)) = true := by
  decide

/-- No structure is built where no name of one is called. -/
theorem structures_rule : Rule context admits (convertCalls (namedCallee Context.structureNames) .openCall
    (fun head arguments =>
      return if context.declares head.name then head.apply arguments
        else Context.structureCall (lower head.name) arguments))
    .source .source Shape.built Shape.built where
  toWording := (Callee.namedCallee_sound structureNames_letters).wording fun {_ head} found listed => by
    have other := all_eq_true.mp structureNames_other head.name
      (mem_append_left _ (.tail _ listed))
    exact absurd rfl (namedCallee_other (by simpa using other) found)
  call {name} function := by
    obtain ⟨-, ⟨-, other⟩, -⟩ := Context.isFunctionName_iff.mp function
    refine (Callee.namedCallee_sound structureNames_letters).calls_kept
      (Context.isFunctionName_lead function) fun text head found named => ?_
    have keys : Context.structureNames.map (·.map caseKey) = Context.structureNames := by decide
    exact absurd named (namedCallee_other (by rwa [keys]) found)
  built _ := by
    refine (Callee.namedCallee_sound structureNames_letters).calls_kept builder_lead
      fun text head found named => ?_
    have other := all_eq_true.mp structureNames_other ListLiteral.builder (by simp)
    exact absurd named (namedCallee_other (by simpa using other) found)
  inline {form name items} allowed formed each := by
    have sound := Callee.namedCallee_sound structureNames_letters
    refine Wording.inline_named (sound.wording ?_) Words.source_isFit Context.built_leads ⟨rfl, rfl⟩ ?_
      allowed formed each
    · intro text head found listed
      have other := all_eq_true.mp structureNames_other head.name
        (mem_append_left _ (.tail _ listed))
      exact absurd rfl (namedCallee_other (by simpa using other) found)
    · intro form name listed _
      refine sound.calls_kept (form.names_lead name listed) fun text head found named => ?_
      have other := all_eq_true.mp structureNames_other name (mem_append_right _
        (mem_flatMap.mpr ⟨form, by cases form <;> decide, listed⟩))
      exact absurd named (namedCallee_other (by simpa using other) found)

theorem Context.convertStructures_masked (formed : expression.Formed (context.plain admits)) :
    context.convertStructures (expression.masked Shape.built .source) =
      pure (expression.masked Shape.built .source) :=
  structures_rule.converts Words.source_isFit built_leads rfl formed

end Structures

section Inlines

variable {context : Context} {admits : Nat → Prop}

/-- The built-ins on strings as the language has them. -/
def Inline.helper : Inline → Text
  | .concatenation => ['.', '.']
  | .length => ['#']
  | .character => Inline.library
  | .substring => Inline.library

theorem inlineNames_mem : name ∈ Context.inlineNames standardLanguage ↔
    ∃ builtin ∈ standardLanguage.builtins, builtin.inline = true ∧ builtin.name = name := by
  simp [Context.inlineNames, mem_mergeSort, and_assoc]

theorem inlineNames_letters : ∀ name ∈ Context.inlineNames standardLanguage,
    name ≠ [] ∧ ∀ c ∈ name, isWordChar c = true := by
  have all : (standardLanguage.builtins.filter (·.inline)).all
      (fun builtin => !builtin.name.isEmpty && builtin.name.all isWordChar) = true := by
    decide
  intro name member
  obtain ⟨builtin, listed, inline, rfl⟩ := inlineNames_mem.mp member
  simpa using all_eq_true.mp all builtin (mem_filter.mpr ⟨listed, inline⟩)

theorem inlineNames_other : (ListLiteral.builder :: Words.source.lexemes).all (fun word =>
    (standardLanguage.builtins.filter (·.inline)).all fun builtin =>
      builtin.name.map caseKey ≠ word.map caseKey) = true := by
  decide

theorem inlineCallee_other (member : word ∈ ListLiteral.builder :: Words.source.lexemes)
    (found : namedCallee (Context.inlineNames standardLanguage) text = some head) : head.name ≠ word := by
  refine namedCallee_other ?_ found
  intro inside
  obtain ⟨name, listed, same⟩ := mem_map.mp inside
  obtain ⟨builtin, among, inline, rfl⟩ := inlineNames_mem.mp listed
  have other := all_eq_true.mp (all_eq_true.mp inlineNames_other word member) builtin
    (mem_filter.mpr ⟨among, inline⟩)
  simp [same] at other

/-- In any letter case the name of an inline built-in stands for inline built-ins only. -/
theorem inline_unique : (standardLanguage.builtins.filter (·.inline)).all (fun builtin =>
    builtin.name.all isPlainCase && standardLanguage.builtins.all fun other =>
      lower other.name ≠ lower builtin.name || other.inline) = true := by
  decide

/-- A function of the program may have the name of an inline built-in, but it comes first. -/
theorem Context.isFunctionName_declared (standard : context.language = standardLanguage)
    (function : context.isFunctionName name = true)
    (found : namedCallee (inlineNames standardLanguage) text = some head) (named : head.name = name) :
    context.declares name = true := by
  obtain ⟨⟨ascii, -⟩, -, -, inlined⟩ := isFunctionName_iff.mp function
  refine inlined.resolve_right fun notInline => ?_
  obtain ⟨-, other, listed, same⟩ := namedCallee_eq_some found
  obtain ⟨builtin, member, inline, rfl⟩ := inlineNames_mem.mp listed
  have unique := all_eq_true.mp inline_unique builtin (mem_filter.mpr ⟨member, inline⟩)
  simp only [Bool.and_eq_true, all_eq_true, Bool.or_eq_true, decide_eq_true_eq] at unique
  simp only [isAsciiName, Bool.and_eq_true, all_eq_true, decide_eq_true_eq] at ascii
  have lowered : lower builtin.name = lower name := by
    rw [lower_eq_map_caseKey unique.1,
      lower_eq_map_caseKey fun c inside => isPlainCase_ascii (ascii.2 c inside), ← named, same]
  cases found : standardLanguage.builtin? name with
  | none =>
    have missed := find?_eq_none.mp found builtin (mem_reverse.mpr member)
    simp [lowered] at missed
  | some chosen =>
    obtain ⟨among, same⟩ := builtin?_mem found
    rw [standard, found, Option.any_some] at notInline
    rcases unique.2 chosen among with differ | isInline
    · exact differ (same.trans lowered.symm)
    · simp [isInline] at notInline

theorem Inline.builtin {form : Inline} (listed : name ∈ form.names) :
    ∃ builtin ∈ standardLanguage.builtins, builtin.name = name ∧ builtin.inline = true ∧
      standardLanguage.builtin? name = some builtin ∧ builtin.helper = form.helper ∧
      builtin.arity = form.arity := by
  have all : [Inline.concatenation, .length, .character, .substring].all (fun form =>
      form.names.all fun name => standardLanguage.builtins.any fun builtin =>
        builtin.name = name && builtin.inline && standardLanguage.builtin? name = some builtin &&
          builtin.helper = form.helper && builtin.arity = form.arity) = true := by
    decide
  have here := all_eq_true.mp (all_eq_true.mp all form (by cases form <;> decide)) name listed
  simpa [and_assoc] using here

/-- An inline built-in with as many arguments as it takes is spelled out. -/
theorem Context.inlineForm_eq {form : Inline} {builtin : Builtin} {items : List Item}
    (helper : builtin.helper = form.helper) (arity : builtin.arity = form.arity)
    (count : items.length = form.arity)
    (bare : ∀ item ∈ items, (isIdentifier item.text || isPlaceholder item.text) = item.isBare) :
    inlineForm builtin (items.map (·.text)) = pure (form.text items) := by
  have same : Inline.library ≠ ['#'] ∧ Inline.library ≠ ['.', '.'] := by decide
  cases form with
  | concatenation =>
    obtain ⟨first, second, rfl⟩ := length_eq_two.mp count
    simp [inlineForm, helper, Inline.helper, argumentAt, Inline.text, Inline.joint]
  | length =>
    obtain ⟨item, rfl⟩ := length_eq_one_iff.mp count
    have known := bare item (by simp)
    simp only [inlineForm, helper, Inline.helper, argumentAt, if_true, map_cons, map_nil,
      getElem?_cons_zero, pure_bind, known, Inline.text]
    cases item.isBare <;> simp
  | character =>
    obtain ⟨subject, place, rfl⟩ := length_eq_two.mp count
    simp [inlineForm, helper, Inline.helper, arity, Inline.arity, argumentAt, Inline.text, same]
  | substring =>
    simp [inlineForm, helper, Inline.helper, arity, Inline.arity, Inline.text, same, itemTexts]

theorem inlines_rule (standard : context.language = standardLanguage) :
    Rule context admits (convertCalls (namedCallee (Context.inlineNames standardLanguage)) .openCall
      context.inlineCall) .source .source Shape.built Shape.spelled where
  toWording := (Callee.namedCallee_sound inlineNames_letters).wording fun found listed =>
    absurd rfl (inlineCallee_other (.tail _ listed) found)
  call {name} function := by
    refine (Callee.namedCallee_sound inlineNames_letters).calls_kept
      (Context.isFunctionName_lead function) fun text head found named arguments => ?_
    have declared := Context.isFunctionName_declared standard function found named
    rw [Context.inlineCall, named, if_pos declared]
  built _ := by
    refine (Callee.namedCallee_sound inlineNames_letters).calls_kept builder_lead
      fun text head found named => ?_
    exact absurd named (inlineCallee_other (.head _) found)
  inline {form name items} allowed formed each := by
    have sound := Callee.namedCallee_sound inlineNames_letters
    obtain ⟨listed, undeclared, -, count⟩ := allowed
    obtain ⟨builtin, member, named, isInline, known, helper, arity⟩ := Inline.builtin listed
    have lead := form.names_lead name listed
    obtain ⟨⟨nonempty, letters⟩, -⟩ := isLeadWord_iff.mp lead
    have balanced := Context.built_leads.balanced Words.source_isFit formed
    have whole : ∀ text ∈ items.map (Expression.masked Shape.spelled .source), Whole text :=
      forall_mem_map.mpr fun item member =>
        Context.spelled_leads.whole Words.source_isFit (formed item member)
    have below : Becomes (convertCalls (namedCallee (Context.inlineNames standardLanguage)) .openCall
        context.inlineCall) (commaSeparated (items.map (Expression.masked Shape.built .source)))
        ((pure () : Conversion Unit) >>= fun _ =>
          pure (commaSeparated (items.map (Expression.masked Shape.spelled .source)))) := by
      simpa using Rule.becomes_items sound.walk each
    have spelled (head : CallHead) (same : head.name = name) : context.inlineCall head
        (commaSeparated (items.map (Expression.masked Shape.spelled .source))) =
          return form.text (Expression.writeItems (Shape.spelled.dialect .source) write items) := by
      have texts := Expression.map_text_writeItems (Shape.spelled.dialect .source) write items
      have bare : ∀ item ∈ Expression.writeItems (Shape.spelled.dialect .source) write items,
          (isIdentifier item.text || isPlaceholder item.text) = item.isBare := by
        rw [Expression.writeItems_eq]
        exact forall_mem_map.mpr fun item member =>
          (formed item member).isBare_masked Context.spelled_leads
      have taken := Context.inlineForm_eq helper arity (by simpa [Expression.writeItems_eq] using count) bare
      rw [texts] at taken
      rw [Context.inlineCall, same, if_neg (by simp [undeclared]), standard, known]
      simp only
      rw [splitArguments_commaSeparated whole, if_neg (by simp [count, arity])]
      exact taken
    have built := sound.becomes_call [] nonempty letters (by simp) balanced below
      (fun text head _ same _ _ => spelled head same)
      fun text missed => by
        have listed : builtin.name ∈ Context.inlineNames standardLanguage :=
          inlineNames_mem.mpr ⟨builtin, member, isInline, rfl⟩
        exact absurd (by simpa using missed) (namedCallee_found listed (by rw [named]) text)
    rw [append_nil, pure_bind] at built
    have wording : Wording (convertCalls (namedCallee (Context.inlineNames standardLanguage)) .openCall
        context.inlineCall) .source .source := sound.wording fun found listed =>
      absurd rfl (inlineCallee_other (.tail _ listed) found)
    have head := (isLeadWord_run lead).head_ne '(' (by decide)
      ('(' :: commaSeparated (items.map (Expression.masked Shape.built .source)) ++ [')'])
    have passes := wording.passes ((isLeadWord_whole lead).called balanced) (by simpa using head) built
    rw [← Expression.itemTexts_masked] at passes
    exact passes

theorem Context.convertInline_masked (standard : context.language = standardLanguage)
    (formed : expression.Formed (context.plain admits)) :
    context.convertInline (expression.masked Shape.built .source) =
      pure (expression.masked Shape.spelled .source) := by
  have some : (inlineNames standardLanguage).isEmpty = false := by
    obtain ⟨builtin, member, -, isInline, -⟩ := Inline.builtin (show _ ∈ Inline.length.names from (.head _))
    have listed := inlineNames_mem.mpr ⟨builtin, member, isInline, rfl⟩
    cases names : inlineNames standardLanguage with
    | nil => simp [names] at listed
    | cons _ _ => rfl
  rw [convertInline, standard]
  simp only [some, Bool.false_eq_true, if_false]
  exact (inlines_rule standard).converts Words.source_isFit built_leads rfl formed

end Inlines

section Builtins

variable {context : Context} {admits : Nat → Prop}

theorem anyCallee_found (whole : identifier? name = some (name, [])) (rest : Text) :
    anyCallee (name ++ '(' :: rest) ≠ none := by
  have letters : ∀ c ∈ name, isWordChar c = true := fun c => identifier?_mem whole
  cases name with
  | nil => simp [identifier?] at whole
  | cons c name =>
    have start : startsIdentifier c = true := by
      simp only [identifier?, Option.ite_none_right_eq_some] at whole
      exact whole.1
    have taken : (name ++ '(' :: rest).takeWhile isWordChar = name := by
      rw [takeWhile_append_of_pos fun d member => letters d (.tail _ member)]
      simp [show isWordChar '(' = false by decide]
    rw [anyCallee, cons_append, identifier?, if_pos start, Option.bind_some, taken]
    simp [headAt?, trimLeft, isBlank]

theorem builtins_other : (ListLiteral.builder :: Words.source.lexemes).all (fun word =>
    (standardLanguage.builtin? word).isNone) = true := by
  decide

/-- Built-ins are called by the names of their helpers. -/
theorem builtins_rule (standard : context.language = standardLanguage) :
    Rule context admits (convertCalls anyCallee .openCall
      (fun head arguments => return context.helperCall head arguments))
      .source .source Shape.spelled (Shape.lua context) := by
  have kept {word : Text} {head : CallHead} (named : head.name = word)
      (member : word ∈ ListLiteral.builder :: Words.source.lexemes) (arguments : Text) :
      context.helperCall head arguments = head.apply arguments := by
    have none : standardLanguage.builtin? word = none := by
      simpa using all_eq_true.mp builtins_other word member
    rw [Context.helperCall, standard, named, none]
  have wording : Wording (convertCalls anyCallee .openCall
      (fun head arguments => return context.helperCall head arguments)) .source .source :=
    Callee.anyCallee_sound.wording fun _ listed arguments =>
      congrArg pure (kept rfl (.tail _ listed) arguments)
  exact {
    toWording := wording
    call := fun {name} function => by
      obtain ⟨⟨ascii, -⟩, -, -, inlined⟩ := Context.isFunctionName_iff.mp function
      simp only [isAsciiName, Bool.and_eq_true, decide_eq_true_eq] at ascii
      refine Callee.anyCallee_sound.calls (Context.isFunctionName_lead function)
        (fun text head found named gapped arguments => ?_)
        fun text missed => absurd missed (anyCallee_found ascii.1 text)
      have applied : head.apply arguments = name ++ '(' :: arguments ++ [')'] := by
        simp [CallHead.apply, CallHead.written, named, gapped]
      show pure _ = pure (context.luaName name ++ '(' :: arguments ++ [')'])
      rw [Context.helperCall, Context.luaName, named, applied]
      cases known : context.language.builtin? name with
      | none => simp
      | some builtin =>
        cases declared : context.declares name with
        | true => simp
        | false =>
          have notInline := inlined.resolve_left (by simp [declared])
          rw [known, Option.any_some] at notInline
          simp [notInline]
    built := fun _ => Callee.anyCallee_sound.calls_kept builder_lead fun text head _ named arguments =>
      congrArg pure (kept named (.head _) arguments)
    inline := fun allowed formed each =>
      wording.inline_spelled Words.source_isFit Context.spelled_leads ⟨rfl, rfl⟩
        Callee.anyCallee_sound.joint Callee.anyCallee_sound.calls_library allowed formed each }

theorem Context.convertBuiltins_masked (standard : context.language = standardLanguage)
    (formed : expression.Formed (context.plain admits)) :
    context.convertBuiltins (expression.masked Shape.spelled .source) =
      pure (expression.masked (Shape.lua context) .source) :=
  (builtins_rule standard).converts Words.source_isFit spelled_leads rfl formed

end Builtins

end Pseudocode
