import Pseudocode.Proofs.Passing

namespace Pseudocode

open List Placeholder
variable {text : Text} {context : Context} {admits : Nat → Prop} {shape : Shape} {expression : Expression Nat}

theorem Replacer.becomes_iff {replacer : Replacer} {out : Text} :
    Becomes replacer.run text (pure out) ↔ ∀ before tail, atNameStart before = true →
      closes tail = true → substituteFrom replacer before 0 (text ++ tail) =
        out ++ substituteFrom replacer none 0 tail := by
  constructor
  · intro becomes before tail fresh closed
    have ends := congrArg (fun work => outcome work {}) (becomes before tail fresh closed)
    simpa [run] using ends
  · intro turns before tail fresh closed
    simp [run, turns before tail fresh closed]

/-- What a replacer does to words, if it leaves names alone. -/
structure Turning (replacer : Replacer) (old new : Words) : Prop where
  quiet : replacer.Quiet
  copy : ∀ {first rest}, IsRun first rest → ∀ before tail, atNameStart before = true →
    closes tail = true → substituteFrom replacer before 0 (first ++ rest ++ tail) =
      first ++ rest ++ substituteFrom replacer none 0 tail
  truth : ∀ value, replacer.Turns (old.truth value) (new.truth value)
  negation : replacer.Turns old.negation new.negation
  operator : ∀ operator rest, substituteFrom replacer (some ' ') 0 (old.operator operator ++ ' ' :: rest) =
    new.operator operator ++ substituteFrom replacer none 0 (' ' :: rest)
  dots : replacer.Turns ['.', '.'] ['.', '.']
  lead : ∀ {word}, isLeadWord word = true → replacer.Turns word word
  library : replacer.Turns Inline.library Inline.library

namespace Turning

variable {replacer : Replacer} {old new : Words}
variable {work : Conversion Text}

variable (turning : Turning replacer old new)
include turning

/-- Replacement has no effects. -/
theorem pure_of_becomes (becomes : Becomes replacer.run text work) : ∃ out, work = pure out :=
  ⟨_, (becomes.eq turning.quiet.walk).symm⟩

/-- What follows a word that is turned goes on as it would alone. -/
theorem becomes_after {word turned : Text} {c : Char} (quiet : isQuiet c = true)
    (turns : replacer.Turns word turned) (becomes : Becomes replacer.run (c :: text) work) :
    Becomes replacer.run (word ++ c :: text) (do return turned ++ (← work)) := by
  obtain ⟨out, rfl⟩ := turning.pure_of_becomes becomes
  rw [pure_bind]
  rw [Replacer.becomes_iff] at becomes ⊢
  intro before tail fresh closed
  rw [append_assoc, turns before (c :: text ++ tail) fresh (by simpa using quiet),
    becomes none tail rfl closed, append_assoc]

theorem becomes_opening (connective : Connective) (becomes : Becomes replacer.run text work) :
    Becomes replacer.run (old.opening connective ++ text)
      (do return new.opening connective ++ (← work)) := by
  obtain ⟨out, rfl⟩ := turning.pure_of_becomes becomes
  have spaced := becomes.sign_pure turning.quiet.walk isQuiet_space
  cases connective with
  | negation => simpa [Words.opening] using turning.becomes_after isQuiet_space turning.negation spaced
  | operator operator =>
    have later : Becomes replacer.run (' ' :: (old.operator operator ++ ' ' :: text))
        (pure (' ' :: (new.operator operator ++ ' ' :: out))) := by
      rw [Replacer.becomes_iff] at spaced ⊢
      intro before tail _ closed
      have turned := turning.operator operator (text ++ tail)
      have rest := spaced none tail rfl closed
      rw [cons_append, substituteFrom, turning.quiet.sign before ' ' _ isQuiet_space]
      simp only [append_assoc, cons_append] at turned rest ⊢
      rw [turned, rest]
    simpa [Words.opening] using later

theorem wording : Wording replacer.run old new where
  walk := turning.quiet.walk
  copy isRun := Replacer.becomes_iff.mpr (turning.copy isRun)
  truth value := Replacer.becomes_iff.mpr fun before tail fresh closed =>
    turning.truth value before tail fresh (closes_head closed)
  opening connective _ _ _ _ becomes := turning.becomes_opening connective becomes
  opened connective _ _ _ becomes := by
    simpa using turning.becomes_opening connective (becomes.enclosed turning.quiet.walk .round)

theorem calls {word turned : Text} (turns : replacer.Turns word turned) : Calls replacer.run word turned := by
  intro inside work _ becomes
  have enclosed := becomes.enclosed turning.quiet.walk .round
  simpa using turning.becomes_after IsPair.round.quiet.1 turns enclosed

theorem rule (fit : old.isFit = true) (leads : context.Leads shape)
    (inlined : shape.inlined = true) : Rule context admits replacer.run old new shape shape where
  toWording := turning.wording
  call function := turning.calls (turning.lead (leads _ function))
  built _ := turning.calls (turning.lead builder_lead)
  inline allowed formed each := by
    refine turning.wording.inline_spelled fit leads ⟨inlined, inlined⟩ ?_
      (turning.calls turning.library) allowed formed each
    intro text out becomes
    have spaced := becomes.sign_pure turning.quiet.walk isQuiet_space
    have dotted := turning.becomes_after isQuiet_space turning.dots spaced
    rw [pure_bind] at dotted
    exact dotted.sign_pure turning.quiet.walk isQuiet_space

/-- Replacement in a written expression is the same expression with other words. -/
theorem substitute_masked (fit : old.isFit = true)
    (leads : context.Leads shape) (inlined : shape.inlined = true)
    (formed : expression.Formed (context.plain admits)) :
    substitute replacer (expression.masked shape old) = expression.masked shape new := by
  have walked := (turning.rule fit leads inlined).converts fit leads rfl formed
  have ends := congrArg (fun work => outcome work {}) walked
  simpa [Replacer.run, substitute] using ends

end Turning

/-- The words after one spelling has been replaced. -/
def Words.turn (words : Words) (spelling : Spelling) : Words where
  truth value := spelling.turn (words.truth value)
  negation := spelling.turn words.negation
  operator operator := spelling.turn (words.operator operator)

theorem Words.lexemes_turn (words : Words) (spelling : Spelling) :
    (words.turn spelling).lexemes = words.lexemes.map spelling.turn := by
  simp [lexemes, turn, Function.comp_def]

theorem Spelling.turning {words : Words} {spelling : Spelling} (regular : spelling.isRegular = true)
    (listed : spelling ∈ standardLanguage.spellings)
    (handled : words.lexemes.all spelling.handles = true) :
    Turning spelling.replacer words (words.turn spelling) where
  quiet := quiet regular
  copy run before tail fresh closed := copies regular listed run before tail fresh (closes_head closed)
  truth value := turns regular (all_eq_true.mp handled _ (words.truth_mem value))
  negation := turns regular (all_eq_true.mp handled _ words.negation_mem)
  operator operator rest :=
    turns regular (all_eq_true.mp handled _ (words.operator_mem operator)) (some ' ')
      (' ' :: rest) (by decide) (by simp)
  dots := by
    refine (quiet regular).turns_inert fun before c member rest => ?_
    obtain rfl : c = '.' := by simpa using member
    cases isWord : spelling.isWord with
    | true =>
      obtain ⟨full, letters⟩ := isRegular_word regular isWord
      rw [replacer_word isWord]
      simp [wordReplacer, dropWord?_break full letters (by decide : isBreak '.' = true)]
    | false =>
      obtain ⟨sign, single, noRun, -⟩ := isRegular_sign regular isWord
      have other : sign ≠ '.' := by
        rintro rfl
        exact absurd noRun (by decide)
      rw [replacer_sign isWord, single]
      simp [literally, other]
  lead lead := by simpa using copies regular listed (isLeadWord_run lead)
  library := Inline.library_eq ▸ copies regular listed Inline.library_run

section Passes

variable {context : Context} {admits : Nat → Prop} {shape : Shape} {expression : Expression Nat}

theorem foldl_substitute_masked {words : Words} {spellings : List Spelling}
    (known : ∀ spelling ∈ spellings,
      spelling ∈ standardLanguage.spellings ∧ spelling.isRegular = true)
    (along : ∀ word ∈ words.lexemes, Spelling.handlesAlong spellings word = true)
    (leads : context.Leads shape) (inlined : shape.inlined = true)
    (formed : expression.Formed (context.plain admits)) :
    spellings.foldl (fun text spelling => substitute spelling.replacer text)
        (expression.masked shape words) =
      expression.masked shape (spellings.foldl Words.turn words) := by
  induction spellings generalizing words with
  | nil => rfl
  | cons spelling spellings ih =>
    simp only [Spelling.handlesAlong, Bool.and_eq_true] at along
    have fit : words.isFit = true := all_eq_true.mpr fun word member => (along word member).1.1
    have handled := all_eq_true.mpr fun word member => (along word member).1.2
    obtain ⟨member, regular⟩ := known _ (.head _)
    have turning := spelling.turning regular member handled
    rw [foldl_cons, turning.substitute_masked fit leads inlined formed, foldl_cons]
    refine ih (fun other member => known other (.tail _ member)) ?_
    rw [Words.lexemes_turn]
    simpa using fun word member => (along word member).2

end Passes

/-- The words of Lua, but for the equals sign. -/
def Words.spelled : Words where
  truth := Words.lua.truth
  negation := Words.lua.negation
  operator operator := if operator = .equal then "=".toList else Words.lua.operator operator

theorem Words.foldl_turn (words : Words) (spellings : List Spelling) :
    spellings.foldl Words.turn words =
      { truth := fun value => spellings.foldl (fun word spelling => spelling.turn word) (words.truth value)
        negation := spellings.foldl (fun word spelling => spelling.turn word) words.negation
        operator := fun operator =>
          spellings.foldl (fun word spelling => spelling.turn word) (words.operator operator) } := by
  induction spellings generalizing words with
  | nil => rfl
  | cons spelling spellings ih => rw [foldl_cons, ih]; rfl

theorem Words.turn_source : standardLanguage.spellings.foldl Words.turn Words.source = Words.spelled := by
  have truths : ∀ value, standardLanguage.spellings.foldl (fun word spelling => spelling.turn word)
      (Words.source.truth value) = Words.spelled.truth value := by
    decide
  have negation : standardLanguage.spellings.foldl (fun word spelling => spelling.turn word)
      Words.source.negation = Words.spelled.negation := by
    decide
  have operators : ∀ operator ∈ Operator.all,
      standardLanguage.spellings.foldl (fun word spelling => spelling.turn word)
        (Words.source.operator operator) = Words.spelled.operator operator := by
    decide +kernel
  generalize standardLanguage.spellings = spellings at truths negation operators ⊢
  rw [foldl_turn]
  exact Words.ext (funext truths) negation
    (funext fun operator => operators operator operator.mem_all)

theorem Words.spelled_isFit : spelled.isFit = true := by
  decide

/-- A lone equals sign compares. -/
theorem equality_turning : Turning (equality true) Words.spelled Words.lua where
  quiet := equality_quiet
  copy run before tail fresh closed := equality_copies run before tail fresh (closes_head closed)
  truth value := equality_inert (by cases value <;> rfl)
  negation := equality_inert rfl
  operator operator rest := by cases operator <;> rfl
  dots := equality_inert rfl
  lead lead := by simpa using equality_copies (isLeadWord_run lead)
  library := Inline.library_eq ▸ equality_copies Inline.library_run

theorem lua_lexeme : ∀ word ∈ Words.lua.lexemes,
    (word.all isWordChar = true ∨ word.all isOperatorSign = true) ∧ word.map caseKey ≠ inputName := by
  decide

/-- Nothing reads the input where nothing is called `lire`. -/
theorem inputCall_turning : Turning inputCall Words.lua Words.lua where
  quiet := inputCall_quiet
  copy run before tail _ closed := inputCall_copies run closed
  truth value := inputCall_lexeme (lua_lexeme _ (Words.lua.truth_mem value)).1
    (lua_lexeme _ (Words.lua.truth_mem value)).2
  negation := inputCall_lexeme (lua_lexeme _ Words.lua.negation_mem).1
    (lua_lexeme _ Words.lua.negation_mem).2
  operator operator rest := by
    obtain ⟨lexeme, other⟩ := lua_lexeme _ (Words.lua.operator_mem operator)
    exact inputCall_lexeme lexeme other (some ' ') (' ' :: rest) (by decide)
      (by simp)
  dots := inputCall_quiet.turns_inert fun before c member rest => by
    obtain rfl : c = '.' := by simpa using member
    exact inputCall_break (by decide)
  lead lead := by
    obtain ⟨⟨-, letters⟩, -, other⟩ := isLeadWord_iff.mp lead
    exact inputCall_turns letters other
  library := by
    intro before tail fresh stop
    have run := Inline.library_run
    have kept : inputCall before (Inline.library ++ tail) = none := by
      rw [Inline.library_eq, append_assoc]
      exact inputCall_word run.letters (run.stop stop) (.inl (by decide))
    obtain ⟨next, passed⟩ := Replacer.substituteFrom_run inputCall_guarded
      (Inline.library_eq ▸ run.chars) kept
    rw [passed, inputCall_quiet.resume next stop]

/-- Keywords and symbols take their Lua spelling, and a lone equals sign compares. -/
theorem substitutions_masked (leads : context.Leads shape) (inlined : shape.inlined = true)
    (formed : expression.Formed (context.plain admits)) :
    substitute inputCall (substitute (equality true)
        (standardLanguage.respell (expression.masked shape .source))) =
      expression.masked shape .lua := by
  have regular : ∀ spelling ∈ standardLanguage.spellings, spelling.isRegular = true := by
    decide +kernel
  have along : Words.source.lexemes.all (Spelling.handlesAlong standardLanguage.spellings) = true := by
    decide +kernel
  rw [Language.respell, foldl_substitute_masked
    (fun spelling member => ⟨member, regular spelling member⟩) (all_eq_true.mp along) leads inlined
    formed, Words.turn_source, equality_turning.substitute_masked Words.spelled_isFit leads inlined formed,
    inputCall_turning.substitute_masked Words.lua_isFit leads inlined formed]

end Pseudocode
