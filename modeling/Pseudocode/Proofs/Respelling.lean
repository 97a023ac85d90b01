import Pseudocode.Proofs.Pass
import Pseudocode.Proofs.Walk

namespace Pseudocode

open List Option
variable {before : Option Char} {first rest tail word text : Text} {c : Char}

/-- A replacer that starts at no quiet sign and puts nothing in where a text ends. -/
structure Replacer.Quiet (replacer : Replacer) : Prop where
  nil : ∀ before, replacer before [] = none
  sign : ∀ before c rest, isQuiet c = true → replacer before (c :: rest) = none

/-- Replacement as a walk. -/
def Replacer.run (replacer : Replacer) (before : Option Char) (text : Text) : Conversion Text :=
  return substituteFrom replacer before 0 text

/-- Replacement turns the text into another, wherever a name can start and a quiet sign follows. -/
def Replacer.Turns (replacer : Replacer) (text out : Text) : Prop :=
  ∀ before tail, atNameStart before = true → (∀ c ∈ tail.head?, isQuiet c = true) →
    substituteFrom replacer before 0 (text ++ tail) = out ++ substituteFrom replacer none 0 tail

namespace Replacer

variable {replacer : Replacer} {text tail : Text}

theorem Quiet.resume (quiet : replacer.Quiet) (before : Option Char)
    (stop : ∀ c ∈ tail.head?, isQuiet c = true) :
    substituteFrom replacer before 0 tail = substituteFrom replacer none 0 tail := by
  cases tail with
  | nil => simp [substituteFrom, quiet.nil]
  | cons c rest => simp [substituteFrom, quiet.sign _ c rest (stop c rfl)]

theorem Quiet.walk (quiet : replacer.Quiet) : Walk replacer.run where
  nil before := by simp [run, substituteFrom, quiet.nil]
  quiet before c rest sign := by simp [run, substituteFrom, quiet.sign before c rest sign]

/-- A replacer that starts nowhere in the text leaves it. -/
theorem Quiet.turns_inert (quiet : replacer.Quiet)
    (inert : ∀ before, ∀ c ∈ text, ∀ rest, replacer before (c :: rest) = none) :
    replacer.Turns text text := by
  intro before tail _ stop
  obtain ⟨next, same⟩ := substituteFrom_passes inert before tail
  rw [same, quiet.resume next stop]

/-- In a run of names no replacement starts that needs the start of a name, but at its first character. -/
theorem substituteFrom_run (guarded : ∀ c rest, isRunChar c = true → replacer (some c) rest = none)
    (run : ∀ c ∈ text, isRunChar c = true)
    (kept : replacer before (text ++ tail) = none) :
    ∃ next, substituteFrom replacer before 0 (text ++ tail) =
      text ++ substituteFrom replacer next 0 tail := by
  induction text generalizing before with
  | nil => exact ⟨before, rfl⟩
  | cons c text ih =>
    obtain ⟨next, same⟩ := ih (fun d member => run d (.tail _ member)) (guarded c _ (run c (.head _)))
    refine ⟨next, ?_⟩
    rw [cons_append] at kept ⊢
    rw [substituteFrom, kept]
    simp only [same, cons_append]

end Replacer

/-- The first name of a run stops at a point or where the run does. -/
theorem IsRun.stop (run : IsRun first rest)
    (stop : ∀ c ∈ tail.head?, isQuiet c = true) : ∀ c ∈ (rest ++ tail).head?, isBreak c = true := by
  intro c member
  cases rest with
  | nil => exact isBreak_quiet (stop c member)
  | cons d rest =>
    obtain rfl : d = c := by simpa using member
    rw [run.point d rfl]
    decide

namespace Spelling

/-- What becomes of a word. -/
def turn (spelling : Spelling) (word : Text) : Text :=
  if spelling.isWord then
    if word.map caseKey = spelling.source.map caseKey then spelling.target else word
  else if word = spelling.source then spelling.target else word

/-- A word of letters, or a single sign that is neither part of a name nor quiet. -/
def isRegular (spelling : Spelling) : Bool :=
  if spelling.isWord then !spelling.source.isEmpty && spelling.source.all isWordChar
  else spelling.source.length = 1 && spelling.source.all fun c => !isRunChar c && !isQuiet c

/-- A word of letters, or signs none of which is replaced, unless they are replaced together. -/
def handles (spelling : Spelling) (word : Text) : Bool :=
  !word.isEmpty && (word.all isWordChar ||
    word.all isOperatorSign &&
      (spelling.isWord || word = spelling.source || !word.any spelling.source.contains))

variable {spelling : Spelling} {before : Option Char} {word tail : Text} {c : Char}

theorem replacer_word (isWord : spelling.isWord = true) :
    spelling.replacer = wordReplacer spelling.source spelling.target := by
  rw [replacer, if_pos isWord]

theorem replacer_sign (isSign : spelling.isWord = false) :
    spelling.replacer = literally spelling.source spelling.target := by
  rw [replacer, if_neg (by simp [isSign])]

theorem isRegular_word (regular : spelling.isRegular = true) (isWord : spelling.isWord = true) :
    spelling.source ≠ [] ∧ ∀ w ∈ spelling.source, isWordChar w = true := by
  rw [isRegular, if_pos isWord] at regular
  simpa using regular

theorem isRegular_sign (regular : spelling.isRegular = true) (isSign : spelling.isWord = false) :
    ∃ sign, spelling.source = [sign] ∧ isRunChar sign = false ∧ isQuiet sign = false := by
  rw [isRegular, if_neg (by simp [isSign])] at regular
  simp only [Bool.and_eq_true, decide_eq_true_eq] at regular
  obtain ⟨sign, single⟩ := length_eq_one_iff.mp regular.1
  refine ⟨sign, single, ?_⟩
  simpa [single] using regular.2

end Spelling

theorem standard_spellings_regular :
    ∀ spelling ∈ standardLanguage.spellings, spelling.isRegular = true := by
  decide +kernel

/-- No word of letters starts at a break. -/
theorem dropWord?_break (nonempty : word ≠ [])
    (letters : ∀ w ∈ word, isWordChar w = true) (broken : isBreak c = true) :
    dropWord? word (c :: rest) = none := by
  cases word with
  | nil => exact absurd rfl nonempty
  | cons w word =>
    rw [dropWord?, if_neg]
    intro same
    have key : [c].map caseKey = [w].map caseKey := by simp [same]
    have unbroken := unbroken_of_caseKey (by simpa using letters w (.head _)) key c
      (.head _)
    simp [broken] at unbroken

/-- A word of letters that another word starts with, up to letter case, ends within it. -/
theorem dropWord?_within (letters : ∀ w ∈ word, isWordChar w = true)
    (stop : ∀ c ∈ tail.head?, isBreak c = true) (found : dropWord? word (text ++ tail) = some rest) :
    ∃ taken more, text = taken ++ more ∧ rest = more ++ tail ∧
      taken.map caseKey = word.map caseKey := by
  obtain ⟨split, same⟩ := dropWord?_eq_some found
  obtain ⟨more, inside, after⟩ := within_of_unbroken split (unbroken_of_caseKey letters same) stop
  exact ⟨_, more, inside, after, same⟩

theorem dropWord?_append (same : text.map caseKey = word.map caseKey) (tail : Text) :
    dropWord? word (text ++ tail) = some tail := by
  induction word generalizing text with
  | nil =>
    obtain rfl : text = [] := by simpa using same
    rfl
  | cons w word ih =>
    cases text with
    | nil => simp at same
    | cons c text =>
      rw [map_cons, map_cons] at same
      obtain ⟨here, later⟩ := List.cons.inj same
      rw [cons_append, dropWord?, if_pos here.symm, ih later]

/-- A whole word is replaced exactly if it is the one sought, up to letter case. -/
theorem wordReplacer_word {old : Text} (new : Text)
    (letters : ∀ w ∈ old, isWordChar w = true) (own : ∀ c ∈ word, isWordChar c = true)
    (fresh : atNameStart before = true) (stop : ∀ c ∈ tail.head?, isBreak c = true) :
    wordReplacer old new before (word ++ tail) =
      if word.map caseKey = old.map caseKey then some (old.length, new) else none := by
  have ends : atWordEnd tail = true := by
    cases tail with
    | nil => rfl
    | cons c rest =>
      have broken := stop c rfl
      simp only [isBreak, Bool.and_eq_true] at broken
      simpa [atWordEnd] using broken.1
  rw [wordReplacer, if_pos fresh]
  split
  · rename_i same
    simp [dropWord?_append same, ends]
  · rename_i other
    rw [map_eq_none_iff, filter_eq_none_iff]
    intro rest found ended
    obtain ⟨taken, more, rfl, rfl, same⟩ := dropWord?_within letters stop found
    cases more with
    | nil => exact other (by simpa using same)
    | cons c more =>
      have inside := own c (by simp)
      simp [atWordEnd, inside] at ended

theorem atNameStart_run (run : isRunChar c = true) : atNameStart (some c) = false := by
  rcases Bool.or_eq_true_iff.mp run with word | point
  · simp [atNameStart, atWordStart, word]
  · obtain rfl : c = '.' := by simpa using point
    decide

theorem wordReplacer_guarded {old new : Text} (c : Char) (rest : Text) (run : isRunChar c = true) :
    wordReplacer old new (some c) rest = none := by
  simp [wordReplacer, atNameStart_run run]

theorem substituteFrom_fire {replacer : Replacer} {new : Text}
    (nonempty : word ≠ []) (fires : replacer before (word ++ tail) = some (word.length, new)) :
    substituteFrom replacer before 0 (word ++ tail) = new ++ substituteFrom replacer word.getLast? 0 tail := by
  obtain ⟨c, word, rfl⟩ := exists_cons_of_ne_nil nonempty
  rw [cons_append] at fires ⊢
  rw [substituteFrom, fires]
  exact congrArg (new ++ ·) (substituteFrom_passed word tail c)

namespace Spelling

variable {spelling : Spelling} {word : Text}

theorem quiet (regular : spelling.isRegular = true) : spelling.replacer.Quiet := by
  cases isWord : spelling.isWord with
  | true =>
    obtain ⟨nonempty, letters⟩ := isRegular_word regular isWord
    rw [replacer_word isWord]
    refine ⟨fun before => ?_, fun before c rest quiet => ?_⟩
    · obtain ⟨w, word, shape⟩ := exists_cons_of_ne_nil nonempty
      simp [wordReplacer, shape, dropWord?]
    · simp [wordReplacer, dropWord?_break nonempty letters (isBreak_quiet quiet)]
  | false =>
    obtain ⟨sign, single, -, loud⟩ := isRegular_sign regular isWord
    rw [replacer_sign isWord, single]
    refine ⟨fun before => by simp [literally], fun before c rest quiet => ?_⟩
    have other : sign ≠ c := by
      rintro rfl
      simp [quiet] at loud
    simp [literally, other]

theorem turns (regular : spelling.isRegular = true) (handled : spelling.handles word = true) :
    spelling.replacer.Turns word (spelling.turn word) := by
  have quiet := quiet regular
  simp only [handles, Bool.and_eq_true, Bool.or_eq_true, Bool.not_eq_true', List.all_eq_true,
    List.isEmpty_eq_false_iff] at handled
  obtain ⟨nonempty, kind⟩ := handled
  cases isWord : spelling.isWord with
  | true =>
    obtain ⟨full, letters⟩ := isRegular_word regular isWord
    rw [turn, if_pos isWord]
    rcases kind with own | ⟨signs, -⟩
    · intro before tail fresh stop
      have replaced := wordReplacer_word spelling.target letters own fresh
        fun c member => isBreak_quiet (stop c member)
      rw [← replacer_word isWord] at replaced
      split
      · rename_i same
        rw [if_pos same] at replaced
        have long : spelling.source.length = word.length := by
          simpa using (congrArg List.length same).symm
        rw [substituteFrom_fire nonempty (long ▸ replaced), quiet.resume _ stop]
      · rename_i other
        rw [if_neg other] at replaced
        obtain ⟨next, passed⟩ := Replacer.substituteFrom_run
          (fun c rest run => by rw [replacer_word isWord]; exact wordReplacer_guarded c rest run)
          (fun c member => by simp [isRunChar, own c member]) replaced
        rw [passed, quiet.resume next stop]
    · have other : word.map caseKey ≠ spelling.source.map caseKey := by
        intro same
        obtain ⟨c, rest, rfl⟩ := exists_cons_of_ne_nil nonempty
        have unbroken := unbroken_of_caseKey letters same c (.head _)
        rw [isOperatorSign_break (signs c (.head _))] at unbroken
        simp at unbroken
      rw [if_neg other]
      refine quiet.turns_inert fun before c member rest => ?_
      rw [replacer_word isWord]
      simp [wordReplacer, dropWord?_break full letters (isOperatorSign_break (signs c member))]
  | false =>
    obtain ⟨sign, single, noRun, -⟩ := isRegular_sign regular isWord
    rw [turn, if_neg (by simp [isWord])]
    have inert (absent : ∀ c ∈ word, c ≠ sign) : spelling.replacer.Turns word word := by
      refine quiet.turns_inert fun before c member rest => ?_
      rw [replacer_sign isWord, single]
      simp [literally, (absent c member).symm]
    split
    · rename_i same
      intro before tail fresh stop
      have fires : spelling.replacer before (word ++ tail) = some (word.length, spelling.target) := by
        rw [replacer_sign isWord, same]
        simp [literally]
      rw [substituteFrom_fire nonempty fires, quiet.resume _ stop]
    · rename_i other
      refine inert fun c member same => ?_
      subst same
      rcases kind with own | ⟨-, known⟩
      · have letter := own c member
        simp [isRunChar, letter] at noRun
      · rcases known with (isWordToo | same) | absent
        · simp [isWord] at isWordToo
        · exact other (by simpa using same)
        · simp only [List.any_eq_false] at absent
          exact absent c member (by simp [single])

theorem copies (regular : spelling.isRegular = true)
    (listed : spelling ∈ standardLanguage.spellings) (run : IsRun first rest) :
    spelling.replacer.Turns (first ++ rest) (first ++ rest) := by
  have quiet := quiet regular
  have chars := run.chars
  cases isWord : spelling.isWord with
  | true =>
    obtain ⟨full, letters⟩ := isRegular_word regular isWord
    intro before tail fresh stop
    have replaced := wordReplacer_word spelling.target letters run.letters fresh (run.stop stop)
    have other : first.map caseKey ≠ spelling.source.map caseKey := by
      have kept := List.any_eq_false.mp run.kept spelling listed
      simpa [eq_comm] using kept
    rw [if_neg other, ← replacer_word isWord, ← append_assoc] at replaced
    obtain ⟨next, passed⟩ := Replacer.substituteFrom_run
      (fun c rest run => by rw [replacer_word isWord]; exact wordReplacer_guarded c rest run)
      chars replaced
    rw [passed, quiet.resume next stop]
  | false =>
    obtain ⟨sign, single, noRun, -⟩ := isRegular_sign regular isWord
    refine quiet.turns_inert fun before c member rest => ?_
    have other : sign ≠ c := by
      rintro rfl
      simp [chars sign member] at noRun
    rw [replacer_sign isWord, single]
    simp [literally, other]

end Spelling

/-- Every spelling in turn can handle what has become of the word. -/
def Spelling.handlesAlong : List Spelling → Text → Bool
  | [], _ => true
  | spelling :: spellings, word =>
    isLexeme word && spelling.handles word && handlesAlong spellings (spelling.turn word)

theorem equality_quiet : Replacer.Quiet (equality true) where
  nil _ := rfl
  sign before c rest quiet := by
    have other : c ≠ '=' := by
      rintro rfl
      exact absurd quiet (by decide)
    simp [equality, other]

theorem equality_inert (absent : text.contains '=' = false) :
    Replacer.Turns (equality true) text text := by
  refine equality_quiet.turns_inert fun before c member rest => ?_
  have other : c ≠ '=' := by
    rintro rfl
    simp [member] at absent
  simp [equality, other]

theorem equality_copies (run : IsRun first rest) :
    Replacer.Turns (equality true) (first ++ rest) (first ++ rest) := by
  refine equality_inert ?_
  by_contra present
  rw [Bool.not_eq_false, contains_iff_mem] at present
  exact absurd (run.chars '=' present) (by decide)

theorem dropEmptyCall?_none (opens : (trimLeft text).head? ≠ some '(') :
    Statement.dropEmptyCall? text = none := by
  unfold Statement.dropEmptyCall?
  split
  · rename_i shape
    simp [shape] at opens
  · rfl

/-- The word that reads the input. -/
def inputName : Text :=
  ['l', 'i', 'r', 'e']

theorem inputCall_eq (before : Option Char) (text : Text) :
    inputCall before text =
      if atNameStart before then
        ((dropWord? inputName text).bind Statement.dropEmptyCall?).map fun rest =>
          (text.length - rest.length, "__psc_lire()".toList)
      else none :=
  rfl

theorem inputName_letters : ∀ w ∈ inputName, isWordChar w = true := by
  have all : inputName.all isWordChar = true := by decide
  exact List.all_eq_true.mp all

/-- Only `lire` before a parenthesis takes a value from the input. -/
theorem inputCall_word (letters : ∀ c ∈ word, isWordChar c = true) (stop : ∀ c ∈ tail.head?, isBreak c = true)
    (other : word.map caseKey ≠ inputName ∨ (trimLeft tail).head? ≠ some '(') :
    inputCall before (word ++ tail) = none := by
  have fixed : inputName.map caseKey = inputName := by decide
  rw [inputCall_eq]
  split
  · rw [map_eq_none_iff, bind_eq_none_iff]
    intro rest found
    obtain ⟨taken, more, rfl, rfl, same⟩ := dropWord?_within inputName_letters stop found
    refine dropEmptyCall?_none ?_
    cases more with
    | nil =>
      rcases other with different | unclosed
      · exact absurd (by rw [append_nil, same, fixed]) different
      · exact unclosed
    | cons c more =>
      have letter := letters c (by simp)
      rw [cons_append, head?_trimLeft_cons (isWordChar_plain letter).2, Ne, Option.some.injEq]
      rintro rfl
      exact absurd letter (by decide)
  · rfl

theorem inputCall_break (broken : isBreak c = true) :
    inputCall before (c :: rest) = none := by
  have none : dropWord? inputName (c :: rest) = none :=
    dropWord?_break (by decide) inputName_letters broken
  simp only [inputCall_eq, none, bind_none, map_none, ite_self]

theorem inputCall_quiet : Replacer.Quiet inputCall where
  nil before := by
    have none : dropWord? inputName [] = none := rfl
    simp only [inputCall_eq, none, bind_none, map_none, ite_self]
  sign before c rest quiet := inputCall_break (isBreak_quiet quiet)

theorem inputCall_guarded (c : Char) (rest : Text) (run : isRunChar c = true) :
    inputCall (some c) rest = none := by
  simp [inputCall, atNameStart_run run]

theorem inputCall_turns (letters : ∀ c ∈ word, isWordChar c = true)
    (other : word.map caseKey ≠ inputName) : inputCall.Turns word word := by
  intro before tail fresh stop
  obtain ⟨next, passed⟩ := Replacer.substituteFrom_run inputCall_guarded
    (fun c member => by simp [isRunChar, letters c member])
    (inputCall_word letters (fun c member => isBreak_quiet (stop c member)) (.inl other))
  rw [passed, inputCall_quiet.resume next stop]

theorem inputCall_lexeme (lexeme : word.all isWordChar = true ∨ word.all isOperatorSign = true)
    (other : word.map caseKey ≠ inputName) : inputCall.Turns word word := by
  simp only [List.all_eq_true] at lexeme
  rcases lexeme with letters | signs
  · exact inputCall_turns letters other
  · exact inputCall_quiet.turns_inert fun before c member rest =>
      inputCall_break (isOperatorSign_break (signs c member))

theorem inputCall_copies (run : IsRun first rest)
    (closed : closes tail = true) : substituteFrom inputCall before 0 (first ++ rest ++ tail) =
      first ++ rest ++ substituteFrom inputCall none 0 tail := by
  have head : (trimLeft (rest ++ tail)).head? ≠ some '(' := by
    cases rest with
    | nil =>
      simp only [closes, Bool.and_eq_true, decide_eq_true_eq] at closed
      exact closed.2
    | cons d rest =>
      obtain rfl := run.point d rfl
      rw [cons_append, head?_trimLeft_cons (by decide)]
      decide
  have kept : inputCall before (first ++ rest ++ tail) = none := by
    rw [append_assoc]
    exact inputCall_word run.letters (run.stop (closes_head closed)) (.inr head)
  obtain ⟨next, passed⟩ := Replacer.substituteFrom_run inputCall_guarded run.chars kept
  rw [passed, inputCall_quiet.resume next (closes_head closed)]

end Pseudocode
