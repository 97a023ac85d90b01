import Pseudocode.Proofs.Lexeme

namespace Pseudocode

open List Placeholder
variable {c : Char} {tail : Text}

def quietSigns : List Char :=
  [' ', ',', '(', ')', '[', ']', '\x7b', '\x7d', '<', '>', '#']

/-- A sign that no pattern of the language starts with: a blank, a comma, a bracket of any kind, the
sign of lengths or a part of a placeholder. -/
def isQuiet (c : Char) : Bool :=
  isMark c || quietSigns.contains c

/-- What can follow an operand: nothing, or a quiet sign, but no parenthesis that would make a call
of it. -/
def closes (tail : Text) : Bool :=
  tail.head?.all isQuiet && (trimLeft tail).head? ≠ some '('

@[simp] theorem isQuiet_space : isQuiet ' ' = true := by
  decide

@[simp] theorem isQuiet_comma : isQuiet ',' = true := by
  decide

theorem IsPair.quiet {opener closer : Char} (pair : IsPair opener closer) :
    isQuiet opener = true ∧ isQuiet closer = true := by
  cases pair <;> decide

theorem isQuiet_not_run (quiet : isQuiet c = true) : isRunChar c = false := by
  rcases Bool.or_eq_true_iff.mp quiet with mark | sign
  · have point : c ≠ '.' := isMark_ne mark (by decide)
    simp [isRunChar, isMark_not_wordChar mark, point]
  · have all : quietSigns.all (!isRunChar ·) = true := by decide
    simpa using all_eq_true.mp all c (by simpa using sign)

theorem isQuiet_fresh (quiet : isQuiet c = true) : atNameStart (some c) = true := by
  have run := isQuiet_not_run quiet
  simp only [isRunChar, Bool.or_eq_false_iff, decide_eq_false_iff_not] at run
  simp [atNameStart, atWordStart, run]

theorem isQuiet_uncased (quiet : isQuiet c = true) : isUncased c = true := by
  rcases Bool.or_eq_true_iff.mp quiet with mark | sign
  · exact isMark_uncased mark
  · have all : quietSigns.all isUncased = true := by decide
    exact all_eq_true.mp all c (by simpa using sign)

/-- No word starts or goes on at the sign, in whatever case letters are compared. -/
def isBreak (c : Char) : Bool :=
  !isWordChar c && isUncased c

theorem isBreak_quiet (quiet : isQuiet c = true) : isBreak c = true := by
  have run := isQuiet_not_run quiet
  simp only [isRunChar, Bool.or_eq_false_iff] at run
  simp [isBreak, run.1, isQuiet_uncased quiet]

/-- What is the same as a word in another case has no break. -/
theorem unbroken_of_caseKey {taken word : Text} (letters : ∀ w ∈ word, isWordChar w = true)
    (same : taken.map caseKey = word.map caseKey) : ∀ c ∈ taken, isBreak c = false := by
  intro c member
  by_contra broken
  simp only [isBreak, Bool.and_eq_true, Bool.not_eq_true', Bool.not_eq_false] at broken
  obtain ⟨w, inside, key⟩ := mem_map.mp (same ▸ mem_map_of_mem member)
  have word := letters w inside
  rw [eq_of_caseKey_uncased broken.2 key, broken.1] at word
  simp at word

/-- A text without breaks that starts like a word ends within it. -/
theorem within_of_unbroken {text taken rest : Text} (split : text ++ tail = taken ++ rest)
    (unbroken : ∀ c ∈ taken, isBreak c = false) (stop : ∀ c ∈ tail.head?, isBreak c = true) :
    ∃ more, text = taken ++ more ∧ rest = more ++ tail := by
  rcases append_eq_append_iff.mp split with ⟨more, longer, tailSplit⟩ | ⟨more, inside, after⟩
  · cases more with
    | nil => exact ⟨[], by simpa using longer.symm, by simpa using tailSplit.symm⟩
    | cons c more =>
      have broken := stop c (by simp [tailSplit])
      rw [unbroken c (by simp [longer])] at broken
      simp at broken
  · exact ⟨more, inside, after⟩

@[simp] theorem closes_nil : closes [] = true := by
  decide

theorem closes_sign (quiet : isQuiet c = true) (solid : isBlank c = false)
    (opens : c ≠ '(') (rest : Text) : closes (c :: rest) = true := by
  simp [closes, quiet, trimLeft, solid, opens]

theorem closes_space {rest : Text} (opens : (trimLeft rest).head? ≠ some '(') :
    closes (' ' :: rest) = true := by
  have blank : isBlank ' ' = true := by decide
  simp only [closes, head?_cons, Option.all_some, isQuiet_space, trimLeft,
    dropWhile_cons_of_pos blank, Bool.true_and, decide_eq_true_eq]
  exact opens

theorem head?_trimLeft_cons (solid : isBlank c = false) (rest : Text) :
    (trimLeft (c :: rest)).head? = some c := by
  rw [trimLeft, dropWhile_cons_of_neg (by simp [solid]), head?_cons]

theorem closes_head (closed : closes tail = true) :
    ∀ c ∈ tail.head?, isQuiet c = true := by
  intro c member
  simp only [closes, Bool.and_eq_true] at closed
  simpa [Option.mem_def.mp member] using closed.1

/-- A conversion that goes through a text from left to right and copies quiet signs. It sees the
character before the place where it stands. -/
structure Walk (run : Option Char → Text → Conversion Text) : Prop where
  nil : ∀ before, run before [] = pure []
  quiet : ∀ before c rest, isQuiet c = true → run before (c :: rest) = do
    return c :: (← run (some c) rest)

/-- Where a name can start and what follows closes it, the text is converted by `work`, and the
walk goes on with what follows. -/
def Becomes (run : Option Char → Text → Conversion Text) (text : Text) (work : Conversion Text) :
    Prop :=
  ∀ before tail, atNameStart before = true → closes tail = true → run before (text ++ tail) = do
    let out ← work
    let rest ← run none tail
    return out ++ rest

namespace Walk

variable {run : Option Char → Text → Conversion Text} {text : Text} {work : Conversion Text}

theorem resume (walk : Walk run) (before : Option Char)
    (stop : ∀ c ∈ tail.head?, isQuiet c = true) : run before tail = run none tail := by
  cases tail with
  | nil => rw [walk.nil, walk.nil]
  | cons c rest =>
    have quiet := stop c rfl
    rw [walk.quiet _ c rest quiet, walk.quiet _ c rest quiet]

theorem becomes_nil (walk : Walk run) : Becomes run [] (pure []) := by
  intro before tail _ closed
  simp [walk.resume before (closes_head closed)]

theorem becomes_sign (walk : Walk run) (quiet : isQuiet c = true) (becomes : Becomes run text work) :
    Becomes run (c :: text) (do return c :: (← work)) := by
  intro before tail _ closed
  rw [cons_append, walk.quiet before c _ quiet, becomes (some c) tail (isQuiet_fresh quiet) closed]
  simp

theorem becomes_signs (walk : Walk run) {signs : Text} (quiet : ∀ c ∈ signs, isQuiet c = true)
    (becomes : Becomes run text work) : Becomes run (signs ++ text) (do return signs ++ (← work)) := by
  induction signs with
  | nil => simpa using becomes
  | cons c signs ih =>
    have later := ih fun d member => quiet d (.tail _ member)
    simpa using walk.becomes_sign (quiet c (.head _)) later

theorem becomes_quiet (walk : Walk run) (quiet : ∀ c ∈ text, isQuiet c = true) :
    Becomes run text (pure text) := by
  simpa using walk.becomes_signs quiet walk.becomes_nil

end Walk

namespace Becomes

variable {run : Option Char → Text → Conversion Text} {first second : Text}
  {firstWork secondWork : Conversion Text}

theorem append (before : Becomes run first firstWork) (after : Becomes run second secondWork)
    (closed : ∀ tail, closes tail = true → closes (second ++ tail) = true) :
    Becomes run (first ++ second) (do
      let out ← firstWork
      let rest ← secondWork
      return out ++ rest) := by
  intro previous tail fresh closing
  rw [append_assoc, before previous _ fresh (closed tail closing), after none tail rfl closing]
  simp only [bind_assoc, pure_bind, append_assoc]

theorem eq (walk : Walk run) (becomes : Becomes run first firstWork) : run none first = firstWork := by
  have whole := becomes none [] rfl closes_nil
  rw [append_nil, walk.nil] at whole
  simpa using whole

theorem commaSeparated (walk : Walk run) {texts : List Text} {works : List (Conversion Text)}
    (each : List.Forall₂ (Becomes run) texts works) :
    Becomes run (Pseudocode.commaSeparated texts) (do
      return Pseudocode.commaSeparated (← works.mapM id)) := by
  induction each with
  | nil => simpa [Pseudocode.commaSeparated, joinWith] using walk.becomes_nil
  | cons first each ih =>
    cases each with
    | nil => simpa using first
    | cons next each =>
      have tail := walk.becomes_sign isQuiet_comma (walk.becomes_sign isQuiet_space ih)
      have joined := first.append tail fun tail _ => closes_sign isQuiet_comma (by decide) (by decide) _
      simpa [commaSeparated_cons] using joined

theorem enclosed (walk : Walk run) {opener closer : Char} (pair : IsPair opener closer)
    (becomes : Becomes run first firstWork) :
    Becomes run (opener :: first ++ [closer]) (do return opener :: (← firstWork) ++ [closer]) := by
  have last := walk.becomes_sign pair.quiet.2 walk.becomes_nil
  have body := becomes.append last fun tail _ =>
    closes_sign pair.quiet.2 (by cases pair <;> decide) (by cases pair <;> decide) _
  simpa using walk.becomes_sign pair.quiet.1 body

end Becomes

theorem isOperatorSign_break (sign : isOperatorSign c = true) : isBreak c = true := by
  have all : ['=', '≠', '<', '>', '≤', '≥', '÷', '+', '-', '*', '/', '~', '%'].all isBreak = true := by
    decide +kernel
  exact all_eq_true.mp all c (by simpa [isOperatorSign] using sign)

end Pseudocode
