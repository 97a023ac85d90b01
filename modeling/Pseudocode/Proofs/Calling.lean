import Pseudocode.Proofs.Respelling

namespace Pseudocode

open List

/-- A callee finds a name without breaks, in front of a parenthesis or of blanks and one. -/
structure Callee.Sound (callee : Callee) : Prop where
  split : ∀ {text head}, callee text = some head →
    ∃ rest, text = head.name ++ (head.gap ++ '(' :: rest)
  name : ∀ {text head}, callee text = some head →
    head.name ≠ [] ∧ ∀ c ∈ head.name, isBreak c = false
  gap : ∀ {text head}, callee text = some head → ∀ c ∈ head.gap, isBlank c = true

theorem closes_operand {text : Text} (whole : Whole text) (simple : text.head? ≠ some '(') (tail : Text) :
    closes (' ' :: text ++ tail) = true := by
  refine closes_space ?_
  have start : (text ++ tail).head? = text.head? := head?_append_of_ne_nil _ whole.ne_nil
  have kept : trimLeft (text ++ tail) = text ++ tail := whole.trimLeft tail
  simpa [kept, start] using simple

theorem trimLeft_gap {gap : Text} (blank : ∀ c ∈ gap, isBlank c = true) (rest : Text) :
    trimLeft (gap ++ '(' :: rest) = '(' :: rest := by
  rw [trimLeft, dropWhile_append_of_pos blank, dropWhile_cons_of_neg (by decide)]

namespace Callee.Sound

variable {callee : Callee} {head : CallHead} {word tail : Text}

theorem break_none (sound : callee.Sound) {c : Char} (broken : isBreak c = true) (rest : Text) :
    callee (c :: rest) = none := by
  by_contra found
  obtain ⟨head, found⟩ := Option.ne_none_iff_exists'.mp found
  obtain ⟨after, split⟩ := sound.split found
  obtain ⟨nonempty, unbroken⟩ := sound.name found
  obtain ⟨d, name, shape⟩ := exists_cons_of_ne_nil nonempty
  rw [shape, cons_append] at split
  obtain ⟨rfl, -⟩ := List.cons.inj split
  have kept := unbroken c (by simp [shape])
  simp [broken] at kept

/-- What is found at the start of a word is the whole word, and a parenthesis follows it. -/
theorem whole (sound : callee.Sound) (letters : ∀ c ∈ word, isWordChar c = true)
    (stop : ∀ c ∈ tail.head?, isBreak c = true) (found : callee (word ++ tail) = some head) :
    head.name = word ∧ ∃ rest, tail = head.gap ++ '(' :: rest := by
  obtain ⟨rest, split⟩ := sound.split found
  obtain ⟨more, inside, after⟩ := within_of_unbroken split (sound.name found).2 stop
  cases more with
  | nil => exact ⟨by simpa using inside.symm, rest, by simpa using after.symm⟩
  | cons c more =>
    have letter := letters c (by simp [inside])
    cases gap : head.gap with
    | nil =>
      rw [gap, nil_append, cons_append] at after
      obtain ⟨rfl, -⟩ := List.cons.inj after
      exact absurd letter (by decide)
    | cons d blanks =>
      rw [gap, cons_append, cons_append] at after
      obtain ⟨rfl, -⟩ := List.cons.inj after
      have blank := sound.gap found d (by simp [gap])
      rw [(isWordChar_plain letter).2] at blank
      simp at blank

theorem none_of_head (sound : callee.Sound) (letters : ∀ c ∈ word, isWordChar c = true)
    (stop : ∀ c ∈ tail.head?, isBreak c = true) (opens : (trimLeft tail).head? ≠ some '(') :
    callee (word ++ tail) = none := by
  by_contra found
  obtain ⟨head, found⟩ := Option.ne_none_iff_exists'.mp found
  obtain ⟨-, rest, rfl⟩ := sound.whole letters stop found
  rw [trimLeft_gap (sound.gap found)] at opens
  simp at opens

end Callee.Sound

section Walking

variable {callee : Callee} (onOpen : Text → Notice) (build : CallHead → Text → Conversion Text)
  {text tail : Text}

/-- In a run of names no call starts but at its first character. -/
theorem convertCalls_run (run : ∀ c ∈ text, isRunChar c = true) (before : Option Char)
    (kept : atNameStart before = true → callee (text ++ tail) = none) :
    ∃ next, convertCalls callee onOpen build before (text ++ tail) = do
      return text ++ (← convertCalls callee onOpen build next tail) := by
  induction text generalizing before with
  | nil => exact ⟨before, by simp⟩
  | cons c text ih =>
    obtain ⟨next, same⟩ := ih (fun d member => run d (.tail _ member)) (some c) fun start => by
      simp [atNameStart_run (run c (.head _))] at start
    have none : callAt? callee before (c :: (text ++ tail)) = none := by
      simpa [callAt?] using kept
    refine ⟨next, ?_⟩
    rw [cons_append, convertCalls_plain none, same]
    simp

end Walking

namespace Callee.Sound

variable {callee : Callee} {onOpen : Text → Notice} {build : CallHead → Text → Conversion Text}

theorem walk (sound : callee.Sound) : Walk (convertCalls callee onOpen build) where
  nil before := by rw [convertCalls]
  quiet before c rest quiet := convertCalls_plain (by
    simp [callAt?, sound.break_none (isBreak_quiet quiet)])

theorem becomes_run (sound : callee.Sound) {first rest : Text}
    (letters : ∀ c ∈ first, isWordChar c = true) (fields : ∀ c ∈ rest, isRunChar c = true)
    (point : ∀ c ∈ rest.head?, c = '.') :
    Becomes (convertCalls callee onOpen build) (first ++ rest) (pure (first ++ rest)) := by
  intro before tail _ closed
  have chars : ∀ c ∈ first ++ rest, isRunChar c = true := by
    intro c member
    rcases mem_append.mp member with letter | field
    · simp [isRunChar, letters c letter]
    · exact fields c field
  have after : (∀ c ∈ (rest ++ tail).head?, isBreak c = true) ∧
      (trimLeft (rest ++ tail)).head? ≠ some '(' := by
    cases rest with
    | nil =>
      refine ⟨fun c member => isBreak_quiet (closes_head closed c member), ?_⟩
      simp only [closes, Bool.and_eq_true, decide_eq_true_eq] at closed
      exact closed.2
    | cons d rest =>
      obtain rfl := point d rfl
      rw [cons_append, head?_trimLeft_cons (by decide)]
      exact ⟨by simpa using (by decide : isBreak '.' = true), by decide⟩
  have kept := sound.none_of_head letters after.1 after.2
  rw [← append_assoc] at kept
  obtain ⟨next, passed⟩ := convertCalls_run onOpen build chars before fun _ => kept
  rw [passed, sound.walk.resume next (closes_head closed), pure_bind]

/-- A word in front of a parenthesis is handed to `finish` with its arguments, if the callee finds it
and builds it so, and if `finish` writes it down again where the callee does not find it. -/
theorem becomes_call {β : Type} (sound : callee.Sound) {word inside : Text} (gap : Text)
    {work : Conversion β} {write : β → Text} {finish : β → Conversion Text} (nonempty : word ≠ [])
    (letters : ∀ c ∈ word, isWordChar c = true) (blank : ∀ c ∈ gap, c = ' ')
    (balanced : Balanced true inside)
    (below : Becomes (convertCalls callee onOpen build) inside (do return write (← work)))
    (found : ∀ text head, callee text = some head → head.name = word → head.gap = gap →
      ∀ arguments, build head (write arguments) = finish arguments)
    (missed : ∀ text, callee (word ++ (gap ++ '(' :: text)) = none →
      ∀ arguments, finish arguments = return word ++ gap ++ '(' :: write arguments ++ [')']) :
    Becomes (convertCalls callee onOpen build) (word ++ gap ++ '(' :: inside ++ [')'])
      (work >>= finish) := by
  intro before tail fresh closed
  have blanks : ∀ c ∈ gap, isBlank c = true := fun c member => by
    rw [blank c member]
    decide
  have shape : word ++ gap ++ '(' :: inside ++ [')'] ++ tail =
      word ++ (gap ++ '(' :: (inside ++ ')' :: tail)) := by simp
  have stop : ∀ c ∈ (gap ++ '(' :: (inside ++ ')' :: tail)).head?, isQuiet c = true := by
    cases gap with
    | nil => simpa using IsPair.round.quiet.1
    | cons d gap => simp [blank d (.head _)]
  rw [shape]
  cases recognized : callee (word ++ (gap ++ '(' :: (inside ++ ')' :: tail))) with
  | none =>
    obtain ⟨next, passed⟩ := convertCalls_run onOpen build
      (fun c member => by simp [isRunChar, letters c member]) before fun _ => recognized
    have quiet : ∀ c ∈ gap, isQuiet c = true := fun c member => by simp [blank c member]
    have gapped := sound.walk.becomes_signs quiet (below.enclosed sound.walk .round)
    have rest := gapped none tail rfl closed
    have inner : gap ++ ('(' :: inside ++ [')']) ++ tail = gap ++ '(' :: (inside ++ ')' :: tail) := by
      simp
    rw [inner] at rest
    rw [passed, sound.walk.resume next stop, rest]
    simp only [missed _ recognized, bind_assoc, pure_bind, append_assoc, cons_append]
  | some head =>
    obtain ⟨named, rest, after⟩ := sound.whole letters
      (fun c member => isBreak_quiet (stop c member)) recognized
    have opened := congrArg trimLeft after
    rw [trimLeft_gap blanks, trimLeft_gap (sound.gap recognized)] at opened
    rw [← (List.cons.inj opened).2, append_cancel_right_eq] at after
    obtain ⟨c, word, rfl⟩ := exists_cons_of_ne_nil nonempty
    rw [cons_append] at recognized ⊢
    have here : callAt? callee before (c :: (word ++ (gap ++ '(' :: (inside ++ ')' :: tail)))) =
        some head := by
      rw [callAt?, if_pos fresh, recognized]
    have dropped : (c :: (word ++ (gap ++ '(' :: (inside ++ ')' :: tail)))).drop head.length =
        inside ++ ')' :: tail := by
      have shape : c :: (word ++ (gap ++ '(' :: (inside ++ ')' :: tail))) =
          head.written ++ (inside ++ ')' :: tail) := by
        simp [CallHead.written, named, ← after]
      rw [shape, drop_left' (by simp [CallHead.length, CallHead.written]; omega)]
    have closing : splitParen? (inside ++ ')' :: tail) = some (inside, tail) :=
      balanced.splitClose?_enclosed .round tail
    rw [convertCalls_call here (dropped ▸ closing), below.eq sound.walk,
      sound.walk.resume (some ')') (closes_head closed)]
    simp only [found _ head recognized named after.symm, bind_assoc, pure_bind]

end Callee.Sound

end Pseudocode
