import Pseudocode.Proofs.FirstWord
import Pseudocode.Proofs.Resplitting

namespace Pseudocode

open List Option
variable {text rest word tail : Text}

/-- The words that tell a statement by standing first in it. -/
def leadingWords : List String :=
  ["algorithme", "lexique", "début", "debut", "fin", "fsi", "fpour", "ftq", "ftant", "fonction", "pour",
    "tant", "sinon", "si", "retourner", "retourne", "écrire", "ecrire"]

/-- The words whose lines are told apart from declarations before all others. -/
def outerWords : List String :=
  leadingWords.take 9

theorem isWordChar_arrow : isWordChar '←' = false := by
  decide +kernel

theorem trimLeft_space (first : ∀ c ∈ text.head?, isBlank c = false) :
    trimLeft (' ' :: text) = text := by
  rw [trimLeft, dropWhile_cons_of_pos (by decide), ← trimLeft, trimLeft_of_head first]

theorem letter_ne {c : Char} (letter : isWordChar c = true) :
    isBlank c = false ∧ c ≠ '=' ∧ c ≠ '<' ∧ c ≠ '←' := by
  refine ⟨(isWordChar_plain letter).2, ?_, ?_, ?_⟩ <;> rintro rfl
  · exact absurd letter (by decide)
  · exact absurd letter (by decide)
  · exact absurd letter (by rw [isWordChar_arrow]; decide)

theorem identifier?_letter {name : Text} (named : identifier? name = some (name, [])) (rest : Text) :
    ∀ c ∈ (name ++ rest).head?, isWordChar c = true := by
  intro c head
  cases name with
  | nil => exact absurd named (by simp [identifier?])
  | cons d name =>
    obtain rfl : d = c := Option.some.inj head
    exact identifier?_mem named (.head _)

theorem identifier?_head {name : Text} (named : identifier? name = some (name, [])) (rest : Text) :
    ∀ c ∈ (name ++ rest).head?, isBlank c = false := fun c head =>
  (letter_ne (identifier?_letter named rest c head)).1

theorem last_spaced (some : rest ≠ []) (last : ∀ c ∈ rest.getLast?, isBlank c = false) :
    ∀ c ∈ (text ++ ' ' :: rest).getLast?, isBlank c = false := by
  intro c atEnd
  obtain ⟨d, tail, rfl⟩ := exists_cons_of_ne_nil some
  rw [getLast?_append_of_ne_nil _ (by simp), getLast?_cons_cons] at atEnd
  exact last c atEnd

theorem last_keyword {word : String} (letters : word.toList.all isWordChar = true) :
    ∀ c ∈ word.toList.getLast?, isBlank c = false := fun c last =>
  (isWordChar_plain (all_eq_true.mp letters c (mem_of_getLast? last))).2

def Differs (words : List String) (word : Text) : Prop :=
  ∀ keyword ∈ words, word.map caseKey ≠ keyword.toList.map caseKey

instance (words : List String) (word : Text) : Decidable (Differs words word) :=
  inferInstanceAs (Decidable (∀ keyword ∈ words, _))

theorem Differs.mono {words others : List String} (differs : Differs words word)
    (fewer : ∀ keyword ∈ others, keyword ∈ words) : Differs others word :=
  fun keyword member => differs keyword (fewer keyword member)

namespace StartsWith

variable {line word tail : Text} {keyword : String}

variable (starts : StartsWith line word tail)
include starts

theorem dropWord?_blanks_same (same : word.map caseKey = keyword.toList.map caseKey) :
    (dropWord? keyword.toList line).bind dropBlanks? = dropBlanks? tail := by
  rw [starts.split, dropWord?_append same, bind_some]

/-- A keyword that blanks must follow is not found at the start of another word. -/
theorem dropWord?_blanks_other (known : keyword.toList.all isWordChar = true)
    (other : word.map caseKey ≠ keyword.toList.map caseKey) :
    (dropWord? keyword.toList line).bind dropBlanks? = none := by
  rw [bind_eq_none_iff]
  intro rest found
  rw [starts.split] at found
  obtain ⟨taken, more, rfl, rfl, same⟩ :=
    dropWord?_within (all_eq_true.mp known) starts.stop found
  cases more with
  | nil => exact absurd (by simpa using same) other
  | cons c more =>
    have letter := starts.letters c (by simp)
    rw [cons_append, dropBlanks?, if_neg (by simp [(isWordChar_plain letter).2])]

theorem dropTwoWords?_other {second : String} (known : keyword.toList.all isWordChar = true)
    (other : word.map caseKey ≠ keyword.toList.map caseKey) : dropTwoWords? keyword second line = none := by
  have none := starts.dropWord?_blanks_other known other
  rw [bind_eq_none_iff] at none
  rw [dropTwoWords?, bind_eq_bind, bind_eq_none_iff]
  intro rest found
  rw [none rest found]
  rfl

theorem forEach?_other
    (other : word.map caseKey ≠ "pour".toList.map caseKey) : Statement.forEach? line = none := by
  have none := starts.dropWord?_blanks_other (by decide) other
  rw [bind_eq_none_iff] at none
  rw [Statement.forEach?, bind_eq_bind, bind_eq_none_iff]
  intro rest found
  rw [none rest found]
  rfl

/-- A call of the output procedure is not found at the start of another word. -/
theorem isWrite_other (other : Differs ["écrire", "ecrire"] word) : Statement.isWrite line = false := by
  rw [← Bool.not_eq_true]
  intro written
  obtain ⟨rest, found, opens⟩ := (any_eq_true _ _).mp written
  obtain ⟨before, keyword, after, shape, dropped, -⟩ := findSome?_eq_some_iff.mp found
  have member : keyword ∈ ["écrire", "ecrire"] := by rw [shape]; simp
  have known : ∀ keyword ∈ ["écrire", "ecrire"], keyword.toList.all isWordChar = true := by decide
  rw [starts.split] at dropped
  obtain ⟨taken, more, rfl, rfl, same⟩ :=
    dropWord?_within (all_eq_true.mp (known keyword member)) starts.stop dropped
  cases more with
  | nil => exact absurd (by simpa using same) (other keyword member)
  | cons c more =>
    have letter := starts.letters c (by simp)
    have sign : c ≠ '(' := by rintro rfl; exact absurd letter (by decide)
    simp [trimLeft, (isWordChar_plain letter).2, sign] at opens

end StartsWith

/-- A trimmed line that starts with a name and declares neither a type nor a variable. -/
structure Led (line word tail : Text) : Prop extends StartsWith line word tail where
  name : identifier? word = some (word, [])
  outer : Differs outerWords word
  trimmed : trim line = line
  follow : ∀ c ∈ (trimLeft tail).head?, c ≠ '=' ∧ c ≠ '<'
  undeclared : ∀ language, Statement.declaredNames? language line = none

/-- A line with no colon but at its end, told by its first word. -/
theorem Led.of_solid {line : Text} (split : line = word ++ tail)
    (named : identifier? word = some (word, [])) (outer : Differs outerWords word)
    (stop : ∀ c ∈ tail.head?, isBreak c = true) (last : ∀ c ∈ line.getLast?, isBlank c = false)
    (follow : ∀ c ∈ (trimLeft tail).head?, c ≠ '=' ∧ c ≠ '<') (colon : ':' ∉ line.dropLast) :
    Led line word tail where
  split := split
  letters _ := identifier?_mem named
  stop := stop
  name := named
  outer := outer
  trimmed := by rw [trim, trimLeft_of_head (split ▸ identifier?_head named tail), trimRight_of_last last]
  follow := follow
  undeclared language := Statement.declaredNames?_closed language colon

namespace Statement

/-- The reading of a line that declares nothing, closes nothing and takes no input. -/
def ofLed (line : Text) : Statement :=
  if ((dropWord? "fonction".toList line).bind dropBlanks?).isSome then .functionHeader
  else if let some statement := forEach? line then statement
  else if ((dropWord? "pour".toList line).bind dropBlanks?).isSome then .counted
  else if let some rest := afterTantQue? line then .whileLoop (condition "faire" line rest)
  else if let some rest := afterSinonSi? line then .elseIf (condition "alors" line rest)
  else if let some rest := dropWholeWord? "si" line then .ifThen (condition "alors" line rest)
  else if (dropWholeWord? "sinon" line).isSome then .elseBranch
  else if let some rest := afterReturn? line then .giveBack (returned rest)
  else if isWrite line then .write
  else if line.contains '←' then .assignment
  else .expression

end Statement

namespace Led

variable {line word tail : Text}

theorem identifier?_eq (led : Led line word tail) : identifier? line = some (word, tail) := by
  rw [led.split]
  exact identifier?_append led.name led.ends

theorem ofLine (led : Led line word tail) (language : Language) :
    Statement.ofLine language line =
      if let some statement := Statement.array? line then statement
      else if let some statement := Statement.read? line then statement
      else Statement.ofLed line := by
  obtain ⟨c, rest, shape⟩ : ∃ c rest, word = c :: rest := by
    cases word with
    | nil => exact absurd led.name (by simp [identifier?])
    | cons c rest => exact ⟨c, rest, rfl⟩
  have letter := led.letters c (by simp [shape])
  have blank : Statement.isBlankLine line = false :=
    Statement.isBlankLine_letter (by rw [led.split, shape]; simp) letter
  have algorithm : dropWholeWord? "algorithme" line = none :=
    led.dropWholeWord?_other (by decide) (led.outer _ (by decide))
  have lexique : dropWholeWord? "lexique" line = none :=
    led.dropWholeWord?_other (by decide) (led.outer _ (by decide))
  have begins : dropAnyWholeWord? ["début", "debut"] line = none :=
    led.dropAnyWholeWord?_other (by decide) (led.outer.mono (by decide))
  have record : RecordType.ofLine? language line = none :=
    RecordType.ofLine?_none language (by rw [led.trimmed]; exact led.identifier?_eq) led.follow
  have closer : Statement.isCloser line = false := by
    rw [Statement.isCloser, led.dropAnyWholeWord?_other (by decide) (led.outer.mono (by decide))]
    rfl
  rw [Statement.ofLine, blank, algorithm, lexique, begins, record, led.undeclared, closer]
  rfl

theorem array?_none (led : Led line word tail)
    (other : ∀ c ∈ (trimLeft tail).head?, c ≠ '←') : Statement.array? line = none := by
  rw [Statement.array?, led.identifier?_eq, bind_eq_bind, bind_some]
  dsimp only
  split
  · rename_i shape
    exact absurd rfl (led.follow '=' (by rw [shape]; rfl)).1
  · rename_i shape
    exact absurd rfl (other '←' (by rw [shape]; rfl))
  · rfl

theorem read?_none (led : Led line word tail)
    (other : ∀ c ∈ (trimLeft tail).head?, c ≠ '←') : Statement.read? line = none := by
  rw [Statement.read?, led.identifier?_eq, bind_eq_bind, bind_some]
  dsimp only
  split
  · rename_i shape
    exact absurd rfl (other '←' (by rw [shape]; rfl))
  · rfl

/-- A line whose first word no arrow follows is told by that word. -/
theorem ofLine_keyword (led : Led line word tail) (language : Language)
    (other : ∀ c ∈ (trimLeft tail).head?, c ≠ '←') :
    Statement.ofLine language line = Statement.ofLed line := by
  rw [led.ofLine, led.array?_none other, led.read?_none other]

end Led

namespace StartsWith

variable {line word tail : Text}

variable (starts : StartsWith line word tail)
include starts

theorem ofLed_fonction
    (same : word.map caseKey = "fonction".toList.map caseKey) (gap : (dropBlanks? tail).isSome = true) :
    Statement.ofLed line = .functionHeader := by
  rw [Statement.ofLed, starts.dropWord?_blanks_same same, if_pos gap]

theorem ofLed_pour
    (same : word.map caseKey = "pour".toList.map caseKey) (gap : (dropBlanks? tail).isSome = true)
    (each : Statement.forEach? line = none) : Statement.ofLed line = .counted := by
  have header : (dropWord? "fonction".toList line).bind dropBlanks? = none :=
    starts.dropWord?_blanks_other (by decide) (by rw [same]; decide)
  rw [Statement.ofLed, header, each, starts.dropWord?_blanks_same same]
  simp [gap]

theorem ofLed_tantQue (same : word.map caseKey = "tant".toList.map caseKey)
    (found : Statement.afterTantQue? line = some rest) :
    Statement.ofLed line = .whileLoop (Statement.condition "faire" line rest) := by
  have header : (dropWord? "fonction".toList line).bind dropBlanks? = none :=
    starts.dropWord?_blanks_other (by decide) (by rw [same]; decide)
  have each : Statement.forEach? line = none := starts.forEach?_other (by rw [same]; decide)
  have counted : (dropWord? "pour".toList line).bind dropBlanks? = none :=
    starts.dropWord?_blanks_other (by decide) (by rw [same]; decide)
  simp only [Statement.ofLed, header, each, counted, found, isSome_none, Bool.false_eq_true, if_false]

/-- A line that starts with none of the words of a loop or a function. -/
theorem ofLed_inner (other : Differs ["fonction", "pour", "tant"] word) :
    Statement.ofLed line =
      if let some rest := Statement.afterSinonSi? line then .elseIf (Statement.condition "alors" line rest)
      else if let some rest := dropWholeWord? "si" line then
        .ifThen (Statement.condition "alors" line rest)
      else if (dropWholeWord? "sinon" line).isSome then .elseBranch
      else if let some rest := Statement.afterReturn? line then .giveBack (Statement.returned rest)
      else if Statement.isWrite line then .write
      else if line.contains '←' then .assignment
      else .expression := by
  have header : (dropWord? "fonction".toList line).bind dropBlanks? = none :=
    starts.dropWord?_blanks_other (by decide) (other _ (by decide))
  have each : Statement.forEach? line = none := starts.forEach?_other (other _ (by decide))
  have counted : (dropWord? "pour".toList line).bind dropBlanks? = none :=
    starts.dropWord?_blanks_other (by decide) (other _ (by decide))
  have loops : Statement.afterTantQue? line = none := by
    rw [Statement.afterTantQue?, starts.dropTwoWords?_other (by decide) (other _ (by decide)),
      filter_none]
  simp only [Statement.ofLed, header, each, counted, loops, isSome_none, Bool.false_eq_true, if_false]

theorem ofLed_si (same : word.map caseKey = "si".toList.map caseKey) :
    Statement.ofLed line = .ifThen (Statement.condition "alors" line tail) := by
  have elses : Statement.afterSinonSi? line = none := by
    rw [Statement.afterSinonSi?, starts.dropTwoWords?_other (by decide) (by rw [same]; decide),
      filter_none]
  rw [starts.ofLed_inner (by rw [Differs, same]; decide), elses, starts.dropWholeWord?_same same]

/-- A line that starts with none of the words of a block. -/
theorem ofLed_leaf (other : Differs ["fonction", "pour", "tant", "sinon", "si"] word) :
    Statement.ofLed line =
      if let some rest := Statement.afterReturn? line then .giveBack (Statement.returned rest)
      else if Statement.isWrite line then .write
      else if line.contains '←' then .assignment
      else .expression := by
  have elses : Statement.afterSinonSi? line = none := by
    rw [Statement.afterSinonSi?, starts.dropTwoWords?_other (by decide) (other _ (by decide)),
      filter_none]
  have tests : dropWholeWord? "si" line = none := starts.dropWholeWord?_other (by decide) (other _ (by decide))
  have branch : dropWholeWord? "sinon" line = none :=
    starts.dropWholeWord?_other (by decide) (other _ (by decide))
  rw [starts.ofLed_inner (other.mono (by decide)), elses, tests, branch]
  rfl

theorem ofLed_write
    (same : word.map caseKey = "écrire".toList.map caseKey) (opens : (trimLeft tail).head? = some '(') :
    Statement.ofLed line = .write := by
  have returns : Statement.afterReturn? line = none :=
    starts.dropAnyWholeWord?_other (by decide) (by rw [same]; decide)
  have written : Statement.isWrite line = true := by
    rw [Statement.isWrite, dropAnyWord?, findSome?_cons, starts.split, dropWord?_append same]
    simpa using opens
  rw [starts.ofLed_leaf (by rw [Differs, same]; decide), returns, written]
  rfl

theorem ofLed_assignment (free : Differs leadingWords word)
    (arrow : '←' ∈ line) : Statement.ofLed line = .assignment := by
  have returns : Statement.afterReturn? line = none :=
    starts.dropAnyWholeWord?_other (by decide) (free.mono (by decide))
  have written : Statement.isWrite line = false := starts.isWrite_other (free.mono (by decide))
  rw [starts.ofLed_leaf (free.mono (by decide)), returns, written, if_neg (by decide),
    if_pos (contains_iff_mem.mpr arrow)]

end StartsWith

theorem Statement.solid?_append {run : Text} (some : run ≠ [])
    (solid : ∀ c ∈ run, isBlank c = false) (tail : Text) :
    solid? (run ++ ' ' :: tail) = .some (run, ' ' :: tail) := by
  have stays : ∀ c ∈ run, (!isBlank c) = true := fun c member => by simp [solid c member]
  obtain ⟨c, run, rfl⟩ := exists_cons_of_ne_nil some
  rw [solid?, takeWhile_append_of_pos stays, dropWhile_append_of_pos stays,
    takeWhile_cons_of_neg (by decide), dropWhile_cons_of_neg (by decide), append_nil]

theorem head_solid {run : Text} (some : run ≠ []) (solid : ∀ c ∈ run, isBlank c = false) :
    ∀ c ∈ (run ++ tail).head?, isBlank c = false := by
  intro c head
  rw [head?_append_of_ne_nil _ some] at head
  exact solid c (mem_of_mem_head? head)

theorem dropBlanks?_space (first : ∀ c ∈ text.head?, isBlank c = false) :
    dropBlanks? (' ' :: text) = some text :=
  dropBlanks?_append (cons_ne_nil ' ' []) (forall_mem_singleton.mpr (by decide)) first

/-- A loop with two bounds goes over no collection. -/
theorem Statement.forEach?_range {counter start : Text} (some : counter ≠ [])
    (solid : ∀ c ∈ counter, isBlank c = false) (first : ∃ c tail, start = c :: tail ∧ isBlank c = false) :
    forEach? ("Pour".toList ++ ' ' :: (counter ++ ' ' :: ("de".toList ++
      ' ' :: (start ++ ' ' :: 'à' :: rest)))) = none := by
  obtain ⟨d, tail, rfl, begins⟩ := first
  have run (text tail : Text) : (text ++ ' ' :: tail).dropWhile (!isBlank ·) =
      text.dropWhile (!isBlank ·) ++ ' ' :: tail := by
    rw [dropWhile_append]
    split
    · rename_i empty
      rw [isEmpty_iff.mp empty, dropWhile_cons_of_neg (by decide), nil_append]
    · rfl
  have one : solid? (d :: tail ++ ' ' :: 'à' :: rest) =
      .some ((d :: tail ++ ' ' :: 'à' :: rest).takeWhile (!isBlank ·),
        (d :: tail).dropWhile (!isBlank ·) ++ ' ' :: 'à' :: rest) := by
    rw [solid?, run, cons_append, takeWhile_cons_of_pos (by simp [begins])]
  rw [forEach?, dropWord?_append (by decide)]
  simp only [bind_eq_bind, bind_some]
  rw [dropBlanks?_space (head_solid some solid), bind_some, solid?_append some solid, bind_some]
  simp only
  rw [dropBlanks?_space (by simp; decide), bind_some, dropWord?_append rfl, bind_some,
    dropBlanks?_space (by simpa using begins), bind_some, one, bind_some]
  simp only
  rw [bind_eq_none_iff]
  intro text dropped
  rw [bind_eq_none_iff]
  intro after found
  -- The separator of the bounds is neither a blank nor a letter of the closing word.
  have inside : 'à' ∈ after := by
    obtain ⟨gap, -, blank, split⟩ := dropBlanks?_eq_some dropped
    obtain ⟨next, same⟩ := dropWord?_eq_some found
    have member : 'à' ∈ gap ++ text := split ▸ by simp
    rcases mem_append.mp member with here | here
    · exact absurd (blank 'à' here) (by decide)
    · rw [next] at here
      refine (mem_append.mp here).resolve_left fun taken => ?_
      have key : caseKey 'à' ∈ "faire".toList.map caseKey := same ▸ mem_map_of_mem taken
      exact absurd key (by decide)
  have kept : 'à' ∈ trimLeft after := by
    have whole : after = indentation after ++ trimLeft after := takeWhile_append_dropWhile.symm
    rw [whole] at inside
    refine (mem_append.mp inside).resolve_left fun blank => ?_
    exact absurd (mem_takeWhile_imp blank) (by decide)
  split <;> rename_i shape
  · rw [shape] at kept
    exact absurd kept (by decide)
  · rw [shape] at kept
    exact absurd kept (by decide)
  · rw [shape] at kept
    exact absurd kept (by decide)
  · rfl

/-- A name and an arrow make an assignment unless an array or an input follows. -/
theorem Led.ofLine_assignment {line first later : Text} (led : Led line word tail)
    (language : Language) (free : Differs leadingWords word) (arrow : trimLeft tail = '←' :: rest)
    (value : StartsWith (trimLeft rest) first later) (other : Differs ["tableau", "lire"] first) :
    Statement.ofLine language line = .assignment := by
  have array : Statement.array? line = none := by
    have none := value.dropWord?_blanks_other (by decide) (other "tableau" (by decide))
    rw [bind_eq_none_iff] at none
    rw [Statement.array?, led.identifier?_eq, bind_eq_bind, bind_some]
    simp only [arrow, bind_eq_bind, bind_some]
    rw [bind_eq_none_iff]
    intro found dropped
    rw [none found dropped]
    rfl
  have read : Statement.read? line = none := by
    rw [Statement.read?, led.identifier?_eq, bind_eq_bind, bind_some]
    simp only [arrow, bind_eq_bind]
    rw [bind_eq_none_iff]
    intro found dropped
    rw [value.split] at dropped
    obtain ⟨taken, more, rfl, rfl, same⟩ :=
      dropWord?_within (all_eq_true.mp (by decide)) value.stop dropped
    cases more with
    | nil => exact absurd (by simpa using same) (other "lire" (by decide))
    | cons c more =>
      have letter := value.letters c (by simp)
      have sign : c ≠ '(' := by rintro rfl; exact absurd letter (by decide)
      simp [Statement.dropEmptyCall?, trimLeft, (isWordChar_plain letter).2, sign]
  have inside : '←' ∈ line := by
    rw [led.split]
    refine mem_append_right _ ((dropWhile_suffix isBlank).subset ?_)
    rw [← trimLeft, arrow]
    exact .head _
  rw [led.ofLine, array, read]
  exact led.ofLed_assignment free inside

/-- The closers of a control block: the bare one and those that name the kind of the block. -/
def BlockKeyword.closers : BlockKeyword → List String
  | .si => ["Fin", "fsi", "Fin Si"]
  | .pour => ["Fin", "fpour", "Fin Pour"]
  | .tantQue => ["Fin", "ftq", "ftant", "Fin Tant que", "Fin tq"]

theorem Statement.ofLine_closer {keyword : BlockKeyword} {closer : String}
    (own : closer ∈ keyword.closers) :
    ∃ closed, ofLine standardLanguage closer.toList = .blockClose closed ∧
      (closed = none ∨ closed = some keyword) := by
  have all : ∀ keyword ∈ [BlockKeyword.si, .pour, .tantQue], ∀ closer ∈ keyword.closers,
      ofLine standardLanguage closer.toList = .blockClose none ∨
        ofLine standardLanguage closer.toList = .blockClose (some keyword) := by
    decide
  have listed : keyword ∈ [BlockKeyword.si, .pour, .tantQue] := by cases keyword <;> decide
  rcases all keyword listed closer own with bare | named
  · exact ⟨none, bare, .inl rfl⟩
  · exact ⟨some keyword, named, .inr rfl⟩

end Pseudocode
