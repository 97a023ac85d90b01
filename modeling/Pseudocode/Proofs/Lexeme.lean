import Pseudocode.Expression.Basic
import Pseudocode.Proofs.Bracketing

namespace Pseudocode

open List Option
variable {c : Char} {first name text : Text} {parts : List Text}

/-- Names, or the digits of a number, with points between them. -/
def dotted (parts : List Text) : Text :=
  joinWith "." parts

/-- The fields of a record with their values, in order; a value that is not given is `nil`. -/
def fieldTexts : (names values : List Text) → List Text
  | [], _ => []
  | name :: names, [] => (name ++ " = nil".toList) :: fieldTexts names []
  | name :: names, value :: values => (name ++ " = ".toList ++ value) :: fieldTexts names values

/-- The word is spelled otherwise in Lua, whatever its letter case. -/
def isRespelled (word : Text) : Bool :=
  standardLanguage.spellings.any fun spelling => spelling.source.map caseKey = word.map caseKey

def isAsciiName (name : Text) : Bool :=
  identifier? name = some (name, []) && name.all (·.toNat < 128)

/-- Names that start like this belong to the prelude. -/
def preludeMark : Text :=
  "__psc_".toList

/-- A name of a variable or a field. -/
def isVariableName (name : Text) : Bool :=
  isAsciiName name && !isRespelled name && !Index.luaWords.contains name &&
    !preludeMark.isPrefixOf name

/-- Digits, perhaps with a point among them. -/
def isNumeral (digits : List Text) : Bool :=
  (digits.length = 1 || digits.length = 2) &&
    digits.all fun part => !part.isEmpty && part.all Char.isDigit

/-- A character of a name with fields, or of a number. -/
def isRunChar (c : Char) : Bool :=
  isWordChar c || c = '.'

theorem isPlainSign_beyond (beyond : 128 ≤ c.toNat) : isPlainSign c = true := by
  have other {d : Char} (ascii : d.toNat < 128) : c ≠ d := by
    rintro rfl
    omega
  have step : bracketStep c = 0 := by
    simp [bracketStep, other (d := '(') (by decide), other (d := '[') (by decide),
      other (d := '\x7b') (by decide), other (d := ')') (by decide), other (d := ']') (by decide),
      other (d := '\x7d') (by decide)]
  simp [isPlainSign, step, other (d := ',') (by decide), other (d := '"') (by decide),
    other (d := '\'') (by decide)]

theorem isWordChar_plain (word : isWordChar c = true) :
    isPlainSign c = true ∧ isBlank c = false := by
  constructor
  · by_cases ascii : c.toNat < 128
    · exact of_ascii (P := fun c => isWordChar c = true → isPlainSign c = true) (by decide)
        ascii word
    · exact isPlainSign_beyond (by omega)
  · by_contra blank
    rw [isBlank_not_wordChar (by simpa using blank)] at word
    simp at word

theorem isRunChar_plain (run : isRunChar c = true) :
    isPlainSign c = true ∧ isBlank c = false := by
  rcases Bool.or_eq_true_iff.mp run with word | point
  · exact isWordChar_plain word
  · obtain rfl : c = '.' := by simpa using point
    decide

/-- A word that is not spelled otherwise in Lua, and perhaps fields after it. -/
structure IsRun (first rest : Text) : Prop where
  nonempty : first ≠ []
  letters : ∀ c ∈ first, isWordChar c = true
  kept : isRespelled first = false
  fields : ∀ c ∈ rest, isRunChar c = true
  point : ∀ c ∈ rest.head?, c = '.'

theorem IsRun.chars {rest : Text} (run : IsRun first rest) :
    ∀ c ∈ first ++ rest, isRunChar c = true := by
  intro c member
  rcases mem_append.mp member with letter | field
  · simp [isRunChar, run.letters c letter]
  · exact run.fields c field

theorem IsRun.whole {rest : Text} (run : IsRun first rest) : Whole (first ++ rest) :=
  .of_plain (by simp [run.nonempty]) (fun c member => (isRunChar_plain (run.chars c member)).1)
    fun c member => (isRunChar_plain (run.chars c member)).2

theorem dotted_cons (first second : Text) (parts : List Text) :
    dotted (first :: second :: parts) = first ++ '.' :: dotted (second :: parts) := by
  rw [dotted, joinWith, intercalate_cons_cons, append_assoc]
  rfl

@[simp] theorem dotted_singleton (part : Text) : dotted [part] = part := by
  simp [dotted, joinWith]

theorem dotted_isRunChar (letters : ∀ part ∈ parts, ∀ c ∈ part, isWordChar c = true) :
    ∀ c ∈ dotted parts, isRunChar c = true := by
  induction parts with
  | nil => simp [dotted, joinWith]
  | cons part parts ih =>
    have here : ∀ c ∈ part, isRunChar c = true := fun c member => by
      simp [isRunChar, letters part (.head _) c member]
    have later := ih fun other member => letters other (.tail _ member)
    cases parts with
    | nil => simpa using here
    | cons next parts =>
      rw [dotted_cons]
      intro c member
      rcases mem_append.mp member with inside | after
      · exact here c inside
      · rcases mem_cons.mp after with rfl | after
        · decide
        · exact later c after

theorem isRun_dotted (nonempty : first ≠ [])
    (letters : ∀ part ∈ first :: parts, ∀ c ∈ part, isWordChar c = true)
    (kept : isRespelled first = false) :
    ∃ rest, dotted (first :: parts) = first ++ rest ∧ IsRun first rest := by
  have chars := dotted_isRunChar letters
  have here := letters first (.head _)
  cases parts with
  | nil => exact ⟨[], by simp, nonempty, here, kept, by simp, by simp⟩
  | cons next parts =>
    rw [dotted_cons] at chars ⊢
    exact ⟨_, rfl, nonempty, here, kept,
      fun c member => chars c (mem_append_right _ member), by simp⟩

theorem isAsciiName_letters (ascii : isAsciiName name = true) :
    name ≠ [] ∧ ∀ c ∈ name, isWordChar c = true := by
  simp only [isAsciiName, Bool.and_eq_true, decide_eq_true_eq] at ascii
  refine ⟨?_, fun c member => identifier?_mem ascii.1 member⟩
  rintro rfl
  simp [identifier?] at ascii

theorem isVariableName_run (isVariable : isVariableName name = true) :
    (name ≠ [] ∧ ∀ c ∈ name, isWordChar c = true) ∧ isRespelled name = false := by
  simp only [isVariableName, Bool.and_eq_true, Bool.not_eq_true'] at isVariable
  exact ⟨isAsciiName_letters isVariable.1.1.1, isVariable.1.1.2⟩

theorem isVariableName_identifier (isVariable : isVariableName name = true) :
    identifier? name = some (name, []) ∧ preludeMark.isPrefixOf name = false := by
  simp only [isVariableName, isAsciiName, Bool.and_eq_true, decide_eq_true_eq, Bool.not_eq_true'] at isVariable
  exact ⟨isVariable.1.1.1.1, isVariable.2⟩

theorem isRun_path {path : List Text} (nonempty : path ≠ [])
    (names : ∀ name ∈ path, isVariableName name = true) :
    ∃ first rest, dotted path = first ++ rest ∧ IsRun first rest := by
  cases path with
  | nil => exact absurd rfl nonempty
  | cons first parts =>
    obtain ⟨⟨full, -⟩, kept⟩ := isVariableName_run (names first (.head _))
    obtain ⟨rest, split, run⟩ := isRun_dotted full
      (fun part member => (isVariableName_run (names part member)).1.2) kept
    exact ⟨first, rest, split, run⟩

theorem isDigit_word (digit : c.isDigit = true) :
    isWordChar c = true ∧ (caseKey c).isDigit = true := by
  have ascii : c.toNat < 128 := by
    simp only [Char.isDigit, Bool.and_eq_true, decide_eq_true_eq, UInt32.le_iff_toNat_le] at digit
    exact lt_of_le_of_lt digit.2 (by decide)
  exact of_ascii (P := fun c => c.isDigit = true → isWordChar c = true ∧ (caseKey c).isDigit = true)
    (by decide) ascii digit

theorem isRespelled_digits {digits : Text} (nonempty : digits ≠ [])
    (each : ∀ c ∈ digits, c.isDigit = true) : isRespelled digits = false := by
  have heads : standardLanguage.spellings.all (fun spelling =>
      spelling.source.head?.any fun c => !(caseKey c).isDigit) = true := by
    decide
  rw [isRespelled, List.any_eq_false]
  intro spelling member same
  have head := List.all_eq_true.mp heads spelling member
  have same : spelling.source.map caseKey = digits.map caseKey := by simpa using same
  cases digits with
  | nil => exact nonempty rfl
  | cons d digits =>
    have fixed := (isDigit_word (each d (.head _))).2
    cases source : spelling.source with
    | nil => simp [source] at same
    | cons c rest =>
      rw [source, map_cons, map_cons] at same
      rw [source, head?_cons, any_some, (List.cons.inj same).1, fixed] at head
      simp at head

theorem isRun_numeral {digits : List Text} (numeral : isNumeral digits = true) :
    ∃ first rest, dotted digits = first ++ rest ∧ IsRun first rest := by
  simp only [isNumeral, Bool.and_eq_true, List.all_eq_true, Bool.not_eq_true', Bool.or_eq_true,
    decide_eq_true_eq] at numeral
  obtain ⟨count, parts⟩ := numeral
  cases digits with
  | nil => simp at count
  | cons first digits =>
    have full : first ≠ [] := by simpa using (parts first (.head _)).1
    obtain ⟨rest, split, run⟩ := isRun_dotted full
      (fun part member c inside => (isDigit_word ((parts part member).2 c inside)).1)
      (isRespelled_digits full (parts first (.head _)).2)
    exact ⟨first, rest, split, run⟩

/-- Signs that neither bracket nor separate, and no blanks among them. -/
def isLexeme (text : Text) : Bool :=
  !text.isEmpty && text.all fun c => isPlainSign c && !isBlank c

theorem isLexeme_whole (lexeme : isLexeme text = true) : Whole text := by
  simp only [isLexeme, Bool.and_eq_true, List.all_eq_true, Bool.not_eq_true'] at lexeme
  exact .of_plain (by simpa using lexeme.1) (fun c member => (lexeme.2 c member).1)
    fun c member => (lexeme.2 c member).2

theorem isLexeme_mem (lexeme : isLexeme text = true) (member : c ∈ text) :
    isPlainSign c = true ∧ isBlank c = false := by
  simp only [isLexeme, Bool.and_eq_true, List.all_eq_true, Bool.not_eq_true'] at lexeme
  exact lexeme.2 c member

theorem isLexeme_head (lexeme : isLexeme text = true) :
    ∃ c rest, text = c :: rest ∧ isPlainSign c = true ∧ isBlank c = false := by
  simp only [isLexeme, Bool.and_eq_true, List.all_eq_true, Bool.not_eq_true'] at lexeme
  cases text with
  | nil => simp at lexeme
  | cons c rest => exact ⟨c, rest, rfl, lexeme.2 c (.head _)⟩

open Placeholder in
theorem Placeholder.write_whole (index : Nat) : Whole (write index) := by
  refine .of_plain (by simp [write_eq]) (fun c member => ?_) fun c member => ?_
  · have := (isMark_range (isMark_of_mem_write c member)).1
    exact isPlainSign_beyond (by omega)
  · exact isMark_not_blank (isMark_of_mem_write c member)

namespace Index

/-- The text does not end, read backwards, in the middle of a word. -/
def Apart (written : Text) : Prop :=
  ∀ c ∈ written.head?, isWordChar c = false

/-- A bracket after a word opens an index unless the word is one of Lua. -/
theorem isPosition_word {written : Text} (named : identifier? name = some (name, []))
    (apart : Apart written) : isPosition (name.reverse ++ written) = !luaWords.contains name := by
  have letters : ∀ c ∈ name.reverse, isWordChar c = true := fun c member =>
    identifier?_mem named (mem_reverse.mp member)
  have taken : (name.reverse ++ written).takeWhile isWordChar = name.reverse := by
    rw [takeWhile_append_of_pos letters]
    cases written with
    | nil => simp
    | cons d rest => simp [apart d (by simp)]
  have kept : name.dropWhile (!startsIdentifier ·) = name := by
    cases name with
    | nil => rfl
    | cons d rest =>
      have starts : startsIdentifier d = true := by
        by_contra other
        simp [identifier?, other] at named
      rw [dropWhile_cons_of_neg (by simp [starts])]
  obtain ⟨c, rest, shape⟩ : ∃ c rest, name.reverse = c :: rest := by
    refine exists_cons_of_ne_nil ?_
    rintro empty
    simp [reverse_eq_nil_iff.mp empty, identifier?] at named
  have letter : isWordChar c = true := letters c (by simp [shape])
  have solid : isBlank c = false := (isWordChar_plain letter).2
  have closers : c ≠ ')' ∧ c ≠ ']' := by
    constructor <;> (rintro rfl; exact absurd letter (by decide))
  have start : trimLeft (name.reverse ++ written) = name.reverse ++ written := by
    rw [shape, cons_append, trimLeft, dropWhile_cons_of_neg (by simp [solid])]
  rw [isPosition, start, taken, reverse_reverse, kept, shape]
  simp [closers, letter]

theorem isPosition_variable {written : Text} (named : isVariableName name = true)
    (apart : Apart written) : isPosition (name.reverse ++ written) = true := by
  rw [isPosition_word (isVariableName_identifier named).1 apart]
  simp only [isVariableName, Bool.and_eq_true, Bool.not_eq_true'] at named
  rw [named.1.2, Bool.not_false]

end Index

/-- A sign that operators are written with. -/
def isOperatorSign (c : Char) : Bool :=
  ['=', '≠', '<', '>', '≤', '≥', '÷', '+', '-', '*', '/', '~', '%'].contains c

end Pseudocode
