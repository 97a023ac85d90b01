import Pseudocode.Proofs.Passing

namespace Pseudocode

open List Option Placeholder
variable {c : Char} {text : Text}

/-- A sign that every expression with parts has, and that no word, number or placeholder has. -/
def isSeparator (c : Char) : Bool :=
  [' ', '(', '[', '#', '\x7b'].contains c

theorem isSeparator_mem (separator : isSeparator c = true) :
    isWordChar c = false ∧ isMark c = false ∧ isDigit c = false ∧ c ≠ '\n' ∧ c ≠ '.' ∧ c ≠ ',' := by
  have all : [' ', '(', '[', '#', '\x7b'].all (fun c => !isWordChar c && !isMark c && !isDigit c && c ≠ '\n' &&
      c ≠ '.' && c ≠ ',') = true := by
    decide
  simpa [and_assoc] using List.all_eq_true.mp all c (by simpa [isSeparator] using separator)

theorem isNumber_mem (number : ListLiteral.isNumber text = true)
    (member : c ∈ text) : isDigit c = true ∨ c = '.' ∨ c = ',' ∨ c = '\n' := by
  rw [← takeWhile_append_dropWhile (p := isDigit) (l := text), mem_append] at member
  rcases member with digit | rest
  · exact .inl (mem_takeWhile_imp digit)
  · simp only [ListLiteral.isNumber, Bool.and_eq_true] at number
    obtain ⟨-, number⟩ := number
    split at number
    · rename_i empty
      simp [empty] at rest
    · rename_i line
      simp only [line, mem_singleton] at rest
      exact .inr (.inr (.inr rest))
    · rename_i d fraction _ shape
      rw [shape, mem_cons] at rest
      simp only [Bool.and_eq_true, Bool.or_eq_true, decide_eq_true_eq] at number
      obtain ⟨⟨sign, -⟩, ending⟩ := number
      rcases rest with rfl | later
      · rcases sign with point | comma
        · exact .inr (.inl point)
        · exact .inr (.inr (.inl comma))
      · rw [← takeWhile_append_dropWhile (p := isDigit) (l := fraction), mem_append] at later
        rcases later with digit | last
        · exact .inl (mem_takeWhile_imp digit)
        · split at ending
          · rename_i empty
            simp [empty] at last
          · rename_i line
            simp only [line, mem_singleton] at last
            exact .inr (.inr (.inr last))
          · simp at ending

theorem Whole.isPlaceholder_head (whole : Whole text) (head : text.head? ≠ some opening) :
    isPlaceholder text = false := by
  obtain ⟨c, rest, rfl⟩ := List.exists_cons_of_ne_nil whole.ne_nil
  have other : c ≠ opening := by simpa using head
  rw [isPlaceholder, index?, whole.trim]
  simp [digits?_plain other]

theorem Whole.isPlaceholder_mem (whole : Whole text) (member : c ∈ text)
    (plain : isMark c = false) : isPlaceholder text = false := by
  by_contra found
  rw [Bool.not_eq_false, isPlaceholder, index?, whole.trim, isSome_iff_exists] at found
  obtain ⟨index, found⟩ := found
  obtain ⟨digits, written, short⟩ := bind_eq_some_iff.mp found
  obtain ⟨d, rest, rfl⟩ := List.exists_cons_of_ne_nil whole.ne_nil
  simp only [digits?, ite_none_right_eq_some, Option.some.injEq] at written
  obtain ⟨⟨rfl, -, closed⟩, rfl⟩ := written
  simp only [length_cons, ite_none_right_eq_some] at short
  -- nothing but the closing sign is left after the digits
  have split := takeWhile_append_dropWhile (p := Placeholder.isDigit) (l := rest)
  obtain ⟨last, shape⟩ : ∃ last, rest.dropWhile Placeholder.isDigit = closing :: last := by
    cases tail : rest.dropWhile Placeholder.isDigit with
    | nil => simp [tail] at closed
    | cons e last => exact ⟨last, by simpa [tail] using closed⟩
  have lengths := congrArg List.length split
  rw [shape, length_append, length_cons] at lengths
  obtain rfl : last = [] := length_eq_zero_iff.mp (by omega)
  rw [mem_cons, ← split, shape, mem_append, mem_singleton] at member
  have marked : isMark c = true := by
    rcases member with rfl | digit | rfl
    · decide
    · have := mem_takeWhile_imp digit
      simp [isMark, this]
    · decide
  simp [plain] at marked

theorem index?_write (index : Nat) : index? (write index) = some index := by
  have digits : digits? (write index) = some (encode index) := by
    simpa using digits?_write index []
  rw [index?, (write_whole index).trim, digits]
  simp [write_eq, decode_encode]

theorem isPlaceholder_write (index : Nat) : isPlaceholder (write index) = true := by
  rw [isPlaceholder, index?_write, isSome_some]

theorem isIdentifier_name {name : Text} (whole : identifier? name = some (name, [])) :
    isIdentifier name = true := by
  simp [isIdentifier, whole]

theorem isIdentifier_false (member : c ∈ text) (letter : isWordChar c = false)
    (line : c ≠ '\n') : isIdentifier text = false := by
  by_contra found
  rcases isIdentifier_mem (by simpa using found) member with word | rfl
  · simp [letter] at word
  · exact line rfl

/-- A decimal digit of any script starts no identifier. -/
theorem isIdentifier_digit {rest : Text} (digit : c.isDigit = true) :
    isIdentifier (c :: rest) = false := by
  have ascii : c.toNat < 128 := by
    simp only [Char.isDigit, Bool.and_eq_true, decide_eq_true_eq, UInt32.le_iff_toNat_le] at digit
    exact lt_of_le_of_lt digit.2 (by decide)
  have starts : startsIdentifier c = false :=
    of_ascii (P := fun c => c.isDigit = true → startsIdentifier c = false) (by decide) ascii digit
  simp [isIdentifier, identifier?, starts]

/-- An operand without parts has neither brackets nor commas. -/
theorem Atom.write_plain {admits : Nat → Prop} {words : Words} (fit : words.isFit = true)
    {operand : Atom Nat} (proper : operand.Proper admits) :
    ∀ c ∈ operand.write words Placeholder.write, isPlainSign c = true := by
  intro c member
  cases operand with
  | path names =>
    obtain ⟨first, rest, split, run⟩ := isRun_path proper.1 proper.2
    exact (isRunChar_plain (run.chars c (split ▸ member))).1
  | numeral digits =>
    obtain ⟨first, rest, split, run⟩ := isRun_numeral proper
    exact (isRunChar_plain (run.chars c (split ▸ member))).1
  | truth value => exact (isLexeme_mem (Words.isFit_lexeme fit (words.truth_mem value)) member).1
  | literal index =>
    have beyond := (isMark_range (isMark_of_mem_write c member)).1
    exact isPlainSign_beyond (by omega)

theorem Words.opening_plain {words : Words} (fit : words.isFit = true) (connective : Connective) :
    ∀ c ∈ words.opening connective, isPlainSign c = true := by
  intro c member
  cases connective with
  | negation =>
    rcases mem_append.mp member with inside | blank
    · exact (isLexeme_mem (isFit_lexeme fit words.negation_mem) inside).1
    · rw [mem_singleton.mp blank]
      decide
  | operator operator =>
    rcases mem_cons.mp member with rfl | later
    · decide
    · rcases mem_append.mp later with inside | blank
      · exact (isLexeme_mem (isFit_lexeme fit (words.operator_mem operator)) inside).1
      · rw [mem_singleton.mp blank]
        decide

namespace Context

variable {context : Context} {kind : Group} {items : List Item}

theorem group_separator (shape : Shape) (allowed : context.Forms kind items.length)
    (other : ∀ name, kind ≠ .record name) : ∃ c ∈ shape.group kind items, isSeparator c = true := by
  have blank : isSeparator ' ' = true := by decide
  have round : isSeparator '(' = true := by decide
  have square : isSeparator '[' = true := by decide
  cases kind with
  | call name => exact ⟨'(', by simp [Shape.group], round⟩
  | record name => exact absurd rfl (other name)
  | access path => exact ⟨'[', by simp [Shape.group], square⟩
  | array => exact ⟨'[', by simp [Shape.group], square⟩
  | list =>
    rw [Shape.group]
    split
    · exact ⟨'(', by simp [ListLiteral.build], round⟩
    · exact ⟨'(', by simp, round⟩
  | paren => exact ⟨'(', by simp [Shape.group], round⟩
  | inline form name =>
    rw [Shape.group]
    split
    · obtain ⟨-, -, -, count⟩ := allowed
      cases form with
      | concatenation =>
        obtain ⟨first, second, rfl⟩ := length_eq_two.mp count
        exact ⟨' ', by simp [Inline.text, Inline.joint], blank⟩
      | length =>
        obtain ⟨item, rfl⟩ := length_eq_one_iff.mp count
        exact ⟨'#', by simp [Inline.text], by decide⟩
      | character =>
        obtain ⟨subject, place, rfl⟩ := length_eq_two.mp count
        exact ⟨'(', by simp [Inline.text], round⟩
      | substring => exact ⟨'(', by simp [Inline.text], round⟩
    · exact ⟨'(', by simp, round⟩

theorem indexed_separator (shape : Shape) (allowed : context.Forms kind items.length)
    (other : ∀ name, kind ≠ .record name) : ∃ c ∈ shape.indexed kind items, isSeparator c = true := by
  cases kind with
  | access path =>
    obtain ⟨-, several⟩ := allowed
    obtain ⟨item, items, rfl⟩ := exists_cons_of_length_pos several
    refine ⟨'[', ?_, by decide⟩
    simp only [Shape.indexed, Item.index, flatMap_cons]
    split <;> simp
  | array => exact ⟨'\x7b', by simp [Shape.indexed, ListLiteral.braced], by decide⟩
  | call _ | record _ | list | paren | inline _ _ => exact group_separator shape allowed other

end Context

namespace Expression

variable {context : Context} {admits : Nat → Prop} {shape : Shape} {expression : Expression Nat}

/-- An expression with parts is written with a separator. -/
theorem Formed.separator (shape : Shape) (words : Words)
    (formed : expression.Formed (context.plain admits)) (parts : ∀ operand, expression ≠ .atom operand) :
    ∃ c ∈ expression.masked shape words, isSeparator c = true := by
  have blank : isSeparator ' ' = true := by decide
  cases formed with
  | @atom operand _ => exact absurd rfl (parts operand)
  | negation _ _ => exact ⟨' ', by simp [masked, write, Words.opening], blank⟩
  | binary _ _ _ _ => exact ⟨' ', by simp [masked, write, Words.opening], blank⟩
  | @group kind items allowed _ =>
    rw [masked_group]
    exact Context.group_separator shape (by simpa [writeItems_eq] using allowed.1) allowed.2

/-- A name with a field is neither a word nor a number nor a placeholder. -/
theorem path_fields {names : List Text} (nonempty : names ≠ [])
    (each : ∀ name ∈ names, isVariableName name = true) (several : names.length ≠ 1) :
    isIdentifier (dotted names) = false ∧ ListLiteral.isNumber (dotted names) = false ∧
      isPlaceholder (dotted names) = false := by
  obtain ⟨first, next, names, rfl⟩ : ∃ first next others, names = first :: next :: others := by
    cases names with
    | nil => exact absurd rfl nonempty
    | cons first others =>
      cases others with
      | nil => simp at several
      | cons next others => exact ⟨first, next, others, rfl⟩
  have point : '.' ∈ dotted (first :: next :: names) := by simp [dotted_cons]
  have whole := Whole.path ⟨nonempty, each⟩
  refine ⟨isIdentifier_false point (by decide) (by decide), ?_, ?_⟩
  · obtain ⟨name, -⟩ := isVariableName_identifier (each first (.head _))
    obtain ⟨c, rest, rfl⟩ := List.exists_cons_of_ne_nil (isVariableName_run
      (each first (.head _))).1.1
    simp only [identifier?, ite_none_right_eq_some] at name
    have letter : isDigit c = false := by
      have start := name.1
      simp only [startsIdentifier, Bool.and_eq_true, Bool.not_eq_true'] at start
      exact start.2
    rw [dotted_cons, cons_append]
    simp [ListLiteral.isNumber, letter]
  · exact whole.isPlaceholder_mem point (by decide)

theorem numeral_head {digits : List Text} (numeral : isNumeral digits = true) :
    ∃ c rest, dotted digits = c :: rest ∧ c.isDigit = true := by
  simp only [isNumeral, Bool.and_eq_true, List.all_eq_true, Bool.not_eq_true', Bool.or_eq_true,
    decide_eq_true_eq] at numeral
  obtain ⟨count, parts⟩ := numeral
  cases digits with
  | nil => simp at count
  | cons first digits =>
    obtain ⟨nonempty, each⟩ := parts first (.head _)
    obtain ⟨c, first, rfl⟩ := List.exists_cons_of_ne_nil (List.isEmpty_eq_false_iff.mp nonempty)
    have digit := each c (.head _)
    cases digits with
    | nil => exact ⟨c, first, by simp, digit⟩
    | cons next digits => exact ⟨c, _, by rw [dotted_cons, cons_append], digit⟩

theorem Formed.isBare_masked (leads : context.Leads shape)
    (formed : expression.Formed (context.plain admits)) :
    (isIdentifier (expression.masked shape .source) ||
      isPlaceholder (expression.masked shape .source)) = expression.isBare := by
  have whole := leads.whole Words.source_isFit formed
  have parted (parts : ∀ operand, expression ≠ .atom operand) :
      (isIdentifier (expression.masked shape .source) ||
        isPlaceholder (expression.masked shape .source)) = false := by
    obtain ⟨c, member, separator⟩ := formed.separator shape .source parts
    obtain ⟨letter, mark, -, line, -⟩ := isSeparator_mem separator
    simp [isIdentifier_false member letter line, whole.isPlaceholder_mem member mark]
  cases formed with
  | @atom operand proper =>
    cases operand with
    | path names =>
      show (isIdentifier (dotted names) || isPlaceholder (dotted names)) = _
      by_cases single : names.length = 1
      · obtain ⟨name, rfl⟩ := length_eq_one_iff.mp single
        have identifier := (isVariableName_identifier (proper.2 name (by simp))).1
        simp [isBare, isIdentifier_name identifier]
      · obtain ⟨identifier, -, placeholder⟩ := path_fields proper.1 proper.2 single
        simp [isBare, identifier, placeholder, single]
    | numeral digits =>
      obtain ⟨c, rest, split, digit⟩ := numeral_head proper
      have other : c ≠ opening := by
        rintro rfl
        exact absurd digit (by decide)
      show (isIdentifier (dotted digits) || isPlaceholder (dotted digits)) = false
      have placeholder : isPlaceholder (dotted digits) = false :=
        whole.isPlaceholder_head (by simpa [masked, write, Atom.write, split] using other)
      rw [placeholder, split, isIdentifier_digit digit, Bool.or_false]
    | truth value =>
      have words : ∀ value, (isIdentifier (Words.source.truth value) ||
          isPlaceholder (Words.source.truth value)) = true := by
        decide
      exact words value
    | literal index =>
      show (isIdentifier (Placeholder.write index) || isPlaceholder (Placeholder.write index)) = true
      rw [isPlaceholder_write, Bool.or_true]
  | negation _ _ => exact parted (by simp)
  | binary _ _ _ _ => exact parted (by simp)
  | @group kind items allowed _ =>
    rw [parted (by simp)]
    cases kind with
    | record name => exact absurd rfl (allowed.2 name)
    | call _ | access _ | array | list | paren | inline _ _ => rfl

end Expression

end Pseudocode
