import Pseudocode.Proofs.FixedMask
import Pseudocode.Proofs.FunctionHeader
import Pseudocode.Proofs.LineForm
import Pseudocode.Proofs.Shadowing

namespace Pseudocode

open List Option

/-- The two signs start neither a comment nor a field access. -/
def Adjoins (a b : Char) : Prop :=
  (a = '/' → b ≠ '/' ∧ b ≠ '*') ∧ (a = '.' → startsIdentifier b = false)

/-- A text without literals, comments and field accesses. -/
structure Unmarked (text : Text) : Prop where
  quotes : ∀ c ∈ text, c ≠ '"' ∧ c ≠ '\''
  adjoins : text.IsChain Adjoins

namespace Unmarked

variable {text rest : Text}

theorem suffix (unmarked : Unmarked text) (within : rest <:+ text) : Unmarked rest where
  quotes c member := unmarked.quotes c (within.subset member)
  adjoins := unmarked.adjoins.suffix within

theorem append (first : Unmarked text) (second : Unmarked rest)
    (apart : ∀ a ∈ text.getLast?, ∀ b ∈ rest.head?, Adjoins a b) : Unmarked (text ++ rest) where
  quotes := List.forall_mem_append.mpr ⟨first.quotes, second.quotes⟩
  adjoins := List.isChain_append.mpr ⟨first.adjoins, second.adjoins, apart⟩

theorem splitLine (unmarked : Unmarked text) : splitLine false text = { code := text } := by
  rw [Pseudocode.splitLine, if_neg (by decide)]
  induction text with
  | nil => rfl
  | cons c rest ih =>
    obtain ⟨next, -⟩ := List.isChain_cons.mp unmarked.adjoins
    have quote := unmarked.quotes c (.head _)
    rw [splitComments_code_cons, if_neg (by simp [quote]), ih (unmarked.suffix (List.suffix_cons c rest))]
    · rfl
    · intro slash
      constructor <;> intro head
      · exact ((next _ head).1 slash).1 rfl
      · exact ((next _ head).1 slash).2 rfl

theorem maskStrings (unmarked : Unmarked text) : maskStrings text = text := by
  have double : substitute blankDoubleQuoted text = text := by
    refine substituteFrom_idle (fun before rest within => ?_) none
    unfold blankDoubleQuoted
    split
    · exact absurd rfl (unmarked.quotes '"' (within.subset (.head _))).1
    · rfl
  have single : substitute blankSingleQuoted text = text := by
    refine substituteFrom_idle (fun before rest within => ?_) none
    unfold blankSingleQuoted
    split
    · exact absurd rfl (unmarked.quotes '\'' (within.subset (.head _))).2
    · exact absurd rfl (unmarked.quotes '\'' (within.subset (.head _))).2
    · rfl
  rw [Pseudocode.maskStrings, double, single]

theorem maskFields (unmarked : Unmarked text) : maskFields text = text := by
  have fieldless : Fieldless text := unmarked.adjoins.imp fun _ _ adjoins => adjoins.2
  exact fieldless.maskFieldsWithin _

end Unmarked

section Words

variable {before : Option Char} {text rest : Text} (place : Nat)

theorem wordsFrom_skip {c : Char} (plain : startsIdentifier c = false) :
    wordsFrom before place (c :: rest) = wordsFrom (some c) (place + 1) rest := by
  rw [wordsFrom, plain, Bool.and_false]
  exact if_neg (by decide)

theorem wordsFrom_fresh (start : atWordStart before = true) :
    wordsFrom before place text = wordsFrom none place text := by
  cases text with
  | nil => rfl
  | cons c rest => rw [wordsFrom, wordsFrom, start, show atWordStart none = true from rfl]

theorem wordsFrom_resume (ends : atWordEnd rest = true) :
    wordsFrom before place rest = wordsFrom none place rest := by
  cases rest with
  | nil => rfl
  | cons c rest =>
    have plain : startsIdentifier c = false := by
      rw [atWordEnd, Bool.not_eq_true'] at ends
      rw [startsIdentifier, ends, Bool.false_and]
    rw [wordsFrom_skip place plain, wordsFrom_skip place plain]

/-- No word starts inside another. -/
theorem wordsFrom_inside {b : Char} (inside : isWordChar b = true)
    (letters : ∀ c ∈ text, isWordChar c = true) (ends : atWordEnd rest = true) :
    wordsFrom (some b) place (text ++ rest) = wordsFrom none (place + text.length) rest := by
  induction text generalizing b place with
  | nil => exact wordsFrom_resume place ends
  | cons c text ih =>
    have letter := letters c (.head _)
    have within : atWordStart (some b) = false := by simp [atWordStart, inside]
    rw [cons_append, wordsFrom, within, Bool.false_and, if_neg (by decide),
      ih (place + 1) letter fun d member => letters d (.tail _ member), length_cons,
      Nat.add_right_comm, Nat.add_assoc]

theorem wordsFrom_name {name : Text} (named : identifier? name = some (name, []))
    (start : atWordStart before = true) (ends : atWordEnd rest = true) :
    wordsFrom before place (name ++ rest) = (place, name) :: wordsFrom none (place + name.length) rest := by
  have found := identifier?_append named ends
  have letters : ∀ c ∈ name, isWordChar c = true := fun c => identifier?_mem named
  cases name with
  | nil => simp [identifier?] at named
  | cons c tail =>
    have starts : startsIdentifier c = true := by
      by_contra other
      rw [identifier?, if_neg other] at named
      exact absurd named (by simp)
    rw [cons_append, identifier?, if_pos starts] at found
    have whole : c :: (tail ++ rest).takeWhile isWordChar = c :: tail :=
      congrArg Prod.fst (Option.some.inj found)
    rw [cons_append, wordsFrom, start, starts, Bool.true_and, if_pos rfl, whole,
      wordsFrom_inside (place + 1) (letters c (.head _))
        (fun d member => letters d (.tail _ member)) ends, length_cons,
      Nat.add_right_comm, Nat.add_assoc]

theorem wordsFrom_number {digits : Text} (digital : ∀ c ∈ digits, isDigit c = true ∧ isWordChar c = true)
    (ends : atWordEnd rest = true) :
    wordsFrom before place (digits ++ rest) = wordsFrom none (place + digits.length) rest := by
  cases digits with
  | nil => exact wordsFrom_resume place ends
  | cons c digits =>
    obtain ⟨digit, letter⟩ := digital c (.head _)
    have plain : startsIdentifier c = false := by rw [startsIdentifier, digit]; simp
    rw [cons_append, wordsFrom_skip place plain, wordsFrom_inside (place + 1) letter
      (fun d member => (digital d (.tail _ member)).2) ends, length_cons,
      Nat.add_right_comm, Nat.add_assoc]

end Words

/-- The signs that stand between words and numbers, besides parentheses. -/
def phraseSigns : List Char :=
  " +-*/^%=≠<>≤≥÷!,.".toList

/-- The words that stand for operators and truth values. -/
def termWords : List String :=
  ["et", "ou", "non", "mod", "vrai", "faux"]

def isTermWord (word : Text) : Bool :=
  identifier? word = some (word, []) && (termWords.map (·.toList)).contains (lower word)

/-- A name that a program can give to a variable. -/
def isUserName (name : Text) : Bool :=
  isAsciiName name && !standardLanguage.knownNames.contains (lower name)

/-- An expression or several, as a sequence of names, words, numbers, signs and groups in
parentheses. -/
inductive Phrase where
  | nil
  | name (word : Text) (next : Phrase)
  | term (word : Text) (next : Phrase)
  | number (digits : Text) (next : Phrase)
  | sign (c : Char) (next : Phrase)
  | group (inside next : Phrase)
  deriving DecidableEq, Repr

namespace Phrase

def text : Phrase → Text
  | nil => []
  | name word next => word ++ next.text
  | term word next => word ++ next.text
  | number digits next => digits ++ next.text
  | sign c next => c :: next.text
  | group inside next => '(' :: (inside.text ++ ')' :: next.text)

/-- The names with their columns, where `column` is that of the phrase. -/
def names : Phrase → (column : Nat) → List (Nat × Text)
  | nil, _ => []
  | name word next, column => (column, word) :: next.names (column + word.length)
  | term word next, column => next.names (column + word.length)
  | number digits next, column => next.names (column + digits.length)
  | sign _ next, column => next.names (column + 1)
  | group inside next, column =>
    inside.names (column + 1) ++ next.names (column + inside.text.length + 2)

/-- Words and numbers end where the text goes on with a sign. No sign starts a comment or a field
access. -/
def isProper : Phrase → Bool
  | nil => true
  | name word next => isUserName word && atWordEnd next.text && next.isProper
  | term word next => isTermWord word && atWordEnd next.text && next.isProper
  | number digits next => digits.all Char.isDigit && atWordEnd next.text && next.isProper
  | sign c next =>
    phraseSigns.contains c && (c ≠ '/' || next.text.head?.all fun d => d ≠ '/' && d ≠ '*') &&
      (c ≠ '.' || next.text.head?.all (!startsIdentifier ·)) && next.isProper
  | group inside next => inside.isProper && next.isProper

/-- A proper phrase that starts like an expression and ends with no blank. -/
def isWhole (phrase : Phrase) : Bool :=
  phrase.isProper && phrase.text.head?.any (fun c => isWordChar c || "(+-".toList.contains c) &&
    phrase.text.getLast?.any (!isBlank ·)

end Phrase

theorem isUserName_identifier {name : Text} (user : isUserName name = true) :
    identifier? name = some (name, []) := by
  simp only [isUserName, isAsciiName, Bool.and_eq_true, decide_eq_true_eq] at user
  exact user.1.1

theorem isTermWord_identifier {word : Text} (term : isTermWord word = true) :
    identifier? word = some (word, []) := by
  simp only [isTermWord, Bool.and_eq_true, decide_eq_true_eq] at term
  exact term.1

theorem isDigit_ascii {c : Char} (digit : c.isDigit = true) :
    isDigit c = true ∧ isWordChar c = true ∧ caseKey c = c := by
  have ascii : c.toNat < 128 := by
    simp only [Char.isDigit, Bool.and_eq_true, decide_eq_true_eq, UInt32.le_iff_toNat_le] at digit
    have top := digit.2
    change c.toNat ≤ 57 at top
    omega
  exact of_ascii (P := fun c => c.isDigit = true → isDigit c = true ∧ isWordChar c = true ∧ caseKey c = c)
    (by decide) ascii digit

namespace Phrase

variable {phrase : Phrase}

/-- A character of a phrase. -/
def isChar (c : Char) : Bool :=
  isWordChar c || ('(' :: ')' :: phraseSigns).contains c

theorem isChar_other {c : Char} (char : isChar c = true) :
    isLineBreak c = false ∧ c ≠ '←' ∧ c ≠ ':' ∧ c ≠ '"' ∧ c ≠ '\'' := by
  rcases Bool.or_eq_true_iff.mp char with letter | sign
  · have solid := (isWordChar_plain letter).2
    have unbroken : isLineBreak c = false := by
      simp only [isLineBreak, isBlank, Bool.or_eq_false_iff] at solid ⊢
      grind
    refine ⟨unbroken, ?_, ?_, ?_, ?_⟩
    · rintro rfl
      simp [isWordChar_arrow] at letter
    all_goals rintro rfl; exact absurd letter (by decide)
  · have all : ('(' :: ')' :: phraseSigns).all (fun c =>
        !isLineBreak c && c ≠ '←' && c ≠ ':' && c ≠ '"' && c ≠ '\'') = true := by
      decide
    simpa [and_assoc] using List.all_eq_true.mp all c (by simpa using sign)

theorem sign_break {c : Char} (sign : c ∈ '(' :: ')' :: phraseSigns) : isBreak c = true := by
  have all : ('(' :: ')' :: phraseSigns).all isBreak = true := by decide +kernel
  exact List.all_eq_true.mp all c sign

/-- What is no part of a word breaks it off. -/
theorem isChar_break {c : Char} (char : isChar c = true) (other : isWordChar c = false) :
    isBreak c = true := by
  rw [isChar, other, Bool.false_or] at char
  exact sign_break (by simpa using char)

theorem isChar_of_mem (proper : phrase.isProper = true) {c : Char} (member : c ∈ phrase.text) :
    isChar c = true := by
  have letter {c : Char} (word : isWordChar c = true) : isChar c = true := by rw [isChar, word, Bool.true_or]
  induction phrase with
  | nil => simp [text] at member
  | name word next ih =>
    simp only [isProper, Bool.and_eq_true] at proper
    rcases mem_append.mp member with inside | inside
    · exact letter (identifier?_mem (isUserName_identifier proper.1.1) inside)
    · exact ih proper.2 inside
  | term word next ih =>
    simp only [isProper, Bool.and_eq_true] at proper
    rcases mem_append.mp member with inside | inside
    · exact letter (identifier?_mem (isTermWord_identifier proper.1.1) inside)
    · exact ih proper.2 inside
  | number digits next ih =>
    simp only [isProper, Bool.and_eq_true] at proper
    rcases mem_append.mp member with inside | inside
    · exact letter (isDigit_ascii (List.all_eq_true.mp proper.1.1 c inside)).2.1
    · exact ih proper.2 inside
  | sign d next ih =>
    simp only [isProper, Bool.and_eq_true] at proper
    rcases mem_cons.mp member with rfl | inside
    · rw [isChar, contains_cons, contains_cons, proper.1.1.1]
      simp
    · exact ih proper.2 inside
  | group inside next ihInside ih =>
    simp only [isProper, Bool.and_eq_true] at proper
    rcases mem_cons.mp member with rfl | member
    · decide
    · rcases mem_append.mp member with inner | later
      · exact ihInside proper.1 inner
      · rcases mem_cons.mp later with rfl | later
        · decide
        · exact ih proper.2 later

theorem balanced (proper : phrase.isProper = true) : Balanced true phrase.text := by
  induction phrase with
  | nil => exact .nil
  | name word next ih =>
    simp only [isProper, Bool.and_eq_true] at proper
    exact .append (.of_plain fun c member =>
      (isWordChar_plain (identifier?_mem (isUserName_identifier proper.1.1) member)).1) (ih proper.2)
  | term word next ih =>
    simp only [isProper, Bool.and_eq_true] at proper
    exact .append (.of_plain fun c member =>
      (isWordChar_plain (identifier?_mem (isTermWord_identifier proper.1.1) member)).1) (ih proper.2)
  | number digits next ih =>
    simp only [isProper, Bool.and_eq_true] at proper
    exact .append (.of_plain fun c member =>
      (isWordChar_plain (isDigit_ascii (List.all_eq_true.mp proper.1.1 c member)).2.1).1) (ih proper.2)
  | sign c next ih =>
    simp only [isProper, Bool.and_eq_true] at proper
    by_cases comma : c = ','
    · subst comma
      exact .comma (ih proper.2)
    · have all : phraseSigns.all (fun c => c = ',' || isPlainSign c) = true := by decide
      have plain := List.all_eq_true.mp all c (by simpa using proper.1.1.1)
      exact .plain (by simpa [comma] using plain) (ih proper.2)
  | group inside next ihInside ih =>
    simp only [isProper, Bool.and_eq_true] at proper
    exact .group .round (ihInside proper.1) (ih proper.2)

/-- Where a word ends, a phrase goes on with a sign that breaks it off. -/
theorem stops (proper : phrase.isProper = true) (ends : atWordEnd phrase.text = true) :
    ∀ c ∈ phrase.text.head?, isBreak c = true := by
  intro c first
  refine isChar_break (isChar_of_mem proper (mem_of_mem_head? first)) ?_
  obtain ⟨rest, shape⟩ := head?_eq_some_iff.mp first
  rw [shape] at ends
  simpa [atWordEnd] using ends

theorem atWordEnd_append {first rest : Text} (ends : atWordEnd first = true) (later : atWordEnd rest = true) :
    atWordEnd (first ++ rest) = true := by
  cases first with
  | nil => exact later
  | cons c first => exact ends

/-- The words of a phrase are its names, the words of the language aside. -/
theorem filterMap_words {α : Type} {found : Nat × Text → Option α}
    (quiet : ∀ column word, isTermWord word = true → found (column, word) = none)
    (proper : phrase.isProper = true) {before : Option Char} (place : Nat) {rest : Text}
    (start : atWordStart before = true) (ends : atWordEnd rest = true) :
    (wordsFrom before place (phrase.text ++ rest)).filterMap found =
      (phrase.names place).filterMap found ++
        (wordsFrom none (place + phrase.text.length) rest).filterMap found := by
  induction phrase generalizing before place rest with
  | nil => rw [text, nil_append, names, filterMap_nil, nil_append, wordsFrom_fresh place start,
      length_nil, Nat.add_zero]
  | name word next ih =>
    simp only [isProper, Bool.and_eq_true] at proper
    rw [text, append_assoc, wordsFrom_name place (isUserName_identifier proper.1.1) start
      (atWordEnd_append proper.1.2 ends), names, filterMap_cons, filterMap_cons,
      ih proper.2 _ rfl ends, length_append, Nat.add_assoc]
    split <;> rfl
  | term word next ih =>
    simp only [isProper, Bool.and_eq_true] at proper
    rw [text, append_assoc, wordsFrom_name place (isTermWord_identifier proper.1.1) start
      (atWordEnd_append proper.1.2 ends), names, filterMap_cons, quiet _ _ proper.1.1,
      ih proper.2 _ rfl ends, length_append, Nat.add_assoc]
  | number digits next ih =>
    simp only [isProper, Bool.and_eq_true] at proper
    have digital : ∀ c ∈ digits, isDigit c = true ∧ isWordChar c = true := fun c member =>
      have digit := isDigit_ascii (List.all_eq_true.mp proper.1.1 c member)
      ⟨digit.1, digit.2.1⟩
    rw [text, append_assoc, wordsFrom_number place digital (atWordEnd_append proper.1.2 ends), names,
      ih proper.2 _ rfl ends, length_append, Nat.add_assoc]
  | sign c next ih =>
    simp only [isProper, Bool.and_eq_true] at proper
    have other : isWordChar c = false := by
      have breaks := sign_break (.tail '(' (.tail ')'
        (List.contains_iff_mem.mp proper.1.1.1)))
      simp only [isBreak, Bool.and_eq_true, Bool.not_eq_true'] at breaks
      exact breaks.1
    rw [text, cons_append, wordsFrom_skip place (by rw [startsIdentifier, other, Bool.false_and]), names,
      ih proper.2 _ (by simp [atWordStart, other]) ends, length_cons, Nat.add_right_comm, Nat.add_assoc]
  | group inside next ihInside ih =>
    simp only [isProper, Bool.and_eq_true] at proper
    have closes : isWordChar ')' = false := by decide
    have length : place + (group inside next).text.length =
        place + inside.text.length + 2 + next.text.length := by
      simp only [text, length_cons, length_append]
      omega
    rw [length, text, cons_append, append_assoc, cons_append, wordsFrom_skip place (by decide),
      ihInside proper.1 _ (by decide) (by simp [atWordEnd, closes]), wordsFrom_skip _ (by decide),
      ih proper.2 _ (by decide) ends, names, filterMap_append, append_assoc,
      Nat.add_right_comm place 1]

theorem adjoins_other {a b : Char} (slash : a ≠ '/') (point : a ≠ '.') : Adjoins a b :=
  ⟨fun same => absurd same slash, fun same => absurd same point⟩

theorem adjoins_letter {a : Char} (letter : isWordChar a = true) (b : Char) : Adjoins a b :=
  adjoins_other (by rintro rfl; exact absurd letter (by decide)) (by rintro rfl; exact absurd letter (by decide))

theorem isChain_letters {letters : Text} (word : ∀ c ∈ letters, isWordChar c = true) :
    letters.IsChain Adjoins :=
  (pairwise_of_forall_mem_list fun a member b _ => adjoins_letter (word a member) b).isChain

theorem unmarked (proper : phrase.isProper = true) : Unmarked phrase.text where
  quotes c member := (isChar_other (isChar_of_mem proper member)).2.2.2
  adjoins := by
    have append {word rest : Text} (letters : ∀ c ∈ word, isWordChar c = true)
        (later : rest.IsChain Adjoins) : (word ++ rest).IsChain Adjoins :=
      isChain_append.mpr ⟨isChain_letters letters, later, fun a last b _ =>
        adjoins_letter (letters a (mem_of_getLast? last)) b⟩
    induction phrase with
    | nil => exact .nil
    | name word next ih =>
      simp only [isProper, Bool.and_eq_true] at proper
      exact append (fun c => identifier?_mem (isUserName_identifier proper.1.1)) (ih proper.2)
    | term word next ih =>
      simp only [isProper, Bool.and_eq_true] at proper
      exact append (fun c => identifier?_mem (isTermWord_identifier proper.1.1)) (ih proper.2)
    | number digits next ih =>
      simp only [isProper, Bool.and_eq_true] at proper
      exact append (fun c member => (isDigit_ascii (List.all_eq_true.mp proper.1.1 c member)).2.1) (ih proper.2)
    | sign c next ih =>
      simp only [isProper, Bool.and_eq_true, Bool.or_eq_true, decide_eq_true_eq, Option.all_eq_true] at proper
      refine List.isChain_cons.mpr ⟨fun d first => ⟨fun slash => ?_, fun point => ?_⟩, ih proper.2⟩
      · simpa using proper.1.1.2.resolve_left (fun other => other slash) d first
      · simpa using proper.1.2.resolve_left (fun other => other point) d first
    | group inside next ihInside ih =>
      simp only [isProper, Bool.and_eq_true] at proper
      have closer {a : Char} : Adjoins a ')' := ⟨fun _ => by decide, fun _ => by decide⟩
      refine List.isChain_cons.mpr ⟨fun d _ => adjoins_other (by decide) (by decide), ?_⟩
      refine isChain_append.mpr ⟨ihInside proper.1, ?_, fun a _ b first => ?_⟩
      · exact List.isChain_cons.mpr ⟨fun d _ => adjoins_other (by decide) (by decide), ih proper.2⟩
      · obtain rfl : ')' = b := Option.some.inj first
        exact closer

end Phrase

/-- A parenthesis that opens inside a balanced text is closed. -/
theorem Balanced.closes {commas : Bool} {text passed opened : Text} (balanced : Balanced commas text)
    (split : text = passed ++ '(' :: opened) : (splitParen? opened).isSome = true := by
  induction balanced generalizing passed opened with
  | nil => simp at split
  | plain sign _ ih =>
    cases passed with
    | nil =>
      obtain ⟨rfl, -⟩ := List.cons.inj split
      exact absurd sign (by decide)
    | cons _ passed => exact ih (List.cons.inj split).2
  | comma _ ih =>
    cases passed with
    | nil => exact absurd (List.cons.inj split).1 (by decide)
    | cons _ passed => exact ih (List.cons.inj split).2
  | @group _ opener closer inside rest pair inner _ ihInside ih =>
    cases passed with
    | nil =>
      obtain ⟨rfl, rfl⟩ := List.cons.inj split
      obtain rfl := IsPair.round.closer_eq pair
      rw [splitParen?, inner.splitClose?_enclosed .round]
      rfl
    | cons _ passed =>
      have differ : closer ≠ '(' := by cases pair <;> decide
      rcases append_eq_append_iff.mp (List.cons.inj split).2 with ⟨more, longer, later⟩ | ⟨more, within, later⟩
      · cases more with
        | nil => exact absurd (List.cons.inj later).1 differ
        | cons _ more => exact ih (List.cons.inj later).2
      · cases more with
        | nil => exact absurd (List.cons.inj later).1.symm differ
        | cons _ more =>
          obtain ⟨rfl, rfl⟩ := List.cons.inj later
          obtain ⟨⟨content, after⟩, closed⟩ := isSome_iff_exists.mp (ihInside within)
          exact isSome_iff_exists.mpr ⟨_, splitClose?_append closed (closer :: rest)⟩

/-- The name of a call is a word of the text. -/
theorem callsFrom_word {before : Option Char} {place : Nat} {text : Text} {call : Nat × CallHead × Text}
    (found : call ∈ callsFrom anyCallee before place text) :
    (call.1, call.2.1.name) ∈ wordsFrom before place text := by
  induction text generalizing before place with
  | nil => simp [callsFrom] at found
  | cons c rest ih =>
    have later (member : call ∈ callsFrom anyCallee (some c) (place + 1) rest) :
        (call.1, call.2.1.name) ∈ wordsFrom before place (c :: rest) := by
      rw [wordsFrom]
      split
      · exact .tail _ (ih member)
      · exact ih member
    rw [callsFrom] at found
    split at found
    · rename_i head called
      rcases mem_cons.mp found with rfl | member
      · simp only [callAt?, atNameStart, ite_none_right_eq_some, Bool.and_eq_true] at called
        obtain ⟨rest', named⟩ := (anyCallee_name called.2).1
        have starts : startsIdentifier c = true := by
          by_contra other
          rw [identifier?, if_neg other] at named
          exact absurd named (by simp)
        rw [identifier?, if_pos starts] at named
        rw [wordsFrom, called.1.1, starts, Bool.true_and, if_pos rfl]
        simp [(Prod.mk.inj (Option.some.inj named)).1]
      · exact later member
    · exact later found

/-- Where brackets are balanced and no built-in is called, there is nothing to say on calls. -/
theorem Checker.checkCalls_quiet (checker : Checker) (line : Nat) (code : Text) {masked : Text}
    (balanced : Balanced true masked)
    (plain : ∀ word ∈ wordsFrom none 0 masked, checker.language.builtin? word.2 = none) (scopes : Scopes) :
    checker.checkCalls line code masked scopes = scopes := by
  have closed : ∀ call ∈ callsFrom anyCallee none 0 masked, (splitParen? call.2.2).isSome := by
    intro call found
    obtain ⟨passed, split⟩ := callsFrom_split (fun _ _ => anyCallee_eq_some) call found
    exact balanced.closes split
  have unchecked : (callsFrom anyCallee none 0 masked).filter (fun call => checker.checks call.2.1.name) = [] := by
    rw [filter_eq_nil_iff]
    intro call found
    have none := plain _ (callsFrom_word found)
    simp only at none
    simp [checks, Language.hasBuiltin, none]
  rw [checkCalls, callDiagnostics_closed checker line code closed, unchecked, filterMap_nil,
    Scopes.report, append_nil]

theorem lower_ascii {text : Text} (ascii : ∀ c ∈ text, c.toNat < 128) : lower text = text.map caseKey := by
  have key {c : Char} (small : c.toNat < 128) : smallLetter c = caseKey c :=
    of_ascii (P := fun c => smallLetter c = caseKey c) (by decide) small
  unfold lower
  generalize [] = before
  induction text generalizing before with
  | nil => rfl
  | cons c rest ih =>
    have small := ascii c (.head _)
    have undotted : c ≠ 'İ' := by rintro rfl; exact absurd small (by decide)
    have other : c ≠ 'Σ' := by rintro rfl; exact absurd small (by decide)
    rw [lowerAfter, if_neg undotted, if_neg other, ih (fun d member => ascii d (.tail _ member)),
      key small]
    rfl

/-- The words that a line or a value is told by. -/
def formWords : List String :=
  leadingWords ++ ["tableau", "lire"]

/-- A name of a program is none of the words that forms are told by. -/
theorem isUserName_differs {name : Text} (user : isUserName name = true) : Differs formWords name := by
  simp only [isUserName, isAsciiName, Bool.and_eq_true, Bool.not_eq_true', List.all_eq_true,
    decide_eq_true_eq] at user
  obtain ⟨⟨-, ascii⟩, unknown⟩ := user
  intro keyword member same
  have all : formWords.all (fun word => word.toList.map caseKey = word.toList &&
      standardLanguage.knownNames.contains word.toList) = true := by decide
  have known := List.all_eq_true.mp all keyword member
  simp only [Bool.and_eq_true, decide_eq_true_eq] at known
  rw [lower_ascii ascii, same, known.1, known.2] at unknown
  exact absurd unknown (by decide)

theorem isUserName_builtin {name : Text} (user : isUserName name = true) :
    standardLanguage.builtin? name = none := by
  simp only [isUserName, Bool.and_eq_true, Bool.not_eq_true'] at user
  rw [Language.builtin?, findLast?, find?_eq_none]
  intro builtin member same
  have listed : lower name ∈ standardLanguage.knownNames := by
    rw [Language.knownNames, mem_append, mem_append, ← of_decide_eq_true same]
    exact .inl (.inr (mem_map_of_mem (mem_reverse.mp member)))
  rw [List.contains_iff_mem.mpr listed] at user
  exact absurd user.2 (by decide)

theorem isTermWord_known {word : Text} (term : isTermWord word = true) :
    standardLanguage.knownNames.contains (lower word) = true ∧ standardLanguage.builtin? word = none ∧
      Differs ["tableau", "lire"] word := by
  simp only [isTermWord, Bool.and_eq_true, decide_eq_true_eq, List.contains_iff_mem, List.mem_map] at term
  obtain ⟨-, keyword, member, same⟩ := term
  have all : termWords.all (fun word => lower word.toList = word.toList &&
      (lower word.toList).all (!isIrregular ·) &&
      standardLanguage.knownNames.contains word.toList &&
      standardLanguage.builtins.all (fun builtin => lower builtin.name ≠ word.toList) &&
      decide (Differs ["tableau", "lire"] word.toList)) = true := by decide
  have known := List.all_eq_true.mp all keyword member
  simp only [Bool.and_eq_true, decide_eq_true_eq, List.all_eq_true, Bool.not_eq_true'] at known
  obtain ⟨⟨⟨⟨small, regular⟩, listed⟩, builtins⟩, differs⟩ := known
  refine ⟨same ▸ listed, ?_, ?_⟩
  · rw [Language.builtin?, findLast?, find?_eq_none]
    intro builtin inside found
    exact builtins builtin (mem_reverse.mp inside) ((of_decide_eq_true found).trans same.symm)
  · intro other inside
    rw [map_caseKey_of_lower (same.symm.trans small.symm) regular]
    exact differs other inside

/-- No phrase starts like an array or an input. -/
theorem Phrase.startsWith {phrase : Phrase} (proper : phrase.isProper = true) :
    ∃ word tail, StartsWith phrase.text word tail ∧ Differs ["tableau", "lire"] word := by
  have signs (text : Text) (stop : ∀ c ∈ text.head?, isBreak c = true) :
      ∃ word tail, StartsWith text word tail ∧ Differs ["tableau", "lire"] word :=
    ⟨[], text, ⟨rfl, by simp, stop⟩, by decide⟩
  cases phrase with
  | nil => exact signs [] (by simp)
  | name word next =>
    simp only [isProper, Bool.and_eq_true] at proper
    exact ⟨word, next.text, ⟨rfl, fun c => identifier?_mem (isUserName_identifier proper.1.1),
      stops proper.2 proper.1.2⟩, (isUserName_differs proper.1.1).mono (by decide)⟩
  | term word next =>
    simp only [isProper, Bool.and_eq_true] at proper
    exact ⟨word, next.text, ⟨rfl, fun c => identifier?_mem (isTermWord_identifier proper.1.1),
      stops proper.2 proper.1.2⟩, (isTermWord_known proper.1.1).2.2⟩
  | number digits next =>
    simp only [isProper, Bool.and_eq_true] at proper
    have digital := fun c member => isDigit_ascii (List.all_eq_true.mp proper.1.1 c member)
    refine ⟨digits, next.text, ⟨rfl, fun c member => (digital c member).2.1, stops proper.2 proper.1.2⟩, ?_⟩
    intro keyword member same
    have key : digits.map caseKey = digits := by
      rw [List.map_congr_left fun c member => (digital c member).2.2, List.map_id']
    rw [key] at same
    have all : ["tableau", "lire"].all (fun word => (word.toList.map caseKey).any (!isDigit ·)) = true := by
      decide
    obtain ⟨c, inside, other⟩ := any_eq_true.mp (List.all_eq_true.mp all keyword member)
    rw [(digital c (same ▸ inside)).1] at other
    exact absurd other (by decide)
  | sign c next =>
    simp only [isProper, Bool.and_eq_true] at proper
    exact signs _ fun d first => Option.some.inj first ▸
      sign_break (.tail '(' (.tail ')' (List.contains_iff_mem.mp proper.1.1.1)))
  | group inside next => exact signs _ fun d first => Option.some.inj first ▸ by decide

end Pseudocode
