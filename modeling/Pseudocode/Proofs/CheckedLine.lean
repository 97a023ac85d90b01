import Pseudocode.Proofs.Phrase

namespace Pseudocode

open List

/-- The line or lines that open a block. -/
inductive Opening where
  | si (condition : Phrase)
  | tantQue (condition : Phrase)
  | pour (counter : Text) (start stop : Phrase)
  | fonction (header : WrittenHeader)
  | debut
  deriving DecidableEq, Repr

namespace Opening

def firstLine : Opening → Text
  | si condition => "Si".toList ++ ' ' :: (condition.text ++ ' ' :: "Alors".toList)
  | tantQue condition =>
    "Tant".toList ++ ' ' :: ("que".toList ++ ' ' :: (condition.text ++ ' ' :: "Faire".toList))
  | pour counter start stop =>
    "Pour".toList ++ ' ' :: (counter ++ ' ' :: ("de".toList ++ ' ' :: (start.text ++
      ' ' :: ("à".toList ++ ' ' :: (stop.text ++ ' ' :: "Faire".toList)))))
  | fonction header => header.text
  | debut => "Début".toList

def lines (opening : Opening) : List Text :=
  match opening with
  | fonction header => [header.text, "Début".toList]
  | _ => [opening.firstLine]

def closers : Opening → List String
  | si _ => BlockKeyword.si.closers
  | tantQue _ => BlockKeyword.tantQue.closers
  | pour .. => BlockKeyword.pour.closers
  | fonction _ | debut => ["Fin"]

/-- The names that the block introduces. -/
def declared : Opening → List Text
  | pour counter _ _ => [counter]
  | fonction header => header.parameters.map (·.name)
  | _ => []

/-- The names that the first line uses, with their columns, where `margin` is the column at which
the line starts. -/
def uses (margin : Nat) : Opening → List (Nat × Text)
  | si condition => condition.names (margin + 3)
  | tantQue condition => condition.names (margin + 9)
  | pour counter start stop =>
    start.names (margin + counter.length + 9) ++
      stop.names (margin + counter.length + start.text.length + 12)
  | _ => []

/-- The header of a function has neither literals nor comments nor field accesses, and it ends with
no blank. -/
def Proper : Opening → Prop
  | si condition | tantQue condition => condition.isWhole = true
  | pour counter start stop =>
    isUserName counter = true ∧ start.isWhole = true ∧ stop.isWhole = true
  | fonction header =>
    header.Proper ∧ Unmarked header.text ∧ (∀ c ∈ header.text, isLineBreak c = false) ∧
      ∀ c ∈ header.text.getLast?, isBlank c = false
  | debut => True

end Opening

/-- A line of code with blanks before it and nothing in it that is masked. -/
structure IsSet (margin code : Text) : Prop where
  margin : ∀ c ∈ margin, c = ' ' ∨ c = '\t'
  unmarked : Unmarked code
  first : ∀ c ∈ code.head?, isBlank c = false
  trimmed : trim code = code

namespace IsSet

variable {margin code : Text}

theorem blank (set : IsSet margin code) : ∀ c ∈ margin, isBlank c = true := by
  intro c member
  rcases set.margin c member with rfl | rfl <;> decide

theorem whole (set : IsSet margin code) : Unmarked (margin ++ code) := by
  have other : ∀ c ∈ margin, (c ≠ '"' ∧ c ≠ '\'') ∧ c ≠ '/' ∧ c ≠ '.' := by
    intro c member
    rcases set.margin c member with rfl | rfl <;> decide
  refine .append ⟨fun c member => (other c member).1, ?_⟩ set.unmarked fun a last b _ => ?_
  · exact (List.pairwise_of_forall_mem_list fun a member b _ =>
      Phrase.adjoins_other (other a member).2.1 (other a member).2.2).isChain
  · have member := List.mem_of_getLast? last
    exact Phrase.adjoins_other (other a member).2.1 (other a member).2.2

theorem masked (set : IsSet margin code) : maskFields (maskStrings (margin ++ code)) = margin ++ code := by
  rw [set.whole.maskStrings, set.whole.maskFields]

theorem trim_eq (set : IsSet margin code) : trim (margin ++ code) = code := by
  rw [trim, trimLeft, List.dropWhile_append_of_pos set.blank, ← trimLeft, ← trim, set.trimmed]

theorem indentation_eq (set : IsSet margin code) : indentation (margin ++ code) = margin := by
  have solid : code.takeWhile isBlank = [] := by
    cases code with
    | nil => rfl
    | cons c rest => exact List.takeWhile_cons_of_neg (by simp [set.first c rfl])
  rw [indentation, List.takeWhile_append_of_pos set.blank, solid, List.append_nil]

end IsSet

/-- The words that lines are made of besides names and values. -/
def lineWords : List String :=
  ["Si", "Alors", "Tant", "que", "Faire", "Pour", "de", "à", "écrire"]

/-- Nothing is found at the words of the language. -/
structure Quiet {α : Type} (found : Nat × Text → Option α) : Prop where
  term : ∀ column word, isTermWord word = true → found (column, word) = none
  line : ∀ column, ∀ word ∈ lineWords, found (column, word.toList) = none

section Words

variable {α : Type} {found : Nat × Text → Option α} {rest : Text} {before : Option Char} (place : Nat)

theorem wordsFrom_margin {margin : Text} (blank : ∀ c ∈ margin, isBlank c = true)
    (start : atWordStart before = true) :
    wordsFrom before place (margin ++ rest) = wordsFrom none (place + margin.length) rest := by
  induction margin generalizing before place with
  | nil => exact wordsFrom_fresh place start
  | cons c margin ih =>
    have other : isWordChar c = false := isBlank_not_wordChar (blank c (.head _))
    rw [List.cons_append, wordsFrom_skip place (by rw [startsIdentifier, other, Bool.false_and]),
      ih (place + 1) (fun d member => blank d (.tail _ member)) (by simp [atWordStart, other]),
      List.length_cons, Nat.add_right_comm, Nat.add_assoc]

theorem wordsFrom_space : wordsFrom before place (' ' :: rest) = wordsFrom none (place + 1) rest := by
  rw [wordsFrom_skip place (by decide), wordsFrom_fresh _ (by decide)]

/-- A word of the language is passed over. -/
theorem Quiet.keyword (quiet : Quiet found) {word : String} (listed : word ∈ lineWords)
    (start : atWordStart before = true) (ends : atWordEnd rest = true) :
    (wordsFrom before place (word.toList ++ rest)).filterMap found =
      (wordsFrom none (place + word.length) rest).filterMap found := by
  have named : ∀ word ∈ lineWords, identifier? word.toList = some (word.toList, []) := by decide
  rw [wordsFrom_name place (named word listed) start ends, List.filterMap_cons, quiet.line _ word listed,
    String.length_toList]

theorem Quiet.phrase (quiet : Quiet found) {phrase : Phrase} (proper : phrase.isProper = true)
    (ends : atWordEnd rest = true) :
    (wordsFrom none place (phrase.text ++ rest)).filterMap found =
      (phrase.names place).filterMap found ++
        (wordsFrom none (place + phrase.text.length) rest).filterMap found :=
  Phrase.filterMap_words quiet.term proper place rfl ends

end Words

namespace Phrase

variable {phrase : Phrase}

theorem isWhole_proper (whole : phrase.isWhole = true) : phrase.isProper = true := by
  simp only [isWhole, Bool.and_eq_true] at whole
  exact whole.1.1

/-- An expression starts with no blank, and with nothing that a type or an assignment has there. -/
theorem isWhole_head (whole : phrase.isWhole = true) (rest : Text) :
    ∃ c tail, phrase.text ++ rest = c :: tail ∧ isBlank c = false ∧ c ≠ '=' ∧ c ≠ '<' ∧ c ≠ '←' := by
  simp only [isWhole, Bool.and_eq_true] at whole
  obtain ⟨c, head, start⟩ := (Option.any_eq_true _ _).mp whole.1.2
  obtain ⟨tail, shape⟩ := List.head?_eq_some_iff.mp head
  refine ⟨c, tail ++ rest, by rw [shape, List.cons_append], ?_⟩
  rcases Bool.or_eq_true_iff.mp start with letter | sign
  · exact letter_ne letter
  · have all : "(+-".toList.all (fun c => !isBlank c && c ≠ '=' && c ≠ '<' && c ≠ '←') = true := by decide
    simpa [and_assoc] using List.all_eq_true.mp all c (by simpa using sign)

theorem isWhole_last (whole : phrase.isWhole = true) : ∀ c ∈ phrase.text.getLast?, isBlank c = false := by
  simp only [isWhole, Bool.and_eq_true] at whole
  obtain ⟨c, last, solid⟩ := (Option.any_eq_true _ _).mp whole.2
  intro d member
  obtain rfl : c = d := Option.some.inj (last.symm.trans member)
  simpa using solid

theorem names_user (proper : phrase.isProper = true) (column : Nat) :
    ∀ use ∈ phrase.names column, isUserName use.2 = true := by
  induction phrase generalizing column with
  | nil => simp [names]
  | name word next ih =>
    simp only [isProper, Bool.and_eq_true] at proper
    exact List.forall_mem_cons.mpr ⟨proper.1.1, ih proper.2 _⟩
  | term word next ih | number word next ih | sign word next ih =>
    simp only [isProper, Bool.and_eq_true] at proper
    exact ih proper.2 _
  | group inside next ihInside ih =>
    simp only [isProper, Bool.and_eq_true] at proper
    exact List.forall_mem_append.mpr ⟨ihInside proper.1 _, ih proper.2 _⟩

end Phrase

theorem Opening.uses_user (opening : Opening) (proper : opening.Proper) (margin : Nat) :
    ∀ use ∈ opening.uses margin, isUserName use.2 = true := by
  cases opening with
  | si condition | tantQue condition => exact Phrase.names_user (Phrase.isWhole_proper proper) _
  | pour counter start stop =>
    exact List.forall_mem_append.mpr ⟨Phrase.names_user (Phrase.isWhole_proper proper.2.1) _,
      Phrase.names_user (Phrase.isWhole_proper proper.2.2) _⟩
  | fonction header | debut => simp [uses]

section Words

variable {α : Type} {found : Nat × Text → Option α}

theorem Quiet.condition (quiet : Quiet found) {condition : Phrase} (whole : condition.isWhole = true)
    {closing : String} (listed : closing ∈ lineWords) (place : Nat) :
    (wordsFrom none place (condition.text ++ ' ' :: closing.toList)).filterMap found =
      (condition.names place).filterMap found := by
  have last : (wordsFrom none (place + condition.text.length + 1) (closing.toList ++ [])).filterMap found = _ :=
    quiet.keyword _ listed rfl rfl
  rw [List.append_nil] at last
  rw [quiet.phrase place (Phrase.isWhole_proper whole) rfl, wordsFrom_space, last, wordsFrom,
    List.filterMap_nil, List.append_nil]

namespace Opening

theorem si_words (quiet : Quiet found) {condition : Phrase} (whole : condition.isWhole = true) (place : Nat) :
    (wordsFrom none place (si condition).firstLine).filterMap found =
      ((si condition).uses place).filterMap found := by
  rw [firstLine, quiet.keyword place (by decide) rfl rfl, wordsFrom_space, quiet.condition whole (by decide)]
  rfl

theorem tantQue_words (quiet : Quiet found) {condition : Phrase} (whole : condition.isWhole = true)
    (place : Nat) :
    (wordsFrom none place (tantQue condition).firstLine).filterMap found =
      ((tantQue condition).uses place).filterMap found := by
  rw [firstLine, quiet.keyword place (by decide) rfl rfl, wordsFrom_space,
    quiet.keyword _ (by decide) rfl rfl, wordsFrom_space, quiet.condition whole (by decide)]
  rfl

/-- What follows the variable of a loop uses the names of its bounds. -/
theorem pour_words (quiet : Quiet found) {start stop : Phrase} (first : start.isWhole = true)
    (second : stop.isWhole = true) (before : Option Char) (counter : Text) (margin : Nat) :
    (wordsFrom before (margin + 5 + counter.length) (' ' :: ("de".toList ++ ' ' :: (start.text ++
      ' ' :: ("à".toList ++ ' ' :: (stop.text ++ ' ' :: "Faire".toList)))))).filterMap found =
      ((pour counter start stop).uses margin).filterMap found := by
  have places : margin + 5 + counter.length + 1 + "de".length + 1 = margin + counter.length + 9 ∧
      margin + counter.length + 9 + start.text.length + 1 + "à".length + 1 =
        margin + counter.length + start.text.length + 12 := by
    rw [show "de".length = 2 from rfl, show "à".length = 1 from rfl]
    omega
  rw [wordsFrom_space, quiet.keyword _ (by decide) rfl rfl, wordsFrom_space,
    quiet.phrase _ (Phrase.isWhole_proper first) rfl, wordsFrom_space,
    quiet.keyword _ (by decide) rfl rfl, wordsFrom_space, quiet.condition second (by decide), places.1,
    places.2, uses, List.filterMap_append]

end Opening

theorem Quiet.written (quiet : Quiet found) {values : Phrase} (proper : values.isProper = true) (place : Nat) :
    (wordsFrom none place ("écrire".toList ++ '(' :: (values.text ++ [')']))).filterMap found =
      (values.names (place + 7)).filterMap found := by
  have ends : atWordEnd ('(' :: (values.text ++ [')'])) = true := by
    have opener : isWordChar '(' = false := by decide
    simp [atWordEnd, opener]
  rw [quiet.keyword place (by decide) rfl ends, wordsFrom_skip _ (by decide), wordsFrom_fresh _ (by decide),
    quiet.phrase _ proper (by decide), wordsFrom_skip _ (by decide), wordsFrom, List.filterMap_nil,
    List.append_nil]
  rfl

end Words

/-- A blank keeps comments and field accesses from arising between two texts. -/
theorem Unmarked.spaced {text rest : Text} (first : Unmarked text) (second : Unmarked rest) :
    Unmarked (text ++ ' ' :: rest) := by
  refine first.append ?_ fun a _ b head => ?_
  · have blank : Unmarked [' '] := ⟨by simp, .singleton _⟩
    exact blank.append second fun a last b _ =>
      Option.some.inj last ▸ Phrase.adjoins_other (by decide) (by decide)
  · obtain rfl : ' ' = b := Option.some.inj head
    exact ⟨fun _ => by decide, fun _ => by decide⟩

/-- A text of words, phrases and blanks between them. -/
structure Orderly (text : Text) : Prop where
  unmarked : Unmarked text
  balanced : Balanced true text
  chars : ∀ c ∈ text, Phrase.isChar c = true

namespace Orderly

variable {text rest : Text}

theorem word (letters : ∀ c ∈ text, isWordChar c = true) : Orderly text where
  unmarked := ⟨fun c member => (Phrase.isChar_other (by simp [Phrase.isChar, letters c member])).2.2.2,
    Phrase.isChain_letters letters⟩
  balanced := .of_plain fun c member => (isWordChar_plain (letters c member)).1
  chars c member := by simp [Phrase.isChar, letters c member]

theorem keyword {word : String} (letters : word.toList.all isWordChar = true) : Orderly word.toList :=
  .word (List.all_eq_true.mp letters)

theorem phrase {phrase : Phrase} (proper : phrase.isProper = true) : Orderly phrase.text where
  unmarked := Phrase.unmarked proper
  balanced := Phrase.balanced proper
  chars _ := Phrase.isChar_of_mem proper

theorem spaced (first : Orderly text) (second : Orderly rest) : Orderly (text ++ ' ' :: rest) where
  unmarked := first.unmarked.spaced second.unmarked
  balanced := .append first.balanced (.plain (by decide) second.balanced)
  chars := List.forall_mem_append.mpr ⟨first.chars, List.forall_mem_cons.mpr ⟨by decide, second.chars⟩⟩

theorem colon (orderly : Orderly text) : ':' ∉ text.dropLast := fun member =>
  (Phrase.isChar_other (orderly.chars ':' (List.dropLast_subset _ member))).2.2.1 rfl

theorem unbroken (orderly : Orderly text) : ∀ c ∈ text, isLineBreak c = false := fun c member =>
  (Phrase.isChar_other (orderly.chars c member)).1

end Orderly

/-- What a check needs to know of a line that is told by its first word. -/
structure Told (line word tail : Text) : Prop extends Orderly line, Led line word tail where
  arrow : ∀ c ∈ (trimLeft tail).head?, c ≠ '←'

namespace Told

variable {line word tail : Text}

theorem isSet (told : Told line word tail) {margin : Text} (blank : ∀ c ∈ margin, c = ' ' ∨ c = '\t') :
    IsSet margin line where
  margin := blank
  unmarked := told.unmarked
  first := told.split ▸ identifier?_head told.name tail
  trimmed := told.trimmed

end Told

namespace Opening

variable {condition start stop : Phrase} {counter : Text}

theorem orderly_condition (whole : condition.isWhole = true) {closing : String}
    (letters : closing.toList.all isWordChar = true) :
    Orderly (condition.text ++ ' ' :: closing.toList) :=
  .spaced (.phrase (Phrase.isWhole_proper whole)) (.keyword letters)

theorem told_keyword {word : String} {line : Text} {c : Char} {rest : Text}
    (listed : word ∈ ["Si", "Tant", "Pour"]) (shape : line = c :: rest) (orderly : Orderly line)
    (first : isBlank c = false ∧ c ≠ '=' ∧ c ≠ '<' ∧ c ≠ '←')
    (last : ∀ c ∈ line.getLast?, isBlank c = false) :
    Told (word.toList ++ ' ' :: line) word.toList (' ' :: line) := by
  have known : ∀ word ∈ ["Si", "Tant", "Pour"], identifier? word.toList = some (word.toList, []) ∧
      Differs outerWords word.toList ∧ word.toList.all isWordChar = true := by decide
  obtain ⟨named, outer, letters⟩ := known word listed
  have follow : ∀ d ∈ (trimLeft (' ' :: line)).head?, c = d := by
    intro d head
    have begins : ∀ d ∈ line.head?, isBlank d = false :=
      shape ▸ fun d head => Option.some.inj head ▸ first.1
    rw [trimLeft_space begins, shape] at head
    exact Option.some.inj head
  have spaced := Orderly.spaced (.keyword letters) orderly
  refine ⟨spaced, .of_solid rfl named outer (fun d head => ?_) (fun d atEnd => ?_) (fun d head => ?_)
    spaced.colon, fun d head => ?_⟩
  · exact Option.some.inj head ▸ by decide
  · rw [List.getLast?_append_of_ne_nil _ (by simp), shape, List.getLast?_cons_cons, ← shape] at atEnd
    exact last d atEnd
  · exact follow d head ▸ ⟨first.2.1, first.2.2.1⟩
  · exact follow d head ▸ first.2.2.2

theorem told_si (whole : condition.isWhole = true) :
    Told (si condition).firstLine "Si".toList (' ' :: (condition.text ++ ' ' :: "Alors".toList)) := by
  obtain ⟨c, rest, shape, first⟩ := Phrase.isWhole_head whole (' ' :: "Alors".toList)
  exact told_keyword (by decide) shape (orderly_condition whole (by decide)) first
    (last_spaced (by decide) (last_keyword (by decide)))

theorem told_tantQue (whole : condition.isWhole = true) :
    Told (tantQue condition).firstLine "Tant".toList
      (' ' :: ("que".toList ++ ' ' :: (condition.text ++ ' ' :: "Faire".toList))) :=
  told_keyword (by decide) rfl (.spaced (.keyword (by decide)) (orderly_condition whole (by decide)))
    (by decide) (last_spaced (by simp) (last_spaced (by decide) (last_keyword (by decide))))

theorem told_pour (named : isUserName counter = true) (first : start.isWhole = true)
    (second : stop.isWhole = true) :
    Told (pour counter start stop).firstLine "Pour".toList (' ' :: (counter ++ ' ' :: ("de".toList ++
      ' ' :: (start.text ++ ' ' :: ("à".toList ++ ' ' :: (stop.text ++ ' ' :: "Faire".toList)))))) := by
  have letters : ∀ c ∈ counter, isWordChar c = true := fun c => identifier?_mem (isUserName_identifier named)
  cases counter with
  | nil => exact absurd (isUserName_identifier named) (by simp [identifier?])
  | cons c counter =>
    exact told_keyword (by decide) rfl (.spaced (.word letters) (.spaced (.keyword (by decide))
      (.spaced (.phrase (Phrase.isWhole_proper first)) (.spaced (.keyword (by decide))
        (orderly_condition second (by decide)))))) (letter_ne (letters c (.head _)))
      (last_spaced (by simp) (last_spaced (by simp) (last_spaced (by simp) (last_spaced (by simp)
        (last_spaced (by decide) (last_keyword (by decide)))))))

theorem ofLine_si (whole : condition.isWhole = true) :
    ∃ tested, Statement.ofLine standardLanguage (si condition).firstLine = .ifThen tested := by
  have told := told_si whole
  rw [told.ofLine_keyword _ told.arrow]
  exact ⟨_, told.ofLed_si (by decide)⟩

theorem afterTantQue?_firstLine : Statement.afterTantQue? (tantQue condition).firstLine =
    some (' ' :: (condition.text ++ ' ' :: "Faire".toList)) := by
  have spells : Spells Control.whileLoop.words ("Tant".toList ++ ([' '] ++ "que".toList)) :=
    .more (by decide) (by decide) (List.forall_mem_singleton.mpr (by decide)) (.one rfl)
  have ends : atWordEnd (' ' :: (condition.text ++ ' ' :: "Faire".toList)) = true := rfl
  have after := Control.after?_spells spells ends
  rwa [List.append_assoc, List.append_assoc] at after

theorem ofLine_tantQue (whole : condition.isWhole = true) :
    ∃ tested, Statement.ofLine standardLanguage (tantQue condition).firstLine = .whileLoop tested := by
  have told := told_tantQue whole
  rw [told.ofLine_keyword _ told.arrow]
  exact ⟨_, told.ofLed_tantQue (by decide) afterTantQue?_firstLine⟩

theorem ofLine_pour (named : isUserName counter = true) (first : start.isWhole = true)
    (second : stop.isWhole = true) :
    Statement.ofLine standardLanguage (pour counter start stop).firstLine = .counted := by
  have told := told_pour named first second
  have letters : ∀ c ∈ counter, isWordChar c = true := fun c => identifier?_mem (isUserName_identifier named)
  have some : counter ≠ [] := by
    rintro rfl
    exact absurd (isUserName_identifier named) (by simp [identifier?])
  have bounds : Statement.forEach? (pour counter start stop).firstLine = none := by
    obtain ⟨c, tail, shape, solid, -⟩ := Phrase.isWhole_head first []
    rw [List.append_nil] at shape
    exact Statement.forEach?_range some (fun c member => (isWordChar_plain (letters c member)).2)
      ⟨c, tail, shape, solid⟩
  rw [told.ofLine_keyword _ told.arrow]
  exact told.ofLed_pour (by decide) rfl bounds

end Opening

theorem told_write {values : Phrase} (proper : values.isProper = true) :
    Told ("écrire".toList ++ '(' :: (values.text ++ [')'])) "écrire".toList ('(' :: (values.text ++ [')'])) := by
  have grouped : (Phrase.group values .nil).isProper = true := by
    simp [Phrase.isProper, proper]
  have listed : Orderly ('(' :: (values.text ++ [')'])) := .phrase grouped
  have letters : Orderly "écrire".toList := .keyword (by decide)
  have word : ∀ c ∈ "écrire".toList, isWordChar c = true := List.all_eq_true.mp (by decide)
  have orderly : Orderly ("écrire".toList ++ '(' :: (values.text ++ [')'])) :=
    { unmarked := letters.unmarked.append listed.unmarked fun a last b _ =>
        Phrase.adjoins_letter (word a (List.mem_of_getLast? last)) b
      balanced := letters.balanced.append listed.balanced
      chars := List.forall_mem_append.mpr ⟨letters.chars, listed.chars⟩ }
  have follow : ∀ c ∈ (trimLeft ('(' :: (values.text ++ [')']))).head?, '(' = c := fun c head =>
    Option.some.inj head
  refine ⟨orderly, .of_solid rfl (by decide) (by decide) (fun c head => ?_) (fun c last => ?_)
    (fun c head => follow c head ▸ by decide) orderly.colon, fun c head => follow c head ▸ by decide⟩
  · exact Option.some.inj head ▸ by decide
  · rw [← List.cons_append, ← List.append_assoc, List.getLast?_concat] at last
    exact Option.some.inj last ▸ by decide

theorem ofLine_write {values : Phrase} (proper : values.isProper = true) :
    Statement.ofLine standardLanguage ("écrire".toList ++ '(' :: (values.text ++ [')'])) = .write := by
  have told := told_write proper
  rw [told.ofLine_keyword _ told.arrow]
  exact told.ofLed_write rfl rfl

section Assignment

variable {target : Text} {value : Phrase}

variable (named : isUserName target = true) (whole : value.isWhole = true)
include named whole

theorem led_assign :
    Led (target ++ ' ' :: '←' :: ' ' :: value.text) target (' ' :: '←' :: ' ' :: value.text) where
  split := rfl
  letters _ := identifier?_mem (isUserName_identifier named)
  stop c head := Option.some.inj head ▸ by decide
  name := isUserName_identifier named
  outer := (isUserName_differs named).mono (by decide)
  trimmed := by
    have some : value.text ≠ [] := by
      obtain ⟨c, tail, shape, -⟩ := Phrase.isWhole_head whole []
      rw [List.append_nil] at shape
      simp [shape]
    have last : ∀ c ∈ (target ++ ' ' :: (['←'] ++ ' ' :: value.text)).getLast?, isBlank c = false :=
      last_spaced (by simp) (last_spaced some (Phrase.isWhole_last whole))
    rw [trim, trimLeft_of_head (identifier?_head (isUserName_identifier named) _)]
    exact trimRight_of_last last
  follow c head := Option.some.inj head ▸ by decide
  undeclared language := by
    refine Statement.declaredNames?_none language ?_
    have sign : (isWordChar '←' || '←' = ',' || isBlank '←') = false := by
      rw [isWordChar_arrow]
      decide
    have blank : (isWordChar ' ' || ' ' = ',' || isBlank ' ') = true := by decide
    rw [List.dropWhile_append_of_pos fun c member => by
        simp [identifier?_mem (isUserName_identifier named) member],
      List.dropWhile_cons_of_pos (by exact blank),
      List.dropWhile_cons_of_neg (by rw [Bool.not_eq_true]; exact sign), List.head?_cons]
    decide

theorem ofLine_assign :
    Statement.ofLine standardLanguage (target ++ ' ' :: '←' :: ' ' :: value.text) = .assignment := by
  obtain ⟨word, tail, starts, other⟩ := Phrase.startsWith (Phrase.isWhole_proper whole)
  obtain ⟨c, rest, shape, solid, -⟩ := Phrase.isWhole_head whole []
  rw [List.append_nil] at shape
  have left : trimLeft (' ' :: value.text) = value.text :=
    trimLeft_space (shape ▸ fun d head => Option.some.inj head ▸ solid)
  exact (led_assign named whole).ofLine_assignment standardLanguage
    ((isUserName_differs named).mono (by decide)) rfl (by rw [left]; exact starts) other

theorem isSet_assign {margin : Text} (blank : ∀ c ∈ margin, c = ' ' ∨ c = '\t') :
    IsSet margin (target ++ ' ' :: '←' :: ' ' :: value.text) where
  margin := blank
  unmarked := by
    have arrow : Unmarked ['←'] := ⟨by simp, .singleton _⟩
    exact (Orderly.word fun c => identifier?_mem (isUserName_identifier named)).unmarked.spaced
      (arrow.spaced (Phrase.unmarked (Phrase.isWhole_proper whole)))
  first := identifier?_head (isUserName_identifier named) _
  trimmed := (led_assign named whole).trimmed

theorem balanced_assign : Balanced true (target ++ ' ' :: '←' :: ' ' :: value.text) :=
  (Orderly.word fun c => identifier?_mem (isUserName_identifier named)).balanced.append
    (.plain (by decide) (.plain (by decide) (.plain (by decide)
      (Phrase.balanced (Phrase.isWhole_proper whole)))))

end Assignment

section Function

variable {header : WrittenHeader}

theorem led_fonction (proper : (Opening.fonction header).Proper) :
    Led header.text "Fonction".toList
      (' ' :: (header.name ++ '(' :: (header.list ++ ')' :: header.ending))) := by
  obtain ⟨proper, unmarked, -, last⟩ := proper
  have letters : ∀ c ∈ header.name, isWordChar c = true := fun c => identifier?_mem proper.name
  have named : identifier? "Fonction".toList = some ("Fonction".toList, []) := by decide
  exact {
    split := header.text_eq
    letters := fun _ => identifier?_mem named
    stop := fun c head => Option.some.inj head ▸ by decide
    name := named
    outer := by decide
    trimmed := by
      rw [trim, trimLeft_of_head (header.text_eq ▸ identifier?_head named _), trimRight_of_last last]
    follow := fun c first => by
      rw [trimLeft_space (identifier?_head proper.name _)] at first
      have other := letter_ne (identifier?_letter proper.name _ c first)
      exact ⟨other.2.1, other.2.2.1⟩
    undeclared := fun language => by
      refine Statement.declaredNames?_none language ?_
      have opener : (isWordChar '(' || '(' = ',' || isBlank '(') = false := by decide
      have blank : (isWordChar ' ' || ' ' = ',' || isBlank ' ') = true := by decide
      rw [header.text_eq, List.dropWhile_append_of_pos fun c member => by simp [identifier?_mem named member],
        List.dropWhile_cons_of_pos (by exact blank),
        List.dropWhile_append_of_pos fun c member => by simp [letters c member],
        List.dropWhile_cons_of_neg (by rw [Bool.not_eq_true]; exact opener), List.head?_cons]
      decide }

theorem ofLine_fonction (proper : (Opening.fonction header).Proper) :
    Statement.ofLine standardLanguage header.text = .functionHeader := by
  have led := led_fonction proper
  rw [led.ofLine_keyword _ fun c first => ?_]
  · exact led.ofLed_fonction (by decide) rfl
  · rw [trimLeft_space (identifier?_head proper.1.name _)] at first
    exact (letter_ne (identifier?_letter proper.1.name _ c first)).2.2.2

theorem isSet_fonction (proper : (Opening.fonction header).Proper) {margin : Text}
    (blank : ∀ c ∈ margin, c = ' ' ∨ c = '\t') : IsSet margin header.text where
  margin := blank
  unmarked := proper.2.1
  first := header.text_eq ▸ identifier?_head (by decide) _
  trimmed := (led_fonction proper).trimmed

theorem parametersOf_fonction (proper : (Opening.fonction header).Proper) :
    Checker.parametersOf header.text = (Opening.fonction header).declared := by
  rw [Checker.parametersOf, proper.1.header?, Option.map_some, Option.getD_some]
  simp only [proper.1.parameters?, List.map_map]
  rfl

end Function

namespace Checker

/-- What a check finds at a word. -/
def unknown (checker : Checker) (line : Nat) (scopes : Scopes) : Nat × Text → Option Diagnostic
  | (column, name) =>
    if checker.knows scopes name then none
    else some { line, column, endColumn := column + name.length, finding := .undeclared name }

theorem checkWords_eq (checker : Checker) (line : Nat) (masked : Text) (start stop : Nat) (scopes : Scopes) :
    checker.checkWords line masked start stop scopes =
      scopes.report ((wordsBetween masked start stop).filterMap (checker.unknown line scopes)) :=
  rfl

/-- The words between two columns are those of the text between them. -/
theorem wordsBetween_split (first middle last : Text) :
    wordsBetween (first ++ (middle ++ last)) first.length (first.length + middle.length) =
      wordsFrom first.getLast? first.length middle := by
  have before : (if first.length = 0 then none else (first ++ (middle ++ last))[first.length - 1]?) =
      first.getLast? := by
    split
    · rename_i empty
      rw [List.length_eq_zero_iff.mp empty]
      rfl
    · rw [List.getElem?_append_left (by omega), List.getLast?_eq_getElem?]
  rw [wordsBetween]
  simp only [before]
  rw [← List.append_assoc, ← List.length_append, List.take_left, List.drop_left]

theorem wordsBetween_all (text : Text) : wordsBetween text 0 text.length = wordsFrom none 0 text := by
  have split := wordsBetween_split [] text []
  rwa [List.nil_append, List.append_nil, List.length_nil, Nat.zero_add] at split

theorem wordsBetween_end (first rest : Text) :
    wordsBetween (first ++ rest) first.length (first ++ rest).length =
      wordsFrom first.getLast? first.length rest := by
  have split := wordsBetween_split first rest []
  rwa [List.append_nil, ← List.length_append] at split

theorem quiet_builtin : Quiet fun word : Nat × Text => standardLanguage.builtin? word.2 where
  term _ _ term := (isTermWord_known term).2.1
  line _ word member := by
    have all : ∀ word ∈ lineWords, standardLanguage.builtin? word.toList = none := by decide
    exact all word member

theorem names_builtin {uses : List (Nat × Text)} (users : ∀ use ∈ uses, isUserName use.2 = true) :
    uses.filterMap (fun word : Nat × Text => standardLanguage.builtin? word.2) = [] :=
  List.filterMap_eq_nil_iff.mpr fun use member => isUserName_builtin (users use member)

section Lines

variable (functions : List Text) (line : Nat) {margin code : Text} {scopes : Scopes}

theorem quiet_unknown (scopes : Scopes) : Quiet (({ functions } : Checker).unknown line scopes) where
  term _ word term := by
    rw [unknown, knows, (isTermWord_known term).1]
    rfl
  line _ word member := by
    have all : ∀ word ∈ lineWords, standardLanguage.knownNames.contains (lower word.toList) = true := by
      decide
    rw [unknown, knows, all word member]
    rfl

theorem checkLine_begin (set : IsSet margin code) (body : scopes.inHeader = false)
    (read : Statement.ofLine standardLanguage code = .sectionMarker) :
    ({ functions } : Checker).checkLine line (margin ++ code) scopes =
      if scopes.pending then { scopes with pending := false } else scopes.push [] false := by
  simp only [checkLine, set.masked, set.trim_eq, body, read, Bool.false_eq_true, if_false]

theorem checkLine_close (set : IsSet margin code) (body : scopes.inHeader = false) {closed : Option BlockKeyword}
    (read : Statement.ofLine standardLanguage code = .blockClose closed) :
    ({ functions } : Checker).checkLine line (margin ++ code) scopes = scopes.pop := by
  simp only [checkLine, set.masked, set.trim_eq, body, read, Bool.false_eq_true, if_false]

theorem checkLine_header (set : IsSet margin code) (body : scopes.inHeader = false)
    (read : Statement.ofLine standardLanguage code = .functionHeader) :
    ({ functions } : Checker).checkLine line (margin ++ code) scopes = scopes.push (parametersOf code) true := by
  simp only [checkLine, set.masked, set.trim_eq, body, read, Bool.false_eq_true, if_false]

/-- Where brackets are balanced and no word is a built-in, calls are passed over. -/
theorem checkCalls_set (set : IsSet margin code) (balanced : Balanced true code)
    (plain : (wordsFrom none margin.length code).filterMap
      (fun word : Nat × Text => standardLanguage.builtin? word.2) = []) :
    ({ functions } : Checker).checkCalls line (margin ++ code) (margin ++ code) scopes = scopes := by
  refine checkCalls_quiet _ line _ ?_ ?_ scopes
  · exact .append (.of_plain fun c member => by rcases set.margin c member with rfl | rfl <;> decide) balanced
  · rw [wordsFrom_margin 0 set.blank rfl, Nat.zero_add]
    exact List.filterMap_eq_nil_iff.mp plain

/-- A line that only uses names, and perhaps opens a block. -/
theorem checkLine_uses (set : IsSet margin code) (body : scopes.inHeader = false)
    (balanced : Balanced true code) {statement : Statement}
    (read : Statement.ofLine standardLanguage code = statement)
    (kind : statement = .write ∨ (∃ tested, statement = .ifThen tested) ∨
      ∃ tested, statement = .whileLoop tested) {uses : List (Nat × Text)}
    (users : ∀ use ∈ uses, isUserName use.2 = true)
    (words : ∀ {α : Type} {found : Nat × Text → Option α}, Quiet found →
      (wordsFrom none margin.length code).filterMap found = uses.filterMap found)
    {entered : Scopes} (enters : entered = if opensBlock code then scopes.push [] false else scopes) :
    ({ functions } : Checker).checkLine line (margin ++ code) scopes =
      entered.report (uses.filterMap (({ functions } : Checker).unknown line entered)) := by
  have all {α : Type} {found : Nat × Text → Option α} (quiet : Quiet found) :
      (wordsFrom none 0 (margin ++ code)).filterMap found = uses.filterMap found := by
    rw [wordsFrom_margin 0 set.blank rfl, Nat.zero_add, words quiet]
  have quiet : ({ functions } : Checker).checkCalls line (margin ++ code) (margin ++ code) scopes = scopes :=
    checkCalls_set functions line set balanced ((words quiet_builtin).trans (names_builtin users))
  have found : (wordsBetween (margin ++ code) 0 (margin ++ code).length).filterMap
      (({ functions } : Checker).unknown line entered) =
      uses.filterMap (({ functions } : Checker).unknown line entered) := by
    rw [wordsBetween_all, all (quiet_unknown functions line entered)]
  rcases kind with rfl | ⟨tested, rfl⟩ | ⟨tested, rfl⟩ <;>
    simp only [checkLine, set.masked, set.trim_eq, body, read, quiet, Statement.kind, checkWords_eq, ← enters,
      found, Bool.false_eq_true, if_false] <;>
    rfl

theorem checkLine_write {values : Phrase} (proper : values.isProper = true)
    (blank : ∀ c ∈ margin, c = ' ' ∨ c = '\t') (body : scopes.inHeader = false) :
    ({ functions } : Checker).checkLine line (margin ++ ("écrire".toList ++ '(' :: (values.text ++ [')']))) scopes =
      scopes.report ((values.names (margin.length + 7)).filterMap
        (({ functions } : Checker).unknown line scopes)) := by
  have told := told_write proper
  have plain : opensBlock ("écrire".toList ++ '(' :: (values.text ++ [')'])) = false := by
    rw [opensBlock, told.dropWholeWord?_other (by decide) (by decide), Statement.afterTantQue?,
      told.dropTwoWords?_other (by decide) (by decide)]
    rfl
  exact checkLine_uses functions line (told.isSet blank) body told.balanced (ofLine_write proper) (.inl rfl)
    (Phrase.names_user proper _) (fun quiet => quiet.written proper _) (by rw [plain]; rfl)

theorem checkLine_si {condition : Phrase} (whole : condition.isWhole = true)
    (blank : ∀ c ∈ margin, c = ' ' ∨ c = '\t') (body : scopes.inHeader = false) :
    ({ functions } : Checker).checkLine line (margin ++ (Opening.si condition).firstLine) scopes =
      (scopes.push [] false).report (((Opening.si condition).uses margin.length).filterMap
        (({ functions } : Checker).unknown line (scopes.push [] false))) := by
  have told := Opening.told_si whole
  have opens : opensBlock (Opening.si condition).firstLine = true := by
    rw [opensBlock, told.dropWholeWord?_same (by decide)]
    rfl
  exact checkLine_uses functions line (told.isSet blank) body told.balanced rfl
    (.inr (.inl (Opening.ofLine_si whole)))
    (Opening.uses_user (.si condition) whole _) (fun quiet => Opening.si_words quiet whole _) (by rw [opens]; rfl)

theorem checkLine_tantQue {condition : Phrase} (whole : condition.isWhole = true)
    (blank : ∀ c ∈ margin, c = ' ' ∨ c = '\t') (body : scopes.inHeader = false) :
    ({ functions } : Checker).checkLine line (margin ++ (Opening.tantQue condition).firstLine) scopes =
      (scopes.push [] false).report (((Opening.tantQue condition).uses margin.length).filterMap
        (({ functions } : Checker).unknown line (scopes.push [] false))) := by
  have told := Opening.told_tantQue whole
  have opens : opensBlock (Opening.tantQue condition).firstLine = true := by
    rw [opensBlock, Opening.afterTantQue?_firstLine, Option.isSome_some, Bool.or_true]
  exact checkLine_uses functions line (told.isSet blank) body told.balanced rfl
    (.inr (.inr (Opening.ofLine_tantQue whole))) (Opening.uses_user (.tantQue condition) whole _)
    (fun quiet => Opening.tantQue_words quiet whole _) (by rw [opens]; rfl)

theorem checkLine_pour {counter : Text} {start stop : Phrase} (named : isUserName counter = true)
    (first : start.isWhole = true) (second : stop.isWhole = true)
    (blank : ∀ c ∈ margin, c = ' ' ∨ c = '\t') (body : scopes.inHeader = false) :
    ({ functions } : Checker).checkLine line (margin ++ (Opening.pour counter start stop).firstLine) scopes =
      (scopes.push [counter] false).report (((Opening.pour counter start stop).uses margin.length).filterMap
        (({ functions } : Checker).unknown line (scopes.push [counter] false))) := by
  have told := Opening.told_pour named first second
  have set := told.isSet blank
  obtain ⟨rest, bounds⟩ : ∃ rest, rest = ' ' :: ("de".toList ++ ' ' :: (start.text ++
      ' ' :: ("à".toList ++ ' ' :: (stop.text ++ ' ' :: "Faire".toList)))) := ⟨_, rfl⟩
  have shape : (Opening.pour counter start stop).firstLine = "Pour".toList ++ ' ' :: (counter ++ rest) := by
    rw [bounds]
    rfl
  have words {α : Type} {found : Nat × Text → Option α} (quiet : Quiet found) (before : Option Char) :
      (wordsFrom before (margin.length + 5 + counter.length) rest).filterMap found =
        ((Opening.pour counter start stop).uses margin.length).filterMap found := by
    rw [bounds]
    exact Opening.pour_words quiet first second before counter margin.length
  have identified := isUserName_identifier named
  have ends : atWordEnd rest = true := by rw [bounds]; rfl
  have calls : ({ functions } : Checker).checkCalls line (margin ++ (Opening.pour counter start stop).firstLine)
      (margin ++ (Opening.pour counter start stop).firstLine) scopes = scopes := by
    refine checkCalls_set functions line set told.balanced ?_
    rw [shape, quiet_builtin.keyword _ (by decide) rfl rfl, wordsFrom_space,
      wordsFrom_name _ identified rfl ends, List.filterMap_cons, isUserName_builtin named]
    exact (words quiet_builtin none).trans
      (names_builtin (Opening.uses_user (.pour counter start stop) ⟨named, first, second⟩ _))
  have loop : loopVariable? (Opening.pour counter start stop).firstLine = some (counter, rest) := by
    have gap : dropBlanks? (' ' :: (counter ++ rest)) = some (counter ++ rest) :=
      dropBlanks?_append (List.cons_ne_nil ' ' []) (List.forall_mem_singleton.mpr (by decide))
        (identifier?_head identified rest)
    rw [loopVariable?, shape, dropWord?_append (by decide), Option.bind_some, gap, Option.bind_some,
      identifier?_append identified ends]
  have parted : margin ++ (Opening.pour counter start stop).firstLine =
      (margin ++ ("Pour".toList ++ ' ' :: counter)) ++ rest := by
    rw [shape]
    simp only [List.append_assoc, List.cons_append]
  have place : margin.length + ((Opening.pour counter start stop).firstLine.length - rest.length) =
      (margin ++ ("Pour".toList ++ ' ' :: counter)).length := by
    rw [shape]
    simp only [List.length_append, List.length_cons]
    omega
  have reached : (margin ++ ("Pour".toList ++ ' ' :: counter)).length = margin.length + 5 + counter.length := by
    rw [List.length_append, List.length_append, List.length_cons, show "Pour".toList.length = 4 from rfl]
    omega
  simp only [checkLine, set.masked, set.trim_eq, set.indentation_eq, body, Opening.ofLine_pour named first second,
    calls, loop, checkWords_eq, Bool.false_eq_true, if_false]
  rw [place, parted, wordsBetween_end, reached, words (quiet_unknown functions line _)]

theorem checkLine_assign {target : Text} {value : Phrase} (named : isUserName target = true)
    (whole : value.isWhole = true) (blank : ∀ c ∈ margin, c = ' ' ∨ c = '\t') (body : scopes.inHeader = false) :
    ({ functions } : Checker).checkLine line (margin ++ (target ++ ' ' :: '←' :: ' ' :: value.text)) scopes =
      (scopes.report ((value.names (margin.length + target.length + 3)).filterMap
        (({ functions } : Checker).unknown line scopes))).declare [target] := by
  have set := isSet_assign named whole blank
  have led := led_assign named whole
  have identified := isUserName_identifier named
  have proper := Phrase.isWhole_proper whole
  have letters : ∀ c ∈ target, isWordChar c = true := fun c => identifier?_mem identified
  have words {α : Type} {found : Nat × Text → Option α} (quiet : Quiet found) (before : Option Char) (place : Nat) :
      (wordsFrom before place (' ' :: value.text)).filterMap found = (value.names (place + 1)).filterMap found := by
    have phrase : (wordsFrom none (place + 1) (value.text ++ [])).filterMap found = _ := quiet.phrase _ proper rfl
    rw [append_nil, wordsFrom, filterMap_nil, append_nil] at phrase
    rw [wordsFrom_space, phrase]
  have calls : ({ functions } : Checker).checkCalls line (margin ++ (target ++ ' ' :: '←' :: ' ' :: value.text))
      (margin ++ (target ++ ' ' :: '←' :: ' ' :: value.text)) scopes = scopes := by
    refine checkCalls_set functions line set (balanced_assign named whole) ?_
    rw [wordsFrom_name _ identified rfl rfl, filterMap_cons, isUserName_builtin named, wordsFrom_space,
      wordsFrom_skip _ (by rw [startsIdentifier, isWordChar_arrow]; rfl)]
    exact (words quiet_builtin _ _).trans (names_builtin (Phrase.names_user proper _))
  have plain : opensBlock (target ++ ' ' :: '←' :: ' ' :: value.text) = false := by
    have free := isUserName_differs named
    rw [opensBlock, led.dropWholeWord?_other (by decide) (free _ (by decide)), Statement.afterTantQue?,
      led.dropTwoWords?_other (by decide) (free _ (by decide))]
    rfl
  -- The line up to the arrow, and from it on.
  have parted : margin ++ (target ++ ' ' :: '←' :: ' ' :: value.text) =
      (margin ++ (target ++ [' '])) ++ '←' :: ' ' :: value.text := by
    simp only [append_assoc, cons_append, nil_append]
  have length : (margin ++ (target ++ [' '])).length = margin.length + target.length + 1 := by
    rw [length_append, length_append, length_singleton, Nat.add_assoc]
  have arrow : (margin ++ (target ++ ' ' :: '←' :: ' ' :: value.text)).idxOf '←' =
      margin.length + target.length + 1 := by
    have absent : '←' ∉ margin ++ (target ++ [' ']) := by
      intro member
      rcases mem_append.mp member with inside | inside
      · rcases set.margin _ inside with same | same <;> exact absurd same (by decide)
      · rcases mem_append.mp inside with inside | inside
        · exact absurd (letters _ inside) (by rw [isWordChar_arrow]; decide)
        · exact absurd (mem_singleton.mp inside) (by decide)
    rw [parted, idxOf_append_of_notMem absent, idxOf_cons_self, Nat.add_zero, length]
  have inside : margin.length + target.length + 1 <
      (margin ++ (target ++ ' ' :: '←' :: ' ' :: value.text)).length := by
    rw [parted, length_append, length, length_cons]
    omega
  have right : (wordsBetween (margin ++ (target ++ ' ' :: '←' :: ' ' :: value.text))
      (margin.length + target.length + 1 + 1)
      (margin ++ (target ++ ' ' :: '←' :: ' ' :: value.text)).length).filterMap
        (({ functions } : Checker).unknown line scopes) =
      (value.names (margin.length + target.length + 3)).filterMap
        (({ functions } : Checker).unknown line scopes) := by
    have atEnd := wordsBetween_end ((margin ++ (target ++ [' '])) ++ ['←']) (' ' :: value.text)
    rw [append_assoc _ ['←'], singleton_append, ← parted, length_append, length,
      length_singleton] at atEnd
    rw [atEnd, words (quiet_unknown functions line scopes)]
  have left : wordsBetween (margin ++ (target ++ ' ' :: '←' :: ' ' :: value.text)) 0
      (margin.length + target.length + 1) = [(margin.length, target)] := by
    have split := wordsBetween_split [] (margin ++ (target ++ [' '])) ('←' :: ' ' :: value.text)
    rw [nil_append, ← parted, length_nil, Nat.zero_add, length] at split
    rw [split, getLast?_nil, wordsFrom_margin 0 set.blank rfl, Nat.zero_add,
      wordsFrom_name _ identified rfl rfl, wordsFrom_space, wordsFrom]
  have between : wordsBetween (margin ++ (target ++ ' ' :: '←' :: ' ' :: value.text))
      (margin.length + target.length) (margin.length + target.length + 1) = [] := by
    have split := wordsBetween_split (margin ++ target) [' '] ('←' :: ' ' :: value.text)
    rw [append_assoc, singleton_append, length_append, length_singleton] at split
    rw [split, wordsFrom_space, wordsFrom]
  simp only [checkLine, set.masked, set.trim_eq, body, ofLine_assign named whole, calls, plain, Statement.kind,
    Bool.false_eq_true, if_false, arrow, inside, checkAssignment, checkWords_eq, right, left, between,
    head?_cons, filterMap_nil, decide_true, Bool.true_or, Bool.true_and, if_true]
  rw [Scopes.report, append_nil]

end Lines

end Checker

end Pseudocode
