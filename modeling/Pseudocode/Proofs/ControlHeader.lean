import Pseudocode.Program.Assembly
import Pseudocode.Proofs.Respelling
import Pseudocode.Proofs.Statement

namespace Pseudocode

open List

/-- The lines that test a condition. -/
inductive Control where
  | whileLoop
  | elseIf
  | ifThen
  deriving DecidableEq, Repr

namespace Control

/-- The words that introduce the condition. -/
def words : Control → List String
  | whileLoop => ["tant", "que"]
  | elseIf => ["sinon", "si"]
  | ifThen => ["si"]

/-- The word that may follow the condition. -/
def closing : Control → String
  | whileLoop => "faire"
  | elseIf | ifThen => "alors"

def statement : Control → Text → Statement
  | whileLoop => .whileLoop
  | elseIf => .elseIf
  | ifThen => .ifThen

/-- What stands before the condition in the emitted line. -/
def opening : Control → Text
  | whileLoop => "while ".toList
  | elseIf => "elseif ".toList
  | ifThen => "if ".toList

/-- What stands after the condition in the emitted line. -/
def ending : Control → Text
  | whileLoop => " do".toList
  | elseIf | ifThen => " then".toList

/-- The blocks that are open after the line. -/
def frames (frames : List Frame) : Control → List Frame
  | whileLoop => .control .tantQue :: frames
  | elseIf => frames
  | ifThen => .control .si :: frames

/-- The text after the introducing words, if a line starts with them. -/
def after? : Control → Text → Option Text
  | whileLoop => Statement.afterTantQue?
  | elseIf => Statement.afterSinonSi?
  | ifThen => dropWholeWord? "si"

end Control

/-- A text consists of these words in any letter case, with blanks between them. -/
inductive Spells : List String → Text → Prop
  | one {word : String} {text : Text} :
      text.map caseKey = word.toList.map caseKey → Spells [word] text
  | more {word next : String} {words : List String} {text gap rest : Text} :
      text.map caseKey = word.toList.map caseKey → gap ≠ [] → (∀ c ∈ gap, isBlank c = true) →
        Spells (next :: words) rest → Spells (word :: next :: words) (text ++ (gap ++ rest))

/-- The parts of a line that tests a condition. -/
structure Header where
  keyword : Text
  gap : Text
  condition : Text
  pause : Text
  closer : Text
  tail : Text
  deriving DecidableEq, Repr

namespace Header

/-- The line from the condition on. -/
def body (header : Header) : Text :=
  header.condition ++ (header.pause ++ (header.closer ++ header.tail))

def text (header : Header) : Text :=
  header.keyword ++ (header.gap ++ header.body)

/-- The condition stands between the introducing words, with all the blanks after them, and the
closing word, a colon and the blanks around those. Neither the closing word nor a colon is left at
its end. -/
structure Divides (header : Header) (control : Control) (line : Text) : Prop where
  text : line = header.text
  keyword : Spells control.words header.keyword
  whole : atWordEnd (header.gap ++ header.body) = true
  gap : ∀ c ∈ header.gap, isBlank c = true
  first : ∀ c ∈ header.body.head?, isBlank c = false
  last : ∀ c ∈ header.condition.getLast?, isBlank c = false
  pause : ∀ c ∈ header.pause, isBlank c = true
  closer : header.closer ≠ [] →
    header.closer.map caseKey = control.closing.toList.map caseKey ∧
      atWordStart (header.condition ++ header.pause).getLast? = true
  tail : header.tail.filter (!isBlank ·) = [] ∨ header.tail.filter (!isBlank ·) = [':']
  unclosed : header.closer = [] → ∀ before word, header.condition = before ++ word →
    word.map caseKey = control.closing.toList.map caseKey → atWordStart before.getLast? = false
  bare : header.closer = [] → header.tail.filter (!isBlank ·) = [] →
    header.condition.getLast? ≠ some ':'

end Header

section Blanks

variable {text blanks : Text}

theorem trimLeft_head (text : Text) : ∀ c ∈ (trimLeft text).head?, isBlank c = false := by
  intro c first
  have here := head?_dropWhile_not isBlank text
  rw [← trimLeft, Option.mem_def.mp first] at here
  simpa using here

theorem trimRight_append_blanks (blank : ∀ c ∈ blanks, isBlank c = true) :
    trimRight (text ++ blanks) = trimRight text := by
  rw [trimRight, dropEndWhile, reverse_append, dropWhile_append_of_pos]
  · rfl
  · intro c member
    exact blank c (mem_reverse.mp member)

theorem trimRight_of_last (solid : ∀ c ∈ text.getLast?, isBlank c = false) :
    trimRight text = text := by
  cases last : text.getLast? with
  | none => simp [getLast?_eq_none_iff.mp last, trimRight, dropEndWhile]
  | some c =>
    obtain ⟨before, rfl⟩ := getLast?_eq_some_iff.mp last
    simp [trimRight, dropEndWhile, solid c last]

theorem trimRight_split (text : Text) :
    ∃ blanks, text = trimRight text ++ blanks ∧ (∀ c ∈ blanks, isBlank c = true) ∧
      ∀ c ∈ (trimRight text).getLast?, isBlank c = false := by
  refine ⟨takeEndWhile isBlank text, ?_, ?_, ?_⟩
  · rw [trimRight, dropEndWhile, takeEndWhile, ← reverse_append, takeWhile_append_dropWhile,
      reverse_reverse]
  · intro c member
    exact mem_takeWhile_imp (mem_reverse.mp member)
  · intro c last
    rw [trimRight, dropEndWhile, getLast?_reverse] at last
    exact trimLeft_head text.reverse c last

theorem dropBlanks?_append (nonempty : blanks ≠ []) (blank : ∀ c ∈ blanks, isBlank c = true)
    (solid : ∀ c ∈ text.head?, isBlank c = false) : dropBlanks? (blanks ++ text) = some text := by
  cases blanks with
  | nil => exact absurd rfl nonempty
  | cons c blanks =>
    have left : trimLeft text = text := by
      cases text with
      | nil => rfl
      | cons d text => exact dropWhile_cons_of_neg (by simp [solid d rfl])
    rw [cons_append, dropBlanks?, if_pos (blank c (.head _)), trimLeft,
      dropWhile_append_of_pos fun d member => blank d (.tail _ member)]
    exact congrArg some left

theorem dropBlanks?_solid (solid : ∀ c ∈ text.head?, isBlank c = false) : dropBlanks? text = none := by
  cases text with
  | nil => rfl
  | cons c text => rw [dropBlanks?, if_neg (by simp [solid c rfl])]

theorem dropBlanks?_eq_some {rest : Text} (found : dropBlanks? text = some rest) :
    ∃ gap, gap ≠ [] ∧ (∀ c ∈ gap, isBlank c = true) ∧ text = gap ++ rest := by
  cases text with
  | nil => simp [dropBlanks?] at found
  | cons c text =>
    rw [dropBlanks?, Option.ite_none_right_eq_some, Option.some.injEq] at found
    obtain ⟨blank, rfl⟩ := found
    refine ⟨c :: text.takeWhile isBlank, by simp, ?_, ?_⟩
    · intro d member
      rcases mem_cons.mp member with rfl | member
      · exact blank
      · exact mem_takeWhile_imp member
    · rw [cons_append, trimLeft, takeWhile_append_dropWhile]

theorem filter_solid_eq_nil : text.filter (!isBlank ·) = [] ↔ ∀ c ∈ text, isBlank c = true := by
  simp [filter_eq_nil_iff]

/-- A text whose only solid character is a colon has blanks on either side of it. -/
theorem filter_solid_eq_colon (one : text.filter (!isBlank ·) = [':']) :
    ∃ before after, text = before ++ ':' :: after ∧ (∀ c ∈ before, isBlank c = true) ∧
      ∀ c ∈ after, isBlank c = true := by
  obtain ⟨before, rest, rfl, blank, -, after⟩ := filter_eq_cons_iff.mp one
  refine ⟨before, rest, rfl, ?_, filter_solid_eq_nil.mp after⟩
  intro c member
  simpa using blank c member

end Blanks

/-- What is the same as a word in another case has no blanks. -/
theorem solid_of_caseKey {taken : Text} {word : String} (letters : word.toList.all isWordChar = true)
    (same : taken.map caseKey = word.toList.map caseKey) : ∀ c ∈ taken, isBlank c = false := by
  intro c member
  by_contra blank
  rw [Bool.not_eq_false] at blank
  have broken := unbroken_of_caseKey (all_eq_true.mp letters) same c member
  simp [isBreak, isBlank_not_wordChar blank, isBlank_uncased blank] at broken

theorem cons_of_caseKey {taken : Text} {word : String}
    (known : word.toList.all isWordChar = true ∧ word.toList ≠ [])
    (same : taken.map caseKey = word.toList.map caseKey) :
    ∃ c rest, taken = c :: rest ∧ isBlank c = false := by
  cases taken with
  | nil => exact absurd (map_eq_nil_iff.mp same.symm) known.2
  | cons c rest => exact ⟨c, rest, rfl, solid_of_caseKey known.1 same c (.head _)⟩

namespace Control

variable {control : Control} {line keyword rest : Text}

theorem closing_known (control : Control) :
    control.closing.toList.all isWordChar = true ∧ control.closing.toList ≠ [] := by
  cases control <;> decide

theorem words_nonempty (spells : Spells control.words keyword) : keyword ≠ [] := by
  rintro rfl
  cases control with
  | ifThen =>
    cases spells with
    | one same => simp at same
  | _ =>
    generalize shape : ([] : Text) = text at spells
    cases spells with
    | more same some _ _ => simp [some] at shape

theorem dropTwoWords?_append {first second : String}
    (known : second.toList.all isWordChar = true ∧ second.toList ≠ [])
    (spells : Spells [first, second] keyword) :
    dropTwoWords? first second (keyword ++ rest) = some rest := by
  cases spells with
  | more same some blank spells =>
    cases spells with
    | one last =>
      obtain ⟨c, later, rfl, solid⟩ := cons_of_caseKey known last
      rw [dropTwoWords?, append_assoc, append_assoc, dropWord?_append same,
        Option.bind_eq_bind, Option.bind_some, dropBlanks?_append some blank (by simpa using solid),
        Option.bind_some, dropWord?_append last]

theorem spells_of_dropTwoWords? {first second : String}
    (found : dropTwoWords? first second line = some rest) :
    ∃ keyword, line = keyword ++ rest ∧ Spells [first, second] keyword := by
  obtain ⟨afterFirst, word, found⟩ := Option.bind_eq_some_iff.mp found
  obtain ⟨afterBlanks, blanks, found⟩ := Option.bind_eq_some_iff.mp found
  obtain ⟨split, same⟩ := dropWord?_eq_some word
  obtain ⟨gap, nonempty, blank, gapped⟩ := dropBlanks?_eq_some blanks
  obtain ⟨next, last⟩ := dropWord?_eq_some found
  refine ⟨_, ?_, .more same nonempty blank (.one last)⟩
  rw [append_assoc, append_assoc, ← next, ← gapped]
  exact split

/-- The text after the introducing words is what they leave, provided they end there. -/
theorem after?_spells (spells : Spells control.words keyword) (whole : atWordEnd rest = true) :
    control.after? (keyword ++ rest) = some rest := by
  cases control with
  | whileLoop =>
    rw [after?, Statement.afterTantQue?, dropTwoWords?_append (by decide) spells,
      Option.filter_some, if_pos whole]
  | elseIf =>
    rw [after?, Statement.afterSinonSi?, dropTwoWords?_append (by decide) spells,
      Option.filter_some, if_pos whole]
  | ifThen =>
    cases spells with
    | one same => rw [after?, dropWholeWord?, dropWord?_append same, Option.filter_some, if_pos whole]

theorem spells_of_after? (found : control.after? line = some rest) :
    ∃ keyword, line = keyword ++ rest ∧ Spells control.words keyword ∧ atWordEnd rest = true := by
  cases control with
  | whileLoop =>
    obtain ⟨found, whole⟩ := Option.filter_eq_some_iff.mp found
    obtain ⟨keyword, split, spells⟩ := spells_of_dropTwoWords? found
    exact ⟨keyword, split, spells, whole⟩
  | elseIf =>
    obtain ⟨found, whole⟩ := Option.filter_eq_some_iff.mp found
    obtain ⟨keyword, split, spells⟩ := spells_of_dropTwoWords? found
    exact ⟨keyword, split, spells, whole⟩
  | ifThen =>
    obtain ⟨found, whole⟩ := Option.filter_eq_some_iff.mp found
    obtain ⟨split, same⟩ := dropWord?_eq_some found
    exact ⟨_, split, .one same, whole⟩

/-- A line is read as a test of a condition only by its introducing words. -/
theorem condition_of_ofLine {language : Language} {condition : Text}
    (read : Statement.ofLine language line = control.statement condition) :
    ∃ rest, control.after? line = some rest ∧
      condition = Statement.condition control.closing line rest := by
  have fits := Statement.ofLine_fits language line
  rw [read] at fits
  generalize shape : control.statement condition = statement at fits
  cases fits with
  | arrayDeclaration found =>
    obtain ⟨_, _, _, _, rfl, -⟩ := Statement.array?_eq_some found
    cases control <;> cases shape
  | read found =>
    obtain ⟨_, rfl, -⟩ := Statement.read?_eq_some found
    cases control <;> cases shape
  | forEach found =>
    obtain ⟨_, _, _, rfl, -⟩ := Statement.forEach?_eq_some found
    cases control <;> cases shape
  | whileLoop found =>
    cases control <;> cases shape
    exact ⟨_, found, rfl⟩
  | elseIf found =>
    cases control <;> cases shape
    exact ⟨_, found, rfl⟩
  | ifThen found =>
    cases control <;> cases shape
    exact ⟨_, found, rfl⟩
  | _ => cases control <;> cases shape

end Control

section Cutting

variable {word : String} {text before taken : Text}

theorem beforeWord?_append (same : taken.map caseKey = word.toList.map caseKey) (before : Text) :
    Statement.beforeWord? word (before ++ taken) = some before := by
  have length : (before ++ taken).length - word.length = before.length := by
    have letters := congrArg List.length same
    simp only [length_map, String.length_toList] at letters
    simp [letters]
  have rest : dropWord? word.toList taken = some [] := by simpa using dropWord?_append same []
  rw [Statement.beforeWord?]
  simp only [length, drop_left, take_left, rest]

theorem beforeWord?_eq_some (found : Statement.beforeWord? word text = some before) :
    ∃ taken, text = before ++ taken ∧ taken.map caseKey = word.toList.map caseKey := by
  unfold Statement.beforeWord? at found
  simp only at found
  split at found
  · rename_i cut
    obtain ⟨split, same⟩ := dropWord?_eq_some cut
    rw [append_nil] at split
    obtain rfl := Option.some.inj found
    exact ⟨_, (take_append_drop _ _).symm, split ▸ same⟩
  · simp at found

theorem dropColon_concat (before : Text) : Statement.dropColon (before ++ [':']) = before := by
  simp [Statement.dropColon]

theorem dropColon_of_last (solid : text.getLast? ≠ some ':') : Statement.dropColon text = text := by
  unfold Statement.dropColon
  split
  · exact absurd ‹_› solid
  · rfl

/-- A closing colon and the blanks around it are cut off. -/
theorem cut_colon {rim : Text} (solid : ∀ c ∈ text.getLast?, isBlank c = false)
    (tail : (rim.filter (!isBlank ·) = [] ∧ text.getLast? ≠ some ':') ∨
      rim.filter (!isBlank ·) = [':']) :
    trimRight (Statement.dropColon (trimRight (text ++ rim))) = text := by
  rcases tail with ⟨blank, colon⟩ | one
  · rw [trimRight_append_blanks (filter_solid_eq_nil.mp blank), trimRight_of_last solid,
      dropColon_of_last colon, trimRight_of_last solid]
  · obtain ⟨before, after, rfl, blank, blanks⟩ := filter_solid_eq_colon one
    have cut : trimRight (text ++ (before ++ ':' :: after)) = text ++ before ++ [':'] := by
      rw [← append_assoc, ← singleton_append, ← append_assoc,
        trimRight_append_blanks blanks, trimRight_of_last (by simp; decide)]
    rw [cut, dropColon_concat, trimRight_append_blanks blank, trimRight_of_last solid]

end Cutting

namespace Header

variable {control : Control} {line rest : Text}

/-- What is left of a header between its introducing words and the blanks after them on the one
side and a colon at its end on the other. -/
theorem exists_tail (text : Text) :
    ∃ core rim, text = core ++ rim ∧ (∀ c ∈ core.getLast?, isBlank c = false) ∧
      ((rim.filter (!isBlank ·) = [] ∧ core.getLast? ≠ some ':') ∨
        rim.filter (!isBlank ·) = [':']) := by
  obtain ⟨blanks, split, blank, solid⟩ := trimRight_split text
  have none : blanks.filter (!isBlank ·) = [] := filter_solid_eq_nil.mpr blank
  by_cases colon : (trimRight text).getLast? = some ':'
  · obtain ⟨before, whole⟩ := getLast?_eq_some_iff.mp colon
    obtain ⟨more, shorter, gap, last⟩ := trimRight_split before
    refine ⟨trimRight before, more ++ ':' :: blanks, ?_, last, .inr ?_⟩
    · rw [← append_assoc, ← shorter, ← singleton_append, ← append_assoc, ← whole]
      exact split
    · rw [filter_append, filter_solid_eq_nil.mpr gap, nil_append,
        filter_cons_of_pos (by decide), none]
  · exact ⟨trimRight text, blanks, split, solid, .inl ⟨none, colon⟩⟩

/-- Every line that starts with the words of a control divides into the parts of a header. -/
theorem exists_divides (found : control.after? line = some rest) :
    ∃ header : Header, header.Divides control line := by
  obtain ⟨keyword, split, spells, whole⟩ := Control.spells_of_after? found
  have gapped : rest = indentation rest ++ trimLeft rest := takeWhile_append_dropWhile.symm
  have gap : ∀ c ∈ indentation rest, isBlank c = true := fun _ => mem_takeWhile_imp
  obtain ⟨core, rim, parts, solid, tail⟩ := exists_tail (trimLeft rest)
  have first : ∀ c ∈ (core ++ rim).head?, isBlank c = false := parts ▸ trimLeft_head rest
  rw [parts] at gapped
  by_cases closed : ∃ before word, core = before ++ word ∧
      word.map caseKey = control.closing.toList.map caseKey ∧ atWordStart before.getLast? = true
  · obtain ⟨before, word, rfl, same, apart⟩ := closed
    obtain ⟨pause, shorter, blank, last⟩ := trimRight_split before
    obtain ⟨c, more, rfl, -⟩ := cons_of_caseKey control.closing_known same
    have body : trimRight before ++ (pause ++ (c :: more ++ rim)) = before ++ c :: more ++ rim := by
      rw [← append_assoc, ← shorter, append_assoc]
    refine ⟨⟨keyword, indentation rest, trimRight before, pause, c :: more, rim⟩, ?_, spells, ?_, gap,
      ?_, last, blank, ?_, tail.imp And.left id, ?_, ?_⟩
    · rw [text, Header.body, body, ← gapped]
      exact split
    · rw [Header.body, body, ← gapped]
      exact whole
    · rw [Header.body, body]
      exact first
    · exact fun _ => ⟨same, shorter ▸ apart⟩
    · exact fun none => absurd none (by simp)
    · exact fun none => absurd none (by simp)
  · refine ⟨⟨keyword, indentation rest, core, [], [], rim⟩, ?_, spells, ?_, gap, first, solid, ?_, ?_,
      tail.imp And.left id, ?_, ?_⟩
    · rw [text, Header.body, nil_append, nil_append, ← gapped]
      exact split
    · rw [Header.body, nil_append, nil_append, ← gapped]
      exact whole
    · simp
    · exact fun some => absurd rfl some
    · intro _ before word shape same
      by_contra apart
      exact closed ⟨before, word, shape, same, by simpa using apart⟩
    · intro _ none
      rcases tail with ⟨-, colon⟩ | one
      · exact colon
      · simp [one] at none

namespace Divides

variable {header : Header}

variable (divides : header.Divides control line)
include divides

theorem after? : control.after? line = some (header.gap ++ header.body) := by
  rw [divides.text]
  exact Control.after?_spells divides.keyword divides.whole

/-- With nothing to set the introducing words apart, the line is taken whole. -/
theorem condition_whole (joined : header.gap = []) :
    Statement.condition control.closing line (header.gap ++ header.body) = line := by
  rw [joined, nil_append, Statement.condition, dropBlanks?_solid divides.first]

theorem condition_unclosed (apart : header.gap ≠ []) (unclosed : header.closer = []) :
    Statement.condition control.closing line (header.gap ++ header.body) = header.condition := by
  have body : header.body = header.condition ++ (header.pause ++ header.tail) := by
    rw [Header.body, unclosed, nil_append]
  have cut : trimRight (Statement.dropColon (trimRight header.body)) = header.condition := by
    rw [body]
    refine cut_colon divides.last ?_
    rw [filter_append, filter_solid_eq_nil.mpr divides.pause, nil_append]
    exact divides.tail.imp (fun none => ⟨none, divides.bare unclosed none⟩) id
  have last : Statement.dropLastWord? control.closing header.condition = none := by
    rw [Statement.dropLastWord?, Option.bind_eq_bind, Option.bind_eq_none_iff]
    intro before found
    obtain ⟨word, shape, same⟩ := beforeWord?_eq_some found
    have joined := divides.unclosed unclosed before word shape same
    rw [if_neg]
    intro blank
    obtain ⟨c, last, blank⟩ := (Option.any_eq_true _ _).mp blank
    simp [atWordStart, last, isBlank_not_wordChar blank] at joined
  rw [Statement.condition, dropBlanks?_append apart divides.gap divides.first]
  simp only [cut, last, Option.getD_none]

theorem condition_closed (apart : header.gap ≠ []) (closed : header.closer ≠ []) :
    Statement.condition control.closing line (header.gap ++ header.body) =
      header.condition ++ if header.pause = [] then header.closer else [] := by
  obtain ⟨same, -⟩ := divides.closer closed
  have body : header.body = (header.condition ++ header.pause ++ header.closer) ++ header.tail := by
    simp [Header.body]
  have letters (c : Char) (last : c ∈ (header.condition ++ header.pause ++ header.closer).getLast?) :
      c ∈ header.closer := by
    rw [getLast?_append_of_ne_nil _ closed] at last
    exact mem_of_getLast? last
  have cut : trimRight (Statement.dropColon (trimRight header.body)) =
      header.condition ++ header.pause ++ header.closer := by
    rw [body]
    refine cut_colon ?_ (divides.tail.imp (fun none => ⟨none, ?_⟩) id)
    · intro c last
      exact solid_of_caseKey control.closing_known.1 same c (letters c last)
    · intro colon
      have broken := unbroken_of_caseKey (all_eq_true.mp control.closing_known.1) same ':'
        (letters ':' colon)
      exact absurd broken (by decide)
  rw [Statement.condition, dropBlanks?_append apart divides.gap divides.first]
  simp only [cut]
  rw [Statement.dropLastWord?, Option.bind_eq_bind, beforeWord?_append same, Option.bind_some]
  by_cases pause : header.pause = []
  · rw [pause, append_nil, if_neg, if_pos rfl, Option.getD_none]
    intro blank
    obtain ⟨c, last, blank⟩ := (Option.any_eq_true _ _).mp blank
    simp [divides.last c last] at blank
  · have last : ((header.condition ++ header.pause).getLast?.any isBlank) = true := by
      rw [getLast?_append_of_ne_nil _ pause, getLast?_eq_some_getLast pause, Option.any_some]
      exact divides.pause _ (getLast_mem pause)
    rw [if_pos last, if_neg pause, Option.getD_some, append_nil,
      trimRight_append_blanks divides.pause, trimRight_of_last divides.last]

/-- What is handed over as the condition of a divided line. -/
theorem condition_eq (apart : header.gap ≠ []) :
    Statement.condition control.closing line (header.gap ++ header.body) =
      header.condition ++ if header.pause = [] then header.closer else [] := by
  by_cases closer : header.closer = []
  · rw [divides.condition_unclosed apart closer, closer, ite_self, append_nil]
  · exact divides.condition_closed apart closer

end Divides

end Header

theorem Context.effect_control (context : Context) (control : Control) (condition line : Text)
    (frames : List Frame) (lastCode : Text) :
    context.effect (control.statement condition) line frames lastCode = do
      let code ← context.expression { afterKeyword := true } condition
      return { lines := [control.opening ++ code ++ control.ending], frames := control.frames frames } := by
  have lined (before after : String) (reached : List Frame) :
      (do
        let code ← context.conditionLine before condition after
        return { lines := [code], frames := reached } : Conversion Effect) = do
      let code ← context.expression { afterKeyword := true } condition
      return { lines := [before.toList ++ code ++ after.toList], frames := reached } := by
    simp only [Context.conditionLine, bind_assoc, pure_bind]
  cases control with
  | whileLoop => exact lined "while " " do" _
  | elseIf => exact lined "elseif " " then" _
  | ifThen => exact lined "if " " then" _

/-- Every line that is read as a test of a condition divides into a header, and what is tested is
the condition of that header if and only if blanks set it apart from the words around it. A closing
word that is joined to the condition stays with it. With nothing between the introducing words and
the rest, the whole line is tested, those words included. -/
theorem Context.tests_condition_iff {language : Language} {line condition : Text} {control : Control}
    (read : Statement.ofLine language line = control.statement condition) :
    (∃ header : Header, header.Divides control line) ∧
      (∀ header : Header, header.Divides control line →
        (condition = header.condition ↔
          header.gap ≠ [] ∧ (header.closer ≠ [] → header.pause ≠ [])) ∧
        (header.gap ≠ [] → header.pause = [] → condition = header.condition ++ header.closer) ∧
        (header.gap = [] → condition = line)) ∧
      ∀ (context : Context) (frames : List Frame) (lastCode : Text),
        context.effect (Statement.ofLine language line) line frames lastCode = do
          let code ← context.expression { afterKeyword := true } condition
          return {
            lines := [control.opening ++ code ++ control.ending]
            frames := control.frames frames } := by
  obtain ⟨rest, found, rfl⟩ := Control.condition_of_ofLine read
  refine ⟨Header.exists_divides found, ?_, fun context frames lastCode => ?_⟩
  · intro header divides
    obtain rfl : header.gap ++ header.body = rest :=
      Option.some.inj (divides.after?.symm.trans found)
    refine ⟨⟨fun same => ?_, fun ⟨apart, paused⟩ => ?_⟩, fun apart pause => ?_, divides.condition_whole⟩
    · have apart : header.gap ≠ [] := by
        intro joined
        rw [divides.condition_whole joined] at same
        have longer := congrArg List.length (same.symm.trans divides.text)
        have some := length_pos_iff.mpr (Control.words_nonempty divides.keyword)
        simp only [Header.text, Header.body, length_append] at longer
        omega
      refine ⟨apart, fun closed pause => ?_⟩
      rw [divides.condition_eq apart, if_pos pause, append_right_eq_self] at same
      exact closed same
    · rw [divides.condition_eq apart]
      by_cases pause : header.pause = []
      · rw [if_pos pause, not_not.mp fun closed => paused closed pause, append_nil]
      · rw [if_neg pause, append_nil]
    · rw [divides.condition_eq apart, if_pos pause]
  · rw [read, context.effect_control]

/-- The parts of a loop header with all that may stand around its condition. -/
def sampleHeader : Header where
  keyword := "TANT  que".toList
  gap := " ".toList
  condition := "x < 3".toList
  pause := "  ".toList
  closer := "Faire".toList
  tail := " : ".toList

theorem sampleHeader_divides : sampleHeader.Divides .whileLoop sampleHeader.text where
  text := rfl
  keyword := by
    have first : "TANT".toList.map caseKey = "tant".toList.map caseKey := by decide
    have apart : "  ".toList ≠ [] := by decide
    exact .more first apart (all_eq_true.mp (by decide)) (.one (by decide))
  whole := by decide
  gap := all_eq_true.mp (by decide)
  first := fun _ first => Option.some.inj first ▸ by decide
  last := fun _ last => Option.some.inj last ▸ by decide
  pause := all_eq_true.mp (by decide)
  closer := by decide
  tail := by decide
  unclosed := fun unclosed => absurd unclosed (by decide)
  bare := fun unclosed => absurd unclosed (by decide)

theorem Context.tests_condition_iff_loop :
    sampleHeader.text = "TANT  que x < 3  Faire : ".toList ∧
      Statement.ofLine standardLanguage sampleHeader.text =
        Control.whileLoop.statement "x < 3".toList ∧
      sampleHeader.Divides .whileLoop sampleHeader.text ∧
      ("x < 3".toList = sampleHeader.condition ↔
        sampleHeader.gap ≠ [] ∧ (sampleHeader.closer ≠ [] → sampleHeader.pause ≠ [])) := by
  have read : Statement.ofLine standardLanguage sampleHeader.text =
      Control.whileLoop.statement "x < 3".toList := by decide +kernel
  exact ⟨by decide, read, sampleHeader_divides,
    ((Context.tests_condition_iff read).2.1 sampleHeader sampleHeader_divides).1⟩

/-- A parenthesis right after the keyword: the whole line is tested. -/
theorem Context.tests_keyword_joined :
    (∃ header : Header, header.Divides .ifThen "Si(x > 0) Alors".toList ∧
      header.condition = "(x > 0)".toList) ∧
      Statement.ofLine standardLanguage "Si(x > 0) Alors".toList =
        .ifThen "Si(x > 0) Alors".toList ∧
      ∀ (context : Context) (frames : List Frame) (lastCode : Text),
        context.effect (.ifThen "Si(x > 0) Alors".toList) "Si(x > 0) Alors".toList frames lastCode = do
          let code ← context.expression { afterKeyword := true } "Si(x > 0) Alors".toList
          return {
            lines := ["if ".toList ++ code ++ " then".toList]
            frames := .control .si :: frames } := by
  refine ⟨⟨⟨"Si".toList, [], "(x > 0)".toList, " ".toList, "Alors".toList, []⟩, ?_, rfl⟩,
    by decide +kernel, fun context => context.effect_control .ifThen _ _⟩
  exact ⟨rfl, .one (by decide), by decide, by simp, fun _ first => Option.some.inj first ▸ by decide,
    fun _ last => Option.some.inj last ▸ by decide, all_eq_true.mp (by decide), by decide,
    by decide, fun unclosed => absurd unclosed (by decide), fun unclosed => absurd unclosed (by decide)⟩

end Pseudocode
