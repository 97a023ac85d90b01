import Pseudocode.Proofs.ControlHeader

namespace Pseudocode

open List Option

/-- A line starts with these words in any letter case, and the last of them ends there. -/
def Begins (words : List String) (line : Text) : Prop :=
  ∃ spelled rest, line = spelled ++ rest ∧ Spells words spelled ∧ atWordEnd rest = true

section Begins

variable {line rest : Text} {word first second : String}

theorem begins_word (found : dropWord? word.toList line = some rest) (whole : atWordEnd rest = true) :
    Begins [word] line := by
  obtain ⟨split, same⟩ := dropWord?_eq_some found
  exact ⟨_, rest, split, .one same, whole⟩

theorem begins_twoWords (found : dropTwoWords? first second line = some rest)
    (whole : atWordEnd rest = true) : Begins [first, second] line := by
  obtain ⟨spelled, split, spells⟩ := Control.spells_of_dropTwoWords? found
  exact ⟨spelled, rest, split, spells, whole⟩

theorem begins_word_iff :
    (dropWord? word.toList line).any atWordEnd = true ↔ Begins [word] line := by
  constructor
  · intro found
    obtain ⟨rest, dropped, whole⟩ := (any_eq_true _ _).mp found
    exact begins_word dropped whole
  · rintro ⟨spelled, rest, rfl, spells, whole⟩
    cases spells with
    | one same => rw [dropWord?_append same, any_some, whole]

theorem begins_twoWords_iff (known : second.toList.all isWordChar = true ∧ second.toList ≠ []) :
    (dropTwoWords? first second line).any atWordEnd = true ↔ Begins [first, second] line := by
  constructor
  · intro found
    obtain ⟨rest, dropped, whole⟩ := (any_eq_true _ _).mp found
    exact begins_twoWords dropped whole
  · rintro ⟨spelled, rest, rfl, spells, whole⟩
    rw [Control.dropTwoWords?_append known spells, any_some, whole]

/-- The text after the closer in three words, of which the last two may be joined. -/
def afterFinTantQue? (line : Text) : Option Text :=
  (dropTwoWords? "fin" "tant" line).bind fun rest => dropWord? "que".toList (trimLeft rest)

theorem begins_finTantQue (found : afterFinTantQue? line = some rest) (whole : atWordEnd rest = true) :
    Begins ["fin", "tant", "que"] line ∨ Begins ["fin", "tantque"] line := by
  obtain ⟨after, both, last⟩ := bind_eq_some_iff.mp found
  obtain ⟨_, rfl, spells⟩ := Control.spells_of_dropTwoWords? both
  obtain ⟨split, same⟩ := dropWord?_eq_some last
  generalize (trimLeft after).take "que".toList.length = que at split same
  have parts : after.takeWhile isBlank ++ (que ++ rest) = after := by
    rw [← split, trimLeft, takeWhile_append_dropWhile]
  cases spells with
  | @more _ _ _ fin gap tant sameFin gapped blank spells =>
    cases spells with
    | one sameTant =>
      by_cases joined : after.takeWhile isBlank = []
      · rw [joined, nil_append] at parts
        refine .inr ⟨fin ++ (gap ++ (tant ++ que)), rest, ?_,
          .more sameFin gapped blank (.one (by rw [map_append, sameTant, same]; rfl)), whole⟩
        rw [← parts]
        simp only [append_assoc]
      · refine .inl ⟨fin ++ (gap ++ (tant ++ (after.takeWhile isBlank ++ que))), rest, ?_,
          .more sameFin gapped blank (.more sameTant joined (fun c => mem_takeWhile_imp) (.one same)), whole⟩
        nth_rewrite 1 [← parts]
        simp only [append_assoc]

theorem trimLeft_que {que : Text} (same : que.map caseKey = "que".toList.map caseKey) :
    trimLeft (que ++ rest) = que ++ rest := by
  obtain ⟨c, later, rfl, solid⟩ := cons_of_caseKey (by decide) same
  exact dropWhile_cons_of_neg (by simp [solid])

theorem afterFinTantQue?_spells {spelled : Text}
    (spells : Spells ["fin", "tant", "que"] spelled ∨ Spells ["fin", "tantque"] spelled) :
    afterFinTantQue? (spelled ++ rest) = some rest := by
  have read {tant gap que : Text} (spells : Spells ["fin", "tant"] tant) (blank : ∀ c ∈ gap, isBlank c = true)
      (same : que.map caseKey = "que".toList.map caseKey) :
      afterFinTantQue? (tant ++ (gap ++ (que ++ rest))) = some rest := by
    rw [afterFinTantQue?, Control.dropTwoWords?_append (by decide) spells, bind_some, trimLeft,
      dropWhile_append_of_pos blank, ← trimLeft, trimLeft_que same, dropWord?_append same]
  rcases spells with spells | spells
  · cases spells with
    | @more _ _ _ fin gap _ sameFin gapped blank spells =>
      cases spells with
      | @more _ _ _ tant pause que sameTant _ blanks spells =>
        cases spells with
        | one same =>
          have found := read (.more sameFin gapped blank (.one sameTant)) blanks same
          simpa only [append_assoc] using found
  · cases spells with
    | @more _ _ _ fin gap word sameFin gapped blank spells =>
      cases spells with
      | one same =>
        have first : (word.take 4).map caseKey = "tant".toList.map caseKey := by
          rw [map_take, same]
          rfl
        have last : (word.drop 4).map caseKey = "que".toList.map caseKey := by
          rw [map_drop, same]
          rfl
        have found := @read _ [] _ (.more sameFin gapped blank (.one first)) (by simp) last
        simpa only [append_assoc, nil_append, ← append_assoc (word.take 4), take_append_drop] using found

theorem begins_finTantQue_iff : (afterFinTantQue? line).any atWordEnd = true ↔
    Begins ["fin", "tant", "que"] line ∨ Begins ["fin", "tantque"] line := by
  constructor
  · intro found
    obtain ⟨rest, dropped, whole⟩ := (any_eq_true _ _).mp found
    exact begins_finTantQue dropped whole
  · rintro (⟨spelled, rest, rfl, spells, whole⟩ | ⟨spelled, rest, rfl, spells, whole⟩)
    · rw [afterFinTantQue?_spells (.inl spells), any_some, whole]
    · rw [afterFinTantQue?_spells (.inr spells), any_some, whole]

theorem Begins.caseKey_starts {words : List String} (begins : Begins (word :: words) line) :
    word.toList.map caseKey <+: line.map caseKey := by
  obtain ⟨_, rest, rfl, spells, -⟩ := begins
  cases spells with
  | one same =>
    rw [map_append, same]
    exact prefix_append _ _
  | more same =>
    rw [append_assoc, map_append, same]
    exact prefix_append _ _

/-- After the first of several words and the blanks behind it the line goes on with the others. -/
theorem Begins.next {words : List String}
    (known : second.toList.all isWordChar = true ∧ second.toList ≠ [])
    (begins : Begins (first :: second :: words) line) :
    ∃ rest, (dropWord? first.toList line).bind dropBlanks? = some rest ∧ Begins (second :: words) rest := by
  obtain ⟨_, rest, rfl, spells, whole⟩ := begins
  cases spells with
  | @more _ _ _ _ gap later same gapped blank spells =>
    have solid : ∀ c ∈ (later ++ rest).head?, isBlank c = false := by
      cases spells with
      | one same | more same =>
        obtain ⟨c, more, rfl, solid⟩ := cons_of_caseKey known same
        simpa using solid
    refine ⟨later ++ rest, ?_, later, rest, rfl, spells, whole⟩
    rw [append_assoc, append_assoc, dropWord?_append same, bind_some, dropBlanks?_append gapped blank solid]

end Begins

namespace BlockKeyword

/-- The words of the closers that name a block. -/
def endings : BlockKeyword → List (List String)
  | si => [["fsi"], ["fin", "si"]]
  | pour => [["fpour"], ["fin", "pour"]]
  | tantQue =>
    [["ftq"], ["ftant"], ["fin", "tant", "que"], ["fin", "tantque"], ["fin", "tant"], ["fin", "tq"]]

/-- A closer that names the blocks of this keyword. -/
def IsNamedBy (keyword : BlockKeyword) (line : Text) : Prop :=
  ∃ words ∈ keyword.endings, Begins words line

variable {keyword other : BlockKeyword} {line : Text}

/-- Neither of two words starts like the other. -/
def areApart (first second : String) : Bool :=
  !(first.toList.map caseKey).isPrefixOf (second.toList.map caseKey) &&
    !(second.toList.map caseKey).isPrefixOf (first.toList.map caseKey)

theorem not_begins_both {first second : String} {words others : List String}
    (apart : areApart first second = true) (here : Begins (first :: words) line) :
    ¬Begins (second :: others) line := by
  intro there
  simp only [areApart, Bool.and_eq_true, Bool.not_eq_true', ← Bool.not_eq_true,
    isPrefixOf_iff_prefix] at apart
  rcases prefix_or_prefix_of_prefix here.caseKey_starts there.caseKey_starts with less | less
  · exact apart.1 less
  · exact apart.2 less

/-- The words of two closers differ at the first word, or at the second one after the same first. -/
def areUnlike : List String → List String → Bool
  | first :: second :: _, other :: another :: _ =>
    areApart first other || (first = other && areApart second another)
  | first :: _, other :: _ => areApart first other
  | _, _ => false

/-- A closer names blocks of one kind only. -/
theorem IsNamedBy.unique (here : keyword.IsNamedBy line) (there : other.IsNamedBy line) :
    keyword = other := by
  obtain ⟨words, listed, begins⟩ := here
  obtain ⟨others, among, starts⟩ := there
  by_contra different
  have unlike : ∀ keyword ∈ [si, pour, tantQue], ∀ other ∈ [si, pour, tantQue], keyword ≠ other →
      ∀ words ∈ keyword.endings, ∀ others ∈ other.endings, areUnlike words others = true := by
    decide
  have known : ∀ keyword ∈ [si, pour, tantQue], ∀ words ∈ keyword.endings, ∀ word ∈ words,
      word.toList.all isWordChar = true ∧ word.toList ≠ [] := by
    decide
  have all (keyword : BlockKeyword) : keyword ∈ [si, pour, tantQue] := by cases keyword <;> decide
  have differ := unlike _ (all keyword) _ (all other) different words listed others among
  have ours := known _ (all keyword) words listed
  have theirs := known _ (all other) others among
  unfold areUnlike at differ
  split at differ
  · rename_i first second _ other another _
    rcases Bool.or_eq_true_iff.mp differ with apart | later
    · exact not_begins_both apart begins starts
    · obtain ⟨rfl, apart⟩ := by simpa using later
      obtain ⟨rest, dropped, begins⟩ := begins.next (ours second (by simp))
      obtain ⟨_, same, starts⟩ := starts.next (theirs another (by simp))
      obtain rfl := Option.some.inj (dropped.symm.trans same)
      exact not_begins_both apart begins starts
  · exact not_begins_both differ begins starts
  · simp at differ

/-- The test for a closer that names blocks of this keyword. -/
def isNamed (line : Text) : BlockKeyword → Bool
  | si => (dropWord? "fsi".toList line).any atWordEnd || (dropTwoWords? "fin" "si" line).any atWordEnd
  | pour => (dropWord? "fpour".toList line).any atWordEnd || (dropTwoWords? "fin" "pour" line).any atWordEnd
  | tantQue =>
    (dropWord? "ftq".toList line).any atWordEnd || (dropWord? "ftant".toList line).any atWordEnd ||
      (afterFinTantQue? line).any atWordEnd || (dropTwoWords? "fin" "tant" line).any atWordEnd ||
      (dropTwoWords? "fin" "tq" line).any atWordEnd

theorem closedBlock_eq (line : Text) : Statement.closedBlock line =
    if isNamed line si then some si
    else if isNamed line pour then some pour
    else if isNamed line tantQue then some tantQue
    else none :=
  rfl

theorem isNamed_iff : isNamed line keyword = true ↔ keyword.IsNamedBy line := by
  cases keyword with
  | si | pour =>
    rw [isNamed, Bool.or_eq_true, begins_word_iff, begins_twoWords_iff (by decide)]
    simp [IsNamedBy, endings]
  | tantQue =>
    rw [isNamed, Bool.or_eq_true, Bool.or_eq_true, Bool.or_eq_true, Bool.or_eq_true, begins_word_iff,
      begins_word_iff, begins_finTantQue_iff, begins_twoWords_iff (by decide), begins_twoWords_iff (by decide)]
    simp only [IsNamedBy, endings, mem_cons, not_mem_nil, or_false, exists_eq_or_imp, exists_eq_left]
    tauto

/-- What a closer names is told by its words. -/
theorem isNamedBy_iff : keyword.IsNamedBy line ↔ Statement.closedBlock line = some keyword := by
  have found : ∀ keyword, Statement.closedBlock line = some keyword → keyword.IsNamedBy line := by
    intro keyword closed
    rw [← isNamed_iff]
    rw [closedBlock_eq] at closed
    grind
  refine ⟨fun named => ?_, found keyword⟩
  cases closed : Statement.closedBlock line with
  | some other => rw [named.unique (found other closed)]
  | none =>
    have test := isNamed_iff.mpr named
    rw [closedBlock_eq] at closed
    cases keyword <;> grind

end BlockKeyword

namespace Statement

/-- The headers of blocks. -/
def opensBlock : Statement → Bool
  | functionHeader | forEach .. | counted | whileLoop _ | ifThen _ => true
  | _ => false

/-- The words that a header starts with, and the block that it opens. -/
def opened? (signature : Option Signature) : Statement → Option (List String × Frame)
  | functionHeader => some (["fonction"], .function signature false)
  | forEach .. | counted => some (["pour"], .control .pour)
  | whileLoop _ => some (["tant", "que"], .control .tantQue)
  | ifThen _ => some (["si"], .control .si)
  | _ => none

section Opened

variable {statement : Statement} {signature : Option Signature} {words : List String} {frame : Frame}
variable {language : Language} {line : Text}

/-- A line that is read as a header starts with the words of one. -/
theorem Fits.begins (fits : Fits language line statement)
    (opened : statement.opened? signature = some (words, frame)) : Begins words line := by
  have spaced {word : String} (found : ((dropWord? word.toList line).bind dropBlanks?).isSome = true) :
      Begins [word] line := by
    obtain ⟨rest, found⟩ := isSome_iff_exists.mp found
    obtain ⟨after, dropped, gap⟩ := bind_eq_some_iff.mp found
    obtain ⟨blanks, some, blank, rfl⟩ := dropBlanks?_eq_some gap
    refine begins_word dropped ?_
    obtain ⟨c, blanks, rfl⟩ := exists_cons_of_ne_nil some
    simp [atWordEnd, isBlank_not_wordChar (blank c (.head _))]
  cases fits with
  | arrayDeclaration found =>
    obtain ⟨_, _, _, _, rfl, -⟩ := array?_eq_some found
    cases opened
  | read found =>
    obtain ⟨_, rfl, -⟩ := read?_eq_some found
    cases opened
  | forEach found =>
    obtain ⟨_, _, _, rfl, -⟩ := forEach?_eq_some found
    obtain ⟨after, dropped, found⟩ := bind_eq_some_iff.mp found
    obtain ⟨rest, gap, -⟩ := bind_eq_some_iff.mp found
    cases opened
    exact spaced (by rw [dropped, bind_some, gap]; rfl)
  | functionHeader word | counted word =>
    cases opened
    exact spaced word
  | whileLoop found =>
    cases opened
    obtain ⟨dropped, whole⟩ := filter_eq_some_iff.mp found
    exact begins_twoWords dropped whole
  | ifThen found =>
    cases opened
    obtain ⟨dropped, whole⟩ := filter_eq_some_iff.mp found
    exact begins_word dropped whole
  | _ => cases opened

theorem Fits.isNamedBy_iff {closed : Option BlockKeyword} (fits : Fits language line (.blockClose closed))
    (keyword : BlockKeyword) : closed = some keyword ↔ keyword.IsNamedBy line := by
  cases fits with
  | arrayDeclaration found =>
    obtain ⟨_, _, _, _, same, -⟩ := array?_eq_some found
    cases same
  | read found =>
    obtain ⟨_, same, -⟩ := read?_eq_some found
    cases same
  | forEach found =>
    obtain ⟨_, _, _, same, -⟩ := forEach?_eq_some found
    cases same
  | blockClose => exact BlockKeyword.isNamedBy_iff.symm

end Opened

end Statement

end Pseudocode
