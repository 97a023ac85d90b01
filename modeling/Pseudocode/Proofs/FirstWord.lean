import Pseudocode.Proofs.Respelling

namespace Pseudocode

/-- A word with a text after it that does not go on with the word. -/
structure StartsWith (line word tail : Text) : Prop where
  split : line = word ++ tail
  letters : ∀ c ∈ word, isWordChar c = true
  stop : ∀ c ∈ tail.head?, isBreak c = true

namespace StartsWith

variable {line word tail : Text} {keyword : String}

theorem ends (starts : StartsWith line word tail) : atWordEnd tail = true := by
  cases tail with
  | nil => rfl
  | cons c rest =>
    have broken := starts.stop c rfl
    simp only [isBreak, Bool.and_eq_true] at broken
    simpa [atWordEnd] using broken.1

theorem dropWholeWord?_same (starts : StartsWith line word tail)
    (same : word.map caseKey = keyword.toList.map caseKey) : dropWholeWord? keyword line = some tail := by
  rw [starts.split, dropWholeWord?, dropWord?_append same, Option.filter_some, starts.ends]
  rfl

/-- A line does not start with a whole word other than its first. -/
theorem dropWholeWord?_other (starts : StartsWith line word tail)
    (known : keyword.toList.all isWordChar = true)
    (other : word.map caseKey ≠ keyword.toList.map caseKey) : dropWholeWord? keyword line = none := by
  rw [starts.split, dropWholeWord?, Option.filter_eq_none_iff]
  intro rest found ended
  obtain ⟨taken, more, rfl, rfl, same⟩ :=
    dropWord?_within (List.all_eq_true.mp known) starts.stop found
  cases more with
  | nil => exact other (by simpa using same)
  | cons c more =>
    have inside := starts.letters c (by simp)
    simp [atWordEnd, inside] at ended

theorem dropAnyWholeWord?_other {keywords : List String} (starts : StartsWith line word tail)
    (known : (keywords.all fun keyword => keyword.toList.all isWordChar) = true)
    (other : ∀ keyword ∈ keywords, word.map caseKey ≠ keyword.toList.map caseKey) :
    dropAnyWholeWord? keywords line = none := by
  rw [dropAnyWholeWord?, List.findSome?_eq_none_iff]
  intro keyword member
  exact starts.dropWholeWord?_other (List.all_eq_true.mp known keyword member) (other keyword member)

end StartsWith

theorem Statement.isBlankLine_letter {line : Text} {c : Char} (member : c ∈ line)
    (letter : isWordChar c = true) : isBlankLine line = false := by
  have slash : c ≠ '/' := by rintro rfl; exact absurd letter (by decide)
  have star : c ≠ '*' := by rintro rfl; exact absurd letter (by decide)
  rw [isBlankLine, List.all_eq_false]
  exact ⟨c, member, by simp [slash, star, (isWordChar_plain letter).2]⟩

/-- A line is no record type if neither an equals sign nor an angle bracket follows its name. -/
theorem RecordType.ofLine?_none {line name rest : Text} (language : Language)
    (named : identifier? (trim line) = some (name, rest))
    (other : ∀ c ∈ (trimLeft rest).head?, c ≠ '=' ∧ c ≠ '<') : ofLine? language line = none := by
  have unangled : angled? (trimLeft rest) = none := by
    unfold angled?
    split
    · rename_i shape
      exact absurd rfl (other '<' (by rw [shape]; rfl)).2
    · rfl
  rw [ofLine?, named]
  simp only [Option.bind_eq_bind, Option.bind_some]
  split
  · rename_i shape
    exact absurd rfl (other '=' (by rw [shape]; rfl)).1
  · rw [unangled, Option.bind_none]

/-- A colon declares nothing if it ends the line. -/
theorem Statement.declaredNames?_closed {line : Text} (language : Language) (colon : ':' ∉ line.dropLast) :
    declaredNames? language line = none := by
  rw [declaredNames?]
  split
  · rename_i tail _ rest _ _ shape after _
    obtain ⟨before, split⟩ : ∃ before, before ++ ':' :: tail = line := shape ▸ List.dropWhile_suffix _
    cases tail with
    | nil =>
      rw [shape] at after
      simp [trimLeft] at after
    | cons c tail =>
      rw [← split, List.dropLast_append_of_ne_nil (by simp), List.dropLast_cons_cons] at colon
      exact absurd (by simp) colon
  · rfl

theorem Statement.declaredNames?_none {line : Text} (language : Language)
    (other : (line.dropWhile fun c => isWordChar c || c = ',' || isBlank c).head? ≠ some ':') :
    declaredNames? language line = none := by
  rw [declaredNames?]
  split
  · rename_i shape _ _
    exact absurd (by rw [shape]; rfl) other
  · rfl

end Pseudocode
