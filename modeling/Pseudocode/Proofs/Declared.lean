import Pseudocode.Proofs.CommentFree
import Pseudocode.Proofs.Readable
import Pseudocode.Proofs.WriteBack

namespace Pseudocode

open List Option

section Parts

/-- What is cut out of a part of a text is a part of it too, wherever the cut is made. -/
theorem severs_isInfix (whole : Text) : Severs (fun _ => false) (· <:+: whole) where
  nil := nil_infix
  split here _ :=
    ⟨(prefix_append _ _).isInfix.trans here, (suffix_append _ _).isInfix.trans here⟩
  outer _ _ := rfl

/-- Pieces that a text is cut into, the first of them at its start. -/
def IsCutInto (text : Text) (pieces : List Text) : Prop :=
  (∀ piece ∈ pieces.head?, piece <+: text) ∧ ∀ piece ∈ pieces, piece <:+: text

namespace IsCutInto

variable {c : Char} {text : Text} {pieces : List Text}

theorem consHead (cut : IsCutInto text pieces) : IsCutInto (c :: text) (consHead c pieces) := by
  obtain ⟨first, each⟩ := cut
  cases pieces with
  | nil =>
    have starts : [c] <+: c :: text := ⟨text, rfl⟩
    exact ⟨fun _ single => Option.some.inj single ▸ starts,
      fun _ single => mem_singleton.mp single ▸ starts.isInfix⟩
  | cons piece pieces =>
    have starts : c :: piece <+: c :: text := (prefix_cons_inj c).mpr (first piece rfl)
    refine ⟨by simpa [Pseudocode.consHead] using starts, fun other member => ?_⟩
    rcases mem_cons.mp member with rfl | later
    · exact starts.isInfix
    · exact (each other (.tail _ later)).trans (suffix_cons c text).isInfix

theorem cons_nil (cut : IsCutInto text pieces) (front : Text) :
    IsCutInto (front ++ text) ([] :: pieces) := by
  refine ⟨by simp, fun piece member => ?_⟩
  rcases mem_cons.mp member with rfl | later
  · exact nil_infix
  · exact (cut.2 piece later).trans (suffix_append _ _).isInfix

end IsCutInto

theorem splitAt_isCutInto (mark : Char) (text : Text) : IsCutInto text (splitAt mark text) := by
  induction text with
  | nil => simp [splitAt, IsCutInto]
  | cons c rest ih =>
    rw [splitAt]
    split
    · exact ih.cons_nil [c]
    · exact ih.consHead

theorem lines_isCutInto (text : Text) : IsCutInto text (lines text) := by
  fun_induction lines text with
  | case1 => simp [IsCutInto]
  | case2 rest ih => exact ih.cons_nil ['\r', '\n']
  | case3 c rest _ _ ih => exact ih.cons_nil [c]
  | case4 c rest _ _ ih => exact ih.consHead

theorem cutUnbalanced_prefix (depth : Nat) (text : Text) : cutUnbalanced depth text <+: text := by
  fun_induction cutUnbalanced depth text with
  | case1 => exact prefix_rfl
  | case3 => exact nil_prefix
  | case2 _ _ ih | case4 _ _ _ ih | case5 _ _ _ _ _ ih => exact (prefix_cons_inj _).mpr ih

/-- A word at the start of a part of a text is a part of it, and so is what follows the word. -/
theorem identifier?_isInfix {text part name rest : Text} (inside : part <:+: text)
    (found : identifier? part = some (name, rest)) : name <:+: text ∧ rest <:+: text := by
  rw [(identifier?_eq_some found).1] at inside
  exact (severs_isInfix text).split inside (.inl fun _ _ => rfl)

end Parts

namespace Signature

variable {line : Text} {signature : Signature}

theorem openHeader?_isInfix {name inside : Text} (found : openHeader? line = some (name, inside)) :
    name <:+: line ∧ inside <:+: line := by
  have severs := severs_isInfix line
  obtain ⟨afterWord, word, found⟩ := bind_eq_some_iff.mp found
  obtain ⟨afterBlanks, blanks, found⟩ := bind_eq_some_iff.mp found
  obtain ⟨⟨read, rest⟩, named, found⟩ := bind_eq_some_iff.mp found
  have trimmed : trimLeft line <:+: line := severs.trimLeft infix_rfl
  rw [(dropWord?_eq_some word).1] at trimmed
  have afterWordInside : afterWord <:+: line := (severs.split trimmed (.inl fun _ _ => rfl)).2
  obtain ⟨nameInside, restInside⟩ := identifier?_isInfix (severs.dropBlanks? afterWordInside blanks) named
  simp only at found
  split at found
  · rename_i tail shape
    obtain ⟨rfl, rfl⟩ := Prod.mk.inj (Option.some.inj found)
    have opened := severs.trimLeft restInside
    rw [shape] at opened
    exact ⟨nameInside, (severs.uncons opened rfl).2⟩
  · simp at found

theorem beforeLast?_prefix {mark : Char} {text before : Text} (found : beforeLast? mark text = some before) :
    before <+: text := by
  unfold beforeLast? at found
  split at found
  · simp at found
  · rename_i c rest shape
    obtain rfl := Option.some.inj found
    have ends : c :: rest <:+ text.reverse := shape ▸ dropWhile_suffix _
    exact reverse_suffix.mp (by simpa using (suffix_cons c rest).trans ends)

/-- The names that a line declares stand on it, but for the modifiers that are taken out of them. -/
theorem ofLine?_isInfix (found : ofLine? line = some signature) :
    signature.name <:+: line ∧ ∀ parameter ∈ signature.parameters,
      ∃ named, named <:+: line ∧ parameter.name = trim (substitute inOutModifier named) := by
  have severs := severs_isInfix line
  obtain ⟨⟨name, text⟩, read, rfl⟩ := map_eq_some_iff.mp found
  obtain ⟨⟨name', inside⟩, opened, read⟩ := bind_eq_some_iff.mp read
  obtain ⟨captured, cut, read⟩ := bind_eq_some_iff.mp read
  obtain ⟨rfl, rfl⟩ := Prod.mk.inj (Option.some.inj read)
  obtain ⟨nameInside, openInside⟩ := openHeader?_isInfix opened
  have listed : cutUnbalanced 0 (cutUnbalanced 0 captured) <:+: line :=
    (( cutUnbalanced_prefix 0 _).trans (( cutUnbalanced_prefix 0 _).trans
      (( beforeLast?_prefix cut).trans (List.takeWhile_prefix _)))).isInfix.trans openInside
  refine ⟨nameInside, fun parameter member => ?_⟩
  obtain ⟨part, among, meant⟩ := mem_filterMap.mp member
  have partInside := severs.splitArguments listed part among
  unfold parameter? at meant
  simp only at meant
  split at meant
  · simp at meant
  · obtain rfl := Option.some.inj meant
    exact ⟨_, severs.trim ((List.takeWhile_prefix _).isInfix.trans partInside), rfl⟩

end Signature

namespace RecordType

variable {line : Text}

theorem angled?_isInfix {text body : Text} (found : angled? text = some body) : body <:+: text := by
  unfold angled? at found
  split at found
  · rename_i rest
    split at found
    · obtain rfl := Option.some.inj found
      exact (severs_isInfix _).trim
        ((List.dropLast_prefix rest).isInfix.trans (suffix_cons '<' rest).isInfix)
    · simp at found
  · simp at found

/-- The names that a line declares stand on it as words. -/
theorem ofLine?_isInfix {language : Language} {type : RecordType} (read : ofLine? language line = some type) :
    (type.name <:+: line ∧ identifier? type.name = some (type.name, [])) ∧
      ∀ field ∈ type.fields, field.name <:+: line ∧ identifier? field.name = some (field.name, []) := by
  have severs := severs_isInfix line
  obtain ⟨⟨name, rest⟩, named, read⟩ := bind_eq_some_iff.mp read
  obtain ⟨body, angled, read⟩ := bind_eq_some_iff.mp read
  split at read
  · simp at read
  · simp only at read
    split at read
    · simp at read
    · obtain rfl := Option.some.inj read
      obtain ⟨nameInside, restInside⟩ := identifier?_isInfix (severs.trim infix_rfl) named
      have bodyInside : body <:+: line := by
        refine (angled?_isInfix angled).trans ?_
        have left := severs.trimLeft restInside
        split
        · rename_i tail shape
          rw [shape] at left
          exact severs.trimLeft (severs.uncons left rfl).2
        · exact left
      refine ⟨⟨nameInside, (identifier?_eq_some named).2⟩, fun field member => ?_⟩
      obtain ⟨part, piece, found⟩ := mem_filterMap.mp member
      obtain ⟨⟨fieldName, after⟩, fieldNamed, found⟩ := bind_eq_some_iff.mp found
      simp only at found
      split at found
      · split at found
        · simp at found
        · obtain rfl := Option.some.inj found
          have partInside := ((splitAt_isCutInto ',' body).2 part piece).trans bodyInside
          exact ⟨(identifier?_isInfix (severs.trim partInside) fieldNamed).1, (identifier?_eq_some fieldNamed).2⟩
      · simp at found

theorem ofLine?_mem {language : Language} {type : RecordType} (read : ofLine? language line = some type) :
    (type.name ≠ [] ∧ ∀ c ∈ type.name, isWordChar c = true ∧ c ∈ line) ∧
      ∀ field ∈ type.fields, ∀ c ∈ field.name, isWordChar c = true ∧ c ∈ line := by
  obtain ⟨⟨nameInside, name⟩, fields⟩ := ofLine?_isInfix read
  refine ⟨⟨?_, fun c member => ⟨identifier?_mem name member, nameInside.subset member⟩⟩,
    fun field among c member => ?_⟩
  · intro empty
    simp [empty, identifier?] at name
  · obtain ⟨fieldInside, field⟩ := fields field among
    exact ⟨identifier?_mem field member, fieldInside.subset member⟩

end RecordType

end Pseudocode
