import Pseudocode.Proofs.Calling

namespace Pseudocode

theorem headAt?_gap {length : Nat} {text : Text} {head : CallHead}
    (found : headAt? length text = some head) : ∀ c ∈ head.gap, isBlank c = true := by
  unfold headAt? at found
  simp only at found
  split at found
  · obtain rfl := Option.some.inj found
    exact fun c => List.mem_takeWhile_imp
  · simp at found

namespace Callee

theorem sound_of_headAt {callee : Callee}
    (parts : ∀ {text head}, callee text = some head → (∃ length, headAt? length text = some head) ∧
      head.name ≠ [] ∧ ∀ c ∈ head.name, isBreak c = false) : callee.Sound where
  split {text head} found := by
    obtain ⟨⟨length, placed⟩, -⟩ := parts found
    refine ⟨text.drop head.length, ?_⟩
    simpa [CallHead.written] using (headAt?_eq_some placed).2
  name found := (parts found).2
  gap found := by
    obtain ⟨⟨length, placed⟩, -⟩ := parts found
    exact headAt?_gap placed

theorem isBreak_word {c : Char} (word : isWordChar c = true) : isBreak c = false := by
  simp [isBreak, word]

theorem anyCallee_sound : Sound anyCallee := by
  refine sound_of_headAt fun {text head} found => ?_
  obtain ⟨⟨name, rest⟩, word, found⟩ := Option.bind_eq_some_iff.mp found
  obtain ⟨rfl, whole⟩ := identifier?_eq_some word
  have named := (headAt?_eq_some found).1
  rw [List.take_left] at named
  refine ⟨⟨_, found⟩, ?_, ?_⟩
  · rintro empty
    rw [named.symm.trans empty] at whole
    simp [identifier?] at whole
  · rw [named]
    exact fun c member => isBreak_word (identifier?_mem whole member)

theorem namedCallee_sound {names : List Text}
    (words : ∀ name ∈ names, name ≠ [] ∧ ∀ c ∈ name, isWordChar c = true) : Sound (namedCallee names) := by
  refine sound_of_headAt fun {text head} found => ?_
  obtain ⟨-, name, member, same⟩ := namedCallee_eq_some found
  obtain ⟨other, -, found⟩ := List.exists_of_findSome?_eq_some found
  obtain ⟨rest, -, found⟩ := Option.bind_eq_some_iff.mp found
  obtain ⟨nonempty, letters⟩ := words name member
  refine ⟨⟨_, found⟩, ?_, unbroken_of_caseKey letters same⟩
  rintro empty
  rw [empty, List.map_nil, eq_comm, List.map_eq_nil_iff] at same
  exact nonempty same

end Callee

end Pseudocode
