import Pseudocode.Proofs.Character

namespace Pseudocode

/-- The numbers from `low` to `high` stand in one of the ranges. -/
def inOneRange : List (Nat × Nat) → Nat → Nat → Bool
  | [], _, _ => false
  | (first, last) :: ranges, low, high =>
    Nat.ble first low && (Nat.ble high last || inOneRange ranges low high)

theorem inRanges_of_inOneRange {ranges : List (Nat × Nat)} {low high n : Nat}
    (one : inOneRange ranges low high = true) (above : low ≤ n) (below : n ≤ high) : inRanges ranges n = true := by
  induction ranges with
  | nil => simp [inOneRange] at one
  | cons range ranges ih =>
    obtain ⟨first, last⟩ := range
    simp only [inOneRange, Bool.and_eq_true, Bool.or_eq_true, Nat.ble_eq] at one
    rw [inRanges, if_neg (by omega), Bool.or_eq_true, decide_eq_true_eq]
    exact one.2.imp (fun here => by omega) ih

theorem smallInRuns_cases (runs : List (Nat × Nat × Nat × Nat)) (n : Nat) :
    smallInRuns runs n = n ∨ ∃ run ∈ runs, run.1 ≤ n ∧ n ≤ run.2.1 ∧ (n - run.1) % run.2.2.1 = 0 ∧
      smallInRuns runs n = run.2.2.2 + (n - run.1) := by
  induction runs with
  | nil => exact .inl rfl
  | cons run runs ih =>
    obtain ⟨first, last, step, small⟩ := run
    rw [smallInRuns]
    split
    · exact .inl rfl
    · rename_i least
      split
      · rename_i inside
        exact .inr ⟨_, .head _, by simpa using least, inside.1, inside.2, rfl⟩
      · refine ih.imp_right ?_
        rintro ⟨run, listed, rest⟩
        exact ⟨run, .tail _ listed, rest⟩

/-- Letters in a circle, which are no characters of words, stand in one run. The other capitals and
their small letters are such characters, and so are the letters of one capital, a subscript apart. -/
theorem capitalRuns_words :
    (∀ range ∈ alphanumericRanges, range.2 < 0x24b6 ∨ 0x24e9 < range.1) ∧
      (∀ run ∈ capitalRuns, run = (0x24b6, 0x24cf, 1, 0x24d0) ∨
        (run = (0x1f59, 0x1f5f, 2, 0x1f51) ∨ inOneRange alphanumericRanges run.1 run.2.1 = true) ∧
          (run = (0x130, 0x130, 1, 0x69) ∨ run = (0x212a, 0x212a, 1, 0x6b) ∨ 128 ≤ run.2.2.2 ∧
            (run.2.2.2 + (run.2.1 - run.1) < 0xd800 ∨
              0xdfff < run.2.2.2 ∧ run.2.2.2 + (run.2.1 - run.1) < 0x110000) ∧
            inOneRange alphanumericRanges run.2.2.2 (run.2.2.2 + (run.2.1 - run.1)) = true)) ∧
      (∀ run ∈ capitalRuns, run.2.2.2 + (run.2.1 - run.1) < 0x345 ∨ 0x345 < run.2.2.2) ∧
      ∀ pair ∈ caseVariants, isWordChar (Char.ofNat pair.1) = true ∧
        (isWordChar (Char.ofNat pair.2) = true ∨ pair.2 = 0x345) := by
  decide +kernel

theorem isWordChar_ofNat {n : Nat} (beyond : 128 ≤ n) (valid : n.isValidChar) :
    isWordChar (Char.ofNat n) = inRanges alphanumericRanges n := by
  have code : (Char.ofNat n).toNat = n := by rw [Char.toNat_ofNat, if_pos valid]
  have other : Char.ofNat n ≠ '_' := fun same => by
    rw [same] at code
    simp at code
    omega
  simp [isWordChar, isAlphanumeric, code, other, Nat.not_lt.mpr beyond]

/-- Capitals are characters of words, those in a circle apart. -/
theorem inRanges_capital {run : Nat × Nat × Nat × Nat} {n : Nat}
    (source : run = (0x1f59, 0x1f5f, 2, 0x1f51) ∨ inOneRange alphanumericRanges run.1 run.2.1 = true)
    (least : run.1 ≤ n) (most : n ≤ run.2.1) (step : (n - run.1) % run.2.2.1 = 0) :
    inRanges alphanumericRanges n = true := by
  rcases source with rfl | one
  · simp only at least most step
    obtain rfl | rfl | rfl | rfl : n = 0x1f59 ∨ n = 0x1f5b ∨ n = 0x1f5d ∨ n = 0x1f5f := by omega
    all_goals exact inRanges_of_inOneRange (by decide +kernel) le_rfl le_rfl
  · exact inRanges_of_inOneRange one least most

/-- A small letter is a character of words exactly if its capital is. -/
theorem isWordChar_smallLetter (c : Char) : isWordChar (smallLetter c) = isWordChar c := by
  unfold smallLetter
  split
  · rename_i ascii
    exact of_ascii (P := fun c => isWordChar c.toLower = isWordChar c) (by decide) ascii
  · rename_i beyond
    have beyond : 128 ≤ c.toNat := Nat.le_of_not_lt beyond
    have own : isWordChar c = inRanges alphanumericRanges c.toNat := by
      rw [← isWordChar_ofNat beyond c.valid, Char.ofNat_toNat]
    rcases smallInRuns_cases capitalRuns c.toNat with same | ⟨run, listed, least, most, step, small⟩
    · rw [same, Char.ofNat_toNat]
    · obtain ⟨circled, words, -⟩ := capitalRuns_words
      rw [small, own]
      rcases words run listed with rfl | ⟨source, target⟩
      · simp only at least most ⊢
        rw [isWordChar_ofNat (by omega) (.inl (by omega)), inRanges_gap circled least (by omega),
          inRanges_gap circled (by omega) (by omega)]
      · rw [inRanges_capital source least most step]
        rcases target with rfl | rfl | ⟨high, valid, one⟩
        · rw [show c.toNat = 0x130 from Nat.le_antisymm most least]
          decide
        · rw [show c.toNat = 0x212a from Nat.le_antisymm most least]
          decide
        · rw [isWordChar_ofNat (by omega) (by unfold Nat.isValidChar; omega)]
          exact inRanges_of_inOneRange one (by omega) (by omega)

theorem eq_subscript_of_smallLetter {c : Char} (small : smallLetter c = '\u0345') : c = '\u0345' := by
  obtain ⟨-, -, apart, -⟩ := capitalRuns_words
  unfold smallLetter at small
  split at small
  · rename_i ascii
    have code : c.toLower.toNat < 128 := of_ascii (P := fun c => c.toLower.toNat < 128) (by decide) ascii
    rw [small] at code
    exact absurd code (by decide)
  · have number : smallInRuns capitalRuns c.toNat = 0x345 := by
      have code := congrArg Char.toNat small
      rw [Char.toNat_ofNat] at code
      split at code
      · exact code
      · exact absurd code (by decide)
    rwa [smallInRuns_image apart number.ge number.le, Char.ofNat_toNat] at small

/-- The one character outside words that is the same letter as one of a word in another case. -/
theorem eq_subscript_of_caseKey {c d : Char} (same : caseKey c = caseKey d) (outside : isWordChar c = false)
    (letter : isWordChar d = true) : c = '\u0345' := by
  obtain ⟨-, -, -, variants⟩ := capitalRuns_words
  rw [← isWordChar_smallLetter] at outside letter
  have own : caseKey c = smallLetter c := by
    simp only [caseKey]
    split
    · rfl
    · split
      · rename_i key found
        have word := (variants _ (mem_of_lookup found)).1
        rw [Char.ofNat_toNat, outside] at word
        cases word
      · rfl
  have other (same : smallLetter c = smallLetter d) : c = '\u0345' := by
    rw [same, letter] at outside
    cases outside
  rw [own] at same
  simp only [caseKey] at same
  split at same
  · exact other same
  · split at same
    · rename_i key found
      rcases (variants _ (mem_of_lookup found)).2 with word | rfl
      · rw [← same, outside] at word
        cases word
      · exact eq_subscript_of_smallLetter same
    · exact other same

/-- What has the same letters as a word, in another case, is a word, unless a letter of the word is also
written as a subscript. -/
theorem letters_of_caseKey {word taken : Text}
    (letters : ∀ d ∈ word, isWordChar d = true ∧ caseKey '\u0345' ≠ caseKey d)
    (same : taken.map caseKey = word.map caseKey) : ∀ c ∈ taken, isWordChar c = true := by
  intro c member
  by_contra outside
  obtain ⟨d, inside, key⟩ := List.mem_map.mp (same ▸ List.mem_map_of_mem member)
  obtain ⟨letter, other⟩ := letters d inside
  obtain rfl := eq_subscript_of_caseKey key.symm (by simpa using outside) letter
  exact other key.symm

end Pseudocode
