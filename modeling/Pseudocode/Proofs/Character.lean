import Mathlib
import Pseudocode.Identifier

namespace Pseudocode

open List
variable {c : Char} {low high n : Nat} {runs : List (Nat × Nat × Nat × Nat)} {name : Text}

theorem mem_of_lookup {α β : Type} [BEq α] [LawfulBEq α] {pairs : List (α × β)} {key : α} {value : β}
    (found : pairs.lookup key = some value) : (key, value) ∈ pairs := by
  obtain ⟨before, after, listed, -⟩ := lookup_eq_some_iff.mp found
  simp [listed]

/-- What holds of the 128 ASCII characters by their numbers. -/
theorem of_ascii {P : Char → Prop} (all : ∀ n < 128, P (Char.ofNat n)) (ascii : c.toNat < 128) : P c := by
  have here := all c.toNat ascii
  rwa [Char.ofNat_toNat] at here

theorem inRanges_gap {ranges : List (Nat × Nat)}
    (gap : ∀ range ∈ ranges, range.2 < low ∨ high < range.1) (above : low ≤ n) (below : n ≤ high) :
    inRanges ranges n = false := by
  induction ranges with
  | nil => rfl
  | cons range ranges ih =>
    obtain ⟨first, last⟩ := range
    have here := gap (first, last) (.head _)
    have later := ih fun range member => gap range (.tail _ member)
    simp only [inRanges]
    split
    · rfl
    · have outside : ¬n ≤ last := by simp only at here; omega
      simp [outside, later]

theorem smallInRuns_gap
    (gap : ∀ run ∈ runs, run.2.1 < low ∨ high < run.1) (above : low ≤ n) (below : n ≤ high) :
    smallInRuns runs n = n := by
  induction runs with
  | nil => rfl
  | cons run runs ih =>
    obtain ⟨first, last, step, small⟩ := run
    have here := gap (first, last, step, small) (.head _)
    have later := ih fun run member => gap run (.tail _ member)
    simp only [smallInRuns]
    simp only at here
    split
    · rfl
    · rw [if_neg (by omega), later]

theorem smallInRuns_image (gap : ∀ run ∈ runs, run.2.2.2 + (run.2.1 - run.1) < low ∨ high < run.2.2.2)
    (above : low ≤ smallInRuns runs n) (below : smallInRuns runs n ≤ high) :
    smallInRuns runs n = n := by
  induction runs with
  | nil => rfl
  | cons run runs ih =>
    obtain ⟨first, last, step, small⟩ := run
    have here := gap (first, last, step, small) (.head _)
    have later := ih fun run member => gap run (.tail _ member)
    simp only [smallInRuns] at above below ⊢
    simp only at here
    split
    · rfl
    · rename_i atLeast
      rw [if_neg atLeast] at above below
      split
      · rename_i inRun
        rw [if_pos inRun] at above below
        omega
      · rename_i beyond
        rw [if_neg beyond] at above below
        exact later above below

/-- No other character is the same letter in another case. -/
def isUncased (c : Char) : Bool :=
  caseKey c = c && !c.isAlpha && 0 < c.toNat &&
    capitalRuns.all (fun run => run.2.2.2 + (run.2.1 - run.1) < c.toNat || c.toNat < run.2.2.2) &&
    caseVariants.all fun pair => Char.ofNat pair.2 ≠ c

theorem eq_of_caseKey_uncased {w : Char} (uncased : isUncased c = true)
    (same : caseKey w = caseKey c) : w = c := by
  simp only [isUncased, Bool.and_eq_true, decide_eq_true_eq, Bool.not_eq_true', all_eq_true,
    Bool.or_eq_true] at uncased
  obtain ⟨⟨⟨⟨fixed, symbol⟩, positive⟩, runs⟩, variants⟩ := uncased
  rw [fixed] at same
  have small : smallLetter w = c := by
    simp only [caseKey] at same
    split at same
    · exact same
    · split at same
      · rename_i key found
        exact absurd same (variants (_, key) (mem_of_lookup found))
      · exact same
  by_cases ascii : w.toNat < 128
  · have lowered : w.toLower = c := by rwa [smallLetter, if_pos ascii] at small
    have kept : w.toLower.isAlpha = false → w.toLower = w :=
      of_ascii (P := fun w => w.toLower.isAlpha = false → w.toLower = w) (by decide) ascii
    rw [← lowered] at symbol ⊢
    exact (kept symbol).symm
  · rw [smallLetter, if_neg ascii] at small
    have value : smallInRuns capitalRuns w.toNat = c.toNat := by
      have number := congrArg Char.toNat small
      rw [Char.toNat_ofNat] at number
      split at number
      · exact number
      · omega
    have image := smallInRuns_image (n := w.toNat) runs value.ge value.le
    rw [← small, image, Char.ofNat_toNat]

/-- The codes of the blank characters. -/
def blankCodes : List Nat :=
  List.range' 9 5 ++ List.range' 28 5 ++ [0x85, 0xa0, 0x1680] ++ List.range' 0x2000 11 ++
    [0x2028, 0x2029, 0x202f, 0x205f, 0x3000]

/-- Ranges of codes beyond ASCII that hold the blanks and what is reserved for placeholders. -/
def signRanges : List (Nat × Nat) :=
  [(0x85, 0x85), (0xa0, 0xa0), (0x1680, 0x1680), (0x2000, 0x205f), (0x3000, 0x3000), (0xe000, 0xe1ff)]

/-- No letter or digit stands in these ranges, neither capitals nor their small letters stand among
the placeholders, and blanks have no case. -/
theorem signRanges_apart :
    (∀ gap ∈ signRanges, ∀ range ∈ alphanumericRanges, range.2 < gap.1 ∨ gap.2 < range.1) ∧
      (∀ run ∈ capitalRuns, (run.2.1 < 0xe000 ∨ 0xe1ff < run.1) ∧
        (run.2.2.2 + (run.2.1 - run.1) < 0xe000 ∨ 0xe1ff < run.2.2.2)) ∧
      ∀ n ∈ blankCodes, isUncased (Char.ofNat n) = true := by
  decide +kernel

theorem isBlank_uncased (blank : isBlank c = true) : isUncased c = true := by
  obtain ⟨-, -, all⟩ := signRanges_apart
  have code : c.toNat ∈ blankCodes := by
    simp only [isBlank, Bool.or_eq_true, Bool.and_eq_true, decide_eq_true_eq, beq_iff_eq] at blank
    simp only [blankCodes, mem_append, mem_range'_1, mem_cons, not_mem_nil, or_false]
    omega
  rw [← Char.ofNat_toNat c]
  exact all _ code

theorem isBlank_not_wordChar (blank : isBlank c = true) : isWordChar c = false := by
  have outside {low high : Nat} (beyond : 128 ≤ low)
      (gap : ∀ range ∈ alphanumericRanges, range.2 < low ∨ high < range.1)
      (above : low ≤ c.toNat) (below : c.toNat ≤ high) : isWordChar c = false := by
    have letter : isAlphanumeric c = false := by
      rw [isAlphanumeric, if_neg (by omega), inRanges_gap gap above below]
    have bar : c ≠ '_' := by rintro rfl; exact absurd (le_trans beyond above) (by decide)
    simp [isWordChar, letter, bar]
  by_cases small : c.toNat < 128
  · exact of_ascii (P := fun c => isBlank c = true → isWordChar c = false) (by decide)
      small blank
  · simp only [isBlank, Bool.or_eq_true, Bool.and_eq_true, decide_eq_true_eq, beq_iff_eq] at blank
    have spaces : c.toNat = 0x85 ∨ c.toNat = 0xa0 ∨ c.toNat = 0x1680 ∨
        (0x2000 ≤ c.toNat ∧ c.toNat ≤ 0x205f) ∨ c.toNat = 0x3000 := by omega
    obtain ⟨letters, -, -⟩ := signRanges_apart
    rcases spaces with same | same | same | ⟨above, below⟩ | same
    · exact outside (by decide) (letters (0x85, 0x85) (by decide)) same.ge same.le
    · exact outside (by decide) (letters (0xa0, 0xa0) (by decide)) same.ge same.le
    · exact outside (by decide) (letters (0x1680, 0x1680) (by decide)) same.ge same.le
    · exact outside (by decide) (letters (0x2000, 0x205f) (by decide)) above below
    · exact outside (by decide) (letters (0x3000, 0x3000) (by decide)) same.ge same.le

theorem identifier?_eq_some {text rest : Text} (found : identifier? text = some (name, rest)) :
    text = name ++ rest ∧ identifier? name = some (name, []) := by
  cases text with
  | nil => simp [identifier?] at found
  | cons c tail =>
    simp only [identifier?] at found
    split at found
    · rename_i starts
      simp only [Option.some.injEq, Prod.mk.injEq] at found
      obtain ⟨rfl, rfl⟩ := found
      refine ⟨by simp, ?_⟩
      have words : ∀ d ∈ tail.takeWhile isWordChar, isWordChar d = true :=
        fun d => mem_takeWhile_imp
      rw [identifier?, if_pos starts, takeWhile_eq_self_iff.mpr words,
        dropWhile_eq_nil_iff.mpr words]
    · simp at found

theorem identifier?_mem (whole : identifier? name = some (name, []))
    (member : c ∈ name) : isWordChar c = true := by
  cases name with
  | nil => simp at member
  | cons first rest =>
    simp only [identifier?] at whole
    split at whole
    · rename_i starts
      simp only [Option.some.injEq, Prod.mk.injEq, dropWhile_eq_nil_iff] at whole
      rcases mem_cons.mp member with rfl | later
      · exact (Bool.and_eq_true_iff.mp starts).1
      · exact whole.2 c later
    · simp at whole

theorem isIdentifier_mem (whole : isIdentifier name = true)
    (member : c ∈ name) : isWordChar c = true ∨ c = '\n' := by
  unfold isIdentifier at whole
  split at whole
  · rename_i word found
    obtain ⟨shape, found⟩ := identifier?_eq_some found
    rw [shape, append_nil] at member
    exact .inl (identifier?_mem found member)
  · rename_i word found
    obtain ⟨shape, found⟩ := identifier?_eq_some found
    rw [shape, mem_append, mem_singleton] at member
    exact member.imp_left (identifier?_mem found)
  · simp at whole

theorem identifier?_append {rest : Text} (whole : identifier? name = some (name, []))
    (ends : atWordEnd rest = true) : identifier? (name ++ rest) = some (name, rest) := by
  cases name with
  | nil => simp [identifier?] at whole
  | cons c tail =>
    have words : ∀ d ∈ tail, isWordChar d = true :=
      fun d member => identifier?_mem whole (.tail _ member)
    have stop : rest.takeWhile isWordChar = [] ∧ rest.dropWhile isWordChar = rest := by
      cases rest with
      | nil => exact ⟨rfl, rfl⟩
      | cons d rest =>
        have plain : ¬isWordChar d = true := by simpa [atWordEnd] using ends
        exact ⟨takeWhile_cons_of_neg plain, dropWhile_cons_of_neg plain⟩
    have starts : startsIdentifier c = true := by
      by_contra other
      simp [identifier?, other] at whole
    rw [cons_append, identifier?, if_pos starts, takeWhile_append_of_pos words,
      dropWhile_append_of_pos words, stop.1, stop.2, append_nil]

end Pseudocode
