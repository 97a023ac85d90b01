import Pseudocode.Proofs.Bracketing

namespace Pseudocode

open List Option

section Search

variable {opener closer : Char} {text inside after : Text}

/-- To leave several brackets is to leave some of them and then the others. -/
theorem splitClose?_add (differ : opener ≠ closer) (depth further : Nat) (text : Text) :
    splitClose? opener closer (depth + further + 1) text =
      (splitClose? opener closer depth text).bind fun (first, rest) =>
        (splitClose? opener closer further rest).map fun (second, after) =>
          (first ++ closer :: second, after) := by
  induction text generalizing depth with
  | nil => rfl
  | cons c rest ih =>
    by_cases opens : c = opener
    · subst opens
      rw [splitClose?_opener, splitClose?_opener, Nat.add_right_comm, Nat.add_right_comm depth, ih,
        map_bind, bind_map]
      congr 1
      funext found
      simp [Function.comp_def]
    · by_cases closes : c = closer
      · subst closes
        rw [splitClose?_closer differ.symm]
        cases depth with
        | zero =>
          rw [Nat.zero_add, splitClose?, if_neg differ.symm, if_pos rfl]
          rfl
        | succ depth =>
          rw [splitClose?_closer differ.symm, Nat.add_right_comm, ih, map_bind, bind_map]
          congr 1
          funext found
          simp [Function.comp_def]
      · rw [splitClose?_other opens closes, splitClose?_other opens closes, ih, map_bind, bind_map]
        congr 1
        funext found
        simp [Function.comp_def]

/-- What the search leaves inside is paired off. -/
theorem paired_of_splitClose? (differ : opener ≠ closer)
    (found : splitClose? opener closer 0 text = some (inside, after)) : Paired opener closer inside := by
  induction length : text.length using Nat.strong_induction_on generalizing text inside after with
  | _ _ ih =>
    subst length
    cases text with
    | nil => cases found
    | cons c rest =>
      by_cases opens : c = opener
      · subst opens
        rw [splitClose?_opener, splitClose?_add differ 0 0] at found
        obtain ⟨⟨whole, tail⟩, parts, same⟩ := map_eq_some_iff.mp found
        obtain ⟨⟨first, middle⟩, here, later⟩ := bind_eq_some_iff.mp parts
        obtain ⟨⟨second, last⟩, there, joined⟩ := map_eq_some_iff.mp later
        obtain ⟨rfl, rfl⟩ := Prod.mk.inj joined
        obtain ⟨rfl, rfl⟩ := Prod.mk.inj same
        have shorter := splitClose?_length here
        exact .group (ih _ (by simp) here rfl) (ih _ (by simp only [length_cons]; omega) there rfl)
      · by_cases closes : c = closer
        · subst closes
          rw [splitClose?, if_neg opens, if_pos rfl] at found
          obtain ⟨rfl, -⟩ := Prod.mk.inj (Option.some.inj found)
          exact .nil
        · rw [splitClose?_other opens closes] at found
          obtain ⟨⟨inner, tail⟩, later, same⟩ := map_eq_some_iff.mp found
          obtain ⟨rfl, rfl⟩ := Prod.mk.inj same
          exact .other opens closes (ih _ (by simp) later rfl)

/-- The search stops at the closer that a paired text leads up to. -/
theorem splitClose?_eq_some_iff (differ : opener ≠ closer) :
    splitClose? opener closer 0 text = some (inside, after) ↔
      text = inside ++ closer :: after ∧ Paired opener closer inside := by
  constructor
  · exact fun found => ⟨splitClose?_eq_some found, paired_of_splitClose? differ found⟩
  · rintro ⟨rfl, paired⟩
    rw [paired.splitClose? differ, splitClose?, if_neg differ.symm, if_pos rfl]
    simp

end Search

/-- The bracket at `stop` closes one at `start`: it is a closer, and all between the two is paired off. -/
structure Closes (opener closer : Char) (text : Text) (start stop : Nat) : Prop where
  after : start < stop
  ends : text[stop]? = some closer
  between : Paired opener closer ((text.take stop).drop (start + 1))

section Place

variable {opener closer : Char} {text : Text} {start stop : Nat}

/-- The text behind the opener is what stands between the two brackets, the closer and the rest. -/
theorem closes_iff : Closes opener closer text start stop ↔
    ∃ inside after, text.drop (start + 1) = inside ++ closer :: after ∧ Paired opener closer inside ∧
      stop = start + 1 + inside.length := by
  constructor
  · intro closes
    obtain ⟨bound, here⟩ := List.getElem?_eq_some_iff.mp closes.ends
    have behind := closes.after
    refine ⟨(text.take stop).drop (start + 1), text.drop (stop + 1), ?_, closes.between, ?_⟩
    · have split : text = text.take stop ++ closer :: text.drop (stop + 1) := by
        rw [← here, cons_getElem_drop_succ, take_append_drop]
      nth_rewrite 1 [split]
      rw [drop_append_of_le_length]
      rw [length_take]
      omega
    · rw [length_drop, length_take]
      omega
  · rintro ⟨inside, after, shape, paired, rfl⟩
    refine ⟨by omega, ?_, ?_⟩
    · rw [← getElem?_drop, shape, getElem?_append_right le_rfl, Nat.sub_self]
      rfl
    · rwa [drop_take, shape, Nat.add_sub_cancel_left, take_left]

/-- The search finds a place exactly if a closing bracket stands there. -/
theorem closingPlace_found (differ : opener ≠ closer) (text : Text) (start : Nat) (place : Int) :
    closingPlace opener closer text start = .ok (some place) ↔
      ∃ stop : Nat, place = stop ∧ Closes opener closer text start stop := by
  have forward : (0 : Int) ≤ start + 1 := by omega
  have number : ((start : Int) + 1).toNat = start + 1 := rfl
  rw [closingPlace]
  simp only [if_pos forward, number, Except.ok.injEq, map_eq_some_iff, Prod.exists]
  constructor
  · rintro ⟨inside, after, found, rfl⟩
    obtain ⟨shape, paired⟩ := (splitClose?_eq_some_iff differ).mp found
    exact ⟨start + 1 + inside.length, by push_cast; rfl, closes_iff.mpr ⟨inside, after, shape, paired, rfl⟩⟩
  · rintro ⟨stop, rfl, closes⟩
    obtain ⟨inside, after, shape, paired, rfl⟩ := closes_iff.mp closes
    exact ⟨inside, after, (splitClose?_eq_some_iff differ).mpr ⟨shape, paired⟩, by push_cast; rfl⟩

/-- A place inside a text is never refused. -/
theorem closingPlace_answers (opener closer : Char) (text : Text) (start : Nat) :
    ∃ answer, closingPlace opener closer text start = .ok answer := by
  have forward : (0 : Int) ≤ start + 1 := by omega
  rw [closingPlace]
  exact ⟨_, if_pos forward⟩

/-- The search for the bracket that closes the one at `start` finds exactly the closer that a paired
text leads up to, of which there is at most one, and finds nothing exactly if there is none. -/
theorem closingPlace_exact (differ : opener ≠ closer) (text : Text) (start : Nat) :
    (∀ place : Int, closingPlace opener closer text start = .ok (some place) ↔
        ∃ stop : Nat, place = stop ∧ Closes opener closer text start stop) ∧
      (closingPlace opener closer text start = .ok none ↔ ¬∃ stop, Closes opener closer text start stop) ∧
      ∀ stop other, Closes opener closer text start stop → Closes opener closer text start other →
        stop = other := by
  have found := closingPlace_found differ text start
  refine ⟨found, ⟨?_, ?_⟩, ?_⟩
  · rintro missing ⟨stop, closes⟩
    have here := (found stop).mpr ⟨stop, rfl, closes⟩
    rw [missing] at here
    cases here
  · intro none
    obtain ⟨answer, same⟩ := closingPlace_answers opener closer text start
    cases answer with
    | none => exact same
    | some place =>
      obtain ⟨stop, -, closes⟩ := (found place).mp same
      exact absurd ⟨stop, closes⟩ none
  · intro stop other closes second
    have here := (found stop).mpr ⟨stop, rfl, closes⟩
    rw [(found other).mpr ⟨other, rfl, second⟩] at here
    exact (Int.ofNat_inj.mp (Option.some.inj (Except.ok.inj here))).symm

/-- The first bracket of `a(b(c)d)e` is closed by the last one. -/
theorem closingPlace_exact_nested :
    '(' ≠ ')' ∧ closingPlace '(' ')' "a(b(c)d)e".toList 1 = .ok (some 7) ∧
      Closes '(' ')' "a(b(c)d)e".toList 1 7 ∧ ¬Closes '(' ')' "a(b(c)d)e".toList 1 5 := by
  have differ : '(' ≠ ')' := by decide
  obtain ⟨found, -, unique⟩ := closingPlace_exact differ "a(b(c)d)e".toList 1
  have here : closingPlace '(' ')' "a(b(c)d)e".toList 1 = .ok (some 7) := rfl
  obtain ⟨stop, place, closes⟩ := (found 7).mp here
  obtain rfl : stop = 7 := by omega
  exact ⟨differ, here, closes, fun other => absurd (unique 5 7 other closes) (by decide)⟩

end Place

end Pseudocode
