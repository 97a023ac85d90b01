import Pseudocode.Proofs.LiteralSpans

namespace Pseudocode

open List Option
variable {c : Char} {text rest : Text} {n : Nat}

namespace Fades

variable {text faded : Text}

theorem head (fades : Fades text faded) (shows : faded.head? = some c) :
    text.head? = some c ∨ c = ' ' := by
  cases fades with
  | nil => exact .inl shows
  | cons kept _ =>
    obtain rfl := Option.some.inj shows
    exact kept.imp_left fun same => by rw [head?_cons, same]

theorem count_le (fades : Fades text faded) (solid : c ≠ ' ') : faded.count c ≤ text.count c := by
  unfold Fades at fades
  induction fades with
  | nil => exact le_rfl
  | @cons a b _ _ kept _ ih =>
    rcases kept with rfl | rfl
    · simpa [count_cons] using ih
    · rw [count_cons_of_ne solid.symm]
      exact ih.trans count_le_count_cons

end Fades

section Blanking

variable {replacer : Replacer} {length? : Text → Option Nat}

theorem substituteFrom_blanks (blanking : Blanks replacer length?) (before : Option Char) (skip : Nat)
    (text : Text) :
    substituteFrom replacer before skip text = substitute replacer (text.drop skip) := by
  obtain ⟨next, same⟩ := substituteFrom_skip replacer before skip text
  rw [same, substitute]
  cases text.drop skip <;> rw [substituteFrom, substituteFrom, blanking, blanking none]

theorem substitute_blank (blanking : Blanks replacer length?) (lengths : IsLength length?)
    (found : length? text = some n) : substitute replacer text = blanks n ++ substitute replacer (text.drop n) := by
  obtain ⟨positive, bound⟩ := lengths _ _ found
  obtain ⟨n, rfl⟩ := Nat.exists_eq_succ_of_ne_zero positive.ne'
  cases text with
  | nil => simp at bound
  | cons c rest =>
    rw [substitute, substituteFrom, blanking, found, map_some]
    simp only [substituteFrom_blanks blanking, drop_succ_cons]

theorem substitute_keep (blanking : Blanks replacer length?)
    (kept : length? (c :: rest) = none) : substitute replacer (c :: rest) = c :: substitute replacer rest := by
  rw [substitute, substituteFrom, blanking, kept, map_none]
  simp only [substituteFrom_blanks blanking, drop_zero]

/-- What blanking out one stretch and keeping one character preserve holds of all that is left. -/
theorem substitute_induction (blanking : Blanks replacer length?) (lengths : IsLength length?)
    {motive : Text → Prop}
    (nil : motive []) (blank : ∀ n out, motive out → motive (blanks n ++ out))
    (keep : ∀ c rest, length? (c :: rest) = none → motive (substitute replacer rest) →
      motive (c :: substitute replacer rest))
    (text : Text) : motive (substitute replacer text) := by
  induction length : text.length using Nat.strong_induction_on generalizing text with
  | _ _ ih =>
    subst length
    cases found : length? text with
    | some n =>
      have bounds := lengths _ _ found
      rw [substitute_blank blanking lengths found]
      exact blank n _ (ih _ (by rw [length_drop]; omega) _ rfl)
    | none =>
      cases text with
      | nil => rwa [substitute, substituteFrom, blanking, found]
      | cons c rest =>
        rw [substitute_keep blanking found]
        exact keep c rest found (ih _ (by simp) rest rfl)

end Blanking

theorem blankDoubleQuoted_none (few : text.count '"' ≤ 1) (before : Option Char) :
    blankDoubleQuoted before text = none := by
  unfold blankDoubleQuoted
  split
  · rename_i rest
    have absent : '"' ∉ rest := fun member => by
      have := count_pos_iff.mpr member
      rw [count_cons_self] at few
      omega
    have whole : rest.takeWhile (· ≠ '"') = rest := by
      rw [List.takeWhile_eq_self_iff]
      intro c member
      simpa using fun same : c = '"' => absent (same ▸ member)
    rw [whole, if_neg (lt_irrefl _)]
  · rfl

/-- Of the double quotes one is left at most. -/
theorem count_withoutPairs (text : Text) : (withoutPairs text).count '"' ≤ 1 := by
  refine substitute_induction blankDoubleQuoted_blanks pairLength?_isLength
    (motive := fun out => out.count '"' ≤ 1) (by simp) ?_ ?_ text
  · intro n out few
    rwa [count_append, blanks, count_replicate, if_neg (by decide), Nat.zero_add]
  · intro c rest kept few
    by_cases quote : c = '"'
    · subst quote
      have absent : '"' ∉ rest := fun member => by
        simp only [pairLength?, blankDoubleQuoted, map_eq_none_iff, ite_eq_right_iff, reduceCtorEq, imp_false,
          not_lt] at kept
        have whole := (List.takeWhile_prefix (· ≠ '"')).eq_of_length_le kept
        rw [← whole] at member
        simpa using List.mem_takeWhile_imp member
      have faded := (blankDoubleQuoted_fades.substitute rest).count_le (c := '"') (by decide)
      rw [count_eq_zero_of_not_mem absent] at faded
      rw [count_cons_self]
      omega
    · rwa [count_cons_of_ne quote]

/-- A single quote in second place has not moved up to a character that has gone blank: too many have
gone with it. -/
theorem quote_second
    (shows : substitute blankSingleQuoted text = c :: '\'' :: rest) : ∃ tail, text = c :: '\'' :: tail := by
  cases found : quotedCharLength? text with
  | none =>
    cases text with
    | nil => cases shows
    | cons d text =>
      rw [substitute_keep blankSingleQuoted_blanks found] at shows
      obtain ⟨rfl, later⟩ := List.cons.inj shows
      have head := (blankSingleQuoted_fades.substitute text).head (c := '\'') (by rw [later]; rfl)
      obtain ⟨tail, rfl⟩ := head?_eq_some_iff.mp (head.resolve_right (by decide))
      exact ⟨tail, rfl⟩
  | some n =>
    rw [substitute_blank blankSingleQuoted_blanks quotedCharLength?_isLength found] at shows
    cases quotedCharLength?_eq_some.mp found <;> simp [blanks, replicate_succ] at shows

/-- A quoted character that shows after the blanking was there before it. -/
theorem quotedChar_shown
    (shown : QuotedChar (c :: substitute blankSingleQuoted text) n) : QuotedChar (c :: text) n := by
  generalize masked : substitute blankSingleQuoted text = out at shown
  cases shown with
  | plain slash quote =>
    obtain ⟨tail, rfl⟩ := quote_second masked
    exact .plain slash quote
  | escaped feed =>
    have head := (blankSingleQuoted_fades.substitute text).head (c := '\\') (by rw [masked]; rfl)
    obtain ⟨tail, rfl⟩ := head?_eq_some_iff.mp (head.resolve_right (by decide))
    rw [substitute_keep blankSingleQuoted_blanks rfl] at masked
    obtain ⟨more, rfl⟩ := quote_second (List.cons.inj masked).2
    exact .escaped feed

theorem suffix_blanks (within : rest <:+ blanks n ++ text) :
    rest <:+ text ∨ rest.head? = some ' ' := by
  induction n with
  | zero => exact .inl within
  | succ n ih =>
    rw [blanks, replicate_succ, cons_append] at within
    rcases suffix_cons_iff.mp within with rfl | later
    · exact .inr rfl
    · exact ih later

/-- No quoted character is left. -/
theorem quotedCharLength?_idle (text : Text) :
    ∀ rest, rest <:+ substitute blankSingleQuoted text → quotedCharLength? rest = none := by
  refine substitute_induction blankSingleQuoted_blanks quotedCharLength?_isLength
    (motive := fun out => ∀ rest, rest <:+ out → quotedCharLength? rest = none) ?_ ?_ ?_ text
  · intro rest within
    rw [suffix_nil.mp within]
    rfl
  · intro n out ih rest within
    rcases suffix_blanks within with later | head
    · exact ih rest later
    · obtain ⟨tail, rfl⟩ := head?_eq_some_iff.mp head
      rfl
  · intro c text kept ih rest within
    rcases suffix_cons_iff.mp within with rfl | later
    · by_contra shown
      obtain ⟨n, found⟩ := ne_none_iff_exists'.mp shown
      rw [quotedCharLength?_eq_some.mpr (quotedChar_shown (quotedCharLength?_eq_some.mp found))] at kept
      cases kept
    · exact ih rest later

theorem maskStrings_idempotent (text : Text) : maskStrings (maskStrings text) = maskStrings text := by
  have few : (maskStrings text).count '"' ≤ 1 :=
    ((blankSingleQuoted_fades.substitute _).count_le (by decide)).trans (count_withoutPairs text)
  have double : substitute blankDoubleQuoted (maskStrings text) = maskStrings text :=
    substituteFrom_idle (fun before rest within =>
      blankDoubleQuoted_none ((within.sublist.count_le _).trans few) before) none
  rw [maskStrings, double]
  refine substituteFrom_idle (fun before rest within => ?_) none
  rw [blankSingleQuoted_blanks, quotedCharLength?_idle _ rest within, map_none]

/-- No field name follows a point. -/
def Fieldless (text : Text) : Prop :=
  text.IsChain fun c d => c = '.' → startsIdentifier d = false

namespace Fieldless

variable {text rest : Text}

theorem suffix (fieldless : Fieldless text) (within : rest <:+ text) : Fieldless rest :=
  List.IsChain.suffix fieldless within

theorem blankField_none (fieldless : Fieldless text) (before : Option Char) : blankField before text = none := by
  unfold blankField
  split
  · rename_i rest
    rw [map_eq_none_iff]
    cases rest with
    | nil => rfl
    | cons d rest =>
      have start := (isChain_cons.mp fieldless).1 d rfl rfl
      rw [identifier?, start]
      rfl
  · rfl

/-- A round of field masking leaves a text without fields. -/
theorem maskFieldsOnce (fieldless : Fieldless text) : maskFieldsOnce text = text := by
  have named : substitute blankNamedField text = text := by
    refine substituteFrom_idle (fun before rest within => ?_) none
    unfold blankNamedField
    split
    · rename_i found
      obtain ⟨split, -⟩ := identifier?_eq_some found
      rw [(fieldless.suffix ((split ▸ suffix_append _ _).trans within)).blankField_none]
      rfl
    · rfl
  have indexed : substitute blankIndexedField text = text := by
    refine substituteFrom_idle (fun before rest within => ?_) none
    unfold blankIndexedField
    split
    · rw [(fieldless.suffix ((suffix_cons _ _).trans within)).blankField_none]
      rfl
    · rfl
  have plain : substitute blankField text = text :=
    substituteFrom_idle (fun before rest within => (fieldless.suffix within).blankField_none before) none
  rw [Pseudocode.maskFieldsOnce, named, indexed, plain]

theorem maskFieldsWithin (fieldless : Fieldless text) (limit : Nat) : maskFieldsWithin limit text = text := by
  cases limit with
  | zero => rfl
  | succ limit =>
    rw [Pseudocode.maskFieldsWithin]
    exact if_pos fieldless.maskFieldsOnce

end Fieldless

/-- How long a field access at the start of a text is. -/
def fieldLength? (text : Text) : Option Nat :=
  (blankField none text).map (·.1)

theorem blankField_blanks : Blanks blankField fieldLength? := by
  intro before text
  unfold fieldLength? blankField
  split
  · rw [Option.map_map, Option.map_map]
    rfl
  · rfl

theorem fieldless_blankField (text : Text) : Fieldless (substitute blankField text) := by
  refine substitute_induction blankField_blanks blankField_fades.isLength (motive := Fieldless) .nil ?_ ?_ text
  · intro n out ih
    unfold Fieldless at *
    rw [blanks, isChain_append]
    refine ⟨isChain_replicate_of_rel _ fun point => absurd point (by decide), ih, fun c last d _ point => ?_⟩
    have blank := eq_of_mem_replicate (mem_of_getLast? last)
    exact absurd (blank.symm.trans point) (by decide)
  · intro c rest kept ih
    refine isChain_cons.mpr ⟨fun d head point => ?_, ih⟩
    subst point
    rcases (blankField_fades.substitute rest).head head with first | rfl
    · obtain ⟨tail, rfl⟩ := head?_eq_some_iff.mp first
      by_contra starts
      simp [fieldLength?, blankField, identifier?, starts] at kept
    · decide

/-- One round leaves no field, so that the second changes nothing. -/
theorem fieldless_maskFieldsOnce (text : Text) : Fieldless (maskFieldsOnce text) :=
  fieldless_blankField _

theorem maskFieldsWithin_succ (limit : Nat) (text : Text) :
    maskFieldsWithin (limit + 1) text = maskFieldsOnce text := by
  rw [maskFieldsWithin]
  split
  · rename_i same
    exact same.symm
  · exact (fieldless_maskFieldsOnce text).maskFieldsWithin limit

/-- Both masks keep every character in its place or make it blank, and what they give they give again.
Of field names none is left, and the rounds end because nothing changes, not because the limit is
reached. -/
theorem masks_settle (text : Text) :
    (Fades text (maskStrings text) ∧ maskStrings (maskStrings text) = maskStrings text) ∧
      (Fades text (maskFields text) ∧ maskFields (maskFields text) = maskFields text ∧
        Fieldless (maskFields text)) ∧
      (∃ rounds < maskRoundLimit, maskFieldsOnce^[rounds] text = maskFields text ∧
        maskFieldsOnce (maskFields text) = maskFields text) ∧
      ∀ more, maskFieldsWithin (maskRoundLimit + more) text = maskFields text := by
  have once : maskFields text = maskFieldsOnce text := maskFieldsWithin_succ _ text
  have fieldless : Fieldless (maskFields text) := once ▸ fieldless_maskFieldsOnce text
  refine ⟨⟨maskStrings_fades text, maskStrings_idempotent text⟩,
    ⟨maskFieldsWithin_fades _ text, fieldless.maskFieldsWithin _, fieldless⟩,
    ⟨1, by decide, once.symm, fieldless.maskFieldsOnce⟩, fun more => ?_⟩
  rw [once, maskRoundLimit, Nat.add_right_comm 63 1 more]
  exact maskFieldsWithin_succ _ text

end Pseudocode
