import Pseudocode.Proofs.Legible

namespace Pseudocode

open List Option Placeholder

variable {strict : Bool}
variable {text rest : Text} {holds : Text → Prop}

/-- The start of the names of all helpers. -/
def helperStem : Text :=
  "__psc".toList

/-- No word comes right after a closing parenthesis. -/
def Parted (text : Text) : Prop :=
  text.IsChain fun c d => c = ')' → isWordChar d = false

instance (text : Text) : Decidable (Parted text) :=
  inferInstanceAs (Decidable (List.IsChain _ _))

/-- A text of plain characters that names no helper. -/
def isFixed (text : Text) : Bool :=
  text.all (·.toNat < 128) && !decide (helperStem <:+: text) && decide (Parted text)

theorem isFixed_iff : isFixed text = true ↔
    (∀ c ∈ text, c.toNat < 128) ∧ ¬ helperStem <:+: text ∧ Parted text := by
  simp [isFixed, and_assoc]

theorem Parted.of_open (absent : ')' ∉ text) : Parted text := by
  unfold Parted
  induction text with
  | nil => exact .nil
  | cons c text ih =>
    rw [mem_cons, not_or] at absent
    cases text with
    | nil => exact .singleton c
    | cons d text => exact .cons_cons (fun same => absurd same.symm absent.1) (ih absent.2)

/-- After `last` a word may start: no other one and no parenthesis comes right before it. -/
def isLoose (last : Option Char) : Bool :=
  atWordStart last && last != some ')'

/-- The texts can be joined: the second goes on with no word, or the first leaves room for one. -/
def Joint (text rest : Text) : Prop :=
  isLoose text.getLast? = true ∨ atWordEnd rest = true

/-- A property of texts that survives joining where no two words meet. -/
structure Joinable (holds : Text → Prop) : Prop where
  fixed : ∀ {text : Text}, isFixed text = true → holds text
  fit : ∀ {text rest : Text}, Joint text rest → holds text → holds rest → holds (text ++ rest)

/-- A property that survives cutting, and joining where no two words meet. -/
structure Fitting (strict : Bool) (holds : Text → Prop) : Prop extends
  Severable strict holds, Joinable holds

theorem Seamless.fitting (seamless : Seamless strict holds) :
    Fitting strict holds where
  toSeverable := seamless.toSeverable
  fixed here := seamless.ascii (by simpa using (isFixed_iff.mp here).1)
  fit _ := seamless.append

/-- A fixed text that a word may follow. -/
def isLead (text : Text) : Bool :=
  isFixed text && !text.isEmpty && isLoose text.getLast?

/-- A fixed text that a word may come before. -/
def isTrail (text : Text) : Bool :=
  isFixed text && atWordEnd text

theorem Joint.of_lead {lead : Text} (leads : isLead lead = true) (rest : Text) :
    Joint (text ++ lead) rest := by
  simp only [isLead, Bool.and_eq_true, Bool.not_eq_true', isEmpty_eq_false_iff] at leads
  rw [Joint, getLast?_append_of_ne_nil _ leads.1.2]
  exact .inl leads.2

namespace Joinable

variable {holds : Text → Prop} {text start stop rest : Text}

theorem lead (joins : Joinable holds) (leads : isLead start = true) (here : holds rest) :
    holds (start ++ rest) :=
  joins.fit (show Joint ([] ++ start) rest from .of_lead leads rest)
    (joins.fixed (Bool.and_eq_true_iff.mp (Bool.and_eq_true_iff.mp leads).1).1) here

theorem trail (joins : Joinable holds) (here : holds text) (trails : isTrail stop = true) :
    holds (text ++ stop) := by
  obtain ⟨fixed, ends⟩ := Bool.and_eq_true_iff.mp trails
  exact joins.fit (.inr ends) here (joins.fixed fixed)

/-- A fixed text between two others keeps them apart. -/
theorem between (joins : Joinable holds) (here : holds text)
    (parts : isTrail stop = true ∧ isLead stop = true) (there : holds rest) :
    holds (text ++ stop ++ rest) :=
  joins.fit (.of_lead parts.2 rest) (joins.trail here parts.1) there

theorem enclosed (joins : Joinable holds) (leads : isLead start = true) (here : holds text)
    (trails : isTrail stop = true) : holds (start ++ text ++ stop) :=
  joins.trail (joins.lead leads here) trails

theorem commaSeparated (joins : Joinable holds) {items : List Text}
    (each : ∀ item ∈ items, holds item) : holds (Pseudocode.commaSeparated items) := by
  induction items with
  | nil => exact joins.fixed (by decide)
  | cons item items ih =>
    have first := each item (.head _)
    have others := ih fun other member => each other (.tail _ member)
    cases items with
    | nil => simpa [Pseudocode.commaSeparated, joinWith] using first
    | cons next items =>
      rw [Pseudocode.commaSeparated, joinWith, intercalate_cons_cons]
      exact joins.between first (by decide) others

end Joinable

/-- No word reaches from the first text into the second. -/
def Apart (text rest : Text) : Prop :=
  atWordStart text.getLast? = true ∨ atWordEnd rest = true

theorem Joint.apart (joint : Joint text rest) : Apart text rest :=
  joint.imp_left fun loose => (Bool.and_eq_true_iff.mp loose).1

theorem atWordEnd_left (ends : atWordEnd (text ++ rest) = true) :
    atWordEnd text = true := by
  cases text with
  | nil => rfl
  | cons c text => exact ends

theorem atWordStart_right (starts : atWordStart (text ++ rest).getLast? = true) :
    atWordStart rest.getLast? = true := by
  by_cases empty : rest = []
  · rw [empty]
    rfl
  · rwa [getLast?_append_of_ne_nil _ empty] at starts

/-- Letters in a row are on one side of the seam. -/
theorem Apart.letters_split {word before after : Text} (apart : Apart text rest)
    (letters : ∀ c ∈ word, isWordChar c = true) (split : text ++ rest = before ++ (word ++ after)) :
    (∃ tail, text = before ++ (word ++ tail) ∧ after = tail ++ rest) ∨
      ∃ more, before = text ++ more ∧ rest = more ++ (word ++ after) := by
  rcases append_eq_append_iff.mp split with ⟨more, rfl, rfl⟩ | ⟨more, rfl, inside⟩
  · exact .inr ⟨more, rfl, rfl⟩
  rcases append_eq_append_iff.mp inside with ⟨tail, rfl, rfl⟩ | ⟨tail, rfl, rfl⟩
  · exact .inl ⟨tail, rfl, rfl⟩
  -- A word over the seam would have a letter on either side of it.
  by_cases left : more = []
  · subst left
    exact .inr ⟨[], by simp, by simp⟩
  by_cases right : tail = []
  · subst right
    exact .inl ⟨[], by simp, by simp⟩
  exfalso
  rcases apart with none | none
  · rw [getLast?_append_of_ne_nil _ left] at none
    obtain ⟨c, last⟩ := ne_none_iff_exists'.mp (mt getLast?_eq_none_iff.mp left)
    simp [atWordStart, last, letters c (mem_append_left _ (mem_of_getLast? last))] at none
  · obtain ⟨c, tail, rfl⟩ := exists_cons_of_ne_nil right
    simp [atWordEnd, letters c (by simp)] at none

/-- A word of the text, as far as it goes. -/
structure IsWordOf (word text : Text) : Prop where
  letters : ∀ c ∈ word, isWordChar c = true
  nonempty : word ≠ []
  place : ∃ before after, text = before ++ (word ++ after) ∧ atWordStart before.getLast? = true ∧
    atWordEnd after = true

namespace IsWordOf

variable {word text rest : Text}

theorem isInfix (isWord : IsWordOf word text) : word <:+: text := by
  obtain ⟨before, after, rfl, -⟩ := isWord.place
  exact ⟨before, after, append_assoc _ _ _⟩

theorem last (isWord : IsWordOf word text) : atWordStart word.getLast? = false := by
  obtain ⟨c, last⟩ := ne_none_iff_exists'.mp (mt getLast?_eq_none_iff.mp isWord.nonempty)
  simp [atWordStart, last, isWord.letters c (mem_of_getLast? last)]

theorem head (isWord : IsWordOf word text) : atWordEnd (word ++ rest) = false := by
  obtain ⟨letters, nonempty, -⟩ := isWord
  obtain ⟨c, word, rfl⟩ := exists_cons_of_ne_nil nonempty
  simp [atWordEnd, letters c (.head _)]

theorem append_left (isWord : IsWordOf word text) (apart : Apart text rest) :
    IsWordOf word (text ++ rest) := by
  obtain ⟨before, after, rfl, starts, ends⟩ := isWord.place
  refine ⟨isWord.letters, isWord.nonempty, before, after ++ rest, by simp, starts, ?_⟩
  cases after with
  | nil =>
    rcases apart with left | right
    · rw [append_nil, getLast?_append_of_ne_nil _ isWord.nonempty, isWord.last] at left
      simp at left
    · exact right
  | cons c after => exact ends

theorem append_right (isWord : IsWordOf word rest) (apart : Apart text rest) :
    IsWordOf word (text ++ rest) := by
  obtain ⟨before, after, rfl, starts, ends⟩ := isWord.place
  refine ⟨isWord.letters, isWord.nonempty, text ++ before, after, by simp, ?_, ends⟩
  by_cases empty : before = []
  · subst empty
    rcases apart with left | right
    · rwa [append_nil]
    · rw [nil_append, isWord.head] at right
      simp at right
  · rwa [getLast?_append_of_ne_nil _ empty]

theorem of_append (isWord : IsWordOf word (text ++ rest)) (apart : Apart text rest) :
    IsWordOf word text ∨ IsWordOf word rest := by
  obtain ⟨letters, nonempty, before, after, split, starts, ends⟩ := isWord
  rcases apart.letters_split letters split with ⟨tail, rfl, rfl⟩ | ⟨more, rfl, rfl⟩
  · exact .inl ⟨letters, nonempty, before, tail, rfl, starts, atWordEnd_left ends⟩
  · exact .inr ⟨letters, nonempty, more, after, rfl, atWordStart_right starts, ends⟩

end IsWordOf

theorem blank_or_comma_not_wordChar {c : Char} (outer : isBlank c = true ∨ c = ',') : isWordChar c = false :=
  outer.elim isBlank_not_wordChar (by rintro rfl; decide)

/-- A property that survives cutting and joining where no two words meet. -/
structure Jointed (holds : Text → Prop) : Prop extends Severs isWordChar holds, Joinable holds where
  outer := fun _ => blank_or_comma_not_wordChar

namespace Jointed

variable {holds : Text → Prop} {before old new after : Text}

theorem part (jointed : Jointed holds) (apart : Apart before after) (here : holds (before ++ after)) :
    holds before ∧ holds after := by
  refine jointed.split here (apart.imp (fun starts c last => ?_) fun ends c first => ?_)
  · simpa [atWordStart, mem_def.mp last] using starts
  · cases after with
    | nil => simp at first
    | cons d after =>
      obtain rfl : d = c := by simpa using first
      simpa [atWordEnd] using ends

/-- A stretch between two seams gives way to another text that fits there. -/
theorem replace (jointed : Jointed holds) (here : holds (before ++ (old ++ after)))
    (opens : Apart before (old ++ after)) (closes : Apart old after) (there : holds new)
    (start : Joint before new) (stop : Joint (before ++ new) after) : holds (before ++ new ++ after) := by
  obtain ⟨first, rest⟩ := jointed.part opens here
  exact jointed.fit stop (jointed.fit start first there) (jointed.part closes rest).2

end Jointed

/-- What comes in the place of a stretch between `before` and `after` fits there. It may start with a
word where the stretch did. -/
structure Fits (holds : Text → Prop) (before : Option Char) (old new after : Text) : Prop where
  nonempty : old ≠ []
  here : holds new
  opens : atWordStart before = true ∨ atWordEnd old = true
  closes : Apart old after
  start : atWordEnd new = true ∨ (atWordEnd old = false ∧ ∀ {text : Text}, holds text → Parted text)
  stop : (new ≠ [] ∧ isLoose new.getLast? = true) ∨ atWordEnd after = true

/-- Whatever the replacer puts into a text fits there. -/
def Replacer.Fitting (replacer : Replacer) (holds : Text → Prop) : Prop :=
  ∀ before {written text : Text} n new, holds (written ++ text) → replacer before text = some (n, new) →
    ∃ old after, text = old ++ after ∧ n = old.length ∧ Fits holds before old new after

theorem atWordEnd_append (nonempty : text ≠ []) (rest : Text) :
    atWordEnd (text ++ rest) = atWordEnd text := by
  obtain ⟨c, text, rfl⟩ := exists_cons_of_ne_nil nonempty
  rfl

/-- A word leaves room for another one in its place. -/
theorem Parted.isLoose (parted : Parted (text ++ rest)) (apart : Apart text rest)
    (word : atWordEnd rest = false) : isLoose text.getLast? = true := by
  have starts : atWordStart text.getLast? = true := apart.resolve_right (by simp [word])
  refine Bool.and_eq_true_iff.mpr ⟨starts, ?_⟩
  cases rest with
  | nil => simp [atWordEnd] at word
  | cons c rest =>
    have join := (isChain_append.mp parted).2.2
    have letter : isWordChar c = true := by simpa [atWordEnd] using word
    simp only [bne_iff_ne, ne_eq]
    intro last
    have other := join ')' last c rfl rfl
    simp [letter] at other

theorem Jointed.substitute (jointed : Jointed holds) {replacer : Replacer}
    (fitting : replacer.Fitting holds) (here : holds text) :
    holds (Pseudocode.substitute replacer text) := by
  -- What has been written stands before the rest of the text: the whole has the property all along.
  suffices all : ∀ before skip (written : Text),
      (atWordStart before = true ∨ 0 < skip → Apart written (text.drop skip)) → holds (written ++ text.drop skip) →
        holds (written ++ substituteFrom replacer before skip text) from
    all none 0 [] (fun _ => .inl rfl) here
  clear here
  induction text with
  | nil =>
    intro before skip written seam here
    rw [drop_nil] at here
    rw [substituteFrom]
    split
    · rename_i n new found
      obtain ⟨old, after, split, -, fits⟩ := fitting _ _ _ here found
      exact absurd (append_eq_nil_iff.mp split.symm).1 fits.nonempty
    · exact here
  | cons c rest ih =>
    intro before skip written seam here
    cases skip with
    | succ skip => exact ih (some c) skip written (fun _ => seam (.inr skip.succ_pos)) here
    | zero =>
      rw [drop_zero] at here seam
      rw [substituteFrom]
      split
      · rename_i new found
        obtain ⟨old, after, -, count, fits⟩ := fitting _ _ _ here found
        exact absurd (length_eq_zero_iff.mp count.symm) fits.nonempty
      · rename_i n new found
        obtain ⟨old, after, split, count, fits⟩ := fitting _ _ _ here found
        have dropped : rest.drop n = after := by
          have whole : (c :: rest).drop (n + 1) = after := by rw [split, drop_left' count.symm]
          exact whole
        have opens : Apart written (c :: rest) := by
          refine fits.opens.elim (fun starts => seam (.inl starts)) fun ends => .inr ?_
          rw [split, atWordEnd_append fits.nonempty, ends]
        have start : Joint written new := by
          rcases fits.start with ends | ⟨word, parted⟩
          · exact .inr ends
          · refine .inl ((parted here).isLoose opens ?_)
            rw [split, atWordEnd_append fits.nonempty, word]
        have stop : Joint (written ++ new) after := by
          rcases fits.stop with ⟨nonempty, loose⟩ | ends
          · exact .inl (by rwa [getLast?_append_of_ne_nil _ nonempty])
          · exact .inr ends
        rw [split] at here opens
        rw [← append_assoc]
        refine ih (some c) n _ (fun _ => ?_) ?_
        · rw [dropped]
          exact stop.apart
        · rw [dropped]
          exact jointed.replace here opens fits.closes fits.here start stop
      · rw [append_cons]
        refine ih (some c) 0 _ (fun starts => .inl ?_) (by simpa using here)
        simpa using starts

end Pseudocode
