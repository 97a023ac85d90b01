import Pseudocode.Proofs.Total

namespace Pseudocode

open List Option Placeholder
variable {stored : Store → Prop} {desk : Desk} {text word : Text}

/-- The text has the stem of no helper in it. -/
def Stemless (text : Text) : Prop :=
  ¬ helperStem <:+: text

instance (text : Text) : Decidable (Stemless text) :=
  inferInstanceAs (Decidable (¬ _))

/-- Every word of the text with the stem of a helper is the name of one. -/
def Clean (known : Text → Prop) (text : Text) : Prop :=
  ∀ word, IsWordOf word text → helperStem <:+: word → known word

/-- The letters past the ASCII block that are ASCII letters in another case. -/
def variantCodes : List Nat :=
  [0x130, 0x131, 0x17f, 0x212a]

def isVariant (c : Char) : Bool :=
  variantCodes.contains c.toNat

/-- A text that names no helper but known ones, and where a call can give way to its value. -/
structure Vouched (known : Text → Prop) (text : Text) : Prop where
  clean : Clean known text
  parted : Parted text
  cased : ∀ c ∈ text, isVariant c = false

/-- A text that names no helper, and where a call can give way to its value. -/
structure Free (text : Text) : Prop where
  stemless : Stemless text
  parted : Parted text
  cased : ∀ c ∈ text, isVariant c = false

theorem isVariant_ascii {c : Char} (ascii : c.toNat < 128) : isVariant c = false := by
  simp only [isVariant, variantCodes, contains_eq_mem, decide_eq_false_iff_not, mem_cons, not_mem_nil,
    or_false]
  omega

section Seams

variable {known : Text → Prop} {text rest part : Text}

namespace Stemless

theorem of_infix (stemless : Stemless text) (inside : part <:+: text) : Stemless part :=
  fun stem => stemless (stem.trans inside)

theorem append (first : Stemless text) (second : Stemless rest) (apart : Apart text rest) :
    Stemless (text ++ rest) := by
  rintro ⟨before, after, split⟩
  have letters : ∀ c ∈ helperStem, isWordChar c = true := all_eq_true.mp (by decide)
  rcases apart.letters_split letters (by rw [← split, append_assoc]) with
    ⟨tail, rfl, -⟩ | ⟨more, -, rfl⟩
  · exact first ⟨before, tail, append_assoc _ _ _⟩
  · exact second ⟨more, after, append_assoc _ _ _⟩

/-- Without words there is no stem. -/
theorem of_wordless (wordless : ∀ c ∈ text, isWordChar c = false) : Stemless text := fun stem => by
  have letter := wordless '_' (stem.mem (by decide))
  simp [isWordChar] at letter

theorem jointed : Jointed Stemless where
  nil := by decide
  split whole _ :=
    ⟨whole.of_infix (prefix_append _ _).isInfix, whole.of_infix (suffix_append _ _).isInfix⟩
  fixed here := (isFixed_iff.mp here).2.1
  fit joint first second := first.append second joint.apart

theorem clean (stemless : Stemless text) : Clean known text :=
  fun _ isWord stem => absurd (stem.trans isWord.isInfix) stemless

end Stemless

theorem clean_append (apart : Apart text rest) :
    Clean known (text ++ rest) ↔ Clean known text ∧ Clean known rest :=
  ⟨fun clean => ⟨fun word isWord => clean word (isWord.append_left apart),
      fun word isWord => clean word (isWord.append_right apart)⟩,
    fun clean word isWord => (isWord.of_append apart).elim (clean.1 word) (clean.2 word)⟩

theorem apart_of_split {before after : Text}
    (place : (∀ c ∈ before.getLast?, isWordChar c = false) ∨ ∀ c ∈ after.head?, isWordChar c = false) :
    Apart before after := by
  refine place.imp (fun left => ?_) fun right => ?_
  · rw [atWordStart]
    cases last : before.getLast? with
    | none => rfl
    | some c => simp [left c last]
  · cases after with
    | nil => rfl
    | cons c after => simp [atWordEnd, right c rfl]

theorem Clean.jointed : Jointed (Clean known) where
  nil := Stemless.jointed.nil.clean
  split whole place := (clean_append (apart_of_split place)).mp whole
  fixed here := (Stemless.jointed.fixed here).clean
  fit joint first second := (clean_append joint.apart).mpr ⟨first, second⟩

theorem parted_append : Parted (text ++ rest) ↔ Parted text ∧ Parted rest ∧
    ∀ c ∈ text.getLast?, ∀ d ∈ rest.head?, c = ')' → isWordChar d = false :=
  isChain_append

theorem Parted.append (first : Parted text) (second : Parted rest) (joint : Joint text rest) :
    Parted (text ++ rest) := by
  refine parted_append.mpr ⟨first, second, ?_⟩
  rintro _ last d head rfl
  rcases joint with loose | ends
  · rw [mem_def.mp last] at loose
    simp [Pseudocode.isLoose] at loose
  · cases rest with
    | nil => simp at head
    | cons e rest =>
      obtain rfl : e = d := by simpa using head
      simpa [atWordEnd] using ends

/-- Right after a parenthesis no word starts. -/
theorem Parted.after_paren (parted : Parted (text ++ ')' :: rest)) : atWordEnd rest = true := by
  have here := (parted_append.mp parted).2.1
  cases rest with
  | nil => rfl
  | cons c rest => simpa [atWordEnd] using (isChain_cons_cons.mp here).1 rfl

theorem Vouched.jointed : Jointed (Vouched known) where
  nil := ⟨Clean.jointed.nil, .nil, by simp⟩
  split whole place := by
    obtain ⟨left, right⟩ := Clean.jointed.split whole.clean place
    obtain ⟨leftParted, rightParted, -⟩ := parted_append.mp whole.parted
    exact ⟨⟨left, leftParted, fun c member => whole.cased c (mem_append_left _ member)⟩,
      ⟨right, rightParted, fun c member => whole.cased c (mem_append_right _ member)⟩⟩
  fixed here :=
    have ⟨ascii, _, parted⟩ := isFixed_iff.mp here
    ⟨Clean.jointed.fixed here, parted, fun c member => isVariant_ascii (ascii c member)⟩
  fit joint first second :=
    ⟨Clean.jointed.fit joint first.clean second.clean, first.parted.append second.parted joint,
      fun c member => (mem_append.mp member).elim (first.cased c) (second.cased c)⟩

namespace Free

theorem vouched (free : Free text) : Vouched known text :=
  ⟨free.stemless.clean, free.parted, free.cased⟩

theorem of_infix (free : Free text) (inside : part <:+: text) : Free part where
  stemless := free.stemless.of_infix inside
  parted := free.parted.infix inside
  cased c member := free.cased c (inside.mem member)

theorem append (first : Free text) (second : Free rest) (joint : Joint text rest) :
    Free (text ++ rest) where
  stemless := first.stemless.append second.stemless joint.apart
  parted := first.parted.append second.parted joint
  cased c member := (mem_append.mp member).elim (first.cased c) (second.cased c)

theorem jointed : Jointed Free where
  nil := ⟨by decide, .nil, by simp⟩
  split whole _ :=
    ⟨whole.of_infix (prefix_append _ _).isInfix, whole.of_infix (suffix_append _ _).isInfix⟩
  fixed here :=
    have ⟨ascii, stemless, parted⟩ := isFixed_iff.mp here
    ⟨stemless, parted, fun c member => isVariant_ascii (ascii c member)⟩
  fit joint first second := first.append second joint

end Free

end Seams

section Letters

theorem smallInRuns_variant {runs : List (Nat × Nat × Nat × Nat)} {n : Nat}
    (gap : ∀ run ∈ runs, 128 ≤ run.2.2.2 ∨ (run.1 = run.2.1 ∧ variantCodes.contains run.1 = true))
    (small : smallInRuns runs n < 128) : n < 128 ∨ variantCodes.contains n = true := by
  induction runs with
  | nil => exact .inl small
  | cons run runs ih =>
    obtain ⟨first, last, step, image⟩ := run
    obtain ⟨here, later⟩ := forall_mem_cons.mp gap
    simp only [smallInRuns] at small
    split at small
    · exact .inl small
    · split at small
      · rcases here with beyond | ⟨single, variant⟩
        · simp only at beyond
          omega
        · simp only at single
          obtain rfl : first = n := by omega
          exact .inr variant
      · exact ih later small

/-- What is an ASCII letter in another case is one itself, but for a few letters. -/
theorem ascii_of_caseKey {w c : Char} (letter : w.toNat < 128 ∧ isWordChar w = true)
    (same : caseKey w = caseKey c) (plain : isVariant c = false) : c.toNat < 128 := by
  by_contra beyond
  have key : 0 < (caseKey w).toNat ∧ (caseKey w).toNat < 128 :=
    of_ascii (P := fun w => isWordChar w = true → 0 < (caseKey w).toNat ∧ (caseKey w).toNat < 128)
      (by decide) letter.1 letter.2
  rw [same] at key
  have small : smallLetter c = Char.ofNat (smallInRuns capitalRuns c.toNat) := by
    rw [smallLetter, if_neg beyond]
  have value (positive : 0 < (smallLetter c).toNat) :
      smallInRuns capitalRuns c.toNat = (smallLetter c).toNat := by
    rw [small, Char.toNat_ofNat] at positive ⊢
    split
    · rfl
    · rename_i invalid
      simp [invalid] at positive
  simp only [caseKey] at key
  split at key
  · rename_i ascii
    rw [← value key.1] at ascii
    rcases smallInRuns_variant (by decide +kernel) ascii with within | variant
    · exact beyond within
    · exact Bool.false_ne_true (plain.symm.trans variant)
  · rename_i large
    have image := value (by omega)
    split at key
    · rename_i variant found
      have places : ∀ pair ∈ caseVariants, (Char.ofNat pair.2).toNat < 128 →
          pair.1 = 0x131 ∨ pair.1 = 0x17f := by decide
      have code := places _ (mem_of_lookup found) key.2
      simp only [← image] at code
      have fixed : smallInRuns capitalRuns c.toNat = c.toNat := by
        rcases code with code | code <;> exact smallInRuns_image (by decide +kernel) code.ge code.le
      rw [fixed] at code
      rcases code with code | code <;> simp [isVariant, variantCodes, code] at plain
    · exact large key.2

end Letters

section Calls

variable {known : Text → Prop}

theorem Conversion.notify_stored {notice : Notice} (here : stored desk.store) :
    Settles false (Conversion.notify notice) desk fun _ reached => stored reached.store :=
  Conversion.notify_settles.mono fun _ _ same => same ▸ here

/-- Calls give way to what is built for them, and every helper in the text stays known. What is built
may start with a word where the call did. -/
theorem convertCalls_vouched {callee : Callee} {onOpen : Text → Notice}
    {build : CallHead → Text → Conversion Text}
    (written : ∀ text head, callee text = some head → text = head.written ++ text.drop head.length)
    (call : ∀ {desk head arguments text}, stored desk.store → callee text = some head →
      Vouched known head.written → Vouched known arguments →
      Settles false (build head arguments) desk fun out reached =>
        stored reached.store ∧ Vouched known out ∧ (atWordEnd text = false ∨ atWordEnd out = true))
    (start : stored desk.store) (here : Vouched known text) :
    Settles false (convertCalls callee onOpen build none text) desk fun out reached =>
      stored reached.store ∧ Vouched known out := by
  have jointed : Jointed (Vouched known) := Vouched.jointed
  suffices all : ∀ {before} (passed : Text) (desk : Desk), stored desk.store →
      (atNameStart before = true → Apart passed text) → Vouched known (passed ++ text) →
        Settles false (convertCalls callee onOpen build before text) desk fun out reached =>
          stored reached.store ∧ Vouched known (passed ++ out) from
    all [] desk start (fun _ => .inl rfl) here
  clear start here
  intro before
  fun_induction convertCalls callee onOpen build before text with
  | case1 => exact fun _ _ start _ here => .pure ⟨start, here⟩
  | case2 before c rest none ih =>
    intro passed desk start seam here
    refine (ih (passed ++ [c]) desk start (fun starts => .inl ?_) (by simpa using here)).bind
      fun out reached kept => .pure ⟨kept.1, by simpa using kept.2⟩
    simpa using (Bool.and_eq_true_iff.mp starts).1
  | case3 =>
    exact fun _ _ start _ here => (Conversion.notify_stored start).bind fun _ _ kept => .pure ⟨kept, here⟩
  | case4 before c rest head found inside after closed _ _ ihInside ihAfter =>
    intro passed desk start seam here
    split
    obtain ⟨starts, recognized⟩ := callAt?_eq_some found
    have apart := seam starts
    have shape := written _ _ recognized
    rw [splitParen?_eq_some closed] at shape
    have ends : atWordEnd after = true := by
      rw [shape, ← append_assoc, ← append_assoc] at here
      exact here.parted.after_paren
    obtain ⟨-, whole⟩ := jointed.part apart here
    have opened : Apart head.written (inside ++ ')' :: after) :=
      .inl (by simp [CallHead.written, atWordStart]; decide)
    obtain ⟨headVouched, tail⟩ := jointed.part opened (shape ▸ whole)
    obtain ⟨insideVouched, -⟩ := jointed.part (.inr rfl) tail
    refine (ihInside [] desk start (fun _ => .inl rfl) insideVouched).bind fun arguments reached kept => ?_
    refine (call kept.1 recognized headVouched kept.2).bind fun replacement later called => ?_
    obtain ⟨callKept, built, start⟩ := called
    have joint : Joint passed replacement :=
      start.elim (fun word => .inl (here.parted.isLoose apart word)) .inr
    have old : c :: rest = (head.written ++ inside ++ [')']) ++ after := by simp [shape]
    have joined : Vouched known (passed ++ replacement ++ after) :=
      jointed.replace (old ▸ here) (old ▸ apart) (.inr ends) built joint (.inr ends)
    exact (ihAfter _ later callKept (fun _ => .inr ends) joined).bind
      fun out final kept => .pure ⟨kept.1, by simpa using kept.2⟩

end Calls

theorem wordless_ends (wordless : ∀ c ∈ text, isWordChar c = false) :
    atWordEnd text = true ∧ atWordStart text.getLast? = true := by
  constructor
  · cases text with
    | nil => rfl
    | cons c text => simp [atWordEnd, wordless c (.head _)]
  · cases last : text.getLast? with
    | none => rfl
    | some c => simp [atWordStart, wordless c (mem_of_getLast? last)]

/-- The word starts with an ASCII character. -/
def startsPlain (word : Text) : Bool :=
  word.head?.any fun c => c.toNat < 128 && isWordChar c

theorem word_of_caseKey {taken : Text} (plain : startsPlain word = true)
    (same : taken.map caseKey = word.map caseKey) (cased : ∀ c ∈ taken, isVariant c = false) :
    taken ≠ [] ∧ atWordEnd taken = false := by
  cases word with
  | nil => simp [startsPlain] at plain
  | cons w word =>
    cases taken with
    | nil => simp at same
    | cons c taken =>
      have letter : w.toNat < 128 ∧ isWordChar w = true := by simpa [startsPlain] using plain
      have key : caseKey w = caseKey c := (List.cons.inj same).1.symm
      have ascii := ascii_of_caseKey letter key (cased c (.head _))
      have same {c : Char} (ascii : c.toNat < 128) : isWordChar (caseKey c) = isWordChar c :=
        of_ascii (P := fun c => isWordChar (caseKey c) = isWordChar c) (by decide) ascii
      have word : isWordChar c = true := by rw [← same ascii, ← key, same letter.1, letter.2]
      exact ⟨by simp, by simp [atWordEnd, word]⟩

theorem namedCallee_word {names : List Text} (plain : ∀ name ∈ names, startsPlain name = true)
    {head : CallHead} (found : namedCallee names text = some head)
    (cased : ∀ c ∈ head.written, isVariant c = false) : atWordEnd text = false := by
  obtain ⟨split, name, member, letters⟩ := namedCallee_eq_some found
  obtain ⟨nonempty, word⟩ := word_of_caseKey (plain name member) letters fun c inside =>
    cased c (by simp [CallHead.written, inside])
  rw [split, CallHead.written, append_assoc, append_assoc, atWordEnd_append nonempty, word]

theorem anyCallee_word {head : CallHead} (found : anyCallee text = some head) :
    atWordEnd text = false := by
  obtain ⟨⟨name, rest⟩, word, -⟩ := bind_eq_some_iff.mp found
  cases text with
  | nil => simp [identifier?] at word
  | cons c text =>
    simp only [identifier?] at word
    split at word
    · rename_i starts
      simp [atWordEnd, (Bool.and_eq_true_iff.mp starts).1]
    · simp at word

section Passes

variable {known : Text → Prop} {text : Text}

/-- A word of plain characters. -/
def isPlainWord (word : Text) : Bool :=
  !word.isEmpty && word.all fun c => c.toNat < 128 && isWordChar c

theorem isPlainWord_iff : isPlainWord word = true ↔
    word ≠ [] ∧ ∀ c ∈ word, c.toNat < 128 ∧ isWordChar c = true := by
  simp [isPlainWord]

theorem Vouched.of_word (plain : isPlainWord word = true) (named : known word) :
    Vouched known word := by
  obtain ⟨nonempty, letters⟩ := isPlainWord_iff.mp plain
  refine ⟨?_, .of_open fun member => absurd (letters _ member).2 (by decide),
    fun c member => isVariant_ascii (letters c member).1⟩
  -- A word of a word is the whole of it.
  rintro other ⟨otherLetters, otherNonempty, before, after, rfl, starts, ends⟩ -
  have left : before = [] := by
    by_contra filled
    obtain ⟨c, last⟩ := ne_none_iff_exists'.mp (mt getLast?_eq_none_iff.mp filled)
    have letter := (letters c (by simp [mem_of_getLast? last])).2
    simp [atWordStart, last, letter] at starts
  have right : after = [] := by
    by_contra filled
    obtain ⟨c, rest, rfl⟩ := exists_cons_of_ne_nil filled
    have letter := (letters c (by simp)).2
    simp [atWordEnd, letter] at ends
  simpa [left, right] using named

theorem pairArrow_fitting : Context.pairArrow.Fitting (Vouched known) := by
  intro before written text n new here found
  unfold Context.pairArrow at found
  split at found
  · rename_i rest shape
    obtain ⟨rfl, rfl⟩ := Prod.mk.inj (Option.some.inj found)
    have left : text = indentation text ++ '→' :: rest := by
      rw [← shape, indentation, trimLeft, takeWhile_append_dropWhile]
    have right : rest = indentation rest ++ trimLeft rest := by
      rw [indentation, trimLeft, takeWhile_append_dropWhile]
    have whole : text = (indentation text ++ '→' :: indentation rest) ++ trimLeft rest := by
      rw [append_assoc, cons_append, ← right]
      exact left
    have signs : ∀ c ∈ indentation text ++ '→' :: indentation rest, isWordChar c = false := by
      have blank {c : Char} {text : Text} (member : c ∈ indentation text) : isWordChar c = false :=
        isBlank_not_wordChar (mem_takeWhile_imp member)
      intro c member
      rcases mem_append.mp member with inLeft | inRight
      · exact blank inLeft
      · rcases mem_cons.mp inRight with rfl | later
        · decide +kernel
        · exact blank later
    refine ⟨_, _, whole, ?_, by simp, Vouched.jointed.fixed (by decide), .inr (wordless_ends signs).1,
      .inl (wordless_ends signs).2, .inl rfl, .inl ⟨by decide, by decide⟩⟩
    have length := congrArg List.length whole
    rw [length_append] at length
    omega
  · simp at found

theorem equality_fitting (comparison : Bool) :
    Replacer.Fitting (equality comparison) (Vouched known) := by
  intro before written text n new here found
  unfold equality at found
  split at found
  · split at found
    · simp at found
    · rename_i rest _
      split at found
      all_goals
        obtain ⟨rfl, rfl⟩ := Prod.mk.inj (Option.some.inj found)
        exact ⟨['='], rest, rfl, rfl, by simp, Vouched.jointed.fixed (by decide), .inr rfl, .inl rfl, .inl rfl,
          .inl ⟨by simp, by decide⟩⟩
  · simp at found

theorem inputCall_fitting (named : known "__psc_lire".toList) : inputCall.Fitting (Vouched known) := by
  intro before written text n new here found
  unfold inputCall at found
  split at found
  · rename_i starts
    obtain ⟨rest, called, same⟩ := map_eq_some_iff.mp found
    obtain ⟨rfl, rfl⟩ := Prod.mk.inj same
    obtain ⟨afterWord, word, call⟩ := bind_eq_some_iff.mp called
    obtain ⟨passed, callSplit, -⟩ := dropEmptyCall?_split call
    obtain ⟨wordSplit, letters⟩ := dropWord?_eq_some word
    have whole : text = (text.take 4 ++ (passed ++ [')'])) ++ rest := by
      rw [append_assoc, ← callSplit]
      exact wordSplit
    have ends : atWordEnd rest = true := by
      have parted : Parted ((written ++ text.take 4 ++ passed) ++ ')' :: rest) := by
        have all := here.parted
        rw [whole] at all
        simpa using all
      exact parted.after_paren
    obtain ⟨nonempty, isWord⟩ := word_of_caseKey (show startsPlain "lire".toList = true by decide)
      letters fun c inside => here.cased c (by simp [mem_of_mem_take inside])
    have input : Vouched known ("__psc_lire".toList ++ '(' :: [] ++ [')']) :=
      Vouched.jointed.called (.of_word (by decide) named) Vouched.jointed.nil
    refine ⟨_, _, whole, ?_, by simp, input, .inl (Bool.and_eq_true_iff.mp starts).1, .inr ends,
      .inr ⟨?_, Vouched.parted⟩, .inr ends⟩
    · have length := congrArg List.length whole
      rw [length_append] at length
      omega
    · exact (atWordEnd_append nonempty _).trans isWord
  · simp at found

/-- The names of helpers that are put into the code besides those of built-ins. -/
def Context.emittedHelpers : List Text :=
  ["__psc_write", "__psc_lire", "__psc_lire_chaine", "__psc_liste_from_table", "__psc_listesym_from_table",
    "__psc_table_vide", "__psc_table_from_pairs", "__psc_pile_vide", "__psc_pile_from_values",
    "__psc_file_vide", "__psc_file_from_values"].map (·.toList)

theorem Vouched.emitted (emitted : ∀ name ∈ Context.emittedHelpers, known name) :
    ∀ name ∈ Context.emittedHelpers, Vouched known name := by
  have plain : ∀ name ∈ Context.emittedHelpers, isPlainWord name = true := by decide
  exact fun name member => .of_word (plain name member) (emitted name member)

theorem structureCall_vouched (emitted : ∀ name ∈ Context.emittedHelpers, known name) {kind arguments : Text}
    (listed : kind ∈ Context.structureNames) (here : Vouched known arguments) :
    Vouched known (Context.structureCall kind arguments) := by
  have joins : Jointed (Vouched known) := Vouched.jointed
  have helper (name : String) (member : name.toList ∈ Context.emittedHelpers) :
      Vouched known name.toList := Vouched.emitted emitted _ member
  have empty (name : String) (member : name.toList ∈ Context.emittedHelpers) :
      Vouched known (name.toList ++ '(' :: [] ++ [')']) := joins.called (helper name member) joins.nil
  rcases mem_map.mp listed with ⟨word, member, rfl⟩
  simp only [mem_cons, not_mem_nil, or_false] at member
  rcases member with rfl | rfl | rfl | rfl | rfl
  · exact joins.called (helper "__psc_liste_from_table" (by decide)) (joins.braced here)
  · exact joins.called (helper "__psc_listesym_from_table" (by decide)) (joins.braced here)
  · show Vouched known (if (trim arguments).isEmpty then "__psc_pile_vide".toList ++ '(' :: [] ++ [')']
      else "__psc_pile_from_values".toList ++ '(' :: ListLiteral.braced arguments ++ [')'])
    split
    · exact empty "__psc_pile_vide" (by decide)
    · exact joins.called (helper "__psc_pile_from_values" (by decide)) (joins.braced here)
  · show Vouched known (if (trim arguments).isEmpty then "__psc_file_vide".toList ++ '(' :: [] ++ [')']
      else "__psc_file_from_values".toList ++ '(' :: ListLiteral.braced arguments ++ [')'])
    split
    · exact empty "__psc_file_vide" (by decide)
    · exact joins.called (helper "__psc_file_from_values" (by decide)) (joins.braced here)
  · show Vouched known (if (trim arguments).isEmpty then "__psc_table_vide".toList ++ '(' :: [] ++ [')']
      else "__psc_table_from_pairs".toList ++ '(' :: substitute Context.pairArrow arguments ++ [')'])
    split
    · exact empty "__psc_table_vide" (by decide)
    · exact joins.called (helper "__psc_table_from_pairs" (by decide))
        (joins.substitute pairArrow_fitting here)

theorem convertStructures_vouched (emitted : ∀ name ∈ Context.emittedHelpers, known name) {context : Context}
    (start : stored desk.store) (here : Vouched known text) :
    Settles false (context.convertStructures text) desk fun out reached =>
      stored reached.store ∧ Vouched known out := by
  refine convertCalls_vouched (fun text head found => (namedCallee_eq_some found).1) ?_ start here
  intro desk head arguments text kept found written here
  have starts : ∀ name ∈ Context.structureNames, startsPlain name = true := by decide
  refine .pure ⟨kept, ?_, .inl (namedCallee_word starts found written.cased)⟩
  split
  · exact Vouched.jointed.apply written here
  · obtain ⟨-, name, member, letters⟩ := namedCallee_eq_some found
    have plain : ∀ name ∈ Context.structureNames, isPlainWord name = true := by decide
    have ascii : ∀ c ∈ head.name, c.toNat < 128 := by
      intro c inside
      obtain ⟨w, among, key⟩ := mem_map.mp (letters ▸ mem_map_of_mem inside)
      exact ascii_of_caseKey ((isPlainWord_iff.mp (plain name member)).2 w among) key
        (written.cased c (by simp [CallHead.written, inside]))
    have same : lower head.name = name := by
      rw [lower_eq_map_caseKey fun c inside => isPlainCase_ascii (ascii c inside), letters,
        (structureNames_tame name member).2.2]
    rw [same]
    exact structureCall_vouched emitted member here

/-- What replaces a symbol leaves no word open, nor does a symbol; a word starts with a plain character. -/
def Spelling.isFit (spelling : Spelling) : Bool :=
  if spelling.isWord then startsPlain spelling.source
  else !spelling.source.isEmpty && atWordEnd spelling.source && atWordStart spelling.source.getLast? &&
    !spelling.target.isEmpty && atWordEnd spelling.target && isLoose spelling.target.getLast?

/-- A language names known helpers only, and what it puts into a text leaves no word open. -/
structure Language.Vouched (language : Language) (known : Text → Prop) : Prop where
  names : ∀ builtin ∈ language.builtins, startsPlain builtin.name = true
  helpers : ∀ builtin ∈ language.builtins, Pseudocode.Vouched known builtin.helper
  targets : ∀ spelling ∈ language.spellings, Pseudocode.Vouched known spelling.target
  fits : ∀ spelling ∈ language.spellings, spelling.isFit = true
  zeros : ∀ type ∈ language.types, ∀ zero ∈ type.zero, Clean known zero

variable {context : Context} {stored : Store → Prop} {desk : Desk}

theorem convertInline_vouched (vouched : context.language.Vouched known) (start : stored desk.store)
    (here : Vouched known text) :
    Settles false (context.convertInline text) desk fun out reached =>
      stored reached.store ∧ Vouched known out := by
  have starts : ∀ name ∈ Context.inlineNames context.language, startsPlain name = true := by
    intro name member
    obtain ⟨builtin, inside, rfl⟩ := mem_map.mp (mem_mergeSort.mp member)
    exact vouched.names builtin (mem_filter.mp inside).1
  unfold Context.convertInline
  simp only
  split
  · exact .pure ⟨start, here⟩
  · refine convertCalls_vouched (fun text head found => (namedCallee_eq_some found).1) ?_ start here
    intro desk head arguments text kept found written here
    exact (Context.inlineCall_settles Vouched.jointed.toJoinable vouched.helpers (by simp) (by simp) written here
      (Vouched.jointed.splitArguments here) desk).mono
      fun _ _ ⟨same, built⟩ => ⟨same ▸ kept, built, .inl (namedCallee_word starts found written.cased)⟩

theorem convertBuiltins_vouched (vouched : context.language.Vouched known) (start : stored desk.store)
    (here : Vouched known text) :
    Settles false (context.convertBuiltins text) desk fun out reached =>
      stored reached.store ∧ Vouched known out := by
  refine convertCalls_vouched (fun text head => anyCallee_eq_some) ?_ start here
  intro desk head arguments text kept found written here
  exact .pure ⟨kept, Context.helperCall_holds Vouched.jointed.toJoinable vouched.helpers written here,
    .inl (anyCallee_word found)⟩

theorem Spelling.replacer_fitting {spelling : Spelling} (fit : spelling.isFit = true)
    (target : Vouched known spelling.target) : spelling.replacer.Fitting (Vouched known) := by
  intro before written text n new here found
  unfold Spelling.isFit at fit
  unfold Spelling.replacer at found
  split at found
  · rename_i isWord
    rw [if_pos isWord] at fit
    unfold wordReplacer at found
    split at found
    · rename_i starts
      obtain ⟨rest, whole, same⟩ := map_eq_some_iff.mp found
      obtain ⟨rfl, rfl⟩ := Prod.mk.inj same
      obtain ⟨word, ends⟩ := filter_eq_some_iff.mp whole
      obtain ⟨split, letters⟩ := dropWord?_eq_some word
      obtain ⟨nonempty, isWord⟩ := word_of_caseKey fit letters fun c inside =>
        here.cased c (by simp [mem_of_mem_take inside])
      refine ⟨_, rest, split, ?_, nonempty, target, .inl (Bool.and_eq_true_iff.mp starts).1, .inr ends,
        .inr ⟨isWord, Vouched.parted⟩, .inr ends⟩
      simpa using (congrArg List.length letters).symm
    · simp at found
  · rename_i isSymbol
    rw [if_neg isSymbol] at fit
    simp only [Bool.and_eq_true, Bool.not_eq_true', isEmpty_eq_false_iff] at fit
    obtain ⟨⟨⟨⟨⟨nonempty, opens⟩, closes⟩, filled⟩, start⟩, stop⟩ := fit
    unfold literally at found
    split at found
    · rename_i starts
      obtain ⟨rfl, rfl⟩ := Prod.mk.inj (Option.some.inj found)
      obtain ⟨rest, rfl⟩ := isPrefixOf_iff_prefix.mp starts
      exact ⟨_, rest, rfl, rfl, nonempty, target, .inr opens, .inl closes, .inl start, .inl ⟨filled, stop⟩⟩
    · simp at found

theorem Language.Vouched.respell {language : Language} (vouched : language.Vouched known)
    (here : Pseudocode.Vouched known text) : Pseudocode.Vouched known (language.respell text) := by
  unfold Language.respell
  have targets := vouched.targets
  have fits := vouched.fits
  generalize language.spellings = spellings at targets fits
  induction spellings generalizing text with
  | nil => exact here
  | cons spelling spellings ih =>
    refine ih (Vouched.jointed.substitute (Spelling.replacer_fitting (fits _ (.head _))
      (targets _ (.head _))) here) (fun other member => ?_) fun other member => ?_
    · exact targets other (.tail _ member)
    · exact fits other (.tail _ member)

end Passes

namespace ListLiteral

variable {known : Text → Prop}

/-- A list is built where none of the texts before it comes right up to it. -/
theorem convert_vouched (built : known builder) (afterKeyword : Bool)
    (here : Vouched known text) : Vouched known (convert afterKeyword text) := by
  have jointed : Jointed (Vouched known) := Vouched.jointed
  suffices all : ∀ {last} (passed : Text), (mayOpen afterKeyword last = true → isLoose passed.getLast? = true) →
      Vouched known (passed ++ text) → Vouched known (passed ++ convertFrom afterKeyword last text) from
    all [] (fun _ => rfl) here
  clear here
  intro last
  fun_induction convertFrom afterKeyword last text with
  | case1 => exact fun _ _ here => here
  | case2 => exact fun _ _ here => here
  | case3 afterKeyword last rest inside after closed _ _ ihInside ihAfter =>
    intro passed seam here
    split
    rw [← append_assoc]
    rw [splitParen?_eq_some closed] at here
    have ends : atWordEnd after = true := by
      have parted : Parted ((passed ++ '(' :: inside) ++ ')' :: after) := by simpa using here.parted
      exact parted.after_paren
    obtain ⟨-, group⟩ := jointed.split_after here (show isWordChar '(' = false by decide)
    obtain ⟨insideVouched, -⟩ := jointed.split_before group (show isWordChar ')' = false by decide)
    have content := ihInside [] (fun _ => rfl) insideVouched
    have old : passed ++ '(' :: (inside ++ ')' :: after) =
        passed ++ (('(' :: inside ++ [')']) ++ after) := by simp
    refine ihAfter _ (fun may => ?_) ?_
    · simp [mayOpen, isOpening] at may
    · refine jointed.replace (old ▸ here) (.inr rfl) (.inr ends) ?_ ?_ (.inr ends)
      · split
        · exact jointed.called (.of_word (by decide) built)
            (jointed.braced (jointed.commaSeparated (jointed.splitArguments content)))
        · exact jointed.called jointed.nil content
      · split
        · rename_i may
          exact .inl (seam (Bool.and_eq_true_iff.mp may).1)
        · exact .inr rfl
  | case4 afterKeyword last c rest plain ih =>
    intro passed seam here
    rw [append_cons] at here ⊢
    refine ih _ (fun may => ?_) here
    rw [getLast?_append_of_ne_nil _ (cons_ne_nil _ _), getLast?_singleton]
    by_cases blank : isBlank c = true
    · have other : c ≠ ')' := by
        rintro rfl
        simp [isBlank] at blank
      simp [isLoose, atWordStart, isBlank_not_wordChar blank, other]
    · have opener : isOpening c = true := by simpa [blank, mayOpen] using may
      have loose : "=,(;:[\x7b←→".toList.all (fun c => isLoose (some c)) = true := by decide +kernel
      exact all_eq_true.mp loose c (by simpa [isOpening] using opener)

end ListLiteral

/-- A text that no word before or after it can run into. -/
def Fenced (text : Text) : Prop :=
  text ≠ [] ∧ atWordEnd text = true ∧ isLoose text.getLast? = true

theorem Fenced.append {rest : Text} (first : Fenced text) (second : Fenced rest) :
    Fenced (text ++ rest) :=
  ⟨by simp [first.1], (atWordEnd_append first.1 _).trans first.2.1,
    by rw [getLast?_append_of_ne_nil _ second.1, second.2.2]⟩

theorem Fenced.enclosed {start stop : Text} (opens : start ≠ [] ∧ atWordEnd start = true)
    (closes : stop ≠ [] ∧ isLoose stop.getLast? = true) (text : Text) : Fenced (start ++ text ++ stop) :=
  ⟨by simp [opens.1], by rw [append_assoc, atWordEnd_append opens.1, opens.2],
    by rw [getLast?_append_of_ne_nil _ closes.1, closes.2]⟩

theorem Fenced.apart (fenced : Fenced text) (rest : Text) : Apart text rest :=
  Joint.apart (.inl fenced.2.2)

theorem braced_fenced (content : Text) : Fenced (ListLiteral.braced content) :=
  .enclosed (show ['\x7b'] ≠ [] ∧ atWordEnd ['\x7b'] = true by decide) (by decide) content

theorem Jointed.replace_fenced {holds : Text → Prop} (jointed : Jointed holds) {before old new after : Text}
    (here : holds (before ++ (old ++ after))) (opens : Apart before (old ++ after)) (closes : Apart old after)
    (there : holds new) (fenced : Fenced new) : holds (before ++ new ++ after) :=
  jointed.replace here opens closes there (.inr fenced.2.1)
    (.inl (by rw [getLast?_append_of_ne_nil _ fenced.1, fenced.2.2]))

namespace Index

variable {known : Text → Prop}

theorem bracketed_vouched (store : Store) {index : Text} (here : Vouched known index) :
    Vouched known (bracketed store index) ∧ Fenced (bracketed store index) := by
  have jointed : Jointed (Vouched known) := Vouched.jointed
  unfold bracketed
  split
  · exact ⟨jointed.enclosed (show isLead ['['] = true by decide) here (by decide),
      .enclosed (show ['['] ≠ [] ∧ atWordEnd ['['] = true by decide) (by decide) index⟩
  · exact ⟨jointed.enclosed (by decide) here (by decide), .enclosed (by decide) (by decide) index⟩

theorem access_vouched (store : Store) {inside : Text} (here : Vouched known inside) :
    Vouched known (access store inside) ∧ Fenced (access store inside) := by
  have jointed : Jointed (Vouched known) := Vouched.jointed
  have each := jointed.splitArguments here
  unfold access
  split
  · exact ⟨jointed.fixed (by decide), by simp, rfl, by decide⟩
  · rename_i filled
    generalize splitArguments inside = indices at each filled
    induction indices with
    | nil => simp at filled
    | cons index indices ih =>
      obtain ⟨first, others⟩ := forall_mem_cons.mp each
      obtain ⟨firstVouched, firstFenced⟩ := bracketed_vouched store first
      cases indices with
      | nil => simpa using ⟨firstVouched, firstFenced⟩
      | cons next indices =>
        obtain ⟨restVouched, restFenced⟩ := ih others (by simp)
        rw [flatMap_cons]
        exact ⟨jointed.fit (.inr restFenced.2.1) firstVouched restVouched, firstFenced.append restFenced⟩

theorem convert_vouched (start : stored desk.store) (here : Vouched known text) :
    Settles false (convert text) desk fun out reached => stored reached.store ∧ Vouched known out := by
  have jointed : Jointed (Vouched known) := Vouched.jointed
  suffices all : ∀ {written} (passed : Text) (desk : Desk), stored desk.store → Vouched known (passed ++ text) →
      Settles false (convertFrom written text) desk fun out reached =>
        stored reached.store ∧ Vouched known (passed ++ out) from
    all [] desk start here
  clear start here
  intro written
  fun_induction convertFrom written text with
  | case1 => exact fun _ _ start here => .pure ⟨start, here⟩
  | case2 =>
    exact fun _ _ start here => (Conversion.notify_stored start).bind fun _ _ kept => .pure ⟨kept, here⟩
  | case3 written rest inside after closed _ ihInside ihAfter =>
    intro passed desk start here
    rw [splitClose?_eq_some closed] at here
    obtain ⟨-, tail⟩ := jointed.split_after here (show isWordChar '[' = false by decide)
    obtain ⟨insideVouched, -⟩ := jointed.split_before tail (show isWordChar ']' = false by decide)
    refine (ihInside [] desk start insideVouched).bind fun content reached inner => .get_bind ?_
    obtain ⟨insideKept, contentVouched⟩ := inner
    have grouped : Vouched known (group reached.store written content) ∧
        Fenced (group reached.store written content) := by
      unfold group
      split
      · exact access_vouched _ contentVouched
      · exact ⟨jointed.braced contentVouched, braced_fenced _⟩
    have old : passed ++ '[' :: (inside ++ ']' :: after) =
        passed ++ (('[' :: inside ++ [']']) ++ after) := by simp
    have fenced : Fenced ('[' :: inside ++ [']']) :=
      .enclosed (show ['['] ≠ [] ∧ atWordEnd ['['] = true by decide) (by decide) inside
    have joined := jointed.replace_fenced (old ▸ here) (.inr rfl) (fenced.apart after) grouped.1 grouped.2
    exact (ihAfter content reached _ reached insideKept joined).bind
      fun out final kept => .pure ⟨kept.1, by simpa [group] using kept.2⟩
  | case4 written c rest plain ih =>
    intro passed desk start here
    rw [append_cons] at here
    exact (ih _ desk start here).bind fun out reached kept => .pure ⟨kept.1, by simpa using kept.2⟩

end Index

end Pseudocode
