import Pseudocode.Argument
import Pseudocode.Bracket
import Pseudocode.Proofs.Placeholder

namespace Pseudocode

open List Option Placeholder
variable {c : Char} {strict : Bool} {ok : Nat → Prop} {text after : Text} {replacer : Replacer}

/-- Comparison in any letter case and comparison in small letters agree on the character. -/
def isPlainCase (c : Char) : Bool :=
  caseKey c = smallLetter c && c ≠ 'İ'

theorem Placeholder.isMark_plainCase (mark : isMark c = true) : isPlainCase c = true := by
  have dotted : c ≠ 'İ' := isMark_ne mark (by decide)
  have reserved := isMark_reserved mark
  simp [isPlainCase, caseKey_reserved reserved, smallLetter_reserved reserved, dotted]

theorem isPlainCase_ascii (ascii : c.toNat < 128) : isPlainCase c = true :=
  of_ascii (P := fun c => isPlainCase c = true) (by decide) ascii

theorem isMark_ascii (ascii : c.toNat < 128) : isMark c = false := by
  by_contra mark
  have := (isMark_range (by simpa using mark)).1
  omega

theorem blank_unmarked (blank : isBlank c = true) : isMark c = false := by
  by_contra mark
  rw [isMark_not_blank (by simpa using mark)] at blank
  simp at blank

/-- A property of texts that survives cutting anywhere but between two characters that are `inside`
something. Blanks and commas never are. -/
structure Severs (inside : Char → Bool) (holds : Text → Prop) : Prop where
  nil : holds []
  split : ∀ {before after : Text}, holds (before ++ after) →
    ((∀ c ∈ before.getLast?, inside c = false) ∨ ∀ c ∈ after.head?, inside c = false) →
      holds before ∧ holds after
  outer : ∀ c, isBlank c = true ∨ c = ',' → inside c = false

namespace Severs

variable {inside : Char → Bool} {holds : Text → Prop} {text rest before after : Text} {c : Char}

variable (severs : Severs inside holds)
include severs

theorem split_before (here : holds (before ++ c :: after))
    (free : inside c = false) : holds before ∧ holds (c :: after) :=
  severs.split here (.inr (by simpa using free))

theorem split_after (here : holds (before ++ c :: after))
    (free : inside c = false) : holds (before ++ [c]) ∧ holds after :=
  severs.split (show holds ((before ++ [c]) ++ after) by simpa using here)
    (.inl (by simpa using free))

theorem uncons (here : holds (c :: rest)) (free : inside c = false) : holds [c] ∧ holds rest :=
  severs.split_after (show holds ([] ++ c :: rest) from here) free

theorem cut (here : holds (before ++ c :: after))
    (free : inside c = false) : holds before ∧ holds [c] ∧ holds after := by
  obtain ⟨left, right⟩ := severs.split_before here free
  exact ⟨left, severs.uncons right free⟩

theorem cut_at (here : holds text) (split : text = before ++ c :: after) (free : inside c = false) :
    holds before ∧ holds after := by
  subst split
  obtain ⟨left, -, right⟩ := severs.cut here free
  exact ⟨left, right⟩

theorem split_free (here : holds (before ++ after))
    (free : ∀ c ∈ before, inside c = false) : holds before ∧ holds after :=
  severs.split here (.inl fun c last => free c (mem_of_getLast? last))

theorem takeWhile {keeps : Char → Bool}
    (stops : ∀ c, keeps c = false → inside c = false) (here : holds text) :
    holds (text.takeWhile keeps) ∧ holds (text.dropWhile keeps) := by
  rw [← takeWhile_append_dropWhile (p := keeps) (l := text)] at here
  refine severs.split here (.inr fun c first => stops c ?_)
  have stop := head?_dropWhile_not keeps text
  rw [mem_def.mp first] at stop
  simpa using stop

theorem dropWhile {drops : Char → Bool} (free : ∀ c, drops c = true → inside c = false) (here : holds text) :
    holds (text.dropWhile drops) := by
  rw [← takeWhile_append_dropWhile (p := drops) (l := text)] at here
  exact (severs.split_free here fun c member => free c (mem_takeWhile_imp member)).2

theorem trimLeft (here : holds text) : holds (Pseudocode.trimLeft text) :=
  severs.dropWhile (fun c blank => severs.outer c (.inl blank)) here

theorem trimRight (here : holds text) : holds (Pseudocode.trimRight text) := by
  have split : text = Pseudocode.trimRight text ++ (text.reverse.takeWhile isBlank).reverse := by
    have := congrArg List.reverse (takeWhile_append_dropWhile (p := isBlank) (l := text.reverse))
    rw [reverse_append, reverse_reverse] at this
    exact this.symm
  rw [split] at here
  refine (severs.split here (.inr fun c first => severs.outer c (.inl ?_))).1
  have member := mem_reverse.mp (mem_of_head? first)
  exact mem_takeWhile_imp member

theorem trim (here : holds text) : holds (Pseudocode.trim text) :=
  severs.trimRight (severs.trimLeft here)

theorem dropBlanks? (here : holds text) (found : Pseudocode.dropBlanks? text = some rest) : holds rest := by
  cases text with
  | nil => simp [Pseudocode.dropBlanks?] at found
  | cons c tail =>
    simp only [Pseudocode.dropBlanks?] at found
    split at found
    · rename_i blank
      obtain rfl : _ = rest := Option.some.inj found
      exact severs.trimLeft (severs.uncons here (severs.outer c (.inl blank))).2
    · simp at found

end Severs

theorem blank_or_comma_unmarked (outer : isBlank c = true ∨ c = ',') : isMark c = false :=
  outer.elim blank_unmarked (by rintro rfl; exact isMark_ascii (by decide))

/-- A property of texts that survives cutting beside any character that placeholders are not written
with. In a strict reading the case of every character is plain. -/
structure Severable (strict : Bool) (holds : Text → Prop) : Prop extends Severs isMark holds where
  outer := fun _ => blank_or_comma_unmarked
  cased : strict = true → ∀ {text : Text}, holds text → ∀ c ∈ text, isPlainCase c = true

/-- A property of texts that survives joining too. -/
structure Seamless (strict : Bool) (holds : Text → Prop) : Prop extends Severable strict holds where
  ascii : ∀ {text : Text}, text.all (·.toNat < 128) = true → holds text
  append : ∀ {text rest : Text}, holds text → holds rest → holds (text ++ rest)

namespace Seamless

variable {strict : Bool} {holds : Text → Prop} {rest : Text} {c : Char}

/-- Where texts can be joined, it is enough that they can be cut at a character. -/
theorem of_cut (ascii : ∀ {text : Text}, text.all (·.toNat < 128) = true → holds text)
    (append : ∀ {text rest : Text}, holds text → holds rest → holds (text ++ rest))
    (cut : ∀ {before after : Text} {c : Char}, holds (before ++ c :: after) → isMark c = false →
      holds before ∧ holds [c] ∧ holds after)
    (cased : strict = true → ∀ {text : Text}, holds text → ∀ c ∈ text, isPlainCase c = true) :
    Seamless strict holds where
  nil := ascii rfl
  split := by
    intro before after whole place
    have empty : holds [] := ascii rfl
    rcases eq_nil_or_concat' before with rfl | ⟨init, last, rfl⟩
    · exact ⟨empty, whole⟩
    cases after with
    | nil => exact ⟨by simpa using whole, empty⟩
    | cons first rest =>
      rcases place with left | right
      · have parts := cut (show holds (init ++ last :: (first :: rest)) by simpa using whole)
          (left last (by simp))
        exact ⟨append parts.1 parts.2.1, parts.2.2⟩
      · have parts := cut whole (right first rfl)
        exact ⟨parts.1, append parts.2.1 parts.2.2⟩
  cased := cased
  ascii := ascii
  append := append

theorem cons_ascii (seamless : Seamless strict holds) (ascii : c.toNat < 128) (here : holds rest) :
    holds (c :: rest) :=
  seamless.append (seamless.ascii (show [c].all (·.toNat < 128) = true by simpa using ascii)) here

end Seamless

/-- A text of characters and of placeholders, all with indices that `ok` admits. In a strict reading
the case of every character is plain. -/
inductive Legible (strict : Bool) (ok : Nat → Prop) : Text → Prop
  | nil : Legible strict ok []
  | plain {c : Char} {rest : Text} :
      c ≠ opening → (strict = true → isPlainCase c = true) → Legible strict ok rest →
        Legible strict ok (c :: rest)
  | placeholder {index : Nat} {rest : Text} :
      ok index → Legible strict ok rest → Legible strict ok (write index ++ rest)

namespace Legible

variable {strict : Bool} {ok : Nat → Prop} {text rest before after : Text} {c : Char}

theorem of_plain (plain : ∀ c ∈ text, c ≠ opening ∧ (strict = true → isPlainCase c = true)) :
    Legible strict ok text := by
  induction text with
  | nil => exact .nil
  | cons c rest ih =>
    obtain ⟨ne, plainCase⟩ := plain c (.head _)
    exact .plain ne plainCase (ih fun d member => plain d (.tail _ member))

theorem of_ascii (ascii : text.all (·.toNat < 128) = true) : Legible strict ok text :=
  of_plain fun c member => by
    have small : c.toNat < 128 := by simpa using all_eq_true.mp ascii c member
    refine ⟨?_, fun _ => isPlainCase_ascii small⟩
    rintro rfl
    exact absurd small (by decide)

theorem mono {admits : Nat → Prop} (weaker : ∀ index, ok index → admits index)
    (legible : Legible strict ok text) : Legible strict admits text := by
  induction legible with
  | nil => exact .nil
  | plain ne plainCase _ ih => exact .plain ne plainCase ih
  | placeholder held _ ih => exact .placeholder (weaker _ held) ih

theorem append (first : Legible strict ok text) (second : Legible strict ok rest) :
    Legible strict ok (text ++ rest) := by
  induction first with
  | nil => exact second
  | plain ne plainCase _ ih => exact .plain ne plainCase ih
  | placeholder held _ ih =>
    rw [append_assoc]
    exact .placeholder held ih

theorem single {index : Nat} (admitted : ok index) : Legible strict ok (write index) := by
  simpa using placeholder admitted .nil

theorem plainCase (legible : Legible strict ok text) (isStrict : strict = true) :
    ∀ c ∈ text, isPlainCase c = true := by
  induction legible with
  | nil => simp
  | plain _ plainCase _ ih => simpa using ⟨plainCase isStrict, ih⟩
  | placeholder _ _ ih =>
    intro c member
    rcases mem_append.mp member with mark | later
    · exact isMark_plainCase (isMark_of_mem_write c mark)
    · exact ih c later

/-- The end of a legible text is legible wherever it starts. -/
theorem suffix (legible : Legible strict ok text) (split : text = before ++ after) :
    Legible strict ok after := by
  induction legible generalizing before with
  | nil =>
    obtain ⟨-, rfl⟩ := append_eq_nil_iff.mp split.symm
    exact .nil
  | plain ne plainCase legible ih =>
    cases before with
    | nil =>
      obtain rfl : _ = after := split
      exact .plain ne plainCase legible
    | cons d before => exact ih (List.cons.inj split).2
  | placeholder held legible ih =>
    rename_i index rest
    rcases append_eq_append_iff.mp split with ⟨between, rfl, rfl⟩ | ⟨between, cut, rfl⟩
    · exact ih rfl
    · cases before with
      | nil =>
        obtain rfl : _ = between := cut
        exact .placeholder held legible
      | cons d before =>
        have tail : encode index ++ [closing] = before ++ between := (List.cons.inj cut).2
        refine append (of_plain fun c member => ?_) legible
        have inside : c ∈ encode index ++ [closing] := by simp [tail, member]
        refine ⟨?_, fun _ => isMark_plainCase (isMark_of_mem_write c (.tail _ inside))⟩
        rintro rfl
        rcases mem_append.mp inside with digit | last
        · exact absurd (encode_isDigit _ digit) (by decide)
        · exact absurd (mem_singleton.mp last) (by decide)

theorem tail (legible : Legible strict ok (c :: rest)) : Legible strict ok rest :=
  legible.suffix singleton_append.symm

/-- A legible text may be cut before any character that placeholders are not written with. -/
theorem before_unmarked (legible : Legible strict ok text) (split : text = before ++ c :: after)
    (unmarked : isMark c = false) : Legible strict ok before := by
  induction legible generalizing before with
  | nil => simp at split
  | plain ne plainCase _ ih =>
    cases before with
    | nil => exact .nil
    | cons d before =>
      obtain ⟨rfl, later⟩ := List.cons.inj split
      exact .plain ne plainCase (ih later)
  | @placeholder index rest held _ ih =>
    rcases append_eq_append_iff.mp split with ⟨between, rfl, rfl⟩ | ⟨between, cut, later⟩
    · exact .placeholder held (ih rfl)
    · cases between with
      | nil =>
        rw [append_nil] at cut
        subst cut
        exact .single held
      | cons d between =>
        obtain rfl : c = d := (List.cons.inj later).1
        have inside : c ∈ write index := by simp [cut]
        simp [isMark_of_mem_write c inside] at unmarked

theorem cut_at (legible : Legible strict ok text) (split : text = before ++ c :: after)
    (unmarked : isMark c = false) : Legible strict ok before ∧ Legible strict ok after :=
  ⟨legible.before_unmarked split unmarked, (legible.suffix split).tail⟩

theorem seamless : Seamless strict (Legible strict ok) := by
  refine .of_cut of_ascii append (fun {before after c} legible unmarked => ?_)
    fun isStrict _ legible => legible.plainCase isStrict
  refine ⟨legible.before_unmarked rfl unmarked, of_plain fun d member => ?_, (legible.suffix rfl).tail⟩
  rw [mem_singleton.mp member]
  refine ⟨?_, fun isStrict => legible.plainCase isStrict c (by simp)⟩
  rintro rfl
  exact absurd unmarked (by decide)

theorem trim (legible : Legible strict ok text) : Legible strict ok (Pseudocode.trim text) :=
  seamless.trim legible

theorem pieces_append (legible : Legible strict ok text) (rest : Text) :
    pieces (text ++ rest) = pieces text ++ pieces rest := by
  induction legible with
  | nil => rfl
  | plain ne _ _ ih => rw [cons_append, pieces_plain ne, pieces_plain ne, ih, cons_append]
  | placeholder _ _ ih => rw [append_assoc, pieces_write, pieces_write, ih, cons_append]

end Legible

/-- The indices of the placeholders in a text, in order. -/
def indices (text : Text) : List Nat :=
  (pieces text).filterMap fun
    | .plain _ => none
    | .placeholder index _ => some index

theorem indices_plain (plain : c ≠ opening) (rest : Text) : indices (c :: rest) = indices rest := by
  simp [indices, pieces_plain plain]

theorem indices_write (index : Nat) (rest : Text) : indices (write index ++ rest) = index :: indices rest := by
  simp [indices, pieces_write]

theorem indices_placeholder (index : Nat) : indices (write index) = [index] := by
  simpa [indices] using indices_write index []

theorem Legible.indices_append (legible : Legible strict ok text)
    (rest : Text) : indices (text ++ rest) = indices text ++ indices rest := by
  simp [indices, legible.pieces_append]

theorem Legible.of_mem_indices (legible : Legible strict ok text) :
    ∀ index ∈ indices text, ok index := by
  induction legible with
  | nil => simp [indices]
  | plain ne _ _ ih => rwa [indices_plain ne]
  | placeholder admitted _ ih =>
    rw [indices_write]
    exact forall_mem_cons.mpr ⟨admitted, ih⟩

theorem splitClose?_eq_some {opener closer : Char} {depth : Nat} {inside : Text}
    (found : splitClose? opener closer depth text = some (inside, after)) :
    text = inside ++ closer :: after := by
  induction text generalizing depth inside after with
  | nil => simp [splitClose?] at found
  | cons c rest ih =>
    have step {depth : Nat} (found : (splitClose? opener closer depth rest).map
        (fun split => (c :: split.1, split.2)) = some (inside, after)) :
        c :: rest = inside ++ closer :: after := by
      obtain ⟨⟨inner, tail⟩, deeper, same⟩ := map_eq_some_iff.mp found
      obtain ⟨rfl, rfl⟩ := Prod.mk.inj same
      rw [ih deeper, cons_append]
    simp only [splitClose?] at found
    split at found
    · exact step found
    · split at found
      · rename_i isCloser
        split at found
        · obtain ⟨rfl, rfl⟩ := Prod.mk.inj (Option.some.inj found)
          rw [isCloser, nil_append]
        · exact step found
      · exact step found

theorem splitParen?_eq_some {inside : Text}
    (found : splitParen? text = some (inside, after)) : text = inside ++ ')' :: after :=
  splitClose?_eq_some found

theorem cutAt?_eq_some {mark : Char} {before : Text}
    (found : cutAt? mark text = some (before, after)) : text = before ++ mark :: after := by
  induction text generalizing before with
  | nil => simp [cutAt?] at found
  | cons c rest ih =>
    simp only [cutAt?] at found
    split at found
    · rename_i same
      obtain ⟨rfl, rfl⟩ := Prod.mk.inj (Option.some.inj found)
      rw [same, nil_append]
    · obtain ⟨⟨inner, tail⟩, later, same⟩ := map_eq_some_iff.mp found
      obtain ⟨rfl, rfl⟩ := Prod.mk.inj same
      rw [ih later, cons_append]

/-- The first piece starts the text and every other one follows a comma; each ends at a comma or with
the text. -/
theorem segments_split (scan : Scan) (depth : Int) (text : Text) :
    ∃ first others, segments scan depth text = first :: others ∧
      (∃ after, text = first ++ after ∧ ∀ c ∈ after.head?, c = ',') ∧
      ∀ piece ∈ others, ∃ before after, text = before ++ ',' :: (piece ++ after) ∧
        ∀ c ∈ after.head?, c = ',' := by
  induction text generalizing scan depth with
  | nil => exact ⟨[], [], rfl, ⟨[], rfl, by simp⟩, by simp⟩
  | cons c rest ih =>
    simp only [segments]
    split
    · rename_i cut
      obtain ⟨first, others, shape, ⟨after, starts, ends⟩, later⟩ := ih .code 0
      refine ⟨[], _, rfl, ⟨c :: rest, rfl, by simpa using cut.2.1⟩, ?_⟩
      intro piece member
      rw [shape] at member
      rcases mem_cons.mp member with rfl | member
      · exact ⟨[], after, by simp [starts, cut.2.1], ends⟩
      · obtain ⟨before, after, split, ends⟩ := later piece member
        exact ⟨c :: before, after, by rw [split, cons_append], ends⟩
    · obtain ⟨first, others, shape, ⟨after, starts, ends⟩, later⟩ :=
        ih (scan.next c) (scan.depthAfter depth c)
      refine ⟨c :: first, others, by rw [shape]; rfl, ⟨after, by rw [starts, cons_append], ends⟩,
        ?_⟩
      intro piece member
      obtain ⟨before, after, split, ends⟩ := later piece member
      exact ⟨c :: before, after, by rw [split, cons_append], ends⟩

theorem dropEmptyLast_subset {items : List Text} {item : Text} (member : item ∈ dropEmptyLast items) :
    item ∈ items := by
  fun_induction dropEmptyLast items with
  | case1 => exact member
  | case2 => simp at member
  | case3 => exact member
  | case4 first items _ ih =>
    rcases mem_cons.mp member with rfl | later
    · exact .head _
    · exact .tail _ (ih later)

namespace Severs

variable {inside : Char → Bool} {holds : Text → Prop} {text : Text}

theorem segments (severs : Severs inside holds) (here : holds text) (scan : Scan) (depth : Int) :
    ∀ piece ∈ Pseudocode.segments scan depth text, holds piece := by
  have comma : inside ',' = false := severs.outer ',' (.inr rfl)
  -- A piece is what stands between two commas, or between a comma and an end of the text.
  obtain ⟨first, others, shape, ⟨after, starts, ends⟩, later⟩ := segments_split scan depth text
  have upto {piece after : Text} (whole : holds (piece ++ after)) (ends : ∀ c ∈ after.head?, c = ',') :
      holds piece := by
    cases after with
    | nil => rwa [append_nil] at whole
    | cons c after =>
      obtain rfl : c = ',' := ends c rfl
      exact (severs.cut_at whole rfl comma).1
  intro found member
  rw [shape] at member
  rcases mem_cons.mp member with rfl | member
  · exact upto (starts ▸ here) ends
  · obtain ⟨before, after, split, ends⟩ := later found member
    exact upto (severs.cut_at here split comma).2 ends

theorem splitArguments (severs : Severs inside holds) (here : holds text) :
    ∀ argument ∈ Pseudocode.splitArguments text, holds argument := by
  intro argument member
  unfold Pseudocode.splitArguments at member
  split at member
  · simp at member
  · obtain ⟨piece, among, rfl⟩ := mem_map.mp (dropEmptyLast_subset member)
    exact severs.trim (severs.segments here .code 0 piece among)

end Severs

theorem Legible.splitArguments (legible : Legible strict ok text) :
    ∀ argument ∈ Pseudocode.splitArguments text, Legible strict ok argument :=
  Legible.seamless.splitArguments legible

theorem substituteFrom_skip (replacer : Replacer) (before : Option Char) (skip : Nat) (text : Text) :
    ∃ next, substituteFrom replacer before skip text =
      substituteFrom replacer next 0 (text.drop skip) := by
  induction text generalizing before skip with
  | nil => exact ⟨before, by simp [substituteFrom]⟩
  | cons c rest ih =>
    cases skip with
    | zero => exact ⟨before, rfl⟩
    | succ skip =>
      obtain ⟨next, same⟩ := ih (some c) skip
      exact ⟨next, by rw [substituteFrom, same, drop_succ_cons]⟩

theorem substituteFrom_passes {passed : Text}
    (inert : ∀ before, ∀ c ∈ passed, ∀ rest, replacer before (c :: rest) = none)
    (before : Option Char) (rest : Text) :
    ∃ next, substituteFrom replacer before 0 (passed ++ rest) =
      passed ++ substituteFrom replacer next 0 rest := by
  induction passed generalizing before with
  | nil => exact ⟨before, rfl⟩
  | cons c passed ih =>
    obtain ⟨next, same⟩ := ih
      (fun before d member => inert before d (.tail _ member)) (some c)
    refine ⟨next, ?_⟩
    rw [cons_append, substituteFrom, inert before c (.head _)]
    simp only [same, cons_append]

section Replacing

variable {replacer : Replacer} {before text after : Text}

/-- Where nothing is replaced, the text is copied. -/
theorem substituteFrom_copied (idle : ∀ first rest, text = first ++ rest → rest ≠ [] →
      replacer (before ++ first).getLast? (rest ++ after) = none) :
    substituteFrom replacer before.getLast? 0 (text ++ after) =
        text ++ substituteFrom replacer (before ++ text).getLast? 0 after ∧
      occursFrom replacer before.getLast? (text ++ after) =
        occursFrom replacer (before ++ text).getLast? after := by
  induction text generalizing before with
  | nil => simp
  | cons c text ih =>
    have here := idle [] (c :: text) rfl (by simp)
    rw [append_nil, cons_append] at here
    have later := @ih (before ++ [c]) fun first rest split some => by
      simpa using idle (c :: first) rest (by rw [split, cons_append]) some
    rw [getLast?_concat, append_assoc] at later
    rw [cons_append, substituteFrom, occursFrom, here, isSome_none, Bool.false_or]
    exact ⟨congrArg (c :: ·) later.1, later.2⟩

theorem substituteFrom_passed (text after : Text) (c : Char) :
    substituteFrom replacer (some c) text.length (text ++ after) =
      substituteFrom replacer (c :: text).getLast? 0 after := by
  induction text generalizing c with
  | nil => rfl
  | cons d text ih => rw [length_cons, cons_append, substituteFrom, ih, getLast?_cons_cons]

end Replacing

/-- A replacer that applies nowhere leaves the text. -/
theorem substituteFrom_idle
    (idle : ∀ before rest, rest <:+ text → replacer before rest = none) (before : Option Char) :
    substituteFrom replacer before 0 text = text := by
  induction text generalizing before with
  | nil => rw [substituteFrom, idle before [] (suffix_refl [])]
  | cons c text ih =>
    rw [substituteFrom, idle before _ (suffix_refl _)]
    exact congrArg (c :: ·) (ih (fun _ rest within => idle _ rest (within.trans (suffix_cons c text))) _)

/-- A replacer that takes away only characters outside placeholders, and puts in only what keeps the
property. -/
def Replacer.Neat (replacer : Replacer) (holds : Text → Prop) : Prop :=
  ∀ before text n new, replacer before text = some (n, new) →
    text.take n ≠ [] ∧ (∀ c ∈ text.take n, isMark c = false) ∧ holds new

theorem Seamless.substitute {holds : Text → Prop} (seamless : Seamless strict holds)
    (neat : replacer.Neat holds) (here : holds text) :
    holds (Pseudocode.substitute replacer text) := by
  -- What has been written stands before the rest of the text: the whole has the property all along.
  suffices all : ∀ before skip (written : Text), holds (written ++ text.drop skip) →
      holds (written ++ substituteFrom replacer before skip text) from all none 0 [] here
  clear here
  induction text with
  | nil =>
    intro before skip written here
    rw [substituteFrom]
    split
    · exact absurd take_nil (neat _ _ _ _ ‹_›).1
    · simpa using here
  | cons c rest ih =>
    intro before skip written here
    cases skip with
    | succ skip => exact ih (some c) skip written here
    | zero =>
      rw [substituteFrom]
      split
      · exact absurd take_zero (neat _ _ _ _ ‹_›).1
      · rename_i n new found
        obtain ⟨-, unmarked, put⟩ := neat _ _ _ _ found
        rw [← append_assoc]
        refine ih (some c) n _ ?_
        obtain ⟨first, later⟩ := seamless.split_before here (unmarked c (by simp))
        rw [← take_append_drop (n + 1) (c :: rest)] at later
        exact seamless.append (seamless.append first put) (seamless.split_free later unmarked).2
      · rw [append_cons]
        exact ih (some c) 0 _ (by simpa using here)

end Pseudocode
