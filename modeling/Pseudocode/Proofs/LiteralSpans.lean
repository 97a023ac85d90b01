import Pseudocode.Proofs.Position
import Pseudocode.Proofs.Total

namespace Pseudocode

open List Option

/-- The columns where a stretch of a line starts and where it has stopped. -/
structure Span where
  start : Nat
  stop : Nat
  deriving DecidableEq, Repr

namespace Span

/-- One of the spans takes up the column. -/
def Cover (spans : List Span) (column : Nat) : Prop :=
  ∃ span ∈ spans, span.start ≤ column ∧ column < span.stop

/-- The span lies in one of the spans. -/
def Within (span : Span) (spans : List Span) : Prop :=
  ∃ outer ∈ spans, outer.start ≤ span.start ∧ span.stop ≤ outer.stop

/-- What stands in the columns of a span. -/
def text (span : Span) (line : Text) : Text :=
  (line.drop span.start).take (span.stop - span.start)

end Span

/-- The stretches of a text that are found from left to right, one after the other. Given the text
from a place on, `length?` tells how long a stretch that starts there is. The first `skip` characters
are left out, and `place` is the column of the text. -/
def stretchesFrom (length? : Text → Option Nat) : (skip place : Nat) → Text → List Span
  | _, _, [] => []
  | skip + 1, place, _ :: rest => stretchesFrom length? skip (place + 1) rest
  | 0, place, c :: rest =>
    match length? (c :: rest) with
    | some n => ⟨place, place + n⟩ :: stretchesFrom length? (n - 1) (place + 1) rest
    | none => stretchesFrom length? 0 (place + 1) rest

def stretches (length? : Text → Option Nat) (text : Text) : List Span :=
  stretchesFrom length? 0 0 text

/-- A stretch has characters, and the text has all of them. -/
def IsLength (length? : Text → Option Nat) : Prop :=
  ∀ text n, length? text = some n → 0 < n ∧ n ≤ text.length

/-- The span is a stretch of the text, where `place` is the column of the text. -/
structure Span.FoundIn (span : Span) (length? : Text → Option Nat) (place : Nat) (text : Text) : Prop where
  low : place ≤ span.start
  order : span.start < span.stop
  high : span.stop ≤ place + text.length
  here : length? (text.drop (span.start - place)) = some (span.stop - span.start)

section Stretches

variable {length? : Text → Option Nat} {skip place : Nat} {text : Text} {span other : Span}

theorem drop_later {start : Nat} (later : place + 1 ≤ start) (c : Char) (text : Text) :
    (c :: text).drop (start - place) = text.drop (start - (place + 1)) := by
  rw [show start - place = start - (place + 1) + 1 by omega, drop_succ_cons]

theorem Span.FoundIn.cons (found : span.FoundIn length? (place + 1) text) (c : Char) :
    span.FoundIn length? place (c :: text) where
  low := Nat.le_of_succ_le found.low
  order := found.order
  high := by
    have high := found.high
    rw [length_cons]
    omega
  here := by
    rw [drop_later found.low]
    exact found.here

theorem stretchesFrom_sound (lengths : IsLength length?)
    (found : span ∈ stretchesFrom length? skip place text) :
    place + skip ≤ span.start ∧ span.FoundIn length? place text := by
  fun_induction stretchesFrom length? skip place text with
  | case1 => simp at found
  | case2 skip place c rest ih =>
    obtain ⟨low, here⟩ := ih found
    exact ⟨by omega, here.cons c⟩
  | case3 place c rest n first ih =>
    obtain ⟨positive, bound⟩ := lengths _ _ first
    rcases mem_cons.mp found with rfl | later
    · exact ⟨le_rfl, le_rfl, Nat.lt_add_of_pos_right positive, Nat.add_le_add_left bound _, by
        simpa using first⟩
    · obtain ⟨low, here⟩ := ih later
      exact ⟨by omega, here.cons c⟩
  | case4 place c rest none ih =>
    obtain ⟨low, here⟩ := ih found
    exact ⟨by omega, here.cons c⟩

theorem stretchesFrom_pairwise (lengths : IsLength length?) (skip place : Nat) (text : Text) :
    (stretchesFrom length? skip place text).Pairwise (·.stop ≤ ·.start) := by
  fun_induction stretchesFrom length? skip place text with
  | case1 => exact .nil
  | case2 skip place c rest ih => exact ih
  | case3 place c rest n here ih =>
    refine .cons (fun later found => ?_) ih
    have low := (stretchesFrom_sound lengths found).1
    have positive := (lengths _ _ here).1
    simp only
    omega
  | case4 place c rest none ih => exact ih

/-- What could be a stretch is one, unless it starts inside another. -/
theorem stretchesFrom_complete {column n : Nat} (low : place + skip ≤ column)
    (here : length? (text.drop (column - place)) = some n) (inText : column < place + text.length)
    (free : ∀ span ∈ stretchesFrom length? skip place text, ¬(span.start < column ∧ column < span.stop)) :
    ⟨column, column + n⟩ ∈ stretchesFrom length? skip place text := by
  fun_induction stretchesFrom length? skip place text with
  | case1 skip place =>
    rw [length_nil] at inText
    omega
  | case2 skip place c rest ih =>
    rw [drop_later (by omega)] at here
    rw [length_cons] at inText
    exact ih (by omega) here (by omega) free
  | case3 place c rest m first ih =>
    obtain ⟨outside, free⟩ := forall_mem_cons.mp free
    rcases low.eq_or_lt with same | beyond
    · obtain rfl : place = column := by omega
      rw [Nat.sub_self, drop_zero, first] at here
      obtain rfl := Option.some.inj here
      exact .head _
    · rw [drop_later (by omega)] at here
      rw [length_cons] at inText
      simp only at outside
      exact .tail _ (ih (by omega) here (by omega) free)
  | case4 place c rest none ih =>
    rcases low.eq_or_lt with same | beyond
    · obtain rfl : place = column := by omega
      rw [Nat.sub_self, drop_zero, none] at here
      simp at here
    · rw [drop_later (by omega)] at here
      rw [length_cons] at inText
      exact ih (by omega) here (by omega) free

theorem stretches_sound (lengths : IsLength length?) (found : span ∈ stretches length? text) :
    span.FoundIn length? 0 text :=
  (stretchesFrom_sound lengths found).2

/-- Two stretches of a text that share a column are the same. -/
theorem stretches_unique (lengths : IsLength length?) (found : span ∈ stretches length? text)
    (another : other ∈ stretches length? text) {column : Nat}
    (inSpan : span.start ≤ column ∧ column < span.stop)
    (inOther : other.start ≤ column ∧ column < other.stop) : span = other := by
  by_contra apart
  have order : (stretches length? text).Pairwise fun left right =>
      left.stop ≤ right.start ∨ right.stop ≤ left.start :=
    (stretchesFrom_pairwise lengths 0 0 text).imp .inl
  have symmetric : Std.Symm fun left right : Span =>
      left.stop ≤ right.start ∨ right.stop ≤ left.start := ⟨fun _ _ => Or.symm⟩
  have split := order.forall found another apart
  omega

end Stretches

/-- A replacer that blanks out stretches. -/
def Blanks (replacer : Replacer) (length? : Text → Option Nat) : Prop :=
  ∀ before text, replacer before text = (length? text).map fun n => (n, blanks n)

section Blanking

variable {replacer : Replacer} {length? : Text → Option Nat}

/-- Blanking out shows blanks in the columns of the stretches and leaves the others as they are. -/
theorem getElem?_substituteFrom (blanking : Blanks replacer length?) (lengths : IsLength length?)
    (before : Option Char) (skip place : Nat) (text : Text) (i : Nat) :
    (Span.Cover (stretchesFrom length? skip place text) (place + skip + i) →
      (substituteFrom replacer before skip text)[i]? = some ' ') ∧
    (¬Span.Cover (stretchesFrom length? skip place text) (place + skip + i) →
      (substituteFrom replacer before skip text)[i]? = text[skip + i]?) := by
  induction text generalizing before skip place i with
  | nil =>
    have empty (before : Option Char) : replacer before [] = none := by
      rw [blanking, map_eq_none_iff]
      by_contra some
      obtain ⟨n, found⟩ := ne_none_iff_exists'.mp some
      have bounds := lengths _ _ found
      rw [length_nil] at bounds
      omega
    simp [substituteFrom, empty, stretchesFrom, Span.Cover]
  | cons c rest ih =>
    cases skip with
    | succ skip =>
      have later := ih (some c) skip (place + 1) i
      rw [show place + 1 + skip + i = place + (skip + 1) + i by omega] at later
      rwa [substituteFrom, stretchesFrom, show skip + 1 + i = skip + i + 1 by omega, getElem?_cons_succ]
    | zero =>
      cases found : length? (c :: rest) with
      | none =>
        rw [substituteFrom, blanking, found, stretchesFrom, found, map_none]
        simp only
        cases i with
        | zero =>
          refine ⟨fun cover => ?_, fun _ => rfl⟩
          obtain ⟨span, inside, low, -⟩ := cover
          have := (stretchesFrom_sound lengths inside).1
          omega
        | succ i =>
          have later := ih (some c) 0 (place + 1) i
          rw [show place + 1 + 0 + i = place + 0 + (i + 1) by omega] at later
          rwa [getElem?_cons_succ, show 0 + (i + 1) = 0 + i + 1 by omega, getElem?_cons_succ]
      | some n =>
        obtain ⟨m, rfl⟩ := Nat.exists_eq_succ_of_ne_zero (lengths _ _ found).1.ne'
        rw [substituteFrom, blanking, found, stretchesFrom, found, map_some]
        simp only
        by_cases inside : i < m + 1
        · refine ⟨fun _ => ?_, fun free => absurd ⟨_, .head _, ?_⟩ free⟩
          · rw [getElem?_append_left (by simpa [blanks] using inside)]
            simp [blanks, inside]
          · exact ⟨Nat.le_add_right _ _, by simp only; omega⟩
        · have later := ih (some c) m (place + 1) (i - (m + 1))
          rw [show place + 1 + m + (i - (m + 1)) = place + 0 + i by omega] at later
          rw [getElem?_append_right (by simpa [blanks] using inside),
            show 0 + i = m + (i - (m + 1)) + 1 by omega, getElem?_cons_succ, blanks,
            length_replicate]
          refine ⟨fun cover => later.1 ?_, fun free => later.2 fun cover => free ?_⟩
          · obtain ⟨span, member, low, high⟩ := cover
            rcases mem_cons.mp member with rfl | member
            · simp only at high
              omega
            · exact ⟨span, member, low, high⟩
          · obtain ⟨span, member, bounds⟩ := cover
            exact ⟨span, .tail _ member, bounds⟩

theorem getElem?_substitute (blanking : Blanks replacer length?) (lengths : IsLength length?)
    (text : Text) (i : Nat) :
    (Span.Cover (stretches length? text) i → (substitute replacer text)[i]? = some ' ') ∧
      (¬Span.Cover (stretches length? text) i → (substitute replacer text)[i]? = text[i]?) := by
  simpa [stretches, substitute] using getElem?_substituteFrom blanking lengths none 0 0 text i

end Blanking

/-- How long a literal at the start of a text is that runs to the next double quote. -/
def pairLength? (text : Text) : Option Nat :=
  (blankDoubleQuoted none text).map (·.1)

/-- How long a quoted character at the start of a text is. -/
def quotedCharLength? (text : Text) : Option Nat :=
  (blankSingleQuoted none text).map (·.1)

/-- The double quotes of a line, paired off from the left. -/
def quotePairs (line : Text) : List Span :=
  stretches pairLength? line

/-- A line with its pairs of double quotes blanked out. -/
def withoutPairs (line : Text) : Text :=
  substitute blankDoubleQuoted line

/-- The literals of a line as a check takes them: pairs of double quotes, and the quoted characters
that are left when these are blanked out. -/
def checkedLiterals (line : Text) : List Span :=
  quotePairs line ++ stretches quotedCharLength? (withoutPairs line)

/-- The literals of a line that a conversion holds back. -/
def heldLiterals (line : Text) : List Span :=
  stretches (fun text => (literal? text).map List.length) line

theorem blankDoubleQuoted_blanks : Blanks blankDoubleQuoted pairLength? := by
  intro before text
  unfold pairLength? blankDoubleQuoted
  split
  · simp only
    split <;> rfl
  · rfl

theorem blankSingleQuoted_blanks : Blanks blankSingleQuoted quotedCharLength? := by
  intro before text
  unfold quotedCharLength? blankSingleQuoted
  split
  · split <;> rfl
  · split <;> rfl
  · rfl

theorem Replacer.Fades.isLength {replacer : Replacer} (fading : replacer.Fades) :
    IsLength fun text => (replacer none text).map (·.1) := by
  intro text n found
  obtain ⟨⟨m, new⟩, replaced, rfl⟩ := map_eq_some_iff.mp found
  obtain ⟨positive, bound, -⟩ := fading _ _ _ _ replaced
  exact ⟨positive, bound⟩

theorem pairLength?_isLength : IsLength pairLength? :=
  blankDoubleQuoted_fades.isLength

theorem quotedCharLength?_isLength : IsLength quotedCharLength? :=
  blankSingleQuoted_fades.isLength

theorem pairLength?_eq_some {text : Text} {n : Nat} (found : pairLength? text = some n) :
    ∃ body rest, text = '"' :: (body ++ '"' :: rest) ∧ '"' ∉ body ∧ n = body.length + 2 := by
  unfold pairLength? blankDoubleQuoted at found
  split at found
  · rename_i rest
    simp only at found
    split at found
    · rename_i closed
      obtain rfl := Option.some.inj found
      have split : rest = rest.takeWhile (· ≠ '"') ++ rest.dropWhile (· ≠ '"') :=
        List.takeWhile_append_dropWhile.symm
      have inside : '"' ∉ rest.takeWhile (· ≠ '"') := fun member => by
        simpa using List.mem_takeWhile_imp member
      have quote := List.head?_dropWhile_not (fun c : Char => decide (c ≠ '"')) rest
      cases shape : rest.dropWhile (· ≠ '"') with
      | nil =>
        rw [shape, List.append_nil] at split
        rw [← split] at closed
        exact absurd closed (lt_irrefl _)
      | cons c later =>
        rw [shape] at quote
        obtain rfl : c = '"' := by simpa using quote
        exact ⟨_, later, by rw [← shape, ← split], inside, rfl⟩
    · simp at found
  · simp at found

/-- A quoted character at the start of a text, escaped or not, with the length of its form. -/
inductive QuotedChar : Text → Nat → Prop
  | plain {c : Char} {rest : Text} : c ≠ '\\' → c ≠ '\'' → QuotedChar ('\'' :: c :: '\'' :: rest) 3
  | escaped {c : Char} {rest : Text} : c ≠ '\n' → QuotedChar ('\'' :: '\\' :: c :: '\'' :: rest) 4

theorem quotedCharLength?_eq_some {text : Text} {n : Nat} :
    quotedCharLength? text = some n ↔ QuotedChar text n := by
  constructor
  · intro found
    unfold quotedCharLength? blankSingleQuoted at found
    split at found
    · split at found
      · simp at found
      · obtain rfl := Option.some.inj found
        exact .escaped ‹_›
    · split at found
      · simp at found
      · rename_i sign
        rw [not_or] at sign
        obtain rfl := Option.some.inj found
        exact .plain sign.1 sign.2
    · simp at found
  · intro quoted
    cases quoted with
    | plain slash quote => simp [quotedCharLength?, blankSingleQuoted, slash, quote]
    | escaped feed => simp [quotedCharLength?, blankSingleQuoted, feed]

theorem doubleQuotedRest?_last {text rest : Text} (found : doubleQuotedRest? text = some rest) :
    rest.getLast? = some '"' := by
  fun_induction doubleQuotedRest? text generalizing rest with
  | case1 | case2 | case3 => simp at found
  | case4 c tail _ ih =>
    obtain ⟨quoted, inner, rfl⟩ := Option.map_eq_some_iff.mp found
    simp [List.getLast?_cons, ih inner]
  | case5 tail =>
    obtain rfl := Option.some.inj found
    rfl
  | case6 c tail _ _ _ ih =>
    obtain ⟨quoted, inner, rfl⟩ := Option.map_eq_some_iff.mp found
    simp [List.getLast?_cons, ih inner]

/-- A literal is between double quotes, or it is a quoted character. -/
theorem literal?_length {text : Text} {n : Nat} (found : (literal? text).map List.length = some n) :
    (2 ≤ n ∧ text[0]? = some '"' ∧ text[n - 1]? = some '"') ∨ QuotedChar text n := by
  obtain ⟨literal, taken, rfl⟩ := Option.map_eq_some_iff.mp found
  unfold literal? at taken
  split at taken
  · rename_i body
    obtain ⟨rest, quoted, rfl⟩ := Option.map_eq_some_iff.mp taken
    have last := doubleQuotedRest?_last quoted
    obtain ⟨before, rfl⟩ := List.getLast?_eq_some_iff.mp last
    obtain ⟨after, rfl⟩ := doubleQuotedRest?_starts quoted
    refine .inl ⟨by simp, rfl, ?_⟩
    simp
  · split at taken
    · simp at taken
    · obtain rfl := Option.some.inj taken
      exact .inr (.escaped ‹_›)
  · split at taken
    · simp at taken
    · rename_i sign
      rw [not_or] at sign
      obtain rfl := Option.some.inj taken
      exact .inr (.plain sign.1 sign.2)
  · simp at taken

namespace QuotedChar

variable {text other : Text} {n : Nat}

theorem literal? (quoted : QuotedChar text n) : (literal? text).map List.length = some n := by
  cases quoted with
  | plain slash quote => simp [Pseudocode.literal?, slash, quote]
  | escaped feed => simp [Pseudocode.literal?, feed]

theorem first (quoted : QuotedChar text n) : text[0]? = some '\'' := by
  cases quoted <;> rfl

theorem last (quoted : QuotedChar text n) : text[n - 1]? = some '\'' := by
  cases quoted <;> rfl

/-- No two double quotes fit into a quoted character. -/
theorem not_double (quoted : QuotedChar text n) {i j : Nat} (less : i < j) (bound : j < n)
    (left : text[i]? = some '"') (right : text[j]? = some '"') : False := by
  cases quoted with
  | plain =>
    have first : i ≠ 0 := by rintro rfl; simp at left
    obtain rfl : j = 2 := by omega
    simp at right
  | escaped =>
    have first : i ≠ 0 := by rintro rfl; simp at left
    have second : i ≠ 1 := by rintro rfl; simp at left
    obtain rfl : j = 3 := by omega
    simp at right

/-- Only what is quoted matters. -/
theorem of_take (quoted : QuotedChar text n) (same : other.take n = text.take n) : QuotedChar other n := by
  have split := List.take_append_drop n other
  rw [same] at split
  rw [← split]
  cases quoted with
  | plain slash quote => exact .plain slash quote
  | escaped feed => exact .escaped feed

theorem straightQuotes_iff : QuotedChar (straightQuotes text) n ↔ QuotedChar text n := by
  have straight {c x : Char} (plain : x ≠ '"' ∧ x ≠ '“' ∧ x ≠ '”') :
      (if c = '“' ∨ c = '”' then '"' else c) = x ↔ c = x := by
    grind
  constructor
  · intro quoted
    generalize shape : straightQuotes text = image at quoted
    unfold straightQuotes at shape
    cases quoted with
    | plain slash quote =>
      obtain ⟨a, _, rfl, first, after⟩ := List.map_eq_cons_iff.mp shape
      obtain ⟨c, _, rfl, rfl, closing⟩ := List.map_eq_cons_iff.mp after
      obtain ⟨b, rest, rfl, last, -⟩ := List.map_eq_cons_iff.mp closing
      rw [straight (by decide)] at first last
      rw [Ne, straight (by decide)] at slash quote
      rw [first, last]
      exact .plain slash quote
    | escaped feed =>
      obtain ⟨a, _, rfl, first, after⟩ := List.map_eq_cons_iff.mp shape
      obtain ⟨b, _, rfl, second, escaped⟩ := List.map_eq_cons_iff.mp after
      obtain ⟨c, _, rfl, rfl, closing⟩ := List.map_eq_cons_iff.mp escaped
      obtain ⟨d, rest, rfl, last, -⟩ := List.map_eq_cons_iff.mp closing
      rw [straight (by decide)] at first second last
      rw [Ne, straight (by decide)] at feed
      rw [first, second, last]
      exact .escaped feed
  · intro quoted
    cases quoted with
    | plain slash quote =>
      exact .plain (by rwa [Ne, straight (by decide)]) (by rwa [Ne, straight (by decide)])
    | escaped feed => exact .escaped (by rwa [Ne, straight (by decide)])

end QuotedChar

theorem heldLength_isLength : IsLength fun text => (literal? text).map List.length := by
  intro text n found
  obtain ⟨literal, taken, rfl⟩ := Option.map_eq_some_iff.mp found
  obtain ⟨starts, nonempty⟩ := literal?_starts taken
  exact ⟨List.length_pos_iff.mpr nonempty, starts.length_le⟩

/-- Where the double quotes of a pair stand. -/
theorem quotePairs_quotes {raw : Text} {span : Span} (found : span ∈ quotePairs raw) :
    span.start + 2 ≤ span.stop ∧ raw[span.start]? = some '"' ∧ raw[span.stop - 1]? = some '"' ∧
      ∀ i, span.start < i → i < span.stop - 1 → raw[i]? ≠ some '"' := by
  obtain ⟨-, order, high, here⟩ := stretches_sound pairLength?_isLength found
  obtain ⟨body, rest, shape, free, length⟩ := pairLength?_eq_some here
  have shown (i : Nat) : raw[span.start + i]? = ('"' :: (body ++ '"' :: rest))[i]? := by
    rw [← shape, getElem?_drop, Nat.sub_zero]
  refine ⟨by omega, shown 0, ?_, fun i above below => ?_⟩
  · rw [show span.stop - 1 = span.start + (body.length + 1) by omega, shown]
    simp
  · rw [show i = span.start + (i - span.start - 1 + 1) by omega, shown, getElem?_cons_succ,
      getElem?_append_left (by omega)]
    exact fun quote => free (mem_of_getElem? quote)

section Pairs

variable {raw : Text} {column n : Nat}

theorem withoutPairs_covered (covered : Span.Cover (quotePairs raw) column) :
    (withoutPairs raw)[column]? = some ' ' :=
  (getElem?_substitute blankDoubleQuoted_blanks pairLength?_isLength raw column).1 covered

theorem withoutPairs_free (free : ¬Span.Cover (quotePairs raw) column) :
    (withoutPairs raw)[column]? = raw[column]? :=
  (getElem?_substitute blankDoubleQuoted_blanks pairLength?_isLength raw column).2 free

/-- A quoted character that shows beside the pairs has no column in common with them: they blank out
two characters at least, and it has only one that may be blank. -/
theorem QuotedChar.free (quoted : QuotedChar ((withoutPairs raw).drop column) n) {i : Nat}
    (low : column ≤ i) (high : i < column + n) : ¬Span.Cover (quotePairs raw) i := by
  rintro ⟨pair, found, above, below⟩
  have long := (quotePairs_quotes found).1
  have blank (j : Nat) (start : pair.start ≤ column + j) (stop : column + j < pair.stop) :
      ((withoutPairs raw).drop column)[j]? = some ' ' := by
    rw [getElem?_drop]
    exact withoutPairs_covered ⟨pair, found, start, stop⟩
  generalize (withoutPairs raw).drop column = text at quoted blank
  cases quoted with
  | plain =>
    have first : ¬(pair.start ≤ column + 0 ∧ column + 0 < pair.stop) := fun inside => by
      simpa using blank 0 inside.1 inside.2
    have last : ¬(pair.start ≤ column + 2 ∧ column + 2 < pair.stop) := fun inside => by
      simpa using blank 2 inside.1 inside.2
    omega
  | escaped =>
    have second : ¬(pair.start ≤ column + 1 ∧ column + 1 < pair.stop) := fun inside => by
      simpa using blank 1 inside.1 inside.2
    have first : ¬(pair.start ≤ column + 0 ∧ column + 0 < pair.stop) := fun inside => by
      simpa using blank 0 inside.1 inside.2
    have last : ¬(pair.start ≤ column + 3 ∧ column + 3 < pair.stop) := fun inside => by
      simpa using blank 3 inside.1 inside.2
    omega

/-- The quoted characters that show beside the pairs are those of the line outside the pairs. -/
theorem quotedChar_withoutPairs : QuotedChar ((withoutPairs raw).drop column) n ↔
    QuotedChar (raw.drop column) n ∧
      ∀ i, column ≤ i → i < column + n → ¬Span.Cover (quotePairs raw) i := by
  have same (free : ∀ i, column ≤ i → i < column + n → ¬Span.Cover (quotePairs raw) i) :
      ((withoutPairs raw).drop column).take n = (raw.drop column).take n := by
    apply ext_getElem?
    intro i
    rw [getElem?_take, getElem?_take, getElem?_drop, getElem?_drop]
    split
    · exact withoutPairs_free (free (column + i) (by omega) (by omega))
    · rfl
  constructor
  · intro quoted
    exact ⟨quoted.of_take (same fun i => quoted.free).symm, fun i => quoted.free⟩
  · rintro ⟨quoted, free⟩
    exact quoted.of_take (same free)

end Pairs

/-- The literals that masking holds back are the texts of their spans. -/
theorem maskFrom_held_spans (store : Store) (skip place : Nat) (text : Text) :
    (store.maskFrom skip text).1.held.toList = store.held.toList ++
      (stretchesFrom (fun text => (literal? text).map List.length) skip place text).map fun span =>
        .literal ((text.drop (span.start - place)).take (span.stop - span.start)) := by
  induction text generalizing store skip place with
  | nil => simp [Store.maskFrom, stretchesFrom]
  | cons c rest ih =>
    have later (skip : Nat) : (stretchesFrom (fun text => (literal? text).map List.length) skip (place + 1)
        rest).map (fun span => Held.literal
          (((c :: rest).drop (span.start - place)).take (span.stop - span.start))) =
        (stretchesFrom (fun text => (literal? text).map List.length) skip (place + 1) rest).map
          fun span => .literal ((rest.drop (span.start - (place + 1))).take (span.stop - span.start)) := by
      refine map_congr_left fun span found => ?_
      have low := (stretchesFrom_sound heldLength_isLength found).2.low
      rw [drop_later low]
    cases skip with
    | succ skip => rw [Store.maskFrom, stretchesFrom, later, ih _ _ (place + 1)]
    | zero =>
      cases taken : literal? (c :: rest) with
      | none =>
        rw [Store.maskFrom, stretchesFrom, taken, map_none]
        simp only
        rw [later, ih _ _ (place + 1)]
      | some literal =>
        rw [Store.maskFrom, stretchesFrom, taken, map_some]
        simp only
        rw [map_cons, later, ih _ _ (place + 1)]
        have whole := prefix_iff_eq_take.mp (literal?_starts taken).1
        simp [Store.hold, ← whole]

theorem mask_held_spans (text : Text) :
    (({} : Store).mask text).1.held.toList = (heldLiterals text).map fun span => .literal (span.text text) := by
  simpa [Span.text, heldLiterals, stretches, Store.mask] using maskFrom_held_spans {} 0 0 text

/-- A literal that is held back is between double quotes, or it is a quoted character. -/
theorem heldLiterals_cases {text : Text} {span : Span} (found : span ∈ heldLiterals text) :
    (text[span.start]? = some '"' ∧ text[span.stop - 1]? = some '"' ∧ span.start + 2 ≤ span.stop) ∨
      (text[span.start]? = some '\'' ∧ QuotedChar (text.drop span.start) (span.stop - span.start)) := by
  obtain ⟨-, order, -, here⟩ := stretches_sound heldLength_isLength found
  rw [Nat.sub_zero] at here
  rcases literal?_length here with ⟨long, first, last⟩ | quoted
  · rw [getElem?_drop] at first last
    rw [show span.start + (span.stop - span.start - 1) = span.stop - 1 by omega] at last
    exact .inl ⟨first, last, by omega⟩
  · exact .inr ⟨by simpa [getElem?_drop] using quoted.first, quoted⟩

/-- Every double-quoted literal of a line lies in a pair of straight quotes, and no quoted character
is a straight quote that was paired off. -/
structure QuotesAgree (raw : Text) : Prop where
  double : ∀ span ∈ heldLiterals (straightQuotes raw),
    (straightQuotes raw)[span.start]? = some '"' → span.Within (quotePairs raw)
  single : ∀ span ∈ heldLiterals (straightQuotes raw), (straightQuotes raw)[span.start]? = some '\'' →
    ∀ i, span.start ≤ i → i < span.stop → raw[i]? = some '"' → ¬Span.Cover (quotePairs raw) i

namespace QuotesAgree

variable {raw : Text} {span : Span}

/-- A quoted character lies in a pair or has no column in common with any. -/
theorem within_or_free (agree : QuotesAgree raw) (found : span ∈ heldLiterals (straightQuotes raw))
    (single : (straightQuotes raw)[span.start]? = some '\'') :
    span.Within (quotePairs raw) ∨
      ∀ i, span.start ≤ i → i < span.stop → ¬Span.Cover (quotePairs raw) i := by
  by_contra neither
  rw [not_or] at neither
  obtain ⟨without, shared⟩ := neither
  push Not at shared
  obtain ⟨i, low, high, pair, paired, above, below⟩ := shared
  obtain ⟨long, opens, closes, -⟩ := quotePairs_quotes paired
  have own := agree.single span found single
  refine without ⟨pair, paired, ?_, ?_⟩
  · by_contra later
    exact own pair.start (by omega) (by omega) opens ⟨pair, paired, le_rfl, by omega⟩
  · by_contra earlier
    exact own (pair.stop - 1) (by omega) (by omega) closes ⟨pair, paired, by omega, by omega⟩

theorem quotedChar_of_held (found : span ∈ heldLiterals (straightQuotes raw))
    (single : (straightQuotes raw)[span.start]? = some '\'') :
    QuotedChar (raw.drop span.start) (span.stop - span.start) := by
  rcases heldLiterals_cases found with ⟨double, -, -⟩ | ⟨-, quoted⟩
  · rw [single] at double
    simp at double
  · rw [← QuotedChar.straightQuotes_iff]
    simpa [straightQuotes, map_drop] using quoted

/-- What could be a quoted character of a line is held back, unless it starts inside another literal. -/
theorem held_of_quotedChar {column n : Nat} (quoted : QuotedChar (raw.drop column) n)
    (outside : ∀ span ∈ heldLiterals (straightQuotes raw), ¬(span.start < column ∧ column < span.stop)) :
    ⟨column, column + n⟩ ∈ heldLiterals (straightQuotes raw) := by
  have inText : column < raw.length := by
    by_contra beyond
    rw [drop_eq_nil_of_le (by omega)] at quoted
    cases quoted
  refine stretchesFrom_complete (by omega) ?_ (by simpa [straightQuotes] using inText) outside
  have straight := QuotedChar.straightQuotes_iff.mpr quoted
  simpa [straightQuotes, map_drop] using straight.literal?

/-- A quoted character outside the pairs is taken as such by a check too. The induction is on its
column: what a check took in its place would start inside an earlier quoted character. -/
theorem checked (agree : QuotesAgree raw) (found : span ∈ heldLiterals (straightQuotes raw))
    (single : (straightQuotes raw)[span.start]? = some '\'')
    (free : ∀ i, span.start ≤ i → i < span.stop → ¬Span.Cover (quotePairs raw) i) :
    span ∈ stretches quotedCharLength? (withoutPairs raw) := by
  induction start : span.start using Nat.strong_induction_on generalizing span with
  | h column ih =>
    subst start
    obtain ⟨-, order, -, -⟩ := stretches_sound heldLength_isLength found
    have width : span.start + (span.stop - span.start) = span.stop := by omega
    have quoted : QuotedChar ((withoutPairs raw).drop span.start) (span.stop - span.start) :=
      quotedChar_withoutPairs.mpr ⟨quotedChar_of_held found single, by rwa [width]⟩
    have inText : span.start < (withoutPairs raw).length := by
      by_contra beyond
      rw [drop_eq_nil_of_le (by omega)] at quoted
      cases quoted
    have taken : ∀ other ∈ stretches quotedCharLength? (withoutPairs raw),
        ¬(other.start < span.start ∧ span.start < other.stop) := by
      rintro other another ⟨before, after⟩
      obtain ⟨-, -, -, here⟩ := stretches_sound quotedCharLength?_isLength another
      obtain ⟨shows, apart⟩ := quotedChar_withoutPairs.mp (quotedCharLength?_eq_some.mp here)
      have start : ¬Span.Cover (quotePairs raw) other.start := apart _ (by omega) (by omega)
      by_cases inner : ∃ outer ∈ heldLiterals (straightQuotes raw),
          outer.start < other.start ∧ other.start < outer.stop
      · obtain ⟨outer, held, low, high⟩ := inner
        have without : ¬outer.Within (quotePairs raw) := fun ⟨pair, paired, left, right⟩ =>
          start ⟨pair, paired, by omega, by omega⟩
        rcases heldLiterals_cases held with ⟨double, -, -⟩ | ⟨single, -⟩
        · exact without (agree.double outer held double)
        · have free := (agree.within_or_free held single).resolve_left without
          have same := stretches_unique quotedCharLength?_isLength
            (ih outer.start (low.trans before) held single free rfl) another ⟨low.le, high⟩
            ⟨le_rfl, by omega⟩
          rw [same] at low
          exact lt_irrefl _ low
      · have held := held_of_quotedChar shows fun outer held bounds => inner ⟨outer, held, bounds⟩
        have same := stretches_unique heldLength_isLength found held ⟨le_rfl, order⟩
          ⟨before.le, by simp only; omega⟩
        rw [same] at before
        exact lt_irrefl _ before
    have stretch := stretchesFrom_complete (by omega : 0 + 0 ≤ span.start)
      (quotedCharLength?_eq_some.mpr quoted) (by simpa using inText) taken
    rwa [width] at stretch

end QuotesAgree

/-- A check takes every literal that is held back for one, or for a part of one, exactly if the quotes
agree. -/
theorem held_within_checked_iff (raw : Text) :
    (∀ span ∈ heldLiterals (straightQuotes raw), span.Within (checkedLiterals raw)) ↔ QuotesAgree raw := by
  constructor
  · intro within
    refine ⟨fun span found double => ?_, fun span found single i low high quote => ?_⟩
    · obtain ⟨outer, checked, left, right⟩ := within span found
      rcases mem_append.mp checked with paired | taken
      · exact ⟨outer, paired, left, right⟩
      · obtain ⟨-, -, -, here⟩ := stretches_sound quotedCharLength?_isLength taken
        have quoted := QuotedChar.straightQuotes_iff.mpr
          (quotedChar_withoutPairs.mp (quotedCharLength?_eq_some.mp here)).1
        rcases heldLiterals_cases found with ⟨opens, closes, long⟩ | ⟨single, -⟩
        · refine absurd quoted fun quoted => quoted.not_double (i := span.start - outer.start)
            (j := span.stop - 1 - outer.start) (by omega) (by omega) ?_ ?_
          · simpa [straightQuotes, map_drop, getElem?_drop, Nat.add_sub_cancel' left] using opens
          · have later : outer.start ≤ span.stop - 1 := by omega
            simpa [straightQuotes, map_drop, getElem?_drop, Nat.add_sub_cancel' later] using closes
        · rw [double] at single
          simp at single
    · obtain ⟨outer, checked, left, right⟩ := within span found
      rcases mem_append.mp checked with paired | taken
      · have quoted := QuotesAgree.quotedChar_of_held found single
        have order := (stretches_sound heldLength_isLength found).order
        have opens : raw[span.start]? = some '\'' := by
          simpa [getElem?_drop] using quoted.first
        have closes : raw[span.stop - 1]? = some '\'' := by
          have last := quoted.last
          rwa [getElem?_drop,
            show span.start + (span.stop - span.start - 1) = span.stop - 1 by omega] at last
        have afterOpening : i ≠ span.start := by
          rintro rfl
          simp [opens] at quote
        have beforeClosing : i ≠ span.stop - 1 := by
          rintro rfl
          simp [closes] at quote
        exact absurd quote ((quotePairs_quotes paired).2.2.2 i (by omega) (by omega))
      · obtain ⟨-, -, -, here⟩ := stretches_sound quotedCharLength?_isLength taken
        exact (quotedCharLength?_eq_some.mp here).free (by omega) (by omega)
  · intro agree span found
    rcases heldLiterals_cases found with ⟨double, -, -⟩ | ⟨single, -⟩
    · obtain ⟨pair, paired, bounds⟩ := agree.double span found double
      exact ⟨pair, mem_append_left _ paired, bounds⟩
    · rcases agree.within_or_free found single with ⟨pair, paired, bounds⟩ | free
      · exact ⟨pair, mem_append_left _ paired, bounds⟩
      · exact ⟨span, mem_append_right _ (agree.checked found single free), le_rfl, le_rfl⟩

theorem checkedLiterals_order {raw : Text} {span : Span} (checked : span ∈ checkedLiterals raw) :
    span.start < span.stop :=
  (mem_append.mp checked).elim (fun paired => (stretches_sound pairLength?_isLength paired).order)
    fun taken => (stretches_sound quotedCharLength?_isLength taken).order

/-- Nothing but blanks shows in the literals that a check takes. -/
theorem maskStrings_covered {raw : Text} {column : Nat} (covered : Span.Cover (checkedLiterals raw) column) :
    (maskStrings raw)[column]? = some ' ' := by
  have shown := getElem?_substitute blankSingleQuoted_blanks quotedCharLength?_isLength
    (withoutPairs raw) column
  by_cases taken : Span.Cover (stretches quotedCharLength? (withoutPairs raw)) column
  · exact shown.1 taken
  · obtain ⟨span, found, bounds⟩ := covered
    have paired := (mem_append.mp found).resolve_right fun inside => taken ⟨span, inside, bounds⟩
    exact (shown.2 taken).trans (withoutPairs_covered ⟨span, paired, bounds⟩)

/-- A word that shows in the masked line has no column in common with a literal that a check takes. -/
theorem word_outside_checked {raw name : Text} {column : Nat} (nonempty : name ≠ [])
    (letters : ∀ c ∈ name, isWordChar c = true) (stands : name <+: (maskStrings raw).drop column)
    {span : Span} (checked : span ∈ checkedLiterals raw) :
    column + name.length ≤ span.start ∨ span.stop ≤ column := by
  by_contra shared
  rw [not_or, not_le, not_le] at shared
  have order := checkedLiterals_order checked
  have long := length_pos_iff.mpr nonempty
  -- the first column that both take up
  obtain ⟨i, inName, low, high⟩ : ∃ i < name.length, span.start ≤ column + i ∧ column + i < span.stop :=
    ⟨span.start - column, by omega, by omega, by omega⟩
  have blank := maskStrings_covered ⟨span, checked, low, high⟩
  rw [← getElem?_drop, prefix_iff_getElem?.mp stands i inName] at blank
  have letter := letters _ (getElem_mem inName)
  rw [Option.some.inj blank] at letter
  exact absurd letter (by decide)

/-- An undeclared name on a line without comments is reported outside the literals that a check takes.
It is outside those that are held back too if the quotes of the line agree, that is, exactly if each
of these lies in one of the former. -/
theorem undeclared_outside_literals (language : Language) (source : Text) {diagnostic : Diagnostic}
    {name raw : Text} (found : diagnostic ∈ (check language source).result)
    (undeclared : diagnostic.finding = .undeclared name)
    (listed : (lines source)[diagnostic.line]? = some raw)
    (bare : (splitLine (inBlockAt false (lines source) diagnostic.line) raw).code = raw) :
    (({} : Store).mask (straightQuotes raw)).1.held.toList =
        (heldLiterals (straightQuotes raw)).map (fun span => .literal (span.text (straightQuotes raw))) ∧
      (∀ span ∈ checkedLiterals raw,
        diagnostic.endColumn ≤ span.start ∨ span.stop ≤ diagnostic.column) ∧
      ((∀ span ∈ heldLiterals (straightQuotes raw), span.Within (checkedLiterals raw)) ↔
        QuotesAgree raw) ∧
      (QuotesAgree raw → ∀ span ∈ heldLiterals (straightQuotes raw),
        diagnostic.endColumn ≤ span.start ∨ span.stop ≤ diagnostic.column) := by
  have named : diagnostic.finding.name? = some name := by rw [undeclared]; rfl
  have fades (code : Text) : Fades (maskStrings code) (maskFields (maskStrings code)) :=
    maskFieldsWithin_fades _ _
  obtain ⟨line, listed', points⟩ := check_pointsIn fades found named
  obtain rfl : raw = line := Option.some.inj (listed.symm.trans listed')
  obtain ⟨⟨nonempty, letters⟩, stands, ends⟩ := points name named
  rw [bare] at stands
  have outside : ∀ span ∈ checkedLiterals raw,
      diagnostic.endColumn ≤ span.start ∨ span.stop ≤ diagnostic.column := by
    intro span checked
    rw [ends undeclared]
    exact word_outside_checked nonempty letters stands checked
  refine ⟨mask_held_spans _, outside, held_within_checked_iff raw, fun agree span held => ?_⟩
  obtain ⟨outer, checked, left, right⟩ := (held_within_checked_iff raw).mpr agree span held
  have apart := outside outer checked
  omega

/-- A line with a string that holds an apostrophe, a quoted character and an undeclared name. -/
def quotedLine : Text :=
  "x ← \"a'b\" + 'c' + y".toList

theorem quotedLine_agrees : QuotesAgree quotedLine := by
  have held : heldLiterals (straightQuotes quotedLine) = [⟨4, 9⟩, ⟨12, 15⟩] := by decide
  have checked : checkedLiterals quotedLine = [⟨4, 9⟩, ⟨12, 15⟩] := by decide
  rw [← held_within_checked_iff, held, checked]
  exact fun span inside => ⟨span, inside, le_rfl, le_rfl⟩

theorem undeclared_outside_literals_quoted :
    { line := 0, column := 18, endColumn := 19, finding := .undeclared ['y'] } ∈
        (check standardLanguage quotedLine).result ∧
      QuotesAgree quotedLine ∧
      ∀ span ∈ heldLiterals (straightQuotes quotedLine), 19 ≤ span.start ∨ span.stop ≤ 18 := by
  have found : { line := 0, column := 18, endColumn := 19, finding := .undeclared ['y'] } ∈
      (check standardLanguage quotedLine).result := by decide +kernel
  have listed : (lines quotedLine)[0]? = some quotedLine := by decide
  obtain ⟨-, -, -, outside⟩ := undeclared_outside_literals standardLanguage quotedLine
    found rfl listed (by decide)
  exact ⟨found, quotedLine_agrees, outside quotedLine_agrees⟩

/-- An escaped quote ends the literal for a check: what follows it is reported, inside a string. -/
theorem undeclared_inside_literal :
    { line := 0, column := 8, endColumn := 9, finding := .undeclared ['b'] } ∈
        (check standardLanguage "x ← \"a\\\"b\"\n".toList).result ∧
      heldLiterals (straightQuotes "x ← \"a\\\"b\"".toList) = [⟨4, 10⟩] ∧
      checkedLiterals "x ← \"a\\\"b\"".toList = [⟨4, 8⟩] := by
  refine ⟨by decide +kernel, by decide, by decide⟩

end Pseudocode
