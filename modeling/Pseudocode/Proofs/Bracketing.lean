import Pseudocode.Proofs.Legible

namespace Pseudocode

open List Option
variable {opener closer c : Char} {commas : Bool} {text : Text} {items : List Text}

/-- A bracket and the one that closes it. -/
inductive IsPair : Char → Char → Prop
  | round : IsPair '(' ')'
  | square : IsPair '[' ']'
  | curly : IsPair '\x7b' '\x7d'

/-- Neither a bracket nor a comma nor a quote. -/
def isPlainSign (c : Char) : Bool :=
  bracketStep c = 0 && c ≠ ',' && c ≠ '"' && c ≠ '\''

/-- Every bracket of the text is closed by its own closer. Commas that no bracket encloses stand
only where they are allowed. -/
inductive Balanced : (commas : Bool) → Text → Prop
  | nil {commas : Bool} : Balanced commas []
  | plain {commas : Bool} {c : Char} {rest : Text} :
      isPlainSign c = true → Balanced commas rest → Balanced commas (c :: rest)
  | comma {rest : Text} : Balanced true rest → Balanced true (',' :: rest)
  | group {commas : Bool} {opener closer : Char} {inside rest : Text} :
      IsPair opener closer → Balanced true inside → Balanced commas rest →
        Balanced commas (opener :: (inside ++ closer :: rest))

theorem IsPair.steps (pair : IsPair opener closer) :
    bracketStep opener = 1 ∧ bracketStep closer = -1 := by
  cases pair <;> decide

theorem IsPair.closer_eq {other : Char} (pair : IsPair opener closer)
    (second : IsPair opener other) : other = closer := by
  cases pair <;> cases second <;> rfl

theorem IsPair.opener_eq {other : Char} (pair : IsPair opener closer)
    (second : IsPair other closer) : other = opener := by
  cases pair <;> cases second <;> rfl

namespace Balanced

variable {commas : Bool} {text rest : Text}

theorem of_plain (plain : ∀ c ∈ text, isPlainSign c = true) : Balanced commas text := by
  induction text with
  | nil => exact .nil
  | cons c rest ih =>
    exact .plain (plain c (.head _))
      (ih fun d member => plain d (.tail _ member))

theorem append (first : Balanced commas text) (second : Balanced commas rest) :
    Balanced commas (text ++ rest) := by
  induction first with
  | nil => exact second
  | plain sign _ ih => exact .plain sign (ih second)
  | comma _ ih => exact .comma (ih second)
  | group pair inside _ _ ih =>
    rw [List.cons_append, List.append_assoc, List.cons_append]
    exact .group pair inside (ih second)

theorem loosen (balanced : Balanced commas text) : Balanced true text := by
  induction balanced with
  | nil => exact .nil
  | plain sign _ ih => exact .plain sign ih
  | comma _ ih => exact .comma ih
  | group pair inside _ _ ih => exact .group pair inside ih

theorem enclosed (pair : IsPair opener closer) (inside : Balanced true text) :
    Balanced commas (opener :: text ++ [closer]) :=
  .group pair inside .nil

end Balanced

theorem splitClose?_other (notOpener : c ≠ opener) (notCloser : c ≠ closer) (depth : Nat) (rest : Text) :
    splitClose? opener closer depth (c :: rest) =
      (splitClose? opener closer depth rest).map fun (inside, after) => (c :: inside, after) := by
  simp only [splitClose?, if_neg notOpener, if_neg notCloser]

theorem splitClose?_opener (closer : Char) (depth : Nat) (rest : Text) :
    splitClose? opener closer depth (opener :: rest) =
      (splitClose? opener closer (depth + 1) rest).map
        fun (inside, after) => (opener :: inside, after) := by
  simp only [splitClose?, if_true]

theorem splitClose?_closer (differ : closer ≠ opener) (depth : Nat) (rest : Text) :
    splitClose? opener closer (depth + 1) (closer :: rest) =
      (splitClose? opener closer depth rest).map
        fun (inside, after) => (closer :: inside, after) := by
  rw [splitClose?, if_neg differ, if_pos rfl]

/-- Every opener has its closer and every closer its opener. Other characters stand anywhere. -/
inductive Paired (opener closer : Char) : Text → Prop
  | nil : Paired opener closer []
  | other {c : Char} {rest : Text} :
      c ≠ opener → c ≠ closer → Paired opener closer rest → Paired opener closer (c :: rest)
  | group {inside rest : Text} :
      Paired opener closer inside → Paired opener closer rest →
        Paired opener closer (opener :: (inside ++ closer :: rest))

namespace Paired

variable {opener closer : Char} {text rest : Text}

theorem append (first : Paired opener closer text) (second : Paired opener closer rest) :
    Paired opener closer (text ++ rest) := by
  induction first with
  | nil => exact second
  | other notOpener notCloser _ ih => exact .other notOpener notCloser ih
  | group inside _ _ ih =>
    rw [List.cons_append, List.append_assoc, List.cons_append]
    exact .group inside ih

/-- The search for a closer goes through a paired text without change of depth. -/
theorem splitClose? (differ : opener ≠ closer) (paired : Paired opener closer text) (depth : Nat)
    (rest : Text) :
    splitClose? opener closer depth (text ++ rest) =
      (splitClose? opener closer depth rest).map
        fun (inside, after) => (text ++ inside, after) := by
  induction paired generalizing depth rest with
  | nil => simp
  | other notOpener notCloser _ ih =>
    rw [List.cons_append, splitClose?_other notOpener notCloser, ih, Option.map_map]
    rfl
  | @group inside tail _ _ ihInside ih =>
    have shape : opener :: (inside ++ closer :: tail) ++ rest =
        opener :: (inside ++ closer :: (tail ++ rest)) := by simp
    rw [shape, splitClose?_opener, ihInside, splitClose?_closer differ.symm, ih]
    simp only [Option.map_map]
    congr 1
    funext found
    simp

end Paired

/-- Brackets of one kind pair off in a balanced text, whatever the others do. -/
theorem Balanced.paired
    (pair : IsPair opener closer) (balanced : Balanced commas text) : Paired opener closer text := by
  obtain ⟨opens, closes⟩ := pair.steps
  have other {c : Char} (step : bracketStep c = 0) : c ≠ opener ∧ c ≠ closer := by
    constructor <;> rintro rfl <;> omega
  induction balanced with
  | nil => exact .nil
  | plain sign _ ih =>
    simp only [isPlainSign, Bool.and_eq_true, decide_eq_true_eq] at sign
    exact .other (other sign.1.1.1).1 (other sign.1.1.1).2 ih
  | comma _ ih => exact .other (other (by decide)).1 (other (by decide)).2 ih
  | @group _ first last _ _ second _ _ ihInside ih =>
    by_cases same : first = opener
    · subst same
      obtain rfl := pair.closer_eq second
      exact .group ihInside ih
    · have steps := second.steps
      have lastDiffers : last ≠ closer := by
        rintro rfl
        exact same (pair.opener_eq second)
      have firstCloser : first ≠ closer := by rintro rfl; omega
      have lastOpener : last ≠ opener := by rintro rfl; omega
      exact .other same firstCloser (ihInside.append (.other lastOpener lastDiffers ih))

/-- The search for a closer goes through a balanced text without change of depth. -/
theorem Balanced.splitClose?
    (pair : IsPair opener closer) (balanced : Balanced commas text) (depth : Nat) (rest : Text) :
    splitClose? opener closer depth (text ++ rest) =
      (splitClose? opener closer depth rest).map
        fun (inside, after) => (text ++ inside, after) := by
  have steps := pair.steps
  exact (balanced.paired pair).splitClose? (by rintro rfl; omega) depth rest

theorem Balanced.splitClose?_enclosed {inside : Text}
    (pair : IsPair opener closer) (balanced : Balanced commas inside) (after : Text) :
    Pseudocode.splitClose? opener closer 0 (inside ++ closer :: after) = some (inside, after) := by
  have steps := pair.steps
  have differ : closer ≠ opener := by rintro rfl; omega
  rw [balanced.splitClose? pair, Pseudocode.splitClose?, if_neg differ, if_pos rfl]
  simp

/-- A balanced text is one stretch of the piece it stands in. -/
theorem Balanced.segments (balanced : Balanced commas text)
    {depth : Int} (within : 0 ≤ depth) (deep : commas = true → 0 < depth) (rest : Text) :
    segments .code depth (text ++ rest) = text.foldr consHead (segments .code depth rest) := by
  have step {c : Char} {depth : Int} {rest : Text} (unquoted : c ≠ '"' ∧ c ≠ '\'')
      (kept : c = ',' → depth ≠ 0) : Pseudocode.segments .code depth (c :: rest) =
        consHead c (Pseudocode.segments .code (depth + bracketStep c) rest) := by
    rw [Pseudocode.segments, if_neg (by rintro ⟨-, isComma, zero⟩; exact kept isComma zero)]
    simp [Scan.next, Scan.depthAfter, unquoted]
  induction balanced generalizing depth rest with
  | nil => rfl
  | plain sign _ ih =>
    simp only [isPlainSign, Bool.and_eq_true, decide_eq_true_eq] at sign
    rw [cons_append, step ⟨sign.1.2, sign.2⟩ (fun isComma => absurd isComma sign.1.1.2),
      sign.1.1.1, add_zero, ih within deep, foldr_cons]
  | comma _ ih =>
    have positive := deep rfl
    rw [cons_append, step (by decide) (fun _ => by omega), show bracketStep ',' = 0 from rfl,
      add_zero, ih within deep, foldr_cons]
  | @group _ first last inside tail pair _ _ ihInside ih =>
    have steps := pair.steps
    have unquoted : (first ≠ '"' ∧ first ≠ '\'' ∧ first ≠ ',') ∧
        last ≠ '"' ∧ last ≠ '\'' ∧ last ≠ ',' := by
      cases pair <;> decide
    have shape : first :: (inside ++ last :: tail) ++ rest =
        first :: (inside ++ last :: (tail ++ rest)) := by simp
    rw [shape, step ⟨unquoted.1.1, unquoted.1.2.1⟩ (fun isComma => absurd isComma unquoted.1.2.2),
      steps.1, ihInside (by omega) (fun _ => by omega),
      step ⟨unquoted.2.1, unquoted.2.2.1⟩ (fun isComma => absurd isComma unquoted.2.2.2), steps.2,
      add_neg_cancel_right, ih within deep]
    simp

/-- A balanced text that blanks neither start nor end, and that no comma cuts. -/
structure Whole (text : Text) : Prop where
  balanced : Balanced false text
  head : ∃ c ∈ text.head?, isBlank c = false
  last : ∃ c ∈ text.getLast?, isBlank c = false

namespace Whole

variable {text rest : Text}

theorem ne_nil (whole : Whole text) : text ≠ [] := by
  rintro rfl
  obtain ⟨c, member, -⟩ := whole.head
  simp at member

theorem of_plain (nonempty : text ≠ []) (plain : ∀ c ∈ text, isPlainSign c = true)
    (solid : ∀ c ∈ text, isBlank c = false) : Whole text where
  balanced := .of_plain plain
  head := ⟨text.head nonempty, head_mem_head? nonempty, solid _ (head_mem nonempty)⟩
  last := ⟨text.getLast nonempty, getLast_mem_getLast? nonempty,
    solid _ (getLast_mem nonempty)⟩

theorem append_balanced {between : Text} (first : Whole text) (balanced : Balanced false between)
    (second : Whole rest) : Whole (text ++ (between ++ rest)) where
  balanced := first.balanced.append (balanced.append second.balanced)
  head := by
    obtain ⟨c, member, solid⟩ := first.head
    exact ⟨c, by simp [mem_def.mp member], solid⟩
  last := by
    obtain ⟨c, member, solid⟩ := second.last
    exact ⟨c, by simp [mem_def.mp member], solid⟩

theorem append (first : Whole text) (second : Whole rest) : Whole (text ++ rest) :=
  first.append_balanced .nil second

theorem spaced (first : Whole text) (second : Whole rest) : Whole (text ++ ' ' :: rest) :=
  first.append_balanced (.plain (c := ' ') (by decide) .nil) second

theorem enclosed (pair : IsPair opener closer) (inside : Balanced true text) :
    Whole (opener :: text ++ [closer]) where
  balanced := .enclosed pair inside
  head := ⟨opener, rfl, by cases pair <;> decide⟩
  last := ⟨closer, getLast?_concat, by cases pair <;> decide⟩

theorem trimLeft (whole : Whole text) (rest : Text) :
    Pseudocode.trimLeft (text ++ rest) = text ++ rest := by
  obtain ⟨c, member, solid⟩ := whole.head
  cases text with
  | nil => simp at member
  | cons d text =>
    obtain rfl : d = c := by simpa using member
    rw [Pseudocode.trimLeft, cons_append, dropWhile_cons_of_neg (by simp [solid])]

theorem trim_ne_nil (whole : Whole text) (rest : Text) : Pseudocode.trim (text ++ rest) ≠ [] := by
  intro empty
  rw [Pseudocode.trim, whole.trimLeft, trimRight, dropEndWhile, reverse_eq_nil_iff,
    dropWhile_eq_nil_iff] at empty
  obtain ⟨c, member, solid⟩ := whole.head
  have blank := empty c (by simp [mem_of_mem_head? member])
  simp [solid] at blank

theorem trim (whole : Whole text) : Pseudocode.trim text = text := by
  have left := whole.trimLeft []
  rw [append_nil] at left
  obtain ⟨c, member, solid⟩ := whole.last
  obtain ⟨init, rfl⟩ := getLast?_eq_some_iff.mp member
  rw [Pseudocode.trim, left, trimRight, dropEndWhile, reverse_append]
  simp [solid]

end Whole

theorem foldr_consHead (text piece : Text) (pieces : List Text) :
    text.foldr consHead (piece :: pieces) = (text ++ piece) :: pieces := by
  induction text with
  | nil => rfl
  | cons c text ih => rw [foldr_cons, ih, consHead, cons_append]

theorem commaSeparated_cons (item next : Text) (items : List Text) :
    commaSeparated (item :: next :: items) = item ++ ',' :: ' ' :: commaSeparated (next :: items) := by
  rw [commaSeparated, joinWith, intercalate_cons_cons, append_assoc]
  rfl

@[simp] theorem commaSeparated_singleton (item : Text) : commaSeparated [item] = item := by
  simp [commaSeparated, joinWith]

theorem commaSeparated_start (text : Text) {rest : List Text} (nonempty : rest ≠ []) :
    commaSeparated (text :: rest) = text ++ ',' :: ' ' :: commaSeparated rest := by
  obtain ⟨next, rest, rfl⟩ := exists_cons_of_ne_nil nonempty
  exact commaSeparated_cons text next rest

theorem Balanced.commaSeparated (each : ∀ item ∈ items, Balanced true item) :
    Balanced true (commaSeparated items) := by
  induction items with
  | nil => exact .nil
  | cons item items ih =>
    have here := each item (.head _)
    cases items with
    | nil => simpa using here
    | cons next items =>
      rw [commaSeparated_cons]
      exact here.append (.comma (.plain (by decide)
        (ih fun other member => each other (.tail _ member))))

theorem segments_commaSeparated {item : Text} (whole : ∀ other ∈ item :: items, Whole other) :
    segments .code 0 (commaSeparated (item :: items)) = item :: items.map (' ' :: ·) := by
  have balanced := (whole item (.head _)).balanced
  induction items generalizing item with
  | nil =>
    have split := balanced.segments le_rfl (by simp) []
    rw [append_nil] at split
    rw [commaSeparated_singleton, split, segments, foldr_consHead, append_nil, map_nil]
  | cons next items ih =>
    have others := fun other member => whole other (.tail _ member)
    have later := ih others (others next (.head _)).balanced
    have comma (rest : Text) : segments .code 0 (',' :: rest) = [] :: segments .code 0 rest := by
      simp [segments]
    have blank (rest : Text) : segments .code 0 (' ' :: rest) = consHead ' ' (segments .code 0 rest) := by
      simp [segments, Scan.next, Scan.depthAfter, bracketStep]
    rw [commaSeparated_cons, balanced.segments le_rfl (by simp), comma, blank, later, foldr_consHead,
      append_nil]
    rfl

theorem dropEmptyLast_of_ne_nil (full : ∀ item ∈ items, item ≠ []) :
    dropEmptyLast items = items := by
  fun_induction dropEmptyLast items with
  | case1 => rfl
  | case2 last empty => exact absurd (isEmpty_iff.mp empty) (full last (.head _))
  | case3 => rfl
  | case4 item items _ ih => rw [ih fun other member => full other (.tail _ member)]

/-- Arguments that are whole are found again in their list. -/
theorem splitArguments_commaSeparated (whole : ∀ item ∈ items, Whole item) :
    splitArguments (commaSeparated items) = items := by
  cases items with
  | nil => rfl
  | cons item items =>
    have trimmed : (segments .code 0 (commaSeparated (item :: items))).map trim = item :: items := by
      rw [segments_commaSeparated whole, List.map_cons, List.map_map,
        (whole item (.head _)).trim]
      congr 1
      have each : ∀ other ∈ items, (trim ∘ (' ' :: ·)) other = other := fun other member =>
        (whole other (.tail _ member)).trim
      rw [List.map_congr_left each, List.map_id']
    have some : trim (commaSeparated (item :: items)) ≠ [] := by
      obtain ⟨rest, shape⟩ : ∃ rest, commaSeparated (item :: items) = item ++ rest := by
        cases items with
        | nil => exact ⟨[], by simp⟩
        | cons next items => exact ⟨_, commaSeparated_cons item next items⟩
      rw [shape]
      exact (whole item (.head _)).trim_ne_nil rest
    rw [splitArguments, if_neg (by simpa using some), trimmed,
      dropEmptyLast_of_ne_nil fun other member => (whole other member).ne_nil]

theorem exists_ends {β : Type} {items : List β} (several : 2 ≤ items.length) :
    ∃ first middle last, items = first :: (middle ++ [last]) := by
  obtain ⟨first, rest, rfl⟩ := exists_cons_of_length_pos (by omega : 0 < items.length)
  have nonempty : rest ≠ [] := by
    rintro rfl
    simp at several
  exact ⟨first, rest.dropLast, rest.getLast nonempty, by rw [dropLast_append_getLast]⟩

theorem commaSeparated_append {others : List Text} (left : items ≠ []) (right : others ≠ []) :
    commaSeparated (items ++ others) =
      commaSeparated items ++ ',' :: ' ' :: commaSeparated others := by
  induction items with
  | nil => simp at left
  | cons item items ih =>
    obtain ⟨other, others, rfl⟩ := exists_cons_of_ne_nil right
    cases items with
    | nil => simp [commaSeparated_cons]
    | cons next items => simpa [commaSeparated_cons] using ih (by simp)

theorem commaSeparated_enclosed (before first last after : Text) (middle : List Text) :
    commaSeparated ((before ++ first) :: (middle ++ [last ++ after])) =
      before ++ commaSeparated (first :: (middle ++ [last])) ++ after := by
  have ending (text : Text) : commaSeparated (middle ++ [text ++ after]) =
      commaSeparated (middle ++ [text]) ++ after := by
    cases middle with
    | nil => simp
    | cons item middle =>
      rw [commaSeparated_append (by simp) (by simp), commaSeparated_append (by simp) (by simp)]
      simp
  rw [commaSeparated_start _ (by simp), commaSeparated_start _ (by simp), ending]
  simp

theorem commaSeparated_flatMap {β : Type} {items : List β} {write : β → List Text}
    (full : ∀ item ∈ items, write item ≠ []) :
    commaSeparated (items.flatMap write) = commaSeparated (items.map fun item => commaSeparated (write item)) := by
  induction items with
  | nil => rfl
  | cons item items ih =>
    have below := ih fun other member => full other (.tail _ member)
    cases items with
    | nil => simp
    | cons next items =>
      have here := full item (.head _)
      have later : (next :: items).flatMap write ≠ [] := by simp [full next (by simp)]
      rw [flatMap_cons, commaSeparated_append here later, below]
      simp [commaSeparated_cons]

theorem trim_commaSeparated (several : 2 ≤ items.length)
    (whole : ∀ item ∈ items, Whole item) : trim (commaSeparated items) = commaSeparated items := by
  obtain ⟨first, middle, last, rfl⟩ := exists_ends several
  obtain ⟨between, shape⟩ : ∃ between, commaSeparated (first :: (middle ++ [last])) =
      first ++ (between ++ last) := by
    rw [commaSeparated_start first (by simp)]
    cases middle with
    | nil => exact ⟨[',', ' '], by simp⟩
    | cons item middle =>
      rw [commaSeparated_append (by simp) (by simp)]
      exact ⟨',' :: ' ' :: (commaSeparated (item :: middle) ++ [',', ' ']), by simp⟩
  obtain ⟨c, member, solid⟩ := (whole last (by simp)).last
  obtain ⟨init, ending⟩ := getLast?_eq_some_iff.mp member
  rw [shape, trim, (whole first (by simp)).trimLeft, trimRight, dropEndWhile, ending]
  simp [solid]

theorem count_commaSeparated (items : List Text) (comma : c ≠ ',') (space : c ≠ ' ') :
    (commaSeparated items).count c = (items.map (·.count c)).sum := by
  induction items with
  | nil => rfl
  | cons item items ih =>
    cases items with
    | nil => simp
    | cons next items =>
      rw [commaSeparated_cons, count_append, count_cons_of_ne (Ne.symm comma),
        count_cons_of_ne (Ne.symm space), ih]
      simp

theorem not_mem_commaSeparated (each : ∀ item ∈ items, c ∉ item)
    (comma : c ≠ ',') (space : c ≠ ' ') : c ∉ commaSeparated items := by
  induction items with
  | nil => simp [commaSeparated, joinWith]
  | cons item items ih =>
    cases items with
    | nil => simpa using each
    | cons next items =>
      rw [commaSeparated_cons]
      simpa [comma, space, each item (.head _)] using
        ih fun other member => each other (.tail _ member)

end Pseudocode
