import Pseudocode.Proofs.ArgumentCuts
import Pseudocode.Proofs.ControlHeader

namespace Pseudocode

/-- The text is one part of a list: no comma in it stands outside literals and brackets. -/
def Uncut (text : Text) : Prop :=
  segments .code 0 text = [text]

/-- The text ends outside literals, with as many brackets closed as opened. -/
def Closed (text : Text) : Prop :=
  Standing.start.after text = .start

/-- Texts that are found again when commas are put between them. Only the last may leave a literal or
a bracket open. -/
inductive Separable : List Text → Prop
  | last {text : Text} : Uncut text → Separable [text]
  | more {text next : Text} {texts : List Text} :
      Uncut text → Closed text → Separable (next :: texts) → Separable (text :: next :: texts)

/-- A part does not start with a comma that cuts, and what follows its first character is a part. -/
theorem segments_cons_uncut {scan : Scan} {depth : Int} {c : Char} {text : Text}
    (uncut : segments scan depth (c :: text) = [c :: text]) :
    (∀ rest, segments scan depth (c :: rest) =
      consHead c (segments (scan.next c) (scan.depthAfter depth c) rest)) ∧
    segments (scan.next c) (scan.depthAfter depth c) text = [text] := by
  rw [segments] at uncut
  split at uncut
  · simp at uncut
  · rename_i kept
    obtain ⟨first, others, shape, -⟩ := segments_split (scan.next c) (scan.depthAfter depth c) text
    refine ⟨fun rest => by rw [segments, if_neg kept], ?_⟩
    rw [shape] at uncut ⊢
    simpa [consHead] using uncut

/-- A part is passed over as a whole, and what follows it is cut from where its scan ends. -/
theorem segments_append {scan : Scan} {depth : Int} {text : Text}
    (uncut : segments scan depth text = [text]) (rest : Text) :
    segments scan depth (text ++ rest) = text.foldr consHead
      (segments (Standing.after (scan, depth) text).1 (Standing.after (scan, depth) text).2 rest) := by
  induction text generalizing scan depth with
  | nil => rfl
  | cons c text ih =>
    obtain ⟨kept, later⟩ := segments_cons_uncut uncut
    rw [List.cons_append, kept, ih later]
    rfl

/-- The start of a part is a part. -/
theorem segments_of_append {scan : Scan} {depth : Int} {text rest : Text}
    (uncut : segments scan depth (text ++ rest) = [text ++ rest]) :
    segments scan depth text = [text] := by
  induction text generalizing scan depth with
  | nil => rfl
  | cons c text ih =>
    obtain ⟨kept, later⟩ := segments_cons_uncut uncut
    rw [kept, ih later]
    rfl

/-- The first part is uncut where the scan starts. If others follow, it ends outside literals and
brackets, and so on. -/
theorem segments_first (scan : Scan) (depth : Int) (text : Text) :
    ∃ first others, segments scan depth text = first :: others ∧
      segments scan depth first = [first] ∧
      (others = [] ∨ Standing.after (scan, depth) first = .start ∧ Separable others) := by
  induction text generalizing scan depth with
  | nil => exact ⟨[], [], rfl, rfl, .inl rfl⟩
  | cons c rest ih =>
    rw [segments]
    split
    · rename_i cut
      obtain ⟨rfl, -, rfl⟩ := cut
      obtain ⟨first, others, shape, uncut, more⟩ := ih .code 0
      refine ⟨[], _, rfl, rfl, .inr ⟨rfl, ?_⟩⟩
      rw [shape]
      rcases more with rfl | ⟨closed, separable⟩
      · exact .last uncut
      · cases others with
        | nil => exact .last uncut
        | cons next others => exact .more uncut closed separable
    · rename_i kept
      obtain ⟨first, others, shape, uncut, more⟩ := ih (scan.next c) (scan.depthAfter depth c)
      refine ⟨c :: first, others, by rw [shape]; rfl, ?_, more⟩
      rw [segments, if_neg kept, uncut]
      rfl

theorem segments_separable (text : Text) : Separable (segments .code 0 text) := by
  obtain ⟨first, others, shape, uncut, more⟩ := segments_first .code 0 text
  rw [shape]
  rcases more with rfl | ⟨closed, separable⟩
  · exact .last uncut
  · cases others with
    | nil => exact .last uncut
    | cons next others => exact .more uncut closed separable

section Blanks

variable {c : Char} {text blanks : Text}

/-- A blank is neither a quote nor a bracket nor a comma. -/
theorem isBlank_plainSign (blank : isBlank c = true) : isPlainSign c = true ∧ c ≠ '\\' := by
  have other (sign : Char) (solid : isBlank sign = false) : c ≠ sign := by
    rintro rfl
    simp [solid] at blank
  simp [isPlainSign, bracketStep, other _ (by decide : isBlank '(' = false),
    other _ (by decide : isBlank '[' = false), other _ (by decide : isBlank '\x7b' = false),
    other _ (by decide : isBlank ')' = false), other _ (by decide : isBlank ']' = false),
    other _ (by decide : isBlank '\x7d' = false), other _ (by decide : isBlank ',' = false),
    other _ (by decide : isBlank '"' = false), other _ (by decide : isBlank '\'' = false),
    other _ (by decide : isBlank '\\' = false)]

theorem Standing.next_blank (blank : isBlank c = true) (depth : Int) :
    Standing.next (.code, depth) c = (.code, depth) := by
  obtain ⟨plain, -⟩ := isBlank_plainSign blank
  simp only [isPlainSign, Bool.and_eq_true, decide_eq_true_eq] at plain
  rw [next_code plain.1.2 plain.2, plain.1.1.1, add_zero]

theorem segments_blank (blank : isBlank c = true) (text : Text) :
    segments .code 0 (c :: text) = consHead c (segments .code 0 text) := by
  have comma : c ≠ ',' := by
    rintro rfl
    exact absurd blank (by decide)
  have stands := Prod.mk.inj (Standing.next_blank blank 0)
  rw [segments, if_neg (fun cut => comma cut.2.1), stands.1, stands.2]

theorem Uncut.of_blank (blank : isBlank c = true) (uncut : Uncut (c :: text)) : Uncut text := by
  obtain ⟨first, others, shape, -⟩ := segments_split .code 0 text
  unfold Uncut at uncut ⊢
  rw [segments_blank blank, shape] at uncut
  rw [shape]
  simpa [consHead] using uncut

theorem Closed.of_blank (blank : isBlank c = true) (closed : Closed (c :: text)) : Closed text := by
  unfold Closed Standing.start at closed
  rwa [Standing.after_cons, Standing.next_blank blank] at closed

/-- Blanks at the end of a text that ends outside literals stand outside literals. -/
theorem Closed.of_blank_last (blank : isBlank c = true) (closed : Closed (text ++ [c])) :
    Closed text := by
  unfold Closed at closed ⊢
  rw [Standing.after_append, Standing.after_cons, Standing.after_nil] at closed
  have read := Standing.read_after text
  generalize Standing.start.after text = standing at closed read
  obtain ⟨scan, depth⟩ := standing
  match scan with
  | .code => rwa [Standing.next_blank blank] at closed
  | .quoted quote true => simp [Standing.next, Scan.next, Standing.start] at closed
  | .quoted quote false =>
    obtain ⟨_, _, -, isQuote, -⟩ := read
    obtain ⟨plain, slash⟩ := isBlank_plainSign blank
    simp only [isPlainSign, Bool.and_eq_true, decide_eq_true_eq] at plain
    have different : c ≠ quote := by
      rintro rfl
      exact isQuote.elim plain.1.2 plain.2
    simp [Standing.next, Scan.next, Standing.start, slash, different] at closed

theorem Closed.of_blanks (blank : ∀ c ∈ blanks, isBlank c = true) (closed : Closed (text ++ blanks)) :
    Closed text := by
  induction blanks using List.reverseRecOn with
  | nil => rwa [List.append_nil] at closed
  | append_singleton blanks c ih =>
    rw [← List.append_assoc] at closed
    exact ih (fun d member => blank d (List.mem_append_left _ member))
      (closed.of_blank_last (blank c (by simp)))

theorem Uncut.trim (uncut : Uncut text) : Uncut (trim text) := by
  have left : Uncut (trimLeft text) := by
    induction text with
    | nil => exact uncut
    | cons c text ih =>
      rw [trimLeft, List.dropWhile_cons]
      split
      · rename_i blank
        exact ih (uncut.of_blank blank)
      · exact uncut
  obtain ⟨blanks, split, -⟩ := trimRight_split (trimLeft text)
  rw [split] at left
  exact segments_of_append left

theorem Closed.trim (closed : Closed text) : Closed (trim text) := by
  have left : Closed (trimLeft text) := by
    induction text with
    | nil => exact closed
    | cons c text ih =>
      rw [trimLeft, List.dropWhile_cons]
      split
      · rename_i blank
        exact ih (closed.of_blank blank)
      · exact closed
  obtain ⟨blanks, split, blank, -⟩ := trimRight_split (trimLeft text)
  rw [split] at left
  exact left.of_blanks blank

theorem trim_eq_nil_iff : trim text = [] ↔ ∀ c ∈ text, isBlank c = true := by
  rw [trim, trimRight, dropEndWhile, List.reverse_eq_nil_iff, List.dropWhile_eq_nil_iff]
  constructor
  · intro blank c member
    rw [← List.takeWhile_append_dropWhile (p := isBlank) (l := text)] at member
    rcases List.mem_append.mp member with inside | inside
    · exact List.mem_takeWhile_imp inside
    · exact blank c (List.mem_reverse.mpr inside)
  · intro blank c member
    exact blank c ((List.dropWhile_sublist isBlank).mem (List.mem_reverse.mp member))

theorem trimLeft_of_head (solid : ∀ c ∈ text.head?, isBlank c = false) : trimLeft text = text := by
  cases text with
  | nil => rfl
  | cons c text => exact List.dropWhile_cons_of_neg (by simp [solid c rfl])

/-- A trimmed text has no blanks at its ends. -/
theorem trim_trim (text : Text) : trim (trim text) = trim text := by
  obtain ⟨blanks, split, -, last⟩ := trimRight_split (trimLeft text)
  have first : ∀ c ∈ (trim text).head?, isBlank c = false := by
    intro c here
    have there := trimLeft_head text c
    rw [split] at there
    refine there ?_
    rw [List.head?_append, show trimRight (trimLeft text) = trim text from rfl, Option.mem_def.mp here]
    rfl
  rw [trim, trimLeft_of_head first]
  exact trimRight_of_last last

end Blanks

/-- What is read from a list when its items have been put into a list again. -/
def reread (items : List Text) : List Text :=
  if items.getLast? = some [] then items.dropLast else items

namespace Separable

variable {item : Text} {items : List Text}

theorem trimmed (separable : Separable items) : Separable (items.map trim) := by
  induction separable with
  | last uncut => exact .last uncut.trim
  | more uncut closed _ ih => exact .more uncut.trim closed.trim ih

theorem dropLast (separable : Separable items) : items.dropLast = [] ∨ Separable items.dropLast := by
  induction separable with
  | last _ => exact .inl rfl
  | @more text next texts uncut closed later ih =>
    right
    rw [List.dropLast_cons_cons]
    rcases ih with none | separable
    · rw [none]
      exact .last uncut
    · cases texts with
      | nil => exact .last uncut
      | cons other texts =>
        rw [List.dropLast_cons_cons] at separable ⊢
        exact .more uncut closed separable

/-- With commas and blanks between them the texts are cut apart again. -/
theorem segments (separable : Separable (item :: items)) :
    segments .code 0 (commaSeparated (item :: items)) = item :: items.map (' ' :: ·) := by
  induction items generalizing item with
  | nil =>
    cases separable with
    | last uncut =>
      rw [commaSeparated_singleton]
      exact uncut
  | cons next items ih =>
    cases separable with
    | more uncut closed later =>
      have cut (rest : Text) :
          Pseudocode.segments .code 0 (',' :: ' ' :: rest) =
            [] :: consHead ' ' (Pseudocode.segments .code 0 rest) := by
        rw [Pseudocode.segments, if_pos ⟨rfl, rfl, rfl⟩, segments_blank (by decide)]
      have stands : Standing.after (.code, 0) item = (.code, 0) := closed
      rw [commaSeparated_cons, segments_append uncut, stands, cut, ih later, foldr_consHead,
        List.append_nil]
      rfl

/-- The texts are read back, trimmed, from the list they make up, but for a blank one at its end. -/
theorem splitArguments (separable : Separable items) :
    splitArguments (commaSeparated items) = reread (items.map trim) := by
  cases items with
  | nil => cases separable
  | cons item items =>
    have parts : (Pseudocode.segments .code 0 (commaSeparated (item :: items))).map trim =
        (item :: items).map trim := by
      rw [separable.segments, List.map_cons, List.map_map, List.map_cons]
      rfl
    rw [Pseudocode.splitArguments, parts, dropEmptyLast_eq, reread]
    split
    · rename_i blank
      rw [List.isEmpty_iff, trim_eq_nil_iff] at blank
      cases items with
      | nil =>
        rw [commaSeparated_singleton, ← trim_eq_nil_iff] at blank
        simp [blank]
      | cons next items =>
        rw [commaSeparated_cons] at blank
        exact absurd (blank ',' (by simp)) (by decide)
    · rfl

end Separable

/-- The arguments of a list can be put into a list again. -/
theorem splitArguments_separable (text : Text) :
    splitArguments text = [] ∨
      Separable (splitArguments text) ∧ ∀ item ∈ splitArguments text, trim item = item := by
  have trimmed (parts : List Text) : ∀ item ∈ parts.map trim, trim item = item :=
    List.forall_mem_map.mpr fun part _ => trim_trim part
  have separable := segments_separable text
  rw [splitArguments]
  split
  · exact .inl rfl
  · rw [dropEmptyLast_map_trim, argumentsIn]
    split
    · rcases separable.dropLast with none | separable
      · exact .inl (by rw [none, List.map_nil])
      · exact .inr ⟨separable.trimmed, trimmed _⟩
    · exact .inr ⟨separable.trimmed, trimmed _⟩

theorem splitArguments_again (text : Text) :
    splitArguments (commaSeparated (splitArguments text)) = reread (splitArguments text) := by
  rcases splitArguments_separable text with none | ⟨separable, trimmed⟩
  · rw [none]
    rfl
  · rw [separable.splitArguments, List.map_congr_left trimmed, List.map_id']

/-- Rejoined arguments are read back in their order, none cut or merged; only an empty one at the end
goes missing. So the lists that parentheses become have the items that stood in them. -/
theorem splitArguments_rejoined :
    (∀ text, splitArguments (commaSeparated (splitArguments text)) = reread (splitArguments text)) ∧
      ∀ (afterKeyword : Bool) (last : Option Char) (rest inside after : Text),
        splitParen? rest = some (inside, after) → ListLiteral.mayOpen afterKeyword last = true →
        ListLiteral.isContent (ListLiteral.convertFrom false none inside) = true →
        ∃ content,
          ListLiteral.convertFrom afterKeyword last ('(' :: rest) =
            ListLiteral.build content ++ ListLiteral.convertFrom afterKeyword (some ')') after ∧
          splitArguments content =
            reread (splitArguments (ListLiteral.convertFrom false none inside)) := by
  refine ⟨splitArguments_again, fun afterKeyword last rest inside after closed opens isContent => ?_⟩
  refine ⟨_, ?_, splitArguments_again _⟩
  rw [ListLiteral.convertFrom_group closed, opens, isContent, Bool.true_and, if_pos rfl]

/-- Commas in literals and brackets, an empty item in the middle and one at the end. -/
theorem splitArguments_rejoined_list :
    splitArguments "a, \"b,\" ,, [c, d] ,,".toList =
        ["a".toList, "\"b,\"".toList, [], "[c, d]".toList, []] ∧
      splitArguments (commaSeparated (splitArguments "a, \"b,\" ,, [c, d] ,,".toList)) =
        ["a".toList, "\"b,\"".toList, [], "[c, d]".toList] ∧
      ∃ content,
        ListLiteral.convertFrom false none "(a ,[b, c])".toList =
          ListLiteral.build content ++ [] ∧
        splitArguments content = ["a".toList, "[b, c]".toList] := by
  have split : splitArguments "a, \"b,\" ,, [c, d] ,,".toList =
      ["a".toList, "\"b,\"".toList, [], "[c, d]".toList, []] := by decide
  have inner : ListLiteral.convertFrom false none "a ,[b, c]".toList = "a ,[b, c]".toList :=
    ListLiteral.convertFrom_idle (by decide) false none
  refine ⟨split, (splitArguments_rejoined.1 _).trans (by rw [split]; decide), ?_⟩
  obtain ⟨content, built, items⟩ := splitArguments_rejoined.2 false none "a ,[b, c])".toList
    "a ,[b, c]".toList [] (by decide) (by decide) (by rw [inner]; decide)
  refine ⟨content, built.trans ?_, items.trans (by rw [inner]; decide)⟩
  rw [ListLiteral.convertFrom]

end Pseudocode
