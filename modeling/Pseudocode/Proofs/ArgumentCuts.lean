import Pseudocode.Proofs.ListPass
import Pseudocode.Proofs.Quotation

namespace Pseudocode

open List

/-- The text divides into code that ends outside literals, where so many more brackets have been
opened than closed. -/
inductive Outside : Text → Int → Prop
  | nil : Outside [] 0
  | sign {before : Text} {depth : Int} {c : Char} :
      Outside before depth → c ≠ '"' → c ≠ '\'' → Outside (before ++ [c]) (depth + bracketStep c)
  | literal {before body : Text} {depth : Int} {quote : Char} :
      Outside before depth → quote = '"' ∨ quote = '\'' → Enclosed quote body →
        Outside (before ++ quote :: (body ++ [quote])) depth

/-- The parts of a text, joined by commas. These are exactly the commas that stand outside literals
where no bracket is open. -/
structure IsPartedInto (text : Text) (parts : List Text) : Prop where
  nonempty : parts ≠ []
  joined : joinWith "," parts = text
  cuts : ∀ before after, (text = before ++ ',' :: after ∧ Outside before 0) ↔
    ∃ left right, left ≠ [] ∧ right ≠ [] ∧ parts = left ++ right ∧
      before = joinWith "," left ∧ after = joinWith "," right

/-- Where a scan stands, with the number of open brackets. -/
abbrev Standing := Scan × Int

namespace Standing

def next (standing : Standing) (c : Char) : Standing :=
  (standing.1.next c, standing.1.depthAfter standing.2 c)

def after (standing : Standing) (text : Text) : Standing :=
  text.foldl next standing

/-- Outside literals, with no bracket open. -/
def start : Standing :=
  (.code, 0)

variable (standing : Standing)

@[simp] theorem after_nil : standing.after [] = standing :=
  rfl

@[simp] theorem after_cons (c : Char) (rest : Text) :
    standing.after (c :: rest) = (standing.next c).after rest :=
  rfl

theorem after_append (text rest : Text) :
    standing.after (text ++ rest) = (standing.after text).after rest :=
  foldl_append

theorem next_code {c : Char} {depth : Int} (double : c ≠ '"') (single : c ≠ '\'') :
    next (.code, depth) c = (.code, depth + bracketStep c) := by
  simp [next, Scan.next, Scan.depthAfter, double, single]

theorem next_quote {quote : Char} {depth : Int} (isQuote : quote = '"' ∨ quote = '\'') :
    next (.code, depth) quote = (.quoted quote false, depth) := by
  rcases isQuote with rfl | rfl <;> simp [next, Scan.next, Scan.depthAfter, bracketStep]

theorem after_enclosed {quote : Char} {body : Text} {depth : Int} (enclosed : Enclosed quote body) :
    after (.quoted quote false, depth) body = (.quoted quote false, depth) := by
  induction enclosed with
  | nil => rfl
  | sign plain different _ ih => simpa [next, Scan.next, Scan.depthAfter, plain, different] using ih
  | escape _ ih => simpa [next, Scan.next, Scan.depthAfter] using ih

/-- What has been read when a scan stands somewhere: inside a literal, code before it and so far a
text that can be quoted. -/
def Read (text : Text) : Standing → Prop
  | (.code, depth) => Outside text depth
  | (.quoted quote escaped, depth) =>
    ∃ before body, Outside before depth ∧ (quote = '"' ∨ quote = '\'') ∧ Enclosed quote body ∧
      text = before ++ quote :: (body ++ if escaped then ['\\'] else [])

theorem read_next {text : Text} {standing : Standing} (read : Read text standing) (c : Char) :
    Read (text ++ [c]) (standing.next c) := by
  obtain ⟨scan, depth⟩ := standing
  match scan with
  | .code =>
    by_cases isQuote : c = '"' ∨ c = '\''
    · rw [next_quote isQuote]
      exact ⟨text, [], read, isQuote, .nil, by simp⟩
    · rw [not_or] at isQuote
      rw [next_code isQuote.1 isQuote.2]
      exact .sign read isQuote.1 isQuote.2
  | .quoted quote true =>
    obtain ⟨before, body, outside, isQuote, enclosed, rfl⟩ := read
    exact ⟨before, body ++ ['\\', c], outside, isQuote, enclosed.append (.escape .nil), by simp⟩
  | .quoted quote false =>
    obtain ⟨before, body, outside, isQuote, enclosed, rfl⟩ := read
    by_cases slash : c = '\\'
    · subst slash
      have stands : next (.quoted quote false, depth) '\\' = (.quoted quote true, depth) := by
        simp [next, Scan.next, Scan.depthAfter]
      rw [stands]
      exact ⟨before, body, outside, isQuote, enclosed, by simp⟩
    · by_cases closes : c = quote
      · subst closes
        have stands : next (.quoted c false, depth) c = (.code, depth) := by
          simp [next, Scan.next, Scan.depthAfter, slash]
        rw [stands]
        simpa [Read] using Outside.literal outside isQuote enclosed
      · have stands : next (.quoted quote false, depth) c = (.quoted quote false, depth) := by
          simp [next, Scan.next, Scan.depthAfter, slash, closes]
        rw [stands]
        exact ⟨before, body ++ [c], outside, isQuote, enclosed.append (.sign slash closes .nil),
          by simp⟩

theorem read_after (text : Text) : Read text (start.after text) := by
  induction text using reverseRecOn with
  | nil => exact .nil
  | append_singleton text c ih =>
    rw [after_append]
    exact read_next ih c

end Standing

/-- A text ends outside literals exactly if its scan does. -/
theorem outside_iff (text : Text) (depth : Int) :
    Outside text depth ↔ Standing.start.after text = (.code, depth) := by
  constructor
  · intro outside
    induction outside with
    | nil => rfl
    | sign _ double single ih =>
      rw [Standing.after_append, ih, Standing.after_cons, Standing.next_code double single,
        Standing.after_nil]
    | @literal before body depth quote _ isQuote enclosed ih =>
      have slash := quote_ne_backslash isQuote
      rw [Standing.after_append, ih, Standing.after_cons, Standing.next_quote isQuote,
        Standing.after_append, Standing.after_enclosed enclosed]
      simp [Standing.next, Scan.next, Scan.depthAfter, slash]
  · intro stands
    have read := Standing.read_after text
    rwa [stands] at read

theorem joinWith_comma_cons {part : Text} {parts : List Text} (more : parts ≠ []) :
    joinWith "," (part :: parts) = part ++ ',' :: joinWith "," parts := by
  obtain ⟨next, parts, rfl⟩ := exists_cons_of_ne_nil more
  rw [joinWith, intercalate_cons_cons, append_assoc]
  rfl

@[simp] theorem joinWith_comma_singleton (part : Text) : joinWith "," [part] = part := by
  simp [joinWith]

theorem joinWith_comma_grow (c : Char) (part : Text) (later : List Text) :
    joinWith "," ((c :: part) :: later) = c :: joinWith "," (part :: later) := by
  by_cases others : later = []
  · subst others
    simp
  · rw [joinWith_comma_cons others, joinWith_comma_cons others, cons_append]

/-- The parts of a text whose scan starts anywhere. -/
structure CutFrom (standing : Standing) (text : Text) (parts : List Text) : Prop where
  nonempty : parts ≠ []
  joined : joinWith "," parts = text
  cuts : ∀ before after, (text = before ++ ',' :: after ∧ standing.after before = .start) ↔
    ∃ left right, left ≠ [] ∧ right ≠ [] ∧ parts = left ++ right ∧
      before = joinWith "," left ∧ after = joinWith "," right

theorem isPartedInto_iff (text : Text) (parts : List Text) :
    IsPartedInto text parts ↔ CutFrom .start text parts := by
  constructor
  · rintro ⟨nonempty, joined, cuts⟩
    exact ⟨nonempty, joined, fun before after => by rw [← cuts, outside_iff]; rfl⟩
  · rintro ⟨nonempty, joined, cuts⟩
    exact ⟨nonempty, joined, fun before after => by rw [← cuts, outside_iff]; rfl⟩

namespace CutFrom

variable {standing : Standing} {c : Char} {rest : Text} {parts : List Text}

theorem nil_iff : CutFrom standing [] parts ↔ parts = [[]] := by
  constructor
  · rintro ⟨nonempty, joined, -⟩
    obtain ⟨part, parts, rfl⟩ := exists_cons_of_ne_nil nonempty
    cases parts with
    | nil => simpa using joined
    | cons next parts => simp [joinWith_comma_cons] at joined
  · rintro rfl
    refine ⟨by simp, by simp, fun before after => ⟨fun split => ?_, ?_⟩⟩
    · simp at split
    · rintro ⟨left, right, some, more, whole, -⟩
      have size := congrArg List.length whole
      have := length_pos_iff.mpr some
      have := length_pos_iff.mpr more
      simp only [length_append, length_singleton] at size
      omega

theorem comma_iff : CutFrom .start (',' :: rest) parts ↔
    ∃ later, parts = [] :: later ∧ CutFrom .start rest later := by
  have stands : Standing.start.next ',' = .start := by decide
  constructor
  · rintro ⟨-, joined, cuts⟩
    obtain ⟨left, later, some, more, rfl, empty, rest⟩ := (cuts [] rest).mp ⟨rfl, rfl⟩
    obtain ⟨part, left, rfl⟩ := exists_cons_of_ne_nil some
    obtain rfl : left = [] := by
      by_contra others
      simp [joinWith_comma_cons others] at empty
    obtain rfl : [] = part := by simpa using empty
    refine ⟨later, rfl, more, rest.symm, fun before after => ?_⟩
    have shifted := cuts (',' :: before) after
    rw [cons_append, List.cons.injEq, Standing.after_cons, stands] at shifted
    constructor
    · intro split
      obtain ⟨left, right, some, further, whole, same, tail⟩ := shifted.mp ⟨⟨rfl, split.1⟩, split.2⟩
      obtain ⟨part, left, rfl⟩ := exists_cons_of_ne_nil some
      obtain ⟨rfl, remains⟩ := List.cons.inj whole
      have others : left ≠ [] := by
        rintro rfl
        simp at same
      rw [joinWith_comma_cons others] at same
      exact ⟨left, right, others, further, remains, (List.cons.inj same).2, tail⟩
    · rintro ⟨left, right, some, further, rfl, rfl, rfl⟩
      refine (shifted.mpr ⟨[] :: left, right, by simp, further, rfl, ?_, rfl⟩).imp And.right id
      rw [joinWith_comma_cons some, nil_append]
  · rintro ⟨later, rfl, more, rfl, cuts⟩
    refine ⟨by simp, by rw [joinWith_comma_cons more, nil_append], fun before after => ?_⟩
    constructor
    · rintro ⟨split, here⟩
      cases before with
      | nil => exact ⟨[[]], later, by simp, more, rfl, by simp, (List.cons.inj split).2.symm⟩
      | cons d before =>
        obtain ⟨rfl, remains⟩ := List.cons.inj split
        rw [Standing.after_cons, stands] at here
        obtain ⟨left, right, some, further, whole, same, tail⟩ := (cuts before after).mp ⟨remains, here⟩
        refine ⟨[] :: left, right, by simp, further, by rw [whole]; rfl, ?_, tail⟩
        rw [joinWith_comma_cons some, same, nil_append]
    · rintro ⟨left, right, some, further, whole, rfl, rfl⟩
      obtain ⟨part, left, rfl⟩ := exists_cons_of_ne_nil some
      obtain ⟨rfl, rfl⟩ := List.cons.inj whole
      by_cases others : left = []
      · subst others
        simp [Standing.after]
      · obtain ⟨split, here⟩ := (cuts _ _).mpr ⟨left, right, others, further, rfl, rfl, rfl⟩
        rw [joinWith_comma_cons others, nil_append, Standing.after_cons, stands]
        exact ⟨by rw [split]; rfl, here⟩

theorem cons_iff (kept : ¬(c = ',' ∧ standing = .start)) : CutFrom standing (c :: rest) parts ↔
    ∃ part later, parts = (c :: part) :: later ∧ CutFrom (standing.next c) rest (part :: later) := by
  constructor
  · rintro ⟨nonempty, joined, cuts⟩
    obtain ⟨first, later, rfl⟩ := exists_cons_of_ne_nil nonempty
    cases first with
    | nil =>
      have others : later ≠ [] := by
        rintro rfl
        simp at joined
      rw [joinWith_comma_cons others, nil_append, List.cons.injEq] at joined
      obtain ⟨rfl, joined⟩ := joined
      obtain ⟨-, here⟩ := (cuts [] rest).mpr ⟨[[]], later, by simp, others, rfl, by simp, joined.symm⟩
      exact absurd ⟨rfl, here⟩ kept
    | cons d part =>
      rw [joinWith_comma_grow, List.cons.injEq] at joined
      obtain ⟨rfl, joined⟩ := joined
      refine ⟨part, later, rfl, by simp, joined, fun before after => ?_⟩
      have shifted := cuts (d :: before) after
      rw [cons_append, List.cons.injEq, Standing.after_cons] at shifted
      constructor
      · intro split
        obtain ⟨left, right, some, further, whole, same, tail⟩ := shifted.mp ⟨⟨rfl, split.1⟩, split.2⟩
        obtain ⟨first, left, rfl⟩ := exists_cons_of_ne_nil some
        obtain ⟨rfl, rfl⟩ := List.cons.inj whole
        rw [joinWith_comma_grow] at same
        exact ⟨part :: left, right, by simp, further, rfl, (List.cons.inj same).2, tail⟩
      · rintro ⟨left, right, some, further, whole, rfl, rfl⟩
        obtain ⟨first, left, rfl⟩ := exists_cons_of_ne_nil some
        obtain ⟨rfl, rfl⟩ := List.cons.inj whole
        refine (shifted.mpr ⟨(d :: part) :: left, right, by simp, further, rfl, ?_, rfl⟩).imp And.right id
        rw [joinWith_comma_grow]
  · rintro ⟨part, later, rfl, -, joined, cuts⟩
    refine ⟨by simp, by rw [joinWith_comma_grow, joined], fun before after => ?_⟩
    constructor
    · rintro ⟨split, here⟩
      cases before with
      | nil => exact absurd ⟨(List.cons.inj split).1, here⟩ kept
      | cons d before =>
        obtain ⟨rfl, remains⟩ := List.cons.inj split
        obtain ⟨left, right, some, further, whole, same, tail⟩ := (cuts before after).mp ⟨remains, here⟩
        obtain ⟨first, left, rfl⟩ := exists_cons_of_ne_nil some
        obtain ⟨rfl, rfl⟩ := List.cons.inj whole
        exact ⟨(c :: part) :: left, right, by simp, further, rfl, by rw [joinWith_comma_grow, same], tail⟩
    · rintro ⟨left, right, some, further, whole, rfl, rfl⟩
      obtain ⟨first, left, rfl⟩ := exists_cons_of_ne_nil some
      obtain ⟨rfl, rfl⟩ := List.cons.inj whole
      obtain ⟨split, here⟩ := (cuts _ _).mpr ⟨part :: left, right, by simp, further, rfl, rfl, rfl⟩
      rw [joinWith_comma_grow, Standing.after_cons]
      exact ⟨by rw [split]; rfl, here⟩

end CutFrom

/-- A text is cut in one way only, that of its segments. -/
theorem cutFrom_iff (scan : Scan) (depth : Int) (text : Text) (parts : List Text) :
    CutFrom (scan, depth) text parts ↔ parts = segments scan depth text := by
  induction text generalizing scan depth parts with
  | nil => exact CutFrom.nil_iff
  | cons c rest ih =>
    rw [segments]
    split
    · rename_i cut
      obtain ⟨rfl, rfl, rfl⟩ := cut
      refine CutFrom.comma_iff.trans ?_
      simp [Standing.start, ih]
    · rename_i kept
      have stays : ¬(c = ',' ∧ (scan, depth) = Standing.start) := by
        rintro ⟨rfl, here⟩
        obtain ⟨rfl, rfl⟩ := Prod.mk.inj here
        exact kept ⟨rfl, rfl, rfl⟩
      obtain ⟨first, others, shape, -⟩ :=
        segments_split (scan.next c) (scan.depthAfter depth c) rest
      refine (CutFrom.cons_iff stays).trans ?_
      simp [Standing.next, ih, shape, consHead]

/-- The arguments in the parts of a list: the parts are trimmed, and a blank last one is none. -/
def argumentsIn (parts : List Text) : List Text :=
  if parts.getLast?.any (fun last => (trim last).isEmpty) then parts.dropLast.map trim
  else parts.map trim

theorem dropEmptyLast_eq (items : List Text) :
    dropEmptyLast items = if items.getLast? = some [] then items.dropLast else items := by
  fun_induction dropEmptyLast items with
  | case1 => rfl
  | case2 last empty => simp [isEmpty_iff.mp empty]
  | case3 last full => simpa using full
  | case4 item items several ih =>
    obtain ⟨next, items, rfl⟩ := exists_cons_of_ne_nil several
    rw [ih, getLast?_cons_cons]
    split <;> rfl

theorem dropEmptyLast_map_trim (parts : List Text) :
    dropEmptyLast (parts.map trim) = argumentsIn parts := by
  rw [dropEmptyLast_eq, argumentsIn, getLast?_map, map_dropLast]
  cases parts.getLast? with
  | none => simp
  | some last => simp

/-- Splitting a list loses nothing. There is one way to cut a text at the commas outside its literals
and brackets; its arguments are the trimmed parts, without the last one if that is blank, and a blank
text has none. -/
theorem splitArguments_of_cut (text : Text) :
    ∃ parts, (∀ others, IsPartedInto text others ↔ others = parts) ∧
      splitArguments text = if (trim text).isEmpty then [] else argumentsIn parts := by
  refine ⟨segments .code 0 text, fun others => ?_, ?_⟩
  · rw [isPartedInto_iff]
    exact cutFrom_iff .code 0 text others
  · rw [splitArguments, dropEmptyLast_map_trim]

end Pseudocode
