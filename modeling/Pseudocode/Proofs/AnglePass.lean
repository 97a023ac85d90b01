import Pseudocode.Proofs.PlainValue

namespace Pseudocode

open List Option Placeholder

/-- The desk with one more part held back. -/
def Desk.holding (desk : Desk) (part : Held) : Desk :=
  { desk with store := (desk.store.hold part).1 }

namespace Records

/-- One round of the pass over angle brackets: the first literal of the text gives way to the
placeholder of its table. -/
inductive Round (records : Records) : Desk × Text → Desk × Text → Prop
  | replace {desk : Desk} {text before content after : Text} :
      firstLiteral? desk.store [] text = some (before, content, after) →
        Round records (desk, text)
          (desk.holding (.table (records.literalTable content)),
            before ++ write desk.store.held.size ++ after)

section Rounds

variable {records : Records} {desk reached : Desk} {text next : Text}

/-- A round takes away one pair of angle brackets. -/
theorem Round.count (round : records.Round (desk, text) (reached, next)) :
    next.count '<' + 1 = text.count '<' ∧ next.count '>' + 1 = text.count '>' := by
  have absent {c : Char} (small : c.toNat < 0xe000) (index : Nat) : (write index).count c = 0 :=
    count_eq_zero.mpr fun member => isMark_ne (isMark_of_mem_write c member) small rfl
  cases round with
  | replace found =>
    obtain ⟨inner, split, -, less, greater⟩ := (FoundLiteral.of_firstLiteral? found).split
    rw [reverse_nil, nil_append] at split
    simp only [split, count_append, count_cons, absent (show '<'.toNat < 0xe000 by decide),
      absent (show '>'.toNat < 0xe000 by decide), count_eq_zero.mpr less, count_eq_zero.mpr greater]
    constructor <;> simp <;> omega

theorem outcome_convertLiteralsWithin (records : Records) (rounds : Nat) (text : Text) (desk : Desk) :
    outcome (records.convertLiteralsWithin (rounds + 1) text) desk =
      match firstLiteral? desk.store [] text with
      | none => (.ok text, desk)
      | some (before, content, after) =>
        outcome (records.convertLiteralsWithin rounds (before ++ write desk.store.held.size ++ after))
          (desk.holding (.table (records.literalTable content))) := by
  rw [convertLiteralsWithin, outcome_bind, outcome_get]
  cases found : firstLiteral? desk.store [] text with
  | none => simp only [found, outcome_pure]
  | some parts =>
    simp only [found]
    rfl

/-- Once there are as many rounds as angle brackets, more of them change nothing. -/
theorem convertLiteralsWithin_stable {rounds : Nat} (enough : text.count '<' ≤ rounds) (desk : Desk) :
    outcome (records.convertLiteralsWithin rounds text) desk =
      outcome (records.convertLiterals text) desk := by
  have step (n : Nat) : ∀ (text : Text) (desk : Desk), text.count '<' ≤ n →
      outcome (records.convertLiteralsWithin (n + 1) text) desk =
        outcome (records.convertLiteralsWithin n text) desk := by
    induction n with
    | zero =>
      intro text desk none
      have plain : '<' ∉ text := count_eq_zero.mp (Nat.le_zero.mp none)
      rw [outcome_convertLiteralsWithin, firstLiteral?_none (.inl plain)]
      rfl
    | succ n ih =>
      intro text desk few
      rw [outcome_convertLiteralsWithin, outcome_convertLiteralsWithin]
      cases found : firstLiteral? desk.store [] text with
      | none => rfl
      | some parts =>
        have round : records.Round _ _ := .replace found
        have fewer := round.count.1
        exact ih _ _ (by omega)
  induction enough with
  | refl => rfl
  | step enough ih => rw [step _ _ _ enough, ih]

/-- The pass ends where it would end if it started with the text of a later round. -/
theorem Round.convertLiterals (round : records.Round (desk, text) (reached, next)) :
    outcome (records.convertLiterals text) desk = outcome (records.convertLiterals next) reached := by
  have fewer := round.count.1
  cases round with
  | replace found =>
    have many : text.count '<' = text.count '<' - 1 + 1 := by omega
    rw [Records.convertLiterals, many, outcome_convertLiteralsWithin, found]
    exact convertLiteralsWithin_stable (by omega) _

theorem convertLiterals_done (none : firstLiteral? desk.store [] text = none) :
    Gives (records.convertLiterals text) desk text desk := by
  rw [Gives, ← convertLiteralsWithin_stable (Nat.le_succ _), outcome_convertLiteralsWithin, none]

theorem rounds_convertLiterals
    (rounds : Relation.ReflTransGen records.Round (desk, text) (reached, next)) :
    outcome (records.convertLiterals text) desk = outcome (records.convertLiterals next) reached := by
  suffices all : ∀ first last, Relation.ReflTransGen records.Round first last →
      outcome (records.convertLiterals first.2) first.1 = outcome (records.convertLiterals last.2) last.1 from
    all _ _ rounds
  intro first last rounds
  induction rounds with
  | refl => rfl
  | tail _ round ih => exact ih.trans round.convertLiterals

/-- The pass always ends: its rounds lead to a text with no literal left in it. -/
theorem convertLiterals_rounds (records : Records) (text : Text) (desk : Desk) :
    ∃ out final, Gives (records.convertLiterals text) desk out final ∧
      Relation.ReflTransGen records.Round (desk, text) (final, out) ∧
      firstLiteral? final.store [] out = none := by
  induction count : text.count '<' using Nat.strong_induction_on generalizing text desk with
  | _ count ih =>
    cases found : firstLiteral? desk.store [] text with
    | none => exact ⟨text, desk, convertLiterals_done found, .refl, found⟩
    | some parts =>
      have round : records.Round _ _ := .replace found
      have fewer := round.count.1
      obtain ⟨out, final, given, later, done⟩ := ih _ (count ▸ Nat.lt_of_succ_le fewer.le) _ _ rfl
      exact ⟨out, final, round.convertLiterals.trans given, .head round later, done⟩

end Rounds

end Records

/-- The text ends in an operand, blanks aside: in a name or number, in a closing bracket, or in the
placeholder of a literal or a record. -/
inductive EndsInOperand : Text → Prop
  | word {before word : Text} :
      word ≠ [] → (∀ c ∈ word, isWordChar c = true) → EndsInOperand (before ++ word)
  | paren {before : Text} : EndsInOperand (before ++ [')'])
  | bracket {before : Text} : EndsInOperand (before ++ [']'])
  | placeholder {before : Text} {index : Nat} : EndsInOperand (before ++ write index)
  | blank {before : Text} {c : Char} : EndsInOperand before → isBlank c = true → EndsInOperand (before ++ [c])

theorem EndsInOperand.last {before : Text} (operand : EndsInOperand before) :
    ∃ c, lastSolid none before = some c ∧ endsOperand c = true := by
  induction operand with
  | @word before word nonempty letters =>
    have solid : ∀ c ∈ word, isBlank c = false := by
      intro c member
      by_contra blank
      simpa [isBlank_not_wordChar (by simpa using blank)] using letters c member
    obtain ⟨c, member, last⟩ := lastSolid_word (lastSolid none before) nonempty solid
    exact ⟨c, by rw [lastSolid_append, last], by simp [endsOperand, letters c member]⟩
  | paren => exact ⟨')', lastSolid_concat _ _ (by decide), rfl⟩
  | bracket => exact ⟨']', lastSolid_concat _ _ (by decide), rfl⟩
  | @placeholder before index =>
    refine ⟨closing, ?_, by simp [endsOperand]⟩
    have shape : before ++ write index = before ++ opening :: encode index ++ [closing] := by
      simp [write_eq]
    rw [shape, lastSolid_concat _ _ (by decide)]
  | blank _ blank ih =>
    obtain ⟨c, last, ends⟩ := ih
    refine ⟨c, ?_, ends⟩
    rw [lastSolid_append, last]
    simp [lastSolid, blank]

theorem EndsInOperand.opensLiteral {before : Text} (operand : EndsInOperand before) :
    Records.opensLiteral before = false :=
  have ⟨_, last, ends⟩ := operand.last
  opensLiteral_operand last ends

namespace Records

section Sides

variable {records : Records} {store : Store} {desk : Desk} {passed before after text : Text}

theorem angleContent?_cons (c : Char) (rest : Text) :
    angleContent? (c :: rest) =
      if c = '<' then none
      else if c = '>' then some ([], rest)
      else (angleContent? rest).map fun (content, after) => (c :: content, after) := by
  by_cases less : c = '<'
  · simp [angleContent?, less]
  · by_cases greater : c = '>'
    · simp [angleContent?, greater]
    · simp only [angleContent?, dropWhile_cons, takeWhile_cons, less, greater, ne_eq, not_false_eq_true,
        decide_true, Bool.and_self, if_true, if_false]
      split <;> rfl

/-- Angle brackets that open before a `<` are closed before it. -/
theorem angleContent?_upto (before after : Text) :
    angleContent? (before ++ '<' :: after) =
      (angleContent? before).map fun (content, rest) => (content, rest ++ '<' :: after) := by
  induction before with
  | nil => rfl
  | cons c before ih =>
    rw [cons_append, angleContent?_cons, angleContent?_cons, ih]
    split
    · rfl
    · split
      · rfl
      · simp [Function.comp_def]

theorem lastSolid_or (last : Option Char) (text : Text) :
    lastSolid last text = (lastSolid none text).or last := by
  induction text using reverseRecOn with
  | nil => rfl
  | append_singleton text c ih =>
    rw [lastSolid_append, lastSolid_append, ih]
    cases blank : isBlank c <;> simp [lastSolid, blank]

/-- What precedes a `<` does not matter to the literals after it. -/
theorem opensLiteral_after (passed before : Text) :
    opensLiteral (passed ++ '<' :: before) = opensLiteral before := by
  have last : lastSolid none (passed ++ '<' :: before) = (lastSolid none before).or (some '<') := by
    rw [lastSolid_append, ← lastSolid_or]
    rfl
  simp only [opensLiteral, ← lastSolid_none, last]
  cases lastSolid none before with
  | none => decide
  | some c => rfl

theorem firstLiteral?_after (store : Store) (outer passed text : Text) :
    firstLiteral? store (passed ++ '<' :: outer) text =
      (firstLiteral? store passed text).map fun (before, content, after) =>
        (outer.reverse ++ '<' :: before, content, after) := by
  induction text generalizing passed with
  | nil => rfl
  | cons c rest ih =>
    rw [firstLiteral?, firstLiteral?, ← cons_append, ih]
    have reversed : (passed ++ '<' :: outer).reverse = outer.reverse ++ '<' :: passed.reverse := by simp
    simp only [reversed, opensLiteral_after, Option.orElse_eq_orElse, Option.orElse_eq_or, Option.map_or]
    congr 1
    split
    · cases angleContent? rest with
      | none => rfl
      | some pair =>
        simp only [bind_some]
        split <;> rfl
    · rfl

/-- The first literal of a text with a `<` in it that compares stands before it or after it. -/
theorem firstLiteral?_comparison (compares : opensLiteral (passed.reverse ++ before) = false) (after : Text) :
    firstLiteral? store passed (before ++ '<' :: after) =
      ((firstLiteral? store passed before).map fun (first, content, rest) =>
        (first, content, rest ++ '<' :: after)).or
      ((firstLiteral? store [] after).map fun (first, content, rest) =>
        (passed.reverse ++ before ++ '<' :: first, content, rest)) := by
  induction before generalizing passed with
  | nil =>
    rw [append_nil] at compares
    have later := firstLiteral?_after store passed [] after
    rw [nil_append] at later
    have here : firstLiteral? store passed ('<' :: after) = firstLiteral? store ('<' :: passed) after := by
      simp [firstLiteral?, compares]
    rw [nil_append, here, later, append_nil]
    rfl
  | cons c before ih =>
    have later := @ih (c :: passed) (by simpa using compares)
    rw [cons_append, firstLiteral?, later, firstLiteral?, angleContent?_upto]
    simp only [Option.orElse_eq_orElse, Option.orElse_eq_or, Option.map_or, Option.or_assoc, List.reverse_cons,
      List.append_assoc, List.singleton_append]
    congr 1
    split
    · cases angleContent? before with
      | none => rfl
      | some pair =>
        simp only [bind_some, map_some]
        split <;> rfl
    · rfl

theorem startsWithLiteral_iff {text : Text} :
    store.startsWithLiteral text = true ↔ ∃ digits literal,
      digits? (trimLeft text) = some digits ∧ store.held[decode digits]? = some (.literal literal) := by
  unfold Store.startsWithLiteral
  cases digits? (trimLeft text) with
  | none => simp
  | some digits =>
    simp only [Option.some.injEq, exists_and_left, exists_eq_left']
    rcases store.held[decode digits]? with _ | _ | _ <;> simp

/-- Tables that are held later do not make a literal of what was none. -/
theorem firstLiteral?_holding (desk : Desk) (entries : List Entry) (passed text : Text) :
    firstLiteral? (desk.holding (.table entries)).store passed text =
      firstLiteral? desk.store passed text := by
  have literal (index : Nat) (literal : Text) :
      (desk.holding (.table entries)).store.held[index]? = some (.literal literal) ↔
        desk.store.held[index]? = some (.literal literal) := by
    simp only [Desk.holding, Store.hold, Array.getElem?_push]
    split
    · subst index
      simp
    · rfl
  have starts (content : Text) : (desk.holding (.table entries)).store.startsWithLiteral content =
      desk.store.startsWithLiteral content := by
    rw [Bool.eq_iff_iff, startsWithLiteral_iff, startsWithLiteral_iff]
    simp only [literal]
  have structural (content : Text) : looksStructural (desk.holding (.table entries)).store content =
      looksStructural desk.store content := by
    unfold looksStructural
    rw [starts]
  induction text generalizing passed with
  | nil => rfl
  | cons c rest ih => simp only [firstLiteral?, structural, ih]

/-- A round before a `<` that compares is one of the whole text, and the `<` still compares. -/
theorem Round.left {next : Text} {reached : Desk} (round : records.Round (desk, before) (reached, next))
    (compares : opensLiteral before = false) (after : Text) :
    records.Round (desk, before ++ '<' :: after) (reached, next ++ '<' :: after) ∧
      opensLiteral next = false := by
  cases round with
  | @replace _ _ first content rest found =>
    refine ⟨?_, ?_⟩
    · have whole : firstLiteral? desk.store [] (before ++ '<' :: after) =
          some (first, content, rest ++ '<' :: after) := by
        rw [firstLiteral?_comparison (by simpa using compares), found]
        rfl
      simpa using Round.replace whole
    · -- What ends the text before the `<` is behind the literal, or the literal itself.
      obtain ⟨inner, split, -⟩ := (FoundLiteral.of_firstLiteral? found).split
      rw [reverse_nil, nil_append] at split
      have shape : before = first ++ '<' :: inner ++ ['>'] ++ rest := by simp [split]
      have ends (passed : Text) : lastSolid none (passed ++ rest) =
          (lastSolid none rest).or (lastSolid none passed) := by
        rw [lastSolid_append, lastSolid_or]
      simp only [opensLiteral, ← lastSolid_none, shape, ends] at compares ⊢
      cases last : lastSolid none rest with
      | some c => simpa [last] using compares
      | none =>
        rw [last, none_or, lastSolid_concat _ _ (by decide)] at compares
        exact absurd compares (by decide)

/-- Where nothing is left to replace before a `<` that compares, a round after it is one of the whole
text. -/
theorem Round.right {next : Text} {reached : Desk} (round : records.Round (desk, after) (reached, next))
    (compares : opensLiteral before = false) (done : firstLiteral? desk.store [] before = none) :
    records.Round (desk, before ++ '<' :: after) (reached, before ++ '<' :: next) ∧
      firstLiteral? reached.store [] before = none := by
  cases round with
  | @replace _ _ first content rest found =>
    refine ⟨?_, by rw [firstLiteral?_holding, done]⟩
    have whole : firstLiteral? desk.store [] (before ++ '<' :: after) =
        some (before ++ '<' :: first, content, rest) := by
      rw [firstLiteral?_comparison (by simpa using compares), found, done]
      rfl
    simpa using Round.replace whole

theorem rounds_left {start finish : Desk × Text} (rounds : Relation.ReflTransGen records.Round start finish)
    (compares : opensLiteral start.2 = false) (after : Text) :
    Relation.ReflTransGen records.Round (start.1, start.2 ++ '<' :: after) (finish.1, finish.2 ++ '<' :: after) ∧
      opensLiteral finish.2 = false := by
  induction rounds with
  | refl => exact ⟨.refl, compares⟩
  | tail _ round ih =>
    obtain ⟨lifted, still⟩ := round.left ih.2 after
    exact ⟨ih.1.tail lifted, still⟩

theorem rounds_right {start finish : Desk × Text} (rounds : Relation.ReflTransGen records.Round start finish)
    (compares : opensLiteral before = false) (done : firstLiteral? start.1.store [] before = none) :
    Relation.ReflTransGen records.Round (start.1, before ++ '<' :: start.2) (finish.1, before ++ '<' :: finish.2) ∧
      firstLiteral? finish.1.store [] before = none := by
  induction rounds with
  | refl => exact ⟨.refl, done⟩
  | tail _ round ih =>
    obtain ⟨lifted, still⟩ := round.right compares ih.2
    exact ⟨ih.1.tail lifted, still⟩

/-- The pass works on both sides of a `<` that compares as if each stood alone. -/
theorem convertLiterals_sides (compares : opensLiteral before = false) (after : Text) (desk : Desk) :
    ∃ left middle right final, Gives (records.convertLiterals before) desk left middle ∧
      Gives (records.convertLiterals after) middle right final ∧
      Gives (records.convertLiterals (before ++ '<' :: after)) desk (left ++ '<' :: right) final := by
  obtain ⟨left, middle, leftGiven, leftRounds, leftDone⟩ := records.convertLiterals_rounds before desk
  obtain ⟨right, final, rightGiven, rightRounds, rightDone⟩ := records.convertLiterals_rounds after middle
  obtain ⟨first, still⟩ := rounds_left leftRounds compares after
  obtain ⟨second, done⟩ := rounds_right rightRounds still leftDone
  have finished : firstLiteral? final.store [] (left ++ '<' :: right) = none := by
    rw [firstLiteral?_comparison (by simpa using still), done, rightDone]
    rfl
  exact ⟨left, middle, right, final, leftGiven, rightGiven,
    (rounds_convertLiterals (first.trans second)).trans (convertLiterals_done finished)⟩

/-- A comparison is never taken for a record. At every moment of the pass, a `<` that follows an operand
stays where it is, and the pass ends with what it makes of the text before it and of the text after it.
Where every `<` of a text follows an operand, the pass changes nothing. -/
theorem convertLiterals_comparison (records : Records) (desk : Desk) (text : Text) :
    (∀ reached before after,
      Relation.ReflTransGen records.Round (desk, text) (reached, before ++ '<' :: after) →
      EndsInOperand before →
      ∃ left middle right final, Gives (records.convertLiterals before) reached left middle ∧
        Gives (records.convertLiterals after) middle right final ∧
        Gives (records.convertLiterals text) desk (left ++ '<' :: right) final) ∧
    ((∀ before after, text = before ++ '<' :: after → EndsInOperand before) →
      Gives (records.convertLiterals text) desk text desk) := by
  refine ⟨fun reached before after rounds operand => ?_, fun operands => ?_⟩
  · obtain ⟨left, middle, right, final, leftGiven, rightGiven, given⟩ :=
      records.convertLiterals_sides operand.opensLiteral after reached
    exact ⟨left, middle, right, final, leftGiven, rightGiven, (rounds_convertLiterals rounds).trans given⟩
  · exact records.convertLiterals_compares (fun before after split => (operands before after split).last) desk

/-- A record, and after it a comparison whose right side looks like the content of one. -/
theorem convertLiterals_comparison_record :
    EndsInOperand (write 0 ++ [' ']) ∧ ∃ final,
      Gives (convertLiterals [] "<1, 2> < f(a) > b".toList) {} (write 0 ++ " < f(a) > b".toList) final := by
  have operand : EndsInOperand (write 0 ++ [' ']) :=
    .blank (@EndsInOperand.placeholder [] 0) (by decide)
  have found : firstLiteral? ({} : Desk).store [] "<1, 2> < f(a) > b".toList =
      some ([], "1, 2".toList, " < f(a) > b".toList) := by
    decide +kernel
  have rounds : Relation.ReflTransGen (Round []) ({}, "<1, 2> < f(a) > b".toList)
      (({} : Desk).holding (.table (literalTable [] "1, 2".toList)),
        (write 0 ++ [' ']) ++ '<' :: " f(a) > b".toList) := by
    have round : Round [] _ _ := .replace found
    exact .single (by simpa using round)
  obtain ⟨left, middle, right, final, leftGiven, rightGiven, given⟩ :=
    (convertLiterals_comparison [] {} "<1, 2> < f(a) > b".toList).1 _ _ _ rounds operand
  have idle {text : Text} (plain : '<' ∉ text) (desk : Desk) : Gives (convertLiterals [] text) desk text desk :=
    convertLiteralsWithin_idle [] (.inl plain) _ desk
  have token : '<' ∉ write 0 ++ [' '] := by
    intro member
    rcases mem_append.mp member with inside | space
    · exact isMark_ne (isMark_of_mem_write _ inside) (by decide) rfl
    · simp at space
  cases leftGiven.symm.trans (idle token _)
  cases rightGiven.symm.trans (idle (by decide) _)
  exact ⟨operand, _, by simpa using given⟩

end Sides

end Records

end Pseudocode
