import Pseudocode.Program.Statement
import Pseudocode.Proofs.Pass

namespace Pseudocode

open List Option Placeholder
variable {text : Text}

/-- A part of a line that is a name: it has the property and holds no placeholder. -/
def IsName (holds : Text → Prop) (name : Text) : Prop :=
  holds name ∧ ∀ c ∈ name, isMark c = false

namespace Severable

variable {strict : Bool} {holds : Text → Prop} {text rest : Text}

variable (severable : Severable strict holds)
include severable

theorem dropLast {c : Char} (here : holds text)
    (last : text.getLast? = some c) (unmarked : isMark c = false) : holds text.dropLast :=
  (severable.cut_at here (dropLast_append_getLast? c last).symm unmarked).1

theorem identifier? {name : Text} (here : holds text)
    (found : Pseudocode.identifier? text = some (name, rest)) : IsName holds name ∧ holds rest := by
  obtain ⟨split, whole⟩ := identifier?_eq_some found
  have unmarked : ∀ c ∈ name, isMark c = false := by
    intro c member
    by_contra mark
    have letter := identifier?_mem whole member
    rw [isMark_not_wordChar (by simpa using mark)] at letter
    simp at letter
  obtain ⟨named, after⟩ := severable.split_free (split ▸ here) unmarked
  exact ⟨⟨named, unmarked⟩, after⟩

theorem dropWord? {word : Text} (tame : isTame word = true)
    (here : holds text) (found : Pseudocode.dropWord? word text = some rest) : holds rest := by
  rw [(dropWord?_eq_some found).1] at here
  exact (severable.split_free here (dropWord?_unmarked tame found)).2

theorem dropWholeWord? {word : String} (tame : isTame word.toList = true) (here : holds text)
    (found : Pseudocode.dropWholeWord? word text = some rest) : holds rest :=
  severable.dropWord? tame here (filter_eq_some_iff.mp found).1

theorem dropTwoWords? {first second : String}
    (tame : isTame first.toList = true ∧ isTame second.toList = true) (here : holds text)
    (found : Pseudocode.dropTwoWords? first second text = some rest) : holds rest := by
  obtain ⟨afterFirst, word, found⟩ := bind_eq_some_iff.mp found
  obtain ⟨afterBlanks, blanks, found⟩ := bind_eq_some_iff.mp found
  exact severable.dropWord? tame.2
    (severable.dropBlanks? (severable.dropWord? tame.1 here word) blanks) found

theorem dropColon (here : holds text) : holds (Statement.dropColon text) := by
  unfold Statement.dropColon
  split
  · exact severable.dropLast here ‹_› (isMark_ascii (by decide))
  · exact here

theorem dropLastWord? {word : String} (here : holds text)
    (found : Statement.dropLastWord? word text = some rest) : holds rest := by
  obtain ⟨before, cut, found⟩ := bind_eq_some_iff.mp found
  unfold Statement.beforeWord? at cut
  simp only at cut
  split at cut
  · obtain rfl := Option.some.inj cut
    split at found
    · rename_i blank
      obtain rfl := Option.some.inj found
      obtain ⟨c, last, blank⟩ := (any_eq_true _ _).mp blank
      obtain ⟨before, split⟩ := getLast?_eq_some_iff.mp last
      have whole : text = before ++ c :: text.drop (text.length - word.length) := by
        rw [← singleton_append, ← append_assoc, ← split, take_append_drop]
      rw [split]
      exact severable.trimRight (severable.split_after (whole ▸ here) (blank_unmarked blank)).1
    · simp at found
  · simp at cut

theorem condition {closing : String} {line afterKeyword : Text}
    (whole : holds line) (here : holds afterKeyword) :
    holds (Statement.condition closing line afterKeyword) := by
  unfold Statement.condition
  split
  · exact whole
  · rename_i text blanks
    have body := severable.trimRight (severable.dropColon (severable.trimRight
      (severable.dropBlanks? here blanks)))
    cases found : Statement.dropLastWord? closing
        (Pseudocode.trimRight (Statement.dropColon (Pseudocode.trimRight text))) with
    | none => simpa [found] using body
    | some before => simpa [found] using severable.dropLastWord? body found

theorem returned (here : holds text) : holds (Statement.returned text) := by
  have value := severable.trim here
  unfold Statement.returned
  simp only
  split
  · rename_i inner shape
    split
    · rename_i inside closed
      split
      · rw [shape] at value
        have opened := (severable.uncons value (isMark_ascii (by decide))).2
        exact severable.trim
          (severable.cut_at opened (splitParen?_eq_some closed) (isMark_ascii (by decide))).1
      · exact value
    · exact value
  · exact value

theorem solid? {run : Text} (here : holds text)
    (found : Statement.solid? text = some (run, rest)) : holds run ∧ holds rest := by
  unfold Statement.solid? at found
  split at found
  · simp at found
  · obtain ⟨rfl, rfl⟩ := Prod.mk.inj (Option.some.inj found)
    exact severable.takeWhile (fun c stop => blank_unmarked (by simpa using stop)) here

theorem closedByLine? {inside : Text} (here : holds text)
    (found : Statement.closedByLine? text = some inside) : holds inside := by
  unfold Statement.closedByLine? at found
  simp only at found
  split at found
  · rename_i last
    split at found
    · simp at found
    · obtain rfl := Option.some.inj found
      exact severable.dropLast (severable.trimRight here) last (isMark_ascii (by decide))
  · simp at found

end Severable

namespace Statement

variable {strict : Bool} {holds : Text → Prop} {line rest : Text}
variable {statement : Statement} {language : Language}

/-- The parts of a statement have a property, and those that are names hold no placeholder. -/
def Each (holds : Text → Prop) : Statement → Prop
  | arrayDeclaration name _ dimensions _ => IsName holds name ∧ holds dimensions
  | read target => IsName holds target
  | forEach item collection _ => holds item ∧ holds collection
  | whileLoop condition | elseIf condition | ifThen condition => holds condition
  | giveBack value => holds value
  | _ => True

theorem array?_eq_some (found : array? line = some statement) :
    ∃ name element dimensions place, statement = arrayDeclaration name element dimensions place ∧
      ∀ strict holds, Severable strict holds → holds line → IsName holds name ∧ holds dimensions := by
  obtain ⟨⟨name, afterName⟩, named, found⟩ := bind_eq_some_iff.mp found
  simp only at found
  split at found
  rotate_left 2
  · simp at found
  -- the equals sign and the arrow are read alike
  all_goals
    rename_i afterSign shape
    rw [bind_eq_bind, bind_some] at found
    obtain ⟨afterKeyword, keyword, found⟩ := bind_eq_some_iff.mp found
    obtain ⟨afterBlanks, blanks, found⟩ := bind_eq_some_iff.mp found
    obtain ⟨⟨element, afterElement⟩, typed, found⟩ := bind_eq_some_iff.mp found
    simp only at found
    split at found
    · rename_i opened
      obtain ⟨dimensions, closed, rfl⟩ := map_eq_some_iff.mp found
      refine ⟨_, _, _, _, rfl, fun strict holds severable here => ?_⟩
      obtain ⟨isName, nameRest⟩ := severable.identifier? here named
      have signed := (severable.uncons (shape ▸ severable.trimLeft nameRest) (by decide)).2
      have worded := severable.dropWord? (by decide) (severable.trimLeft signed) keyword
      have elemented := (severable.identifier? (severable.dropBlanks? worded blanks) typed).2
      have bracketed := (severable.uncons (opened ▸ severable.trimLeft elemented) (by decide)).2
      exact ⟨isName, severable.closedByLine? bracketed closed⟩
    · simp at found

theorem forEach?_eq_some (found : forEach? line = some statement) :
    ∃ item collection place, statement = forEach item collection place ∧
      ∀ strict holds, Severable strict holds → holds line → holds item ∧ holds collection := by
  obtain ⟨afterPour, pour, found⟩ := bind_eq_some_iff.mp found
  obtain ⟨afterBlanks, blanks, found⟩ := bind_eq_some_iff.mp found
  obtain ⟨⟨item, afterItem⟩, itemRun, found⟩ := bind_eq_some_iff.mp found
  obtain ⟨gap, gapBlanks, found⟩ := bind_eq_some_iff.mp found
  obtain ⟨afterDe, de, found⟩ := bind_eq_some_iff.mp found
  obtain ⟨body, bodyBlanks, found⟩ := bind_eq_some_iff.mp found
  obtain ⟨⟨collection, after⟩, collectionRun, found⟩ := bind_eq_some_iff.mp found
  obtain ⟨_, _, found⟩ := bind_eq_some_iff.mp found
  obtain ⟨_, _, found⟩ := bind_eq_some_iff.mp found
  have run (strict : Bool) (holds : Text → Prop) (severable : Severable strict holds)
      (here : holds line) : holds item ∧ holds collection := by
    obtain ⟨itemHolds, itemRest⟩ := severable.solid?
      (severable.dropBlanks? (severable.dropWord? (by decide) here pour) blanks) itemRun
    have worded := severable.dropWord? (by decide) (severable.dropBlanks? itemRest gapBlanks) de
    exact ⟨itemHolds, (severable.solid? (severable.dropBlanks? worded bodyBlanks) collectionRun).1⟩
  split at found
  all_goals first
    | exact ⟨item, collection, _, (Option.some.inj found).symm, run⟩
    | simp at found

theorem read?_eq_some (found : read? line = some statement) :
    ∃ target, statement = read target ∧
      ∀ strict holds, Severable strict holds → holds line → IsName holds target := by
  obtain ⟨⟨name, afterName⟩, named, found⟩ := bind_eq_some_iff.mp found
  simp only at found
  split at found
  · obtain ⟨afterWord, word, found⟩ := bind_eq_some_iff.mp found
    obtain ⟨afterCall, call, found⟩ := bind_eq_some_iff.mp found
    split at found
    · exact ⟨name, (Option.some.inj found).symm,
        fun _ _ severable here => (severable.identifier? here named).1⟩
    · simp at found
  · simp at found

theorem afterReturn?_severable (severable : Severable strict holds) (here : holds line)
    (found : afterReturn? line = some rest) : holds rest := by
  obtain ⟨_, spelling, _, listed, word, -⟩ := findSome?_eq_some_iff.mp found
  have tame : ∀ word ∈ ["retourner", "retourne"], isTame word.toList = true := by decide
  exact severable.dropWholeWord? (tame spelling (listed ▸ by simp)) here word

/-- The statements that a line has the form of. -/
inductive Fits (language : Language) (line : Text) : Statement → Prop
  | blank (empty : isBlankLine line = true) : Fits language line blank
  | algorithmHeader (word : (dropWholeWord? "algorithme" line).isSome) :
      Fits language line algorithmHeader
  | lexique (word : (dropWholeWord? "lexique" line).isSome) : Fits language line lexique
  | sectionMarker (word : (dropAnyWholeWord? ["début", "debut"] line).isSome) :
      Fits language line sectionMarker
  | typeDeclaration (found : (RecordType.ofLine? language line).isSome) :
      Fits language line typeDeclaration
  | variableDeclaration {names : List Text} (found : declaredNames? language line = some names) :
      Fits language line (variableDeclaration names)
  | arrayDeclaration {statement : Statement} (found : array? line = some statement) :
      Fits language line statement
  | blockClose (closer : isCloser line = true) : Fits language line (blockClose (closedBlock line))
  | read {statement : Statement} (found : read? line = some statement) : Fits language line statement
  | functionHeader (word : ((dropWord? "fonction".toList line).bind dropBlanks?).isSome) :
      Fits language line functionHeader
  | forEach {statement : Statement} (found : forEach? line = some statement) :
      Fits language line statement
  | counted (word : ((dropWord? "pour".toList line).bind dropBlanks?).isSome) :
      Fits language line counted
  | whileLoop {rest : Text} (found : afterTantQue? line = some rest) :
      Fits language line (whileLoop (condition "faire" line rest))
  | elseIf {rest : Text} (found : afterSinonSi? line = some rest) :
      Fits language line (elseIf (condition "alors" line rest))
  | ifThen {rest : Text} (found : dropWholeWord? "si" line = some rest) :
      Fits language line (ifThen (condition "alors" line rest))
  | elseBranch (word : (dropWholeWord? "sinon" line).isSome) : Fits language line elseBranch
  | giveBack {rest : Text} (found : afterReturn? line = some rest) :
      Fits language line (giveBack (returned rest))
  | write (written : isWrite line = true) : Fits language line write
  | assignment (arrow : line.contains '←' = true) : Fits language line assignment
  | expression : Fits language line expression

/-- A line is read as a statement that it has the form of. -/
theorem ofLine_fits (language : Language) (line : Text) :
    Fits language line (ofLine language line) := by
  unfold ofLine
  refine iteInduction .blank fun _ => ?_
  refine iteInduction .algorithmHeader fun _ => ?_
  refine iteInduction .lexique fun _ => ?_
  refine iteInduction .sectionMarker fun _ => ?_
  refine iteInduction .typeDeclaration fun _ => ?_
  cases declared : declaredNames? language line with
  | some names => exact .variableDeclaration declared
  | none =>
  cases array : array? line with
  | some statement => exact .arrayDeclaration array
  | none =>
  refine iteInduction .blockClose fun _ => ?_
  cases reads : read? line with
  | some statement => exact .read reads
  | none =>
  refine iteInduction .functionHeader fun _ => ?_
  cases each : forEach? line with
  | some statement => exact .forEach each
  | none =>
  refine iteInduction .counted fun _ => ?_
  cases loops : afterTantQue? line with
  | some rest => exact .whileLoop loops
  | none =>
  cases elses : afterSinonSi? line with
  | some rest => exact .elseIf elses
  | none =>
  cases tests : dropWholeWord? "si" line with
  | some rest => exact .ifThen tests
  | none =>
  refine iteInduction .elseBranch fun _ => ?_
  cases returns : afterReturn? line with
  | some rest => exact .giveBack returns
  | none => exact iteInduction .write fun _ => iteInduction .assignment fun _ => .expression

theorem Fits.each (fits : Fits language line statement)
    (severable : Severable strict holds) (here : holds line) : statement.Each holds := by
  cases fits with
  | arrayDeclaration found =>
    obtain ⟨_, _, _, _, rfl, parts⟩ := array?_eq_some found
    exact parts _ _ severable here
  | read found =>
    obtain ⟨_, rfl, target⟩ := read?_eq_some found
    exact target _ _ severable here
  | forEach found =>
    obtain ⟨_, _, _, rfl, parts⟩ := forEach?_eq_some found
    exact parts _ _ severable here
  | whileLoop found =>
    exact severable.condition here
      (severable.dropTwoWords? (by decide) here (filter_eq_some_iff.mp found).1)
  | elseIf found =>
    exact severable.condition here
      (severable.dropTwoWords? (by decide) here (filter_eq_some_iff.mp found).1)
  | ifThen found => exact severable.condition here (severable.dropWholeWord? (by decide) here found)
  | giveBack found => exact severable.returned (afterReturn?_severable severable here found)
  | _ => trivial

/-- Whatever statement a line is read as, its parts have every severable property of the line. -/
theorem ofLine_each (language : Language) (severable : Severable strict holds) (here : holds line) :
    (ofLine language line).Each holds :=
  (ofLine_fits language line).each severable here

theorem cutAt?_of_mem {mark : Char} (member : mark ∈ text) :
    ∃ parts, cutAt? mark text = some parts := by
  induction text with
  | nil => simp at member
  | cons c rest ih =>
    rw [cutAt?]
    split
    · exact ⟨_, rfl⟩
    · rename_i other
      obtain ⟨parts, cut⟩ := ih (mem_of_ne_of_mem (Ne.symm other) member)
      exact ⟨_, by rw [cut]; rfl⟩

theorem isWrite_mem (written : isWrite line = true) : '(' ∈ line := by
  obtain ⟨rest, found, opened⟩ := (any_eq_true _ _).mp written
  obtain ⟨_, word, _, -, found, -⟩ := findSome?_eq_some_iff.mp found
  have inside : '(' ∈ trimLeft rest := mem_of_head? (by simpa using opened)
  rw [(dropWord?_eq_some found).1]
  exact mem_append_right _ ((dropWhile_sublist isBlank).mem inside)

/-- The places where the parts of the line are cut apart. -/
def IsCut (line : Text) : Statement → Prop
  | write => ∃ parts, cutAt? '(' line = some parts
  | assignment => ∃ parts, cutAt? '←' line = some parts
  | _ => True

theorem Fits.isCut (fits : Fits language line statement) : statement.IsCut line := by
  cases fits with
  | arrayDeclaration found =>
    obtain ⟨_, _, _, _, rfl, -⟩ := array?_eq_some found
    trivial
  | read found =>
    obtain ⟨_, rfl, -⟩ := read?_eq_some found
    trivial
  | forEach found =>
    obtain ⟨_, _, _, rfl, -⟩ := forEach?_eq_some found
    trivial
  | write written => exact cutAt?_of_mem (isWrite_mem written)
  | assignment arrow => exact cutAt?_of_mem (elem_iff.mp arrow)
  | _ => trivial

/-- What is read as output has a parenthesis, and what is read as an assignment has an arrow. -/
theorem ofLine_isCut (language : Language) (line : Text) : (ofLine language line).IsCut line :=
  (ofLine_fits language line).isCut

end Statement

section Loops

variable {strict : Bool} {holds : Text → Prop} {line : Text}

theorem CountedLoop.downward_neat (seamless : Seamless strict holds) :
    CountedLoop.downward.Neat holds := by
  intro before text n new found
  unfold downward at found
  simp only at found
  split at found
  · rename_i rest whole
    split at found
    · obtain ⟨rfl, rfl⟩ := Prod.mk.inj (Option.some.inj found)
      obtain ⟨_, word, _, listed, here, -⟩ := findSome?_eq_some_iff.mp whole
      have words : ∀ word ∈ ["décroissant", "decroissant"],
          word.toList ≠ [] ∧ isTame word.toList = true := by
        decide
      have tame := words word (listed ▸ by simp)
      have dropped := (filter_eq_some_iff.mp here).1
      obtain ⟨gap, gapSplit, gapUnmarked⟩ := trimLeft_split text
      obtain ⟨wordSplit, letters⟩ := dropWord?_eq_some dropped
      have split : text = (gap ++ (trimLeft text).take word.toList.length) ++ rest := by
        rw [append_assoc, ← wordSplit, ← gapSplit]
      rw [take_length_sub split]
      refine ⟨fun empty => tame.1 ?_, fun c member => ?_, seamless.nil⟩
      · rw [(append_eq_nil_iff.mp empty).2] at letters
        simpa using letters.symm
      · exact (mem_append.mp member).elim (gapUnmarked c) (dropWord?_unmarked tame.2 dropped c)
    · simp at found
  · simp at found

theorem CountedLoop.splitRangeAt?_severable (severable : Severable strict holds) {separator : Char}
    (unmarked : isMark separator = false) {before start stop : Text}
    (here : holds (before.reverse ++ text))
    (found : splitRangeAt? separator before text = some (start, stop)) : holds start ∧ holds stop := by
  induction text generalizing before with
  | nil => simp [splitRangeAt?] at found
  | cons c rest ih =>
    rw [splitRangeAt?] at found
    split at found
    · rename_i separates
      obtain ⟨rfl, rfl⟩ := Prod.mk.inj (Option.some.inj found)
      have same : caseKey separator = caseKey c := by
        simp only [Bool.and_eq_true, decide_eq_true_eq] at separates
        exact separates.1.1.1.1.1.symm
      have plain : isMark c = false := by
        by_contra mark
        rw [eq_of_caseKey_mark (by simpa using mark) same] at unmarked
        exact mark unmarked
      obtain ⟨left, right⟩ := severable.cut_at here rfl plain
      exact ⟨severable.trim left, severable.trim right⟩
    · exact ih (by simpa using here) found

theorem CountedLoop.ofLine?_severable (severable : Severable strict holds) (here : holds line)
    {loop : CountedLoop} (found : CountedLoop.ofLine? line = some loop) :
    IsName holds loop.counter ∧ holds loop.start ∧ holds loop.stop := by
  obtain ⟨⟨counter, range⟩, ranged, found⟩ := bind_eq_some_iff.mp found
  obtain ⟨⟨start, stop⟩, bounds, found⟩ := bind_eq_some_iff.mp found
  obtain rfl := Option.some.inj found
  obtain ⟨afterPour, pour, ranged⟩ := bind_eq_some_iff.mp ranged
  obtain ⟨afterBlanks, blanks, ranged⟩ := bind_eq_some_iff.mp ranged
  obtain ⟨⟨name, afterName⟩, named, ranged⟩ := bind_eq_some_iff.mp ranged
  obtain ⟨body, bodyBlanks, ranged⟩ := bind_eq_some_iff.mp ranged
  obtain ⟨tail, keyword, ranged⟩ := bind_eq_some_iff.mp ranged
  obtain ⟨inner, cut, same⟩ := bind_eq_some_iff.mp ranged
  obtain ⟨rfl, rfl⟩ := Prod.mk.inj (Option.some.inj same)
  obtain ⟨isName, nameRest⟩ := severable.identifier?
    (severable.dropBlanks? (severable.dropWord? (by decide) here pour) blanks) named
  have bodyHolds := severable.dropBlanks? nameRest bodyBlanks
  have tailHolds : holds tail := by
    simp only [orElse_eq_orElse, orElse_eq_or, or_eq_some_iff] at keyword
    rcases keyword with two | ⟨-, one⟩
    · obtain ⟨after, words, spaced⟩ := bind_eq_some_iff.mp two
      exact severable.dropBlanks? (severable.dropTwoWords? (by decide) bodyHolds words) spaced
    · obtain ⟨after, word, spaced⟩ := bind_eq_some_iff.mp one
      exact severable.dropBlanks? (severable.dropWord? (by decide) bodyHolds word) spaced
  have rangeHolds :=
    severable.dropLastWord? (severable.trimRight (severable.dropColon tailHolds)) cut
  refine ⟨isName, ?_⟩
  simp only [splitRange?, orElse_eq_orElse, orElse_eq_or, or_eq_some_iff]
    at bounds
  rcases bounds with accented | ⟨-, plain⟩
  · exact splitRangeAt?_severable severable (by decide) (by simpa using rangeHolds) accented
  · exact splitRangeAt?_severable severable (by decide) (by simpa using rangeHolds) plain

theorem dimensionBoundsFrom?_severable (severable : Severable strict holds)
    {before low high : Text} (here : holds (before.reverse ++ text))
    (found : dimensionBoundsFrom? before text = some (low, high)) : holds low ∧ holds high := by
  induction text generalizing before with
  | nil => cases found
  | cons c rest ih =>
    unfold dimensionBoundsFrom? at found
    simp only [orElse_eq_orElse, orElse_eq_or, or_eq_some_iff] at found
    rcases found with dotted | ⟨-, later⟩
    · split at dotted
      · rename_i upper dots
        split at dotted
        · simp at dotted
        · obtain ⟨rfl, rfl⟩ := Prod.mk.inj (Option.some.inj dotted)
          have plain : isMark c = false := by
            by_contra mark
            have marked : isMark c = true := by simpa using mark
            rw [trimLeft, dropWhile_cons_of_neg (by simp [isMark_not_blank marked])] at dots
            exact isMark_ne marked (by decide) (List.cons.inj dots).1
          obtain ⟨left, right⟩ := severable.split_before here plain
          have first := severable.trimLeft right
          rw [dots] at first
          have second := (severable.uncons first (isMark_ascii (by decide))).2
          exact ⟨left, severable.trimLeft (severable.uncons second (isMark_ascii (by decide))).2⟩
      · simp at dotted
    · exact ih (by simpa using here) later

theorem dimensionBounds?_severable (severable : Severable strict holds) {low high : Text}
    (here : holds text) (found : dimensionBounds? text = some (low, high)) : holds low ∧ holds high :=
  dimensionBoundsFrom?_severable severable (show holds (List.reverse [] ++ text) from here) found

/-- A call stands in the text with its parenthesis right before what follows it. -/
theorem callsFrom_split {callee : Callee}
    (written : ∀ text head, callee text = some head → text = head.written ++ text.drop head.length)
    {before : Option Char} {place : Nat} :
    ∀ call ∈ callsFrom callee before place text, ∃ passed, text = passed ++ '(' :: call.2.2 := by
  induction text generalizing before place with
  | nil => simp [callsFrom]
  | cons c rest ih =>
    have later : ∀ call ∈ callsFrom callee (some c) (place + 1) rest,
        ∃ passed, c :: rest = passed ++ '(' :: call.2.2 := by
      intro call member
      obtain ⟨passed, split⟩ := ih call member
      exact ⟨c :: passed, by rw [split, cons_append]⟩
    intro call member
    rw [callsFrom] at member
    split at member
    · rename_i head found
      rcases mem_cons.mp member with rfl | member
      · refine ⟨head.name ++ head.gap, ?_⟩
        have split := written _ _ (callAt?_eq_some found).2
        rwa [CallHead.written, append_assoc _ ['('], singleton_append] at split
      · exact later call member
    · exact later call member

end Loops

end Pseudocode
