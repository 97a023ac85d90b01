import Pseudocode.Proofs.RecordTree
import Pseudocode.Proofs.Rendering

namespace Pseudocode

open List Option Placeholder
variable {c : Char} {text : Text}

namespace Replacer

variable {replacer : Replacer} {text out signs : Text}

theorem Quiet.turns_quiet (quiet : replacer.Quiet) (each : ∀ c ∈ signs, isQuiet c = true) :
    replacer.Turns signs signs :=
  quiet.turns_inert fun before c member rest => quiet.sign before c rest (each c member)

theorem Turns.after_signs (quiet : replacer.Quiet) (turns : replacer.Turns text out)
    (each : ∀ c ∈ signs, isQuiet c = true) : replacer.Turns (signs ++ text) (signs ++ out) := by
  induction signs with
  | nil => exact turns
  | cons c signs ih =>
    intro before tail fresh stop
    have sign := each c (.head _)
    have below := ih (fun d member => each d (.tail _ member)) (some c) tail
      (isQuiet_fresh sign) stop
    simp only [cons_append, substituteFrom, quiet.sign before c _ sign, below]

theorem Turns.before_signs (quiet : replacer.Quiet) (turns : replacer.Turns text out)
    (each : ∀ c ∈ signs, isQuiet c = true) : replacer.Turns (text ++ signs) (out ++ signs) := by
  intro before tail fresh stop
  have ends : ∀ c ∈ (signs ++ tail).head?, isQuiet c = true := by
    cases signs with
    | nil => exact stop
    | cons c signs => simpa using each c (.head _)
  rw [append_assoc, turns before _ fresh ends, quiet.turns_quiet each none tail rfl stop,
    append_assoc]

theorem Turns.eq (quiet : replacer.Quiet) (turns : replacer.Turns text out) :
    substitute replacer text = out := by
  have whole := turns none [] rfl (by simp)
  simpa [substitute, substituteFrom, quiet.nil] using whole

end Replacer

/-- Each replacement in turn takes the text further, to the last one given. -/
def TurnsAlong : List Spelling → (text out : Text) → Prop
  | [], text, out => text = out
  | spelling :: spellings, text, out =>
    ∃ turned, spelling.replacer.Turns text turned ∧ TurnsAlong spellings turned out

namespace TurnsAlong

variable {spellings : List Spelling} {text out : Text}

theorem eq (regular : ∀ spelling ∈ spellings, spelling.isRegular = true)
    (turns : TurnsAlong spellings text out) :
    spellings.foldl (fun text spelling => substitute spelling.replacer text) text = out := by
  induction spellings generalizing text with
  | nil => exact turns
  | cons spelling spellings ih =>
    obtain ⟨turned, here, later⟩ := turns
    rw [List.foldl_cons, here.eq (Spelling.quiet (regular _ (.head _)))]
    exact ih (fun other member => regular other (.tail _ member)) later

theorem enclosed (regular : ∀ spelling ∈ spellings, spelling.isRegular = true) {opens closers : Text}
    (turns : TurnsAlong spellings text out) (before : ∀ c ∈ opens, isQuiet c = true)
    (after : ∀ c ∈ closers, isQuiet c = true) :
    TurnsAlong spellings (opens ++ text ++ closers) (opens ++ out ++ closers) := by
  induction spellings generalizing text with
  | nil => rw [show text = out from turns]; rfl
  | cons spelling spellings ih =>
    obtain ⟨turned, here, later⟩ := turns
    have quiet := Spelling.quiet (regular _ (.head _))
    exact ⟨_, (here.after_signs quiet before).before_signs quiet after,
      ih (fun other member => regular other (.tail _ member)) later⟩

theorem of_same (each : ∀ spelling ∈ spellings, spelling.replacer.Turns text text) :
    TurnsAlong spellings text text := by
  induction spellings with
  | nil => rfl
  | cons spelling spellings ih =>
    exact ⟨text, each _ (.head _),
      ih fun other member => each other (.tail _ member)⟩

theorem of_handles (regular : ∀ spelling ∈ spellings, spelling.isRegular = true) {word : Text}
    (along : Spelling.handlesAlong spellings word = true) :
    TurnsAlong spellings word (spellings.foldl (fun word spelling => spelling.turn word) word) := by
  induction spellings generalizing word with
  | nil => rfl
  | cons spelling spellings ih =>
    simp only [Spelling.handlesAlong, Bool.and_eq_true] at along
    exact ⟨_, Spelling.turns (regular _ (.head _)) along.1.2,
      ih (fun other member => regular other (.tail _ member)) along.2⟩

end TurnsAlong

namespace Spelling

/-- What the words that a spelling replaces have become in the end. -/
def results : List Spelling → List Text
  | [] => []
  | spelling :: spellings =>
    (if spelling.isWord then
      [spellings.foldl (fun word spelling => spelling.turn word) spelling.target] else []) ++
      results spellings

/-- What a spelling puts in for a word, the ones after it can handle. -/
def chains : List Spelling → Bool
  | [] => true
  | spelling :: spellings =>
    (!spelling.isWord || handlesAlong spellings spelling.target) && chains spellings

variable {spellings : List Spelling} {word : Text}

theorem turn_word {spelling : Spelling} (regular : spelling.isRegular = true)
    (letters : ∀ c ∈ word, isWordChar c = true) :
    spelling.turn word = word ∨ spelling.isWord = true ∧ spelling.turn word = spelling.target := by
  cases isWord : spelling.isWord with
  | true =>
    rw [turn, if_pos isWord]
    split
    · exact .inr ⟨rfl, rfl⟩
    · exact .inl rfl
  | false =>
    obtain ⟨sign, source, outside, -⟩ := isRegular_sign regular isWord
    left
    rw [turn, if_neg (by simp [isWord]), if_neg]
    rintro rfl
    have inside := letters sign (by simp [source])
    simp [isRunChar, inside] at outside

/-- A word stays, or becomes what stands for a word of the language. -/
theorem foldl_turn_word (regular : ∀ spelling ∈ spellings, spelling.isRegular = true)
    (chained : chains spellings = true) (nonempty : word ≠ [])
    (letters : ∀ c ∈ word, isWordChar c = true) :
    handlesAlong spellings word = true ∧
      spellings.foldl (fun word spelling => spelling.turn word) word ∈ word :: results spellings := by
  induction spellings with
  | nil => simp [handlesAlong]
  | cons spelling spellings ih =>
    simp only [chains, Bool.and_eq_true, Bool.or_eq_true, Bool.not_eq_true'] at chained
    have below := ih (fun other member => regular other (.tail _ member)) chained.2
    have lexeme : isLexeme word = true := by
      simp only [isLexeme, Bool.and_eq_true, List.all_eq_true, Bool.not_eq_true']
      exact ⟨by simpa using nonempty, fun c member => isWordChar_plain (letters c member)⟩
    have handled : spelling.handles word = true := by
      simp only [handles, Bool.and_eq_true, Bool.or_eq_true, List.all_eq_true]
      exact ⟨by simpa using nonempty, .inl letters⟩
    simp only [handlesAlong, lexeme, handled, Bool.and_true, Bool.true_and, List.foldl_cons, results]
    rcases turn_word (regular _ (.head _)) letters with same | ⟨isWord, fired⟩
    · rw [same]
      exact ⟨below.1, by simp only [mem_cons, mem_append] at below ⊢; tauto⟩
    · rw [fired]
      exact ⟨chained.1.resolve_left (by simp [isWord]), by simp [isWord]⟩

end Spelling

/-- A word or a placeholder, with what it becomes in Lua. -/
def Context.Atomic (context : Context) (store : Store) (height : Nat) (atom out : Text) : Prop :=
  (RecordTree.IsWord atom ∧ out = standardLanguage.respell atom) ∨
    ∃ index, atom = write index ∧ context.Stands store height index out ∧ '[' ∉ out

/-- Signs that are no part of an atom, nor of what it is respelled to. -/
def isOuterSign (c : Char) : Bool :=
  ['(', '=', '[', '<', '>'].contains c

theorem isOuterSign_run (run : isRunChar c = true) : isOuterSign c = false := by
  by_contra outer
  have known : ['(', '=', '[', '<', '>'].all (!isRunChar ·) = true := by decide
  simp only [isOuterSign, Bool.not_eq_false, contains_iff_mem] at outer
  have := List.all_eq_true.mp known c outer
  simp [run] at this

theorem isOuterSign_mark (mark : isMark c = true) : isOuterSign c = false := by
  by_contra outer
  have small : ['(', '=', '[', '<', '>'].all (·.toNat < 0xe000) = true := by decide
  simp only [isOuterSign, Bool.not_eq_false, contains_iff_mem] at outer
  have low := List.all_eq_true.mp small c outer
  have high := isMark_range mark
  simp only [decide_eq_true_eq] at low
  omega

theorem isRunChar_ne_opening (run : isRunChar c = true) : c ≠ opening := by
  rintro rfl
  revert run
  decide +kernel

/-- Texts that an atom can be respelled to. -/
theorem results_tidy : (Spelling.results standardLanguage.spellings).all
    (·.all fun c => !isOuterSign c && c ≠ opening) = true := by
  decide

theorem RecordTree.IsWord.run (word : RecordTree.IsWord text) :
    (text ≠ [] ∧ ∀ c ∈ text, isWordChar c = true) ∨ ∃ first rest, text = first ++ rest ∧ IsRun first rest := by
  rcases word with name | ⟨digits, numeral, rfl⟩
  · refine .inl ⟨?_, fun c => identifier?_mem name⟩
    rintro rfl
    simp [identifier?] at name
  · exact .inr (isRun_numeral numeral)

theorem RecordTree.IsWord.chars (word : RecordTree.IsWord text) :
    text ≠ [] ∧ ∀ c ∈ text, isRunChar c = true := by
  rcases word.run with ⟨nonempty, letters⟩ | ⟨first, rest, rfl, run⟩
  · exact ⟨nonempty, fun c member => by simp [isRunChar, letters c member]⟩
  · exact ⟨by simp [run.nonempty], run.chars⟩

/-- What a word is respelled to has none of the signs that are looked for later. -/
theorem RecordTree.IsWord.respelled (word : RecordTree.IsWord text) :
    TurnsAlong standardLanguage.spellings text (standardLanguage.respell text) ∧
      ∀ c ∈ standardLanguage.respell text, isOuterSign c = false ∧ c ≠ opening := by
  have regular := standard_spellings_regular
  rcases word.run with ⟨nonempty, letters⟩ | ⟨first, rest, rfl, run⟩
  · obtain ⟨handled, result⟩ := Spelling.foldl_turn_word regular (by decide) nonempty letters
    have turns := TurnsAlong.of_handles regular handled
    have same := turns.eq regular
    rw [Language.respell, same]
    refine ⟨turns, fun c member => ?_⟩
    rcases mem_cons.mp result with kept | replaced
    · rw [kept] at member
      have run : isRunChar c = true := by simp [isRunChar, letters c member]
      exact ⟨isOuterSign_run run, isRunChar_ne_opening run⟩
    · have tidy := List.all_eq_true.mp results_tidy _ replaced
      simpa using List.all_eq_true.mp tidy c member
  · have turns := TurnsAlong.of_same fun spelling listed =>
      Spelling.copies (regular spelling listed) listed run
    have same := turns.eq regular
    rw [Language.respell, same]
    exact ⟨turns, fun c member =>
      ⟨isOuterSign_run (run.chars c member), isRunChar_ne_opening (run.chars c member)⟩⟩

namespace Context.Atomic

variable {context : Context} {store reached : Store} {height above : Nat} {atom out : Text}

variable (atomic : context.Atomic store height atom out)
include atomic

theorem mono (grown : store.Extends reached)
    (higher : height ≤ above) : context.Atomic reached above atom out := by
  rcases atomic with word | ⟨index, rfl, stands, flat⟩
  · exact .inl word
  · exact .inr ⟨index, rfl, stands.mono grown higher, flat⟩

theorem chars : atom ≠ [] ∧ ∀ c ∈ atom, isRunChar c = true ∨ isMark c = true := by
  rcases atomic with ⟨word, -⟩ | ⟨index, rfl, -⟩
  · exact ⟨word.chars.1, fun c member => .inl (word.chars.2 c member)⟩
  · exact ⟨by simp [write_eq], fun c member => .inr (isMark_of_mem_write c member)⟩

theorem not_mem (run : isRunChar c = false) (mark : isMark c = false) : c ∉ atom := by
  intro member
  rcases atomic.chars.2 c member with here | here
  · simp [here] at run
  · simp [here] at mark

theorem respelled : TurnsAlong standardLanguage.spellings atom (standardLanguage.respell atom) ∧
      (∀ c ∈ standardLanguage.respell atom, isOuterSign c = false) ∧
      Expands (context.Stands store height) (standardLanguage.respell atom) out := by
  have regular := standard_spellings_regular
  rcases atomic with ⟨word, rfl⟩ | ⟨index, rfl, stands, -⟩
  · obtain ⟨turns, tidy⟩ := word.respelled
    exact ⟨turns, fun c member => (tidy c member).1,
      .of_plain fun member => (tidy _ member).2 rfl⟩
  · have quiet : ∀ c ∈ write index, isQuiet c = true := fun c member => by
      simp [isQuiet, isMark_of_mem_write c member]
    have turns := TurnsAlong.of_same fun spelling listed =>
      (Spelling.quiet (regular spelling listed)).turns_quiet quiet
    have same := turns.eq regular
    rw [Language.respell, same]
    exact ⟨turns, fun c member => isOuterSign_mark (isMark_of_mem_write c member), .single stands⟩

theorem flat : '[' ∉ out := by
  rcases atomic with ⟨word, rfl⟩ | ⟨-, -, -, flat⟩
  · intro member
    have := (word.respelled.2 _ member).1
    simp [isOuterSign] at this
  · exact flat

end Context.Atomic

section Idle

variable {text : Text}

theorem equality_idle {comparison : Bool} (plain : '=' ∉ text) :
    substitute (equality comparison) text = text := by
  have inert : ∀ before, ∀ c ∈ text, ∀ rest, equality comparison before (c :: rest) = none := by
    intro before c member rest
    have other : c ≠ '=' := ne_of_mem_of_not_mem member plain
    rw [equality]
    simpa using fun same => absurd same other
  obtain ⟨next, same⟩ := substituteFrom_passes inert none []
  simpa [substitute, substituteFrom, equality] using same

theorem inputCall_idle (plain : '(' ∉ text) : substitute inputCall text = text := by
  have inert (before : Option Char) (rest : Text) (uncalled : '(' ∉ rest) :
      inputCall before rest = none := by
    rw [inputCall_eq]
    split
    · rw [map_eq_none_iff, bind_eq_none_iff]
      intro after dropped
      refine dropEmptyCall?_none fun opens => uncalled ?_
      rw [(dropWord?_eq_some dropped).1]
      exact mem_append_right _
        ((dropWhile_sublist _).subset (mem_of_mem_head? opens))
    · rfl
  have walk (before : Option Char) : substituteFrom inputCall before 0 text = text := by
    induction text generalizing before with
    | nil => simp [substituteFrom, inert before [] (by simp)]
    | cons c rest ih =>
      rw [substituteFrom, inert before _ plain]
      simp only [ih (fun member => plain (.tail _ member))]
  exact walk none

theorem Records.firstLiteral?_none {store : Store} (plain : '<' ∉ text ∨ '>' ∉ text) :
    Records.firstLiteral? store [] text = none := by
  cases found : Records.firstLiteral? store [] text with
  | none => rfl
  | some result =>
    obtain ⟨before, content, after⟩ := result
    obtain ⟨inner, split, -⟩ := Records.firstLiteral?_eq_some found
    rw [reverse_nil, nil_append] at split
    simp [split] at plain

theorem Records.convertLiteralsWithin_idle (records : Records) (plain : '<' ∉ text ∨ '>' ∉ text)
    (rounds : Nat) (desk : Desk) : Gives (records.convertLiteralsWithin rounds text) desk text desk := by
  cases rounds with
  | zero => exact .pure _ _
  | succ rounds =>
    rw [convertLiteralsWithin, Gives, outcome_bind, outcome_get]
    simp only [firstLiteral?_none plain, outcome_pure]

theorem Records.convertConstructors_idle (records : Records) (plain : '(' ∉ text) :
    records.convertConstructors text = pure text := by
  rw [convertConstructors]
  split
  · rfl
  · exact convertCalls_idle (fun _ _ found => (namedCallee_eq_some found).1) plain none

theorem Records.convert_idle (records : Records) (calls : '(' ∉ text) (plain : '<' ∉ text ∨ '>' ∉ text)
    (desk : Desk) : Gives (records.convert text) desk text desk := by
  rw [convert, convertConstructors_idle records calls, pure_bind]
  exact convertLiteralsWithin_idle records plain _ desk

end Idle

namespace Context

variable {context : Context} {text middle : Text} {desk reached : Desk}
variable {opens closers : Nat}

/-- Where no parenthesis is left once records are converted, only spelling is. -/
theorem convertValue_respell (usage : Usage) (converted : Gives (context.records.convert text) desk middle reached)
    (calls : '(' ∉ middle) (respelled : '(' ∉ context.language.respell middle)
    (equals : '=' ∉ context.language.respell middle) :
    Gives (context.convertValue usage text) desk (context.language.respell middle) reached := by
  have inline : context.convertInline middle = pure middle := by
    rw [convertInline]
    split
    · rfl
    · exact convertCalls_idle (fun _ _ found => (namedCallee_eq_some found).1) calls none
  refine converted.bind ?_
  simp only [ListLiteral.convert, ListLiteral.convertFrom_idle calls]
  rw [convertStructures, convertCalls_idle (fun _ _ found => (namedCallee_eq_some found).1) calls none,
    pure_bind, inline, pure_bind, convertBuiltins,
    convertCalls_idle (fun _ _ found => anyCallee_eq_some found) calls none, pure_bind,
    equality_idle equals, inputCall_idle respelled]
  exact .pure _ _

theorem isQuiet_angle {count : Nat} {sign : Char} (angle : sign = '<' ∨ sign = '>')
    (member : c ∈ List.replicate count sign) : isQuiet c = true := by
  obtain rfl := eq_of_mem_replicate member
  rcases angle with rfl | rfl <;> decide

theorem not_mem_angled (absent : c ∉ text) (less : c ≠ '<')
    (greater : c ≠ '>') : c ∉ RecordTree.angled opens closers text := by
  simp [RecordTree.angled, mem_replicate, absent, less, greater]

/-- What is left of a text once its records are converted is an atom, perhaps in brackets that the
conversion has left: then the text becomes what the atom stands for, in these brackets. -/
theorem Atomic.valueWithin (usage : Usage) (standard : context.language = standardLanguage)
    {atom out : Text} {height depth : Nat}
    (converted : Gives (context.records.convert text) desk (RecordTree.angled opens closers atom)
      reached)
    (atomic : context.Atomic reached.store height atom out) (deep : height ≤ depth) :
    ∃ final, Gives (context.valueWithin (depth + 1) usage text) desk
      (RecordTree.angled opens closers out) final ∧ reached.store.Extends final.store := by
  obtain ⟨turns, tidy, expands⟩ := atomic.respelled
  have regular := standard_spellings_regular
  have spelled : context.language.respell (RecordTree.angled opens closers atom) =
      RecordTree.angled opens closers (standardLanguage.respell atom) := by
    rw [standard]
    exact (turns.enclosed regular (fun c => isQuiet_angle (.inl rfl))
      (fun c => isQuiet_angle (.inr rfl))).eq regular
  have absent {c : Char} (outer : isOuterSign c = true) (less : c ≠ '<') (greater : c ≠ '>') :
      c ∉ context.language.respell (RecordTree.angled opens closers atom) := by
    rw [spelled]
    refine not_mem_angled (fun member => ?_) less greater
    simp [tidy c member] at outer
  have rewritten := convertValue_respell usage converted
    (not_mem_angled (atomic.not_mem (by decide) (by decide)) (by decide) (by decide))
    (absent (by decide) (by decide) (by decide)) (absent (by decide) (by decide) (by decide))
  have signs (sign : Char) (count : Nat) (other : sign ≠ opening) :
      Expands (context.Stands reached.store height) (List.replicate count sign)
        (List.replicate count sign) :=
    .of_plain fun member => other (eq_of_mem_replicate member).symm
  have whole := ((signs '<' opens (by decide)).append expands).append (signs '>' closers (by decide))
  obtain ⟨final, run, grown⟩ := Expands.expand whole deep (.refl _)
  refine ⟨final, ?_, grown⟩
  rw [Context.valueWithin]
  refine rewritten.bind ?_
  rw [spelled]
  exact run

/-- An atom with brackets on one side only has a value. -/
theorem Atomic.values (standard : context.language = standardLanguage) {height : Nat}
    {atom out : Text} {store : Store} (oneSided : opens = 0 ∨ closers = 0)
    (atomic : context.Atomic store height atom out) :
    context.Values store (height + 1) (RecordTree.angled opens closers atom)
      (RecordTree.angled opens closers out) where
  gives {depth desk} deep extended := by
    obtain ⟨depth, rfl⟩ := Nat.exists_eq_add_of_le' (show 1 ≤ depth by omega)
    have idle : Gives (context.records.convert (RecordTree.angled opens closers atom)) desk
        (RecordTree.angled opens closers atom) desk := by
      have less := atomic.not_mem (c := '<') (by decide) (by decide)
      have greater := atomic.not_mem (c := '>') (by decide) (by decide)
      refine Records.convert_idle _ (not_mem_angled (atomic.not_mem (by decide) (by decide))
        (by decide) (by decide)) ?_ desk
      rcases oneSided with rfl | rfl
      · exact .inl (by simp [RecordTree.angled, mem_replicate, less])
      · exact .inr (by simp [RecordTree.angled, mem_replicate, greater])
    exact Atomic.valueWithin {} standard idle (atomic.mono extended le_rfl) (by omega)
  legible := by
    have signs (sign : Char) (count : Nat) (ascii : sign.toNat < 128) :
        Legible false (Readable false store 0) (List.replicate count sign) :=
      .of_ascii (List.all_eq_true.mpr fun c member => by simp [eq_of_mem_replicate member, ascii])
    have inner := Expands.legible (fun _ _ holds => holds.legible) atomic.respelled.2.2
    exact ((signs '<' opens (by decide)).append inner).append (signs '>' closers (by decide))

end Context

end Pseudocode
