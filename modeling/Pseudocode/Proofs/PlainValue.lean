import Pseudocode.Proofs.ListPass
import Pseudocode.Proofs.RecordValue
import Pseudocode.Proofs.WordPasses

namespace Pseudocode

open List Option Placeholder

/-- The last sign of an operand. A `<` after it compares. -/
def endsOperand (c : Char) : Bool :=
  isWordChar c || c = ')' || c = ']' || c = closing

/-- After `last`, every `<` of the text comes after an operand. -/
def Compares (last : Option Char) (text : Text) : Prop :=
  ∀ first rest, text = first ++ '<' :: rest → ∃ c ∈ lastSolid last first, endsOperand c = true

theorem Compares.of_plain {last : Option Char} {text : Text} (plain : '<' ∉ text) : Compares last text := by
  rintro first rest rfl
  simp at plain

theorem Compares.append {last : Option Char} {text rest : Text} (here : Compares last text)
    (later : Compares (lastSolid last text) rest) : Compares last (text ++ rest) := by
  intro first after split
  rcases append_eq_append_iff.mp split with ⟨more, rfl, tail⟩ | ⟨more, inside, tail⟩
  · obtain ⟨c, member, ends⟩ := later more after tail
    exact ⟨c, by rwa [lastSolid_append], ends⟩
  · cases more with
    | nil =>
      rw [append_nil] at inside
      obtain ⟨c, member, ends⟩ := later [] after (by simpa using tail.symm)
      exact ⟨c, by simpa [inside] using member, ends⟩
    | cons d more =>
      obtain ⟨rfl, -⟩ := List.cons.inj tail
      exact here first more inside

theorem Compares.angle {c : Char} {rest : Text} (ends : endsOperand c = true) (plain : '<' ∉ rest) :
    Compares (some c) ('<' :: rest) := by
  intro first after split
  cases first with
  | nil => exact ⟨c, rfl, ends⟩
  | cons d first =>
    obtain ⟨-, rfl⟩ := List.cons.inj split
    simp at plain

theorem Compares.commaSeparated {texts : List Text} (each : ∀ text ∈ texts, ∀ last, Compares last text)
    (last : Option Char) : Compares last (commaSeparated texts) := by
  induction texts generalizing last with
  | nil => exact .of_plain (by decide)
  | cons text texts ih =>
    have here := each text (.head _)
    cases texts with
    | nil => simpa using here last
    | cons next texts =>
      have comma : '<' ∉ [',', ' '] := by decide
      rw [commaSeparated_cons]
      exact (here last).append ((Compares.of_plain comma).append
        (ih (fun other member => each other (.tail _ member)) _))

theorem lastSolid_none (text : Text) : lastSolid none text = (trimRight text).getLast? := by
  induction text using reverseRecOn with
  | nil => rfl
  | append_singleton text c ih =>
    rw [lastSolid_append, trimRight, dropEndWhile, reverse_append]
    cases blank : isBlank c with
    | true => simpa [lastSolid, blank, trimRight, dropEndWhile] using ih
    | false => simp [lastSolid, blank]

theorem opensLiteral_operand {before : Text} {c : Char} (last : lastSolid none before = some c)
    (ends : endsOperand c = true) : Records.opensLiteral before = false := by
  rw [lastSolid_none] at last
  simp only [endsOperand, isWordChar, Bool.or_eq_true, decide_eq_true_eq, beq_iff_eq] at ends
  simp only [Records.opensLiteral, last, Bool.not_eq_false', Bool.or_eq_true, decide_eq_true_eq]
  tauto

/-- Comparisons open no literals. -/
theorem firstLiteral?_compares {store : Store} {before text : Text}
    (compares : Compares (lastSolid none before.reverse) text) :
    Records.firstLiteral? store before text = none := by
  induction text generalizing before with
  | nil => rfl
  | cons c rest ih =>
    have later : Compares (lastSolid none (c :: before).reverse) rest := by
      intro first after split
      obtain ⟨d, member, ends⟩ := compares (c :: first) after (by rw [split, cons_append])
      refine ⟨d, ?_, ends⟩
      rw [reverse_cons, lastSolid_append]
      exact member
    rw [Records.firstLiteral?, ih later]
    by_cases angle : c = '<'
    · obtain ⟨d, member, ends⟩ := compares [] rest (by rw [angle, nil_append])
      have closed := opensLiteral_operand (mem_def.mp member) ends
      simp [angle, closed]
    · simp [angle]

theorem Records.convertLiterals_compares (records : Records) {text : Text} (compares : Compares none text)
    (desk : Desk) : Gives (records.convertLiterals text) desk text desk := by
  rw [convertLiterals]
  cases text.count '<' with
  | zero => exact .pure _ _
  | succ rounds =>
    have none : firstLiteral? desk.store [] text = none := firstLiteral?_compares compares
    rw [convertLiteralsWithin, Gives, outcome_bind, outcome_get]
    simp only [none, outcome_pure]

theorem dotted_last {parts : List Text} (nonempty : parts ≠ [])
    (each : ∀ part ∈ parts, part ≠ [] ∧ ∀ c ∈ part, isWordChar c = true) :
    ∃ init c, dotted parts = init ++ [c] ∧ isWordChar c = true := by
  induction parts with
  | nil => exact absurd rfl nonempty
  | cons part parts ih =>
    cases parts with
    | nil =>
      obtain ⟨full, letters⟩ := each part (.head _)
      obtain ⟨init, c, rfl⟩ := eq_nil_or_concat' part |>.resolve_left full
      exact ⟨init, c, by simp, letters c (by simp)⟩
    | cons next parts =>
      obtain ⟨init, c, shape, word⟩ := ih (by simp) fun other member =>
        each other (.tail _ member)
      exact ⟨part ++ '.' :: init, c, by rw [dotted_cons, shape]; simp, word⟩

namespace Expression

variable {context : Context} {admits : Nat → Prop} {expression : Expression Nat}

theorem Atom.write_ends {operand : Atom Nat} (proper : operand.Proper admits) (last : Option Char) :
    (∃ c ∈ lastSolid last (operand.write .source Placeholder.write), endsOperand c = true) ∧
      '<' ∉ operand.write .source Placeholder.write := by
  have ofLast {text init : Text} {c : Char} (shape : text = init ++ [c]) (word : isWordChar c = true) :
      ∃ c ∈ lastSolid last text, endsOperand c = true :=
    ⟨c, by rw [shape, lastSolid_concat last init (isWordChar_plain word).2]; rfl,
      by simp [endsOperand, word]⟩
  cases operand with
  | path names =>
    obtain ⟨first, rest, split, run⟩ := isRun_path proper.1 proper.2
    obtain ⟨init, c, shape, word⟩ := dotted_last proper.1 fun name member =>
      (isVariableName_run (proper.2 name member)).1
    refine ⟨ofLast shape word, fun member => ?_⟩
    rw [Atom.write, split] at member
    exact absurd (run.chars _ member) (by decide)
  | numeral digits =>
    obtain ⟨first, rest, split, run⟩ := isRun_numeral proper
    simp only [Atom.Proper, isNumeral, Bool.and_eq_true, List.all_eq_true, Bool.not_eq_true',
      Bool.or_eq_true, decide_eq_true_eq] at proper
    have some : digits ≠ [] := by
      rintro rfl
      simp at proper
    obtain ⟨init, c, shape, word⟩ := dotted_last some fun part member =>
      ⟨List.isEmpty_eq_false_iff.mp (proper.2 part member).1,
        fun c inside => (isDigit_word ((proper.2 part member).2 c inside)).1⟩
    refine ⟨ofLast shape word, fun member => ?_⟩
    rw [Atom.write, split] at member
    exact absurd (run.chars _ member) (by decide)
  | truth value =>
    have letters := List.all_eq_true.mp (List.all_eq_true.mp source_letters (Words.source.truth value)
      (by cases value <;> simp))
    have full := (source_lexeme _ (Words.source.truth_mem value)).1
    obtain ⟨c, member, ends⟩ := lastSolid_word last full fun c member =>
      (isWordChar_plain (letters c member)).2
    refine ⟨⟨c, ends, by simp [endsOperand, letters c member]⟩, fun member => ?_⟩
    exact absurd (letters _ member) (by decide)
  | literal index =>
    refine ⟨⟨closing, ?_, by simp [endsOperand]⟩,
      fun member => isMark_ne (isMark_of_mem_write '<' member) (by decide) rfl⟩
    have shape : Placeholder.write index = (opening :: encode index) ++ [closing] := rfl
    show lastSolid last (Placeholder.write index) = some closing
    rw [shape, lastSolid_concat last _ (by decide)]

theorem masked_ends {grammar : Grammar Nat} (formed : expression.Formed grammar) (last : Option Char) :
    ∃ c ∈ lastSolid last (expression.masked Shape.source .source), endsOperand c = true := by
  induction formed generalizing last with
  | atom proper => exact (Atom.write_ends proper last).1
  | @negation operand _ _ ih =>
    show ∃ c ∈ lastSolid last (Words.source.opening .negation ++ operand.masked Shape.source .source), _
    rw [lastSolid_append]
    exact ih _
  | @binary operator left right _ _ _ _ _ ih =>
    show ∃ c ∈ lastSolid last (left.masked Shape.source .source ++
      (Words.source.opening (.operator operator) ++ right.masked Shape.source .source)), _
    rw [lastSolid_append, lastSolid_append]
    exact ih _
  | @group kind items _ _ _ =>
    have round (text : Text) : ∃ c ∈ lastSolid last (text ++ [')']), endsOperand c = true :=
      ⟨')', lastSolid_concat last text (by decide), by decide⟩
    have square (text : Text) : ∃ c ∈ lastSolid last (text ++ [']']), endsOperand c = true :=
      ⟨']', lastSolid_concat last text (by decide), by decide⟩
    rw [masked_group]
    cases kind with
    | call _ | record _ | list | paren | inline _ _ => exact round _
    | access _ | array => exact square _

theorem Formed.compares (formed : expression.Formed (context.plain admits)) (last : Option Char) :
    Compares last (expression.masked Shape.source .source) := by
  induction formed generalizing last with
  | atom proper => exact .of_plain (Atom.write_ends proper last).2
  | negation _ _ ih => exact (Compares.of_plain (by decide)).append (ih _)
  | @binary operator left right formed _ _ _ ihLeft ihRight =>
    obtain ⟨c, final, ends⟩ := masked_ends formed last
    have opening : Compares (lastSolid last (left.masked Shape.source .source))
        (Words.source.opening (.operator operator)) := by
      rw [mem_def.mp final]
      cases operator with
      | less =>
        have blank : Compares (some c) [' '] := .of_plain (by decide)
        exact blank.append (Compares.angle ends (by decide))
      | _ => exact .of_plain (by decide)
    exact (ihLeft last).append (opening.append (ihRight _))
  | @group kind items allowed _ ih =>
    have inside (last : Option Char) :
        Compares last (commaSeparated (items.map (masked Shape.source .source))) :=
      .commaSeparated (forall_mem_map.mpr ih) last
    have fenced (lead : Text) (letters : ∀ c ∈ lead, isRunChar c = true) (opener closer : Char)
        (begins : opener ≠ '<') (close : closer ≠ '<') : Compares last
          (lead ++ opener :: commaSeparated (items.map (masked Shape.source .source)) ++ [closer]) := by
      have plain : '<' ∉ lead ++ [opener] := by
        rw [mem_append, mem_singleton]
        rintro (member | same)
        · exact absurd (letters _ member) (by decide)
        · exact begins same.symm
      have closing : '<' ∉ [closer] := by simpa using Ne.symm close
      have led : Compares last (lead ++ [opener]) := .of_plain plain
      simpa using led.append ((inside _).append (Compares.of_plain closing))
    have word {name : Text} (lead : isLeadWord name = true) : ∀ c ∈ name, isRunChar c = true :=
      fun c member => by simp [isRunChar, (isLeadWord_iff.mp lead).1.2 c member]
    rw [masked_group]
    cases kind with
    | call name =>
      simp only [Shape.group, itemTexts_masked]
      exact fenced _ (word (Context.isFunctionName_lead allowed.1)) '(' ')' (by decide) (by decide)
    | record name => exact absurd rfl (allowed.2 name)
    | access path =>
      obtain ⟨first, rest, split, run⟩ := isRun_path allowed.1.1.1 allowed.1.1.2
      simp only [Shape.group, itemTexts_masked]
      exact fenced _ (split ▸ run.chars) '[' ']' (by decide) (by decide)
    | array =>
      simp only [Shape.group, itemTexts_masked]
      exact fenced [] (by simp) '[' ']' (by decide) (by decide)
    | list | paren =>
      simp only [Shape.group, itemTexts_masked]
      exact fenced [] (by simp) '(' ')' (by decide) (by decide)
    | inline form name =>
      simp only [Shape.group, itemTexts_masked]
      exact fenced _ (word (form.names_lead name allowed.1.1)) '(' ')' (by decide) (by decide)

end Expression

section Constructors

variable {context : Context} {admits : Nat → Prop} {expression : Expression Nat}

theorem keyword_respelled : ∀ word ∈ Words.source.lexemes,
    word.all isWordChar = true → isRespelled word = true := by
  decide +kernel

theorem isRespelled_caseKey {word other : Text} (same : word.map caseKey = other.map caseKey) :
    isRespelled word = isRespelled other := by
  simp only [isRespelled, same]

/-- Record types have names that are neither keywords nor anything but words. -/
structure Records.IsRegular (records : Records) : Prop extends records.IsNamed where
  kept : ∀ pair ∈ records, isRespelled pair.2.name = false

variable (regular : context.records.IsRegular)

include regular

theorem constructor_keyword {text : Text} {head : CallHead}
    (found : namedCallee (longestFirst (context.records.map (·.2.name))) text = some head) :
    head.name ∉ Words.source.lexemes := by
  intro listed
  obtain ⟨-, name, member, same⟩ := namedCallee_eq_some found
  obtain ⟨pair, among, rfl⟩ := mem_map.mp (mem_mergeSort.mp member)
  rcases (source_lexeme _ listed).2 with letters | signs
  · have respelled := keyword_respelled _ listed letters
    rw [isRespelled_caseKey same, regular.kept pair among] at respelled
    simp at respelled
  · obtain ⟨nonempty, unbroken⟩ := regular.sound.name found
    obtain ⟨c, rest, shape⟩ := exists_cons_of_ne_nil nonempty
    have broken := isOperatorSign_break (List.all_eq_true.mp signs c (by simp [shape]))
    rw [unbroken c (by simp [shape])] at broken
    simp at broken

theorem constructor_wording : Wording context.records.constructorRun .source .source :=
  regular.sound.wording fun found listed => absurd listed (constructor_keyword regular found)

theorem constructor_calls {name : Text} (lead : isLeadWord name = true)
    (other : context.namesRecord name = false) : Calls context.records.constructorRun name name := by
  refine regular.sound.calls_kept lead fun text head found named => ?_
  obtain ⟨-, record, member, same⟩ := namedCallee_eq_some found
  obtain ⟨pair, among, rfl⟩ := mem_map.mp (mem_mergeSort.mp member)
  have differ := any_eq_false.mp other pair among
  simp [← same, named] at differ

/-- Where no record is constructed, nothing is. -/
theorem constructors_rule :
    Rule context admits context.records.constructorRun .source .source Shape.source Shape.source where
  toWording := constructor_wording regular
  call {name} function := by
    obtain ⟨-, -, other, -⟩ := Context.isFunctionName_iff.mp function
    exact constructor_calls regular (Context.isFunctionName_lead function) other
  built listed := absurd listed (by decide)
  inline allowed formed each :=
    (constructor_wording regular).inline_named Words.source_isFit
      (fun _ function => Context.isFunctionName_lead function) ⟨rfl, rfl⟩
      (fun {form _} listed other => constructor_calls regular (form.names_lead _ listed) other) allowed
      formed each

theorem Context.convertRecords_plain (formed : expression.Formed (context.plain admits)) (desk : Desk) :
    Gives (context.records.convert (expression.masked Shape.source .source)) desk
      (expression.masked Shape.source .source) desk := by
  have constructed := (constructors_rule regular).converts Words.source_isFit
    (fun _ function => isFunctionName_lead function) rfl formed
  rw [Records.convert, Records.convertConstructors_eq, constructed, pure_bind]
  exact context.records.convertLiterals_compares (formed.compares none) desk

omit regular in
/-- Once its records are put aside, an expression takes its Lua form but for brackets, with its
parentheses as they are taken. -/
theorem Context.convertValue_masked (standard : context.language = standardLanguage) {usage : Usage}
    (comparison : usage.comparison = true) (formed : expression.Formed (context.plain admits)) {text : Text}
    {desk reached : Desk}
    (converted : Gives (context.records.convert text) desk (expression.masked Shape.source .source) reached) :
    Gives (context.convertValue usage text) desk
      ((expression.settled !usage.afterKeyword).masked (Shape.lua context) .lua) reached := by
  have settled := formed.settled (context.plain_blind admits) !usage.afterKeyword
  refine converted.bind ?_
  simp only [formed.convert_lists, convertStructures_masked settled, pure_bind,
    convertInline_masked standard settled, convertBuiltins_masked standard settled, standard, comparison,
    substitutions_masked (lua_leads standard) rfl settled]
  exact .pure _ _

end Constructors

end Pseudocode
