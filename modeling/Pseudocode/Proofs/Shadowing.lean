import Pseudocode.Proofs.CallPasses
import Pseudocode.Proofs.Position

namespace Pseudocode

open List Option
variable {before : Option Char} {text rest name : Text} {pieces : List CallPiece} {c : Char} {head : CallHead}
  {builtin : Builtin} {context : Context}

/-- A text taken apart into the calls in it and the characters around them. -/
inductive CallPiece where
  | char (c : Char)
  | call (head : CallHead) (arguments : List CallPiece)

/-- The text that follows `before` is made up of these pieces. Every call in it is closed. -/
inductive Composed (callee : Callee) : Option Char → Text → List CallPiece → Prop
  | nil {before : Option Char} : Composed callee before [] []
  | char {before : Option Char} {c : Char} {rest : Text} {pieces : List CallPiece} :
      callAt? callee before (c :: rest) = none → Composed callee (some c) rest pieces →
        Composed callee before (c :: rest) (.char c :: pieces)
  | call {before : Option Char} {c : Char} {rest inside after : Text} {head : CallHead}
      {arguments pieces : List CallPiece} :
      callAt? callee before (c :: rest) = some head →
        splitParen? ((c :: rest).drop head.length) = some (inside, after) →
        Composed callee none inside arguments → Composed callee (some ')') after pieces →
        Composed callee before (c :: rest) (.call head arguments :: pieces)

namespace CallPiece

mutual

/-- A piece with its calls built anew, arguments first. -/
def rebuild (build : CallHead → Text → Text) : CallPiece → Text
  | .char c => [c]
  | .call head arguments => build head (rebuildAll build arguments)

def rebuildAll (build : CallHead → Text → Text) : List CallPiece → Text
  | [] => []
  | piece :: pieces => piece.rebuild build ++ rebuildAll build pieces

end

mutual

/-- The calls of a piece, an outer one before those in its arguments. -/
def heads : CallPiece → List CallHead
  | .char _ => []
  | .call head arguments => head :: headsOf arguments

def headsOf : List CallPiece → List CallHead
  | [] => []
  | piece :: pieces => piece.heads ++ headsOf pieces

end

end CallPiece

/-- A pass over calls builds every call of the text anew. -/
theorem Composed.convertCalls {callee : Callee}
    (composed : Composed callee before text pieces) (onOpen : Text → Notice)
    (build : CallHead → Text → Text) :
    convertCalls callee onOpen (fun head arguments => return build head arguments) before text =
      pure (CallPiece.rebuildAll build pieces) := by
  induction composed with
  | nil => rw [Pseudocode.convertCalls, CallPiece.rebuildAll]
  | char none _ ih => rw [convertCalls_plain none, ih, pure_bind]; rfl
  | call found closed _ _ ihInside ihAfter =>
    rw [convertCalls_call found closed, ihInside, ihAfter]
    simp [CallPiece.rebuildAll, CallPiece.rebuild]

/-- The heads of calls with whether their parentheses are closed. -/
def closedHeads (calls : List (Nat × CallHead × Text)) : List (CallHead × Bool) :=
  calls.map fun call => (call.2.1, (splitParen? call.2.2).isSome)

theorem splitClose?_append {opener closer : Char} {depth : Nat} {inside after : Text}
    (closed : splitClose? opener closer depth text = some (inside, after)) (tail : Text) :
    splitClose? opener closer depth (text ++ tail) = some (inside, after ++ tail) := by
  induction text generalizing depth inside with
  | nil => simp [splitClose?] at closed
  | cons c rest ih =>
    have within (deeper : Nat) (found : (splitClose? opener closer deeper rest).map
        (fun split => (c :: split.1, split.2)) = some (inside, after)) :
        (splitClose? opener closer deeper (rest ++ tail)).map
          (fun split => (c :: split.1, split.2)) = some (inside, after ++ tail) := by
      obtain ⟨⟨inner, outer⟩, here, same⟩ := map_eq_some_iff.mp found
      obtain ⟨rfl, rfl⟩ := Prod.mk.inj same
      rw [ih here, map_some]
    simp only [cons_append, splitClose?] at closed ⊢
    split
    · rename_i opens
      rw [if_pos opens] at closed
      exact within _ closed
    · rename_i opens
      rw [if_neg opens] at closed
      split
      · rename_i closes
        rw [if_pos closes] at closed
        cases depth with
        | zero =>
          obtain ⟨rfl, rfl⟩ := Prod.mk.inj (Option.some.inj closed)
          rfl
        | succ depth => exact within _ closed
      · rename_i closes
        rw [if_neg closes] at closed
        exact within _ closed

section AnyCallee

variable {before : Option Char} {place : Nat} {text tail : Text}

theorem headAt?_append {length : Nat} (bound : length ≤ text.length) (stop : ∀ d ∈ tail.head?, d = ')') :
    headAt? length (text ++ tail) = headAt? length text := by
  have solid : ∀ d ∈ tail.head?, isBlank d = false := fun d first => stop d first ▸ rfl
  have start : trimLeft tail = tail ∧ indentation tail = [] := by
    cases tail with
    | nil => exact ⟨rfl, rfl⟩
    | cons d more => simp [trimLeft, indentation, solid d rfl]
  have apart : trimLeft (text.drop length ++ tail) = trimLeft (text.drop length) ++ tail ∧
      indentation (text.drop length ++ tail) = indentation (text.drop length) := by
    generalize text.drop length = rest
    induction rest with
    | nil => exact start
    | cons d more ih =>
      by_cases blank : isBlank d = true
      · simpa [trimLeft, indentation, blank] using ih
      · simp [trimLeft, indentation, blank]
  unfold headAt?
  simp only [drop_append_of_le_length bound, take_append_of_le_length bound, apart.1, apart.2]
  cases inner : trimLeft (text.drop length) with
  | nil =>
    cases tail with
    | nil => rfl
    | cons d more => simp [stop d rfl]
  | cons d more =>
    by_cases opens : d = '('
    · subst opens
      rfl
    · simp [opens]

/-- What follows a text is of no account for a call in it, if it starts with a closing parenthesis. -/
theorem anyCallee_append (stop : ∀ d ∈ tail.head?, d = ')') :
    anyCallee (c :: rest ++ tail) = anyCallee (c :: rest) := by
  cases named : identifier? (c :: rest) with
  | none =>
    have start : startsIdentifier c = false := by simpa [identifier?] using named
    simp [anyCallee, identifier?, start]
  | some found =>
    obtain ⟨name, after⟩ := found
    obtain ⟨whole, identifier⟩ := identifier?_eq_some named
    have ends : atWordEnd (after ++ tail) = true := by
      cases after with
      | nil =>
        cases tail with
        | nil => rfl
        | cons d more => simp [atWordEnd, stop d rfl, (by decide : isWordChar ')' = false)]
      | cons d more =>
        simp only [identifier?, ite_none_right_eq_some] at named
        have last := head?_dropWhile_not isWordChar rest
        rw [(Prod.mk.inj (Option.some.inj named.2)).2] at last
        simpa [atWordEnd] using last
    rw [whole, append_assoc, anyCallee, anyCallee, identifier?_append identifier ends, ← whole, named,
      bind_some, bind_some, ← append_assoc, ← whole]
    exact headAt?_append (by rw [whole, length_append]; omega) stop

theorem closedHeads_before (place other : Nat) {next : Option Char}
    (alike : atNameStart before = atNameStart next) (text : Text) :
    closedHeads (callsFrom anyCallee before place text) = closedHeads (callsFrom anyCallee next other text) := by
  induction text generalizing before next place other with
  | nil => rfl
  | cons c rest ih =>
    have same : callAt? anyCallee before (c :: rest) = callAt? anyCallee next (c :: rest) := by
      rw [callAt?, callAt?, alike]
    rw [callsFrom, callsFrom, same]
    split
    · exact congrArg (_ :: ·) (ih _ _ rfl)
    · exact ih _ _ rfl

/-- No call starts inside a name, at a blank or at a parenthesis. -/
theorem closedHeads_skip (none : callAt? anyCallee before (c :: text) = none) :
    closedHeads (callsFrom anyCallee before place (c :: text)) =
      closedHeads (callsFrom anyCallee (some c) 0 text) := by
  rw [callsFrom, none]
  exact closedHeads_before _ _ rfl _

theorem closedHeads_quiet (plain : startsIdentifier c = false) :
    closedHeads (callsFrom anyCallee before place (c :: text)) =
      closedHeads (callsFrom anyCallee (some c) 0 text) := by
  refine closedHeads_skip ?_
  simp [callAt?, anyCallee, identifier?, plain]

/-- No call starts inside a name. -/
theorem closedHeads_name {name : Text} (letters : ∀ c ∈ name, isWordChar c = true) {c : Char}
    (letter : isWordChar c = true) (text : Text) : ∃ d, isWordChar d = true ∧
      closedHeads (callsFrom anyCallee (some c) place (name ++ text)) =
        closedHeads (callsFrom anyCallee (some d) 0 text) := by
  induction name generalizing c place with
  | nil => exact ⟨c, letter, closedHeads_before _ _ rfl _⟩
  | cons d name ih =>
    obtain ⟨here, letters⟩ := forall_mem_cons.mp letters
    obtain ⟨last, isLetter, same⟩ := @ih 0 letters d here
    refine ⟨last, isLetter, ?_⟩
    rw [cons_append, closedHeads_skip, same]
    simp [callAt?, atNameStart, atWordStart, letter]

/-- After the blanks and the parenthesis of a call the arguments start anew. -/
theorem closedHeads_gap {gap : Text} (blank : ∀ c ∈ gap, isBlank c = true) (before : Option Char) (text : Text) :
    closedHeads (callsFrom anyCallee before place (gap ++ '(' :: text)) =
      closedHeads (callsFrom anyCallee none 0 text) := by
  induction gap generalizing before place with
  | nil =>
    rw [nil_append, closedHeads_quiet (by decide)]
    exact closedHeads_before _ _ (by decide) _
  | cons c gap ih =>
    obtain ⟨here, blank⟩ := forall_mem_cons.mp blank
    rw [cons_append, closedHeads_quiet (by simp [startsIdentifier, isBlank_not_wordChar here])]
    exact ih blank _

/-- A call at the start of a text: its name, blanks, and what follows the parenthesis. -/
structure Opens (c : Char) (rest : Text) (head : CallHead) (name opened : Text) : Prop where
  letter : isWordChar c = true
  letters : ∀ d ∈ name, isWordChar d = true
  blank : ∀ d ∈ head.gap, isBlank d = true
  written : rest = name ++ (head.gap ++ '(' :: opened)
  dropped : ∀ tail, (c :: rest ++ tail).drop head.length = opened ++ tail

theorem anyCallee_opens (found : anyCallee (c :: rest) = some head) :
    ∃ name opened, Opens c rest head name opened := by
  obtain ⟨opened, split⟩ := Callee.anyCallee_sound.split found
  obtain ⟨⟨after, named⟩, -⟩ := anyCallee_name found
  have letters : ∀ d ∈ head.name, isWordChar d = true := fun d =>
    identifier?_mem (identifier?_eq_some named).2
  obtain ⟨first, name, shape⟩ := exists_cons_of_ne_nil (Callee.anyCallee_sound.name found).1
  have spelled := split
  rw [shape, cons_append] at spelled
  obtain ⟨rfl, written⟩ := List.cons.inj spelled
  rw [shape] at letters
  obtain ⟨letter, letters⟩ := forall_mem_cons.mp letters
  refine ⟨name, opened, letter, letters, Callee.anyCallee_sound.gap found, written, fun tail => ?_⟩
  have whole : c :: rest ++ tail = (head.name ++ head.gap ++ ['(']) ++ (opened ++ tail) := by
    rw [split]
    simp
  rw [whole]
  exact drop_left' (by simp [CallHead.length, Nat.add_assoc])

/-- The calls that are found from left to right are those of the pieces, and all are closed. -/
theorem Composed.closedHeads {pieces : List CallPiece} (composed : Composed anyCallee before text pieces)
    (place : Nat) (stop : ∀ d ∈ tail.head?, d = ')') :
    closedHeads (callsFrom anyCallee before place (text ++ tail)) =
      (CallPiece.headsOf pieces).map (·, true) ++ Pseudocode.closedHeads (callsFrom anyCallee none 0 tail) := by
  induction composed generalizing place tail with
  | @nil before =>
    cases tail with
    | nil => rfl
    | cons d more =>
      obtain rfl := stop d rfl
      rw [nil_append, closedHeads_quiet (by decide), closedHeads_quiet (by decide)]
      rfl
  | @char before c rest pieces none _ ih =>
    rw [cons_append, closedHeads_skip, ih 0 stop]
    · rfl
    · rw [callAt?, ← cons_append, anyCallee_append stop]
      exact none
  | @call before c rest inside after head arguments pieces found closed _ _ ihInside ihAfter =>
    have again : callAt? anyCallee before (c :: (rest ++ tail)) = some head := by
      rw [callAt?, ← cons_append, anyCallee_append stop]
      exact found
    simp only [callAt?, ite_none_right_eq_some] at found
    obtain ⟨name, opened, opens⟩ := anyCallee_opens found.2
    have dropped : (c :: rest).drop head.length = opened := by simpa using opens.dropped []
    rw [dropped] at closed
    have written : rest ++ tail = name ++ (head.gap ++ '(' :: (inside ++ ')' :: (after ++ tail))) := by
      rw [opens.written, splitParen?_eq_some closed]
      simp
    have first : Pseudocode.closedHeads (callsFrom anyCallee before place (c :: (rest ++ tail))) =
        (head, true) :: Pseudocode.closedHeads (callsFrom anyCallee (some c) (place + 1) (rest ++ tail)) := by
      have shut : splitParen? (opened ++ tail) = some (inside, after ++ tail) := splitClose?_append closed tail
      rw [callsFrom, again]
      simp only [Pseudocode.closedHeads, map_cons, ← cons_append, opens.dropped, shut, isSome_some]
    obtain ⟨last, -, skipped⟩ := closedHeads_name opens.letters opens.letter
      (head.gap ++ '(' :: (inside ++ ')' :: (after ++ tail)))
    rw [cons_append, first, written, skipped, closedHeads_gap opens.blank, ihInside 0 (by simp),
      closedHeads_quiet (by decide), ihAfter 0 stop]
    simp [CallPiece.headsOf, CallPiece.heads]

end AnyCallee

/-- The diagnostic is on the number of arguments of a call. -/
def Diagnostic.isArity (diagnostic : Diagnostic) : Bool :=
  match diagnostic.finding with
  | .wrongArity .. => true
  | _ => false

theorem Composed.closedHeads_eq (composed : Composed anyCallee none text pieces) :
    Pseudocode.closedHeads (callsFrom anyCallee none 0 text) = (CallPiece.headsOf pieces).map (·, true) := by
  have whole := @Composed.closedHeads none text [] pieces composed 0 (by simp)
  simpa [Pseudocode.closedHeads, callsFrom] using whole

/-- The name is that of a built-in. -/
def Language.hasBuiltin (language : Language) (name : Text) : Bool :=
  (language.builtin? name).isSome

namespace Checker

/-- What is known of a source before its lines are checked. -/
def ofSource (language : Language) (source : Text) : Checker where
  language
  functions := (Signatures.collect source).names
  records := (Records.collect language source).names

theorem check_ofSource (language : Language) (source : Text) :
    (check language source).result = (ofSource language source).diagnostics source :=
  rfl

/-- Calls of the name are held against the table of built-ins. -/
def checks (checker : Checker) (name : Text) : Bool :=
  checker.language.hasBuiltin name && !checker.functions.contains name

/-- What the table of built-ins says on a call. -/
def arityError? (checker : Checker) (line : Nat) (code : Text) : Nat × CallHead × Text → Option Diagnostic
  | (column, head, rest) => do
    let builtin ← checker.language.builtin? head.name
    let (content, _) ← splitParen? rest
    let inside := column + head.length
    let given := (splitArguments ((code.drop inside).take content.length)).length
    if given = builtin.arity then none
    else some { line, column, endColumn := inside + content.length + 1,
                finding := .wrongArity head.name builtin.arity given }

theorem arityError?_isArity {checker : Checker} {line : Nat} {code : Text} {call : Nat × CallHead × Text}
    {diagnostic : Diagnostic} (found : checker.arityError? line code call = some diagnostic) :
    diagnostic.isArity = true := by
  obtain ⟨column, head, rest⟩ := call
  obtain ⟨builtin, -, found⟩ := bind_eq_some_iff.mp found
  obtain ⟨⟨content, after⟩, -, found⟩ := bind_eq_some_iff.mp found
  simp only [ite_none_left_eq_some] at found
  obtain rfl := Option.some.inj found.2
  rfl

theorem callDiagnostics_closed (checker : Checker) (line : Nat) (code : Text)
    {calls : List (Nat × CallHead × Text)} (closed : ∀ call ∈ calls, (splitParen? call.2.2).isSome) :
    checker.callDiagnostics line code calls =
      (calls.filter fun call => checker.checks call.2.1.name).filterMap (checker.arityError? line code) := by
  induction calls with
  | nil => rfl
  | cons call others ih =>
    obtain ⟨column, head, rest⟩ := call
    obtain ⟨here, later⟩ := forall_mem_cons.mp closed
    obtain ⟨⟨content, after⟩, shut⟩ := isSome_iff_exists.mp here
    simp only at shut
    have judged : checker.arityError? line code (column, head, rest) =
        (checker.language.builtin? head.name).bind fun builtin =>
          let inside := column + head.length
          let given := (splitArguments ((code.drop inside).take content.length)).length
          if given = builtin.arity then none
          else some { line, column, endColumn := inside + content.length + 1,
                      finding := .wrongArity head.name builtin.arity given } := by
      simp [arityError?, shut]
    rw [callDiagnostics, ih later]
    simp only [shut]
    cases named : checker.language.builtin? head.name with
    | none => rw [filter_cons_of_neg (by simp [checks, Language.hasBuiltin, named])]
    | some builtin =>
      by_cases own : head.name ∈ checker.functions
      · rw [filter_cons_of_neg (by simp [checks, own])]
        simp [own]
      · rw [filter_cons_of_pos (by simp [checks, Language.hasBuiltin, named, own]),
          filterMap_cons, judged, named]
        by_cases right : (splitArguments ((code.drop (column + head.length)).take content.length)).length =
            builtin.arity
        · simp [right]
        · simp [right, own]

end Checker

namespace Context

/-- Calls of the name become calls of a built-in. -/
def converts (context : Context) (name : Text) : Bool :=
  context.language.hasBuiltin name && !context.declares name

/-- The call of a built-in that is no inline one in Lua. -/
def builtinCall (context : Context) (head : CallHead) (arguments : Text) : Text :=
  match context.language.builtin? head.name with
  | some builtin =>
    if builtin.inline then head.apply arguments else builtin.helper ++ '(' :: arguments ++ [')']
  | none => head.apply arguments

theorem helperCall_eq (context : Context) (head : CallHead) (arguments : Text) :
    context.helperCall head arguments =
      if context.converts head.name then context.builtinCall head arguments else head.apply arguments := by
  unfold helperCall converts builtinCall Language.hasBuiltin
  cases context.language.builtin? head.name with
  | none => simp
  | some builtin => cases builtin.inline <;> cases context.declares head.name <;> simp

theorem outcome_convertBuiltins (context : Context)
    (composed : Composed anyCallee none text pieces) (desk : Desk) :
    outcome (context.convertBuiltins text) desk =
      (.ok (CallPiece.rebuildAll context.helperCall pieces), desk) := by
  rw [convertBuiltins, composed.convertCalls, outcome_pure]

/-- An inline built-in takes its form if the call is one of the built-in and has its arguments. -/
theorem outcome_inlineCall (context : Context)
    (named : context.language.builtin? head.name = some builtin) (arguments : Text) (desk : Desk) :
    outcome (context.inlineCall head arguments) desk =
      if context.converts head.name ∧ (splitArguments arguments).length = builtin.arity then
        outcome (inlineForm builtin (splitArguments arguments)) desk
      else (.ok (head.apply arguments), desk) := by
  unfold inlineCall converts Language.hasBuiltin
  cases own : context.declares head.name with
  | true => simp
  | false =>
    by_cases right : (splitArguments arguments).length = builtin.arity
    · simp [named, right]
    · simp [named, right]

end Context

/-- Small letters that come from one capital in a way of their own. -/
def isIrregular (c : Char) : Bool :=
  c = '\u0307' || c = 'σ' || c = 'ς'

theorem lower_eq_map_smallLetter (regular : ∀ c ∈ lower text, isIrregular c = false) :
    lower text = text.map smallLetter := by
  unfold lower at *
  suffices all : ∀ before, (∀ c ∈ lowerAfter before text, isIrregular c = false) →
      lowerAfter before text = text.map smallLetter from all [] regular
  clear regular
  induction text with
  | nil => exact fun _ _ => rfl
  | cons c rest ih =>
    intro before regular
    rw [lowerAfter] at regular ⊢
    obtain ⟨here, later⟩ := forall_mem_append.mp regular
    have undotted : c ≠ 'İ' := by
      rintro rfl
      exact absurd (here '\u0307' (by simp)) (by decide)
    have other : c ≠ 'Σ' := by
      rintro rfl
      rw [if_neg undotted, if_pos rfl] at here
      have last := here _ (.head _)
      split at last <;> exact absurd last (by decide)
    rw [if_neg undotted, if_neg other, singleton_append, ih _ later, map_cons]

/-- A name that is found in small letters is found in any letter case. -/
theorem map_caseKey_of_lower {word : Text} (same : lower name = lower word)
    (regular : ∀ c ∈ lower word, isIrregular c = false) : name.map caseKey = word.map caseKey := by
  have small : name.map smallLetter = word.map smallLetter := by
    rw [← lower_eq_map_smallLetter (same ▸ regular), same, lower_eq_map_smallLetter regular]
  rw [← forall₂_eq_eq_eq, forall₂_map_left_iff, forall₂_map_right_iff] at small ⊢
  exact small.imp fun c d same => by rw [caseKey, caseKey, same]

theorem inline_regular : (standardLanguage.builtins.filter (·.inline)).all (fun builtin =>
    (lower builtin.name).all (!isIrregular ·)) = true := by
  decide

theorem caseKey_blank (blank : isBlank c = true) : caseKey c = c := by
  have uncased := isBlank_uncased blank
  simp only [isUncased, Bool.and_eq_true, decide_eq_true_eq] at uncased
  exact uncased.1.1.1.1

theorem inlineNames_solid : (standardLanguage.builtins.filter (·.inline)).all (fun builtin =>
    builtin.name.all fun w => !isBlank (caseKey w) && caseKey w ≠ '(') = true := by
  decide

/-- Where a whole name stands, no other length of a name of an inline built-in fits. -/
theorem inline_length {word tail : Text}
    (letters : ∀ d ∈ word, isWordChar d = true) (stop : isBlank c = true ∨ c = '(')
    (listed : name ∈ Context.inlineNames standardLanguage)
    (dropped : dropWord? name (word ++ c :: tail) = some rest)
    (headed : headAt? name.length (word ++ c :: tail) = some head) : name.length = word.length := by
  rcases Nat.lt_trichotomy name.length word.length with shorter | same | longer
  · -- the parenthesis cannot come while the name goes on
    obtain ⟨d, more, cut⟩ := exists_cons_of_ne_nil
      (ne_nil_of_length_pos (by rw [length_drop]; omega : 0 < (word.drop name.length).length))
    have letter : isWordChar d = true := letters d (mem_of_mem_drop (cut ▸ mem_cons_self))
    have solid : isBlank d = false := (isWordChar_plain letter).2
    have other : d ≠ '(' := by
      rintro rfl
      exact absurd letter (by decide)
    rw [headAt?, drop_append_of_le_length shorter.le, cut] at headed
    simp [trimLeft, solid, other] at headed
  · exact same
  · -- the name cannot go on past a blank or a parenthesis
    have keys := (dropWord?_eq_some dropped).2
    have inside : (word ++ c :: tail).take name.length =
        word ++ c :: tail.take (name.length - word.length - 1) := by
      obtain ⟨n, more⟩ := Nat.exists_eq_add_of_lt longer
      rw [more, take_append, take_of_length_le (by omega),
        show word.length + n + 1 - word.length = n + 1 by omega, take_succ_cons, Nat.add_sub_cancel]
    rw [inside, map_append, map_cons] at keys
    have member : caseKey c ∈ name.map caseKey := keys ▸ mem_append_right _ (.head _)
    obtain ⟨w, among, same⟩ := mem_map.mp member
    obtain ⟨builtin, known, inline, rfl⟩ := inlineNames_mem.mp listed
    have plain := all_eq_true.mp (all_eq_true.mp inlineNames_solid builtin
      (mem_filter.mpr ⟨known, inline⟩)) w among
    rw [same] at plain
    rcases stop with blank | rfl
    · simp [caseKey_blank blank, blank] at plain
    · exact absurd plain (by decide)

/-- The call of an inline built-in is found by its name. -/
theorem namedCallee_inline
    (found : anyCallee text = some head) (named : standardLanguage.builtin? head.name = some builtin)
    (inline : builtin.inline = true) :
    namedCallee (Context.inlineNames standardLanguage) text = some head := by
  obtain ⟨listed, same⟩ := Context.builtin?_mem named
  have keys : head.name.map caseKey = builtin.name.map caseKey :=
    map_caseKey_of_lower same.symm fun c inside => by
      have all := all_eq_true.mp inline_regular builtin (mem_filter.mpr ⟨listed, inline⟩)
      simpa using all_eq_true.mp all c inside
  have length : builtin.name.length = head.name.length := by simpa using congrArg List.length keys.symm
  obtain ⟨⟨after, whole⟩, headed⟩ := anyCallee_name found
  have letters : ∀ c ∈ head.name, isWordChar c = true := fun c =>
    identifier?_mem (identifier?_eq_some whole).2
  obtain ⟨opened, split⟩ := Callee.anyCallee_sound.split found
  have known : namedCallee (Context.inlineNames standardLanguage) text ≠ none := by
    rw [namedCallee, ne_eq, findSome?_eq_none_iff]
    intro missed
    have here := missed builtin.name (inlineNames_mem.mpr ⟨builtin, listed, inline, rfl⟩)
    rw [split, dropWord?_append keys, bind_some, length, ← split, headed] at here
    simp at here
  obtain ⟨other, again⟩ := ne_none_iff_exists'.mp known
  have stop : ∃ c tail, (isBlank c = true ∨ c = '(') ∧ text = head.name ++ c :: tail := by
    have blank := Callee.anyCallee_sound.gap found
    cases gap : head.gap with
    | nil => exact ⟨'(', opened, .inr rfl, by rw [split, gap, nil_append]⟩
    | cons c more => exact ⟨c, more ++ '(' :: opened, .inl (blank c (by simp [gap])), by rw [split, gap]; rfl⟩
  obtain ⟨c, tail, stop, cut⟩ := stop
  obtain ⟨name, among, found⟩ := exists_of_findSome?_eq_some again
  obtain ⟨rest, dropped, otherHeaded⟩ := bind_eq_some_iff.mp found
  have asLong := inline_length letters stop among (cut ▸ dropped) (cut ▸ otherHeaded)
  rw [again, ← headed, ← asLong, otherHeaded]

def Scopes.arityErrors (scopes : Scopes) : List Diagnostic :=
  scopes.diagnostics.filter Diagnostic.isArity

theorem Scopes.arityErrors_report (scopes : Scopes) (diagnostics : List Diagnostic) :
    (scopes.report diagnostics).arityErrors = scopes.arityErrors ++ diagnostics.filter Diagnostic.isArity :=
  filter_append ..

namespace Checker

variable (checker : Checker) (line : Nat)

theorem checkWords_arityErrors (masked : Text) (start stop : Nat) (scopes : Scopes) :
    (checker.checkWords line masked start stop scopes).arityErrors = scopes.arityErrors := by
  rw [checkWords, Scopes.arityErrors_report, filter_eq_nil_iff.mpr, append_nil]
  intro diagnostic inside
  obtain ⟨⟨column, name⟩, -, reported⟩ := mem_filterMap.mp inside
  simp only [ite_none_left_eq_some] at reported
  obtain rfl := Option.some.inj reported.2
  simp [Diagnostic.isArity]

theorem checkAssignment_arityErrors (masked : Text) (arrow : Nat) (scopes : Scopes) :
    (checker.checkAssignment line masked arrow scopes).arityErrors = scopes.arityErrors := by
  have value := checker.checkWords_arityErrors line masked (arrow + 1) masked.length scopes
  unfold checkAssignment
  simp only
  split
  · exact value
  · rw [checkWords_arityErrors, Scopes.arityErrors, Scopes.declare_diagnostics]
    exact value

/-- On an assignment or an expression the numbers of arguments are checked call by call. -/
theorem checkLine_arityErrors (code : Text) {scopes : Scopes} (inBody : scopes.inHeader = false)
    (ordinary : Statement.ofLine checker.language (trim (maskFields (maskStrings code))) ∈
      [.assignment, .expression]) :
    (checker.checkLine line code scopes).arityErrors = scopes.arityErrors ++
      (checker.callDiagnostics line code
        (callsFrom anyCallee none 0 (maskFields (maskStrings code)))).filter Diagnostic.isArity := by
  generalize masks : maskFields (maskStrings code) = masked at ordinary
  have entered (opens : Bool) : (if opens then (checker.checkCalls line code masked scopes).push [] false
      else checker.checkCalls line code masked scopes).arityErrors =
      scopes.arityErrors ++ (checker.callDiagnostics line code
        (callsFrom anyCallee none 0 masked)).filter Diagnostic.isArity := by
    rw [← Scopes.arityErrors_report]
    cases opens <;> rfl
  unfold checkLine
  simp only [masks, inBody, Bool.false_eq_true, if_false]
  generalize Statement.ofLine checker.language (trim masked) = statement at ordinary
  rw [mem_pair] at ordinary
  rcases ordinary with rfl | rfl
  · simp only
    split
    · rw [checkAssignment_arityErrors, entered]
    · rw [checkWords_arityErrors, entered]
  · simp only
    split
    · rw [checkAssignment_arityErrors, entered]
    · rw [checkWords_arityErrors, entered]

end Checker

/-- The checker holds every call of the text whose name it checks against the table of built-ins. -/
def Checker.Compares (checker : Checker) (text : Text) : Prop :=
  ∀ line code scopes, maskFields (maskStrings code) = text → scopes.inHeader = false →
    Statement.ofLine checker.language (trim text) ∈ [.assignment, .expression] →
    (checker.checkLine line code scopes).arityErrors = scopes.arityErrors ++
      ((callsFrom anyCallee none 0 text).filter fun call => checker.checks call.2.1.name).filterMap
        (checker.arityError? line code)

/-- Every call of the text whose name is converted becomes one of a built-in: of its helper, or its inline
form where the number of arguments is right. All other calls stay. -/
structure Context.Renames (context : Context) (text : Text) (pieces : List CallPiece) : Prop where
  calls : (callsFrom anyCallee none 0 text).map (·.2.1) = CallPiece.headsOf pieces
  pass : ∀ desk, outcome (context.convertBuiltins text) desk =
    (.ok (CallPiece.rebuildAll context.helperCall pieces), desk)
  helper : ∀ head arguments, context.helperCall head arguments =
    if context.converts head.name then context.builtinCall head arguments else head.apply arguments
  found : ∀ before rest head builtin, callAt? anyCallee before rest = some head →
    context.language.builtin? head.name = some builtin → builtin.inline = true →
      callAt? (namedCallee (inlineNames context.language)) before rest = some head
  inline : ∀ head builtin arguments desk, context.language.builtin? head.name = some builtin →
    outcome (context.inlineCall head arguments) desk =
      if context.converts head.name ∧ (splitArguments arguments).length = builtin.arity then
        outcome (inlineForm builtin (splitArguments arguments)) desk
      else (.ok (head.apply arguments), desk)

theorem Checker.compares (checker : Checker)
    (composed : Composed anyCallee none text pieces) : checker.Compares text := by
  intro line code scopes masks inBody ordinary
  have closed : ∀ call ∈ callsFrom anyCallee none 0 text, (splitParen? call.2.2).isSome := by
    intro call inside
    have listed : (call.2.1, (splitParen? call.2.2).isSome) ∈ closedHeads (callsFrom anyCallee none 0 text) :=
      mem_map_of_mem (f := fun call => (call.2.1, (splitParen? call.2.2).isSome)) inside
    rw [composed.closedHeads_eq] at listed
    obtain ⟨_, -, same⟩ := mem_map.mp listed
    exact ((Prod.mk.inj same).2).symm
  have errors : ∀ diagnostic ∈ ((callsFrom anyCallee none 0 text).filter fun call =>
      checker.checks call.2.1.name).filterMap (checker.arityError? line code), diagnostic.isArity = true := by
    intro diagnostic inside
    obtain ⟨call, -, found⟩ := mem_filterMap.mp inside
    exact arityError?_isArity found
  rw [checkLine_arityErrors checker line code inBody (masks ▸ ordinary), masks,
    checker.callDiagnostics_closed line code closed, filter_eq_self.mpr errors]

theorem Context.renames (standard : context.language = standardLanguage)
    (composed : Composed anyCallee none text pieces) : context.Renames text pieces where
  calls := by
    simpa [closedHeads, Function.comp_def] using congrArg (List.map Prod.fst) composed.closedHeads_eq
  pass := context.outcome_convertBuiltins composed
  helper := context.helperCall_eq
  found before rest head builtin found named inline := by
    simp only [callAt?, ite_none_right_eq_some] at found ⊢
    rw [standard] at named ⊢
    exact ⟨found.1, namedCallee_inline found.2 named inline⟩
  inline head builtin arguments desk named := context.outcome_inlineCall named arguments desk

/-- A function of the source declares its name in every letter case. -/
theorem Context.declares_function (own : name ∈ context.signatures.names) :
    context.declares name = true := by
  rw [declares, Bool.or_eq_true]
  exact .inl (any_eq_true.mpr ⟨name, own, by simp⟩)

theorem checks_eq_converts_iff (language : Language) (layout : Layout) (source name : Text) :
    (Checker.ofSource language source).checks name = (Context.ofSource language layout source).converts name ↔
      (language.hasBuiltin name = true → (Context.ofSource language layout source).declares name = true →
        name ∈ (Signatures.collect source).names) := by
  have own : name ∈ (Signatures.collect source).names →
      (Context.ofSource language layout source).declares name = true := fun listed =>
    Context.declares_function (show name ∈ (Context.ofSource language layout source).signatures.names from listed)
  have listed : (Checker.ofSource language source).functions.contains name = true ↔
      name ∈ (Signatures.collect source).names := contains_iff_mem
  have sameLanguage : (Context.ofSource language layout source).language = language := rfl
  simp only [Checker.checks, Context.converts, sameLanguage]
  rw [show (Checker.ofSource language source).language = language from rfl]
  cases language.hasBuiltin name with
  | false => simp
  | true =>
    by_cases function : name ∈ (Signatures.collect source).names
    · simp only [listed.mpr function, own function, function]
      simp
    · have unlisted : (Checker.ofSource language source).functions.contains name = false :=
        Bool.eq_false_iff.mpr fun contained => function (listed.mp contained)
      simp only [unlisted, function]
      simp

/-- A built-in is one to the checker and to the converter alike exactly if no function or record type of the
source has its name but in the letter case of a function. -/
theorem builtins_agree_iff (layout : Layout) (source : Text) {text : Text} {pieces : List CallPiece}
    (composed : Composed anyCallee none text pieces) :
    (Checker.ofSource standardLanguage source).Compares text ∧
      (Context.ofSource standardLanguage layout source).Renames text pieces ∧
      ((∀ head ∈ CallPiece.headsOf pieces, (Checker.ofSource standardLanguage source).checks head.name =
          (Context.ofSource standardLanguage layout source).converts head.name) ↔
        ∀ head ∈ CallPiece.headsOf pieces, standardLanguage.hasBuiltin head.name = true →
          (Context.ofSource standardLanguage layout source).declares head.name = true →
            head.name ∈ (Signatures.collect source).names) :=
  ⟨Checker.compares _ composed, Context.renames rfl composed,
    forall₂_congr fun head _ => checks_eq_converts_iff standardLanguage layout source head.name⟩

/-- Characters without a parenthesis are pieces of their own. -/
theorem Composed.of_plain (plain : '(' ∉ text) (before : Option Char) :
    Composed anyCallee before text (text.map .char) := by
  induction text generalizing before with
  | nil => exact .nil
  | cons c rest ih =>
    exact .char (callAt?_plain (fun _ _ found => anyCallee_eq_some found) plain before)
      (ih (not_mem_of_not_mem_cons plain) _)

/-- A function with the name of a built-in is called in its own letter case, and a built-in in another. -/
def overloadedSource : Text :=
  "Fonction Longueur(a)\nDébut\nFin\nx ← Longueur(TETE(l))\n".toList

theorem builtins_agree_iff_overloaded :
    Composed anyCallee none "Longueur(TETE(l))".toList
        [.call ⟨"Longueur".toList, []⟩ [.call ⟨"TETE".toList, []⟩ [.char 'l']]] ∧
      ∀ head ∈ CallPiece.headsOf [.call ⟨"Longueur".toList, []⟩ [.call ⟨"TETE".toList, []⟩ [.char 'l']]],
        (Checker.ofSource standardLanguage overloadedSource).checks head.name =
          (Context.ofSource standardLanguage {} overloadedSource).converts head.name := by
  have composed : Composed anyCallee none "Longueur(TETE(l))".toList
      [.call ⟨"Longueur".toList, []⟩ [.call ⟨"TETE".toList, []⟩ [.char 'l']]] :=
    .call (by decide) (show splitParen? "TETE(l))".toList = some ("TETE(l)".toList, []) by decide)
      (.call (by decide) (show splitParen? "l)".toList = some (['l'], []) by decide)
        (.of_plain (by decide) none) .nil) .nil
  exact ⟨composed, (builtins_agree_iff {} overloadedSource composed).2.2.mpr (by decide +kernel)⟩

/-- A record type takes the name of a built-in from the converter, but not from the checker. -/
def recordSource : Text :=
  "longueur = <a : entier, b : entier>\nx ← longueur(1, 2)\n".toList

theorem builtins_disagree_record :
    { line := 1, column := 4, endColumn := 18, finding := .wrongArity "longueur".toList 1 2 } ∈
        (check standardLanguage recordSource).result ∧
      (Context.ofSource standardLanguage {} recordSource).converts "longueur".toList = false := by
  decide +kernel

end Pseudocode
