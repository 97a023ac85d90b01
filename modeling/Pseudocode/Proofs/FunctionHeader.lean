import Pseudocode.Proofs.Declared
import Pseudocode.Proofs.FirstWord
import Pseudocode.Proofs.Resplitting

namespace Pseudocode

open List Option

/-- A parameter as the header of a function declares it. -/
structure WrittenParameter where
  inOut : Bool
  name : Text
  type : Text
  deriving DecidableEq, Repr

/-- The header of a function, with its return type if it has one. -/
structure WrittenHeader where
  name : Text
  parameters : List WrittenParameter
  result : Option Text
  deriving DecidableEq, Repr

namespace WrittenParameter

/-- What stands before the colon. -/
def named (parameter : WrittenParameter) : Text :=
  (if parameter.inOut then "InOut ".toList else []) ++ parameter.name

def text (parameter : WrittenParameter) : Text :=
  parameter.named ++ " : ".toList ++ parameter.type

def meant (parameter : WrittenParameter) : Parameter where
  name := parameter.name
  inOut := parameter.inOut

/-- The name is an identifier and not the modifier. The type has no quotes, its brackets are closed,
and commas stand only inside them. -/
structure Proper (parameter : WrittenParameter) : Prop where
  name : identifier? parameter.name = some (parameter.name, [])
  other : parameter.name.map caseKey ≠ "inout".toList.map caseKey
  type : Balanced false parameter.type
  line : '\n' ∉ parameter.type

end WrittenParameter

namespace WrittenHeader

/-- What stands between the parentheses. -/
def list (header : WrittenHeader) : Text :=
  commaSeparated (header.parameters.map (·.text))

/-- What stands after the parentheses. -/
def ending (header : WrittenHeader) : Text :=
  match header.result with
  | none => []
  | some type => " : ".toList ++ type

def text (header : WrittenHeader) : Text :=
  "Fonction ".toList ++ header.name ++ '(' :: (header.list ++ ')' :: header.ending)

/-- The return type is any text on the line that is not blank. -/
structure Proper (header : WrittenHeader) : Prop where
  name : identifier? header.name = some (header.name, [])
  parameters : ∀ parameter ∈ header.parameters, parameter.Proper
  result : ∀ type ∈ header.result, trim type ≠ [] ∧ '\n' ∉ type

end WrittenHeader

theorem cutUnbalanced_opener (depth : Nat) (rest : Text) :
    cutUnbalanced depth ('(' :: rest) = '(' :: cutUnbalanced (depth + 1) rest := by
  cases depth <;> simp [cutUnbalanced]

theorem cutUnbalanced_other {c : Char} (opener : c ≠ '(') (closer : c ≠ ')') (depth : Nat) (rest : Text) :
    cutUnbalanced depth (c :: rest) = c :: cutUnbalanced depth rest := by
  cases depth <;> simp [cutUnbalanced, opener, closer]

/-- The text up to a closing parenthesis is cut no earlier, whether or not that parenthesis
follows. -/
theorem cutUnbalanced_inside {depth : Nat} {text inside after tail : Text}
    (closed : splitClose? '(' ')' depth text = some (inside, after))
    (ends : ∀ c ∈ tail.head?, c = ')') : cutUnbalanced depth (inside ++ tail) = inside := by
  induction text generalizing depth inside with
  | nil => simp [splitClose?] at closed
  | cons c rest ih =>
    by_cases opener : c = '('
    · subst opener
      rw [splitClose?_opener] at closed
      obtain ⟨⟨inner, later⟩, found, same⟩ := map_eq_some_iff.mp closed
      obtain ⟨rfl, rfl⟩ := Prod.mk.inj same
      rw [cons_append, cutUnbalanced_opener, ih found]
    · by_cases closer : c = ')'
      · subst closer
        cases depth with
        | zero =>
          rw [splitClose?, if_neg (by decide), if_pos rfl] at closed
          obtain ⟨rfl, -⟩ := Prod.mk.inj (Option.some.inj closed)
          cases tail with
          | nil => rfl
          | cons d tail =>
            obtain rfl := ends d rfl
            rw [nil_append, cutUnbalanced, if_neg (by decide), if_pos rfl]
        | succ depth =>
          rw [splitClose?_closer (by decide)] at closed
          obtain ⟨⟨inner, later⟩, found, same⟩ := map_eq_some_iff.mp closed
          obtain ⟨rfl, rfl⟩ := Prod.mk.inj same
          rw [cons_append, cutUnbalanced, if_neg (by decide), if_pos rfl, ih found]
      · rw [splitClose?_other opener closer] at closed
        obtain ⟨⟨inner, later⟩, found, same⟩ := map_eq_some_iff.mp closed
        obtain ⟨rfl, rfl⟩ := Prod.mk.inj same
        rw [cons_append, cutUnbalanced_other opener closer, ih found]

namespace Signature

variable {line name inside matched after : Text}

/-- The last mark of a text is the given one or stands behind it. -/
theorem beforeLast?_append (mark : Char) (before rest : Text) :
    ∃ tail, beforeLast? mark (before ++ mark :: rest) = some (before ++ tail) ∧
      ∀ c ∈ tail.head?, c = mark := by
  have shape : (before ++ mark :: rest).reverse.dropWhile (· ≠ mark) =
      if (rest.reverse.dropWhile (· ≠ mark)).isEmpty then mark :: before.reverse
      else rest.reverse.dropWhile (· ≠ mark) ++ mark :: before.reverse := by
    rw [reverse_append, reverse_cons, append_assoc, dropWhile_append]
    simp
  rw [beforeLast?, shape]
  cases rest.reverse.dropWhile (· ≠ mark) with
  | nil => exact ⟨[], by simp, by simp⟩
  | cons d later => exact ⟨mark :: later.reverse, by simp, by simp⟩

/-- On one line the parameters run to the parenthesis that closes the one before them: it makes no
difference that the last parenthesis of the line is sought first. -/
theorem header?_closed (single : '\n' ∉ line) (opened : openHeader? line = some (name, inside))
    (closed : splitParen? inside = some (matched, after)) : header? line = some (name, matched) := by
  have whole : inside.takeWhile (· ≠ '\n') = inside := by
    rw [takeWhile_eq_self_iff]
    intro c member
    have onLine := (openHeader?_isInfix opened).2.subset member
    simpa using ne_of_mem_of_not_mem onLine single
  obtain ⟨tail, captured, ends⟩ := beforeLast?_append ')' matched after
  have read : header? line = some (name, cutUnbalanced 0 (matched ++ tail)) := by
    rw [header?, opened, bind_eq_bind, bind_some]
    simp only
    rw [whole, splitParen?_eq_some closed, captured]
    rfl
  rw [read, cutUnbalanced_inside closed ends]

end Signature

theorem IsPair.unquoted {opener closer : Char} (pair : IsPair opener closer) :
    (opener ≠ '"' ∧ opener ≠ '\'') ∧ closer ≠ '"' ∧ closer ≠ '\'' := by
  cases pair <;> decide

theorem Balanced.after {commas : Bool} {text : Text} (balanced : Balanced commas text) (depth : Int) :
    Standing.after (.code, depth) text = (.code, depth) := by
  induction balanced generalizing depth with
  | nil => rfl
  | plain sign _ ih =>
    simp only [isPlainSign, Bool.and_eq_true, decide_eq_true_eq] at sign
    rw [Standing.after_cons, Standing.next_code sign.1.2 sign.2, sign.1.1.1, add_zero, ih]
  | comma _ ih =>
    rw [Standing.after_cons, Standing.next_code (by decide) (by decide), show bracketStep ',' = 0 from rfl,
      add_zero, ih]
  | group pair _ _ ihInside ih =>
    obtain ⟨opens, closes⟩ := pair.steps
    rw [Standing.after_cons, Standing.next_code pair.unquoted.1.1 pair.unquoted.1.2, opens,
      Standing.after_append, ihInside, Standing.after_cons,
      Standing.next_code pair.unquoted.2.1 pair.unquoted.2.2, closes, add_neg_cancel_right, ih]

theorem Balanced.uncut {text : Text} (balanced : Balanced false text) : Uncut text := by
  have whole := balanced.segments le_rfl (by simp) []
  rwa [append_nil, Pseudocode.segments, foldr_consHead, append_nil] at whole

/-- Balanced texts make up a list. -/
theorem Separable.of_balanced {items : List Text} (some : items ≠ [])
    (each : ∀ item ∈ items, Balanced false item) : Separable items := by
  induction items with
  | nil => exact absurd rfl some
  | cons item items ih =>
    have here := each item (.head _)
    cases items with
    | nil => exact .last here.uncut
    | cons next items =>
      exact .more here.uncut (here.after 0)
        (ih (by simp) fun other member => each other (.tail _ member))

/-- Inside a word the modifier is not found. -/
theorem inOutModifier_inside {c : Char} (letter : isWordChar c = true) (text : Text) :
    Signature.inOutModifier (some c) text = none := by
  simp [Signature.inOutModifier, atWordStart, letter]

theorem substituteFrom_inside {c : Char} {text : Text} (letter : isWordChar c = true)
    (letters : ∀ d ∈ text, isWordChar d = true) :
    substituteFrom Signature.inOutModifier (some c) 0 text = text := by
  induction text generalizing c with
  | nil => rw [substituteFrom, inOutModifier_inside letter]
  | cons d text ih =>
    obtain ⟨next, later⟩ := forall_mem_cons.mp letters
    rw [substituteFrom, inOutModifier_inside letter]
    simp only [ih next later]

theorem occursFrom_inside {c : Char} {text : Text} (letter : isWordChar c = true)
    (letters : ∀ d ∈ text, isWordChar d = true) :
    occursFrom Signature.inOutModifier (some c) text = false := by
  induction text generalizing c with
  | nil => rw [occursFrom, inOutModifier_inside letter, isSome_none]
  | cons d text ih =>
    obtain ⟨next, later⟩ := forall_mem_cons.mp letters
    rw [occursFrom, inOutModifier_inside letter, ih next later]
    rfl

theorem trimRight_solid {c : Char} (solid : isBlank c = false) (before rest : Text) :
    trimRight (before ++ c :: rest) = before ++ c :: trimRight rest := by
  obtain ⟨blanks, split, blank, last⟩ := trimRight_split rest
  have shape : before ++ c :: rest = (before ++ c :: trimRight rest) ++ blanks := by
    rw [append_assoc, cons_append, ← split]
  rw [shape, trimRight_append_blanks blank, trimRight_of_last]
  intro d here
  cases trimmed : trimRight rest with
  | nil =>
    rw [trimmed, getLast?_concat] at here
    obtain rfl := Option.some.inj here
    exact solid
  | cons e more =>
    rw [trimmed, getLast?_append_of_ne_nil _ (by simp), getLast?_cons_cons] at here
    exact last d (by rw [trimmed]; exact here)

namespace WrittenParameter

variable {parameter : WrittenParameter}

variable (proper : parameter.Proper)
include proper

theorem Proper.letters : ∀ c ∈ parameter.name, isWordChar c = true :=
  fun _ => identifier?_mem proper.name

theorem Proper.name_whole : Whole parameter.name := by
  refine .of_plain ?_ (fun c member => (isWordChar_plain (proper.letters c member)).1)
    fun c member => (isWordChar_plain (proper.letters c member)).2
  intro none
  exact absurd proper.name (by simp [none, identifier?])

theorem Proper.named_whole : Whole parameter.named := by
  have modifier : Whole "InOut".toList := isLexeme_whole (by decide)
  unfold named
  split
  · exact modifier.spaced proper.name_whole
  · exact proper.name_whole

theorem Proper.named_mem {c : Char} (member : c ∈ parameter.named) : isWordChar c = true ∨ c = ' ' := by
  have modifier : ("InOut ".toList.all fun c => isWordChar c || c = ' ') = true := by decide
  rcases mem_append.mp member with inside | inside
  · split at inside
    · simpa using all_eq_true.mp modifier c inside
    · simp at inside
  · exact .inl (proper.letters c inside)

theorem Proper.balanced : Balanced false parameter.text := by
  have plain : " : ".toList.all isPlainSign = true := by decide
  exact (proper.named_whole.balanced.append (.of_plain (all_eq_true.mp plain))).append proper.type

/-- Outside a word the modifier is not found in a name either. -/
theorem Proper.modifier_none (before : Option Char) :
    Signature.inOutModifier before parameter.name = none := by
  have starts : StartsWith parameter.name parameter.name [] :=
    ⟨by simp, proper.letters, by simp⟩
  rw [Signature.inOutModifier, starts.dropWholeWord?_other (by decide) proper.other]
  simp

theorem Proper.substitute_name (before : Option Char) :
    substituteFrom Signature.inOutModifier before 0 parameter.name = parameter.name ∧
      occursFrom Signature.inOutModifier before parameter.name = false := by
  have none := proper.modifier_none before
  have letters := proper.letters
  cases shape : parameter.name with
  | nil => exact absurd proper.name (by simp [shape, identifier?])
  | cons c rest =>
    rw [shape] at none letters
    obtain ⟨first, later⟩ := forall_mem_cons.mp letters
    rw [substituteFrom, occursFrom, none, occursFrom_inside first later]
    simp only [substituteFrom_inside first later]
    exact ⟨trivial, rfl⟩

/-- The modifier is read and taken off. -/
theorem Proper.substitute_named : trim (substitute Signature.inOutModifier parameter.named) = parameter.name ∧
      occurs Signature.inOutModifier parameter.named = parameter.inOut := by
  have name := proper.name_whole
  cases marked : parameter.inOut with
  | false =>
    obtain ⟨kept, absent⟩ := proper.substitute_name none
    have shape : parameter.named = parameter.name := by simp [named, marked]
    rw [shape, substitute, occurs, kept]
    exact ⟨name.trim, absent⟩
  | true =>
    have shape : parameter.named = 'I' :: 'n' :: 'O' :: 'u' :: 't' :: ' ' :: parameter.name := by
      simp [named, marked]
    have starts : StartsWith ('I' :: 'n' :: 'O' :: 'u' :: 't' :: ' ' :: parameter.name) "InOut".toList
        (' ' :: parameter.name) :=
      ⟨rfl, all_eq_true.mp (by decide), by simp; decide⟩
    have found : Signature.inOutModifier none
        ('I' :: 'n' :: 'O' :: 'u' :: 't' :: ' ' :: parameter.name) = some (5, []) := by
      rw [Signature.inOutModifier, if_pos (by decide), starts.dropWholeWord?_same (by decide)]
      rfl
    have kept := (proper.substitute_name (some ' ')).1
    have inside := inOutModifier_inside (by decide : isWordChar 't' = true) (' ' :: parameter.name)
    rw [shape]
    constructor
    · rw [substitute, substituteFrom, found]
      simp only [substituteFrom, inside, kept, nil_append]
      exact name.trim
    · rw [occurs, occursFrom, found]
      rfl

/-- What is written is what is read. -/
theorem Proper.parameter? : Signature.parameter? (trim parameter.text) = some parameter.meant := by
  have whole := proper.named_whole
  obtain ⟨taken, modified⟩ := proper.substitute_named
  have trimmed : trim parameter.text =
      (parameter.named ++ [' ']) ++ ':' :: trimRight (' ' :: parameter.type) := by
    have shape : parameter.text = parameter.named ++ (" : ".toList ++ parameter.type) :=
      append_assoc _ _ _
    rw [shape, trim, whole.trimLeft, ← trimRight_solid (by decide)]
    simp
  have solid : ∀ c ∈ parameter.named ++ [' '], c ≠ ':' := by
    rintro c member rfl
    rcases mem_append.mp member with inside | inside
    · rcases proper.named_mem inside with letter | blank
      · exact absurd letter (by decide)
      · exact absurd blank (by decide)
    · simp at inside
  have before : (trim parameter.text).takeWhile (· ≠ ':') = parameter.named ++ [' '] := by
    rw [trimmed, takeWhile_append_of_pos (fun c member => by simpa using solid c member)]
    simp
  have named : trim (parameter.named ++ [' ']) = parameter.named := by
    have left := whole.trimLeft []
    rw [append_nil] at left
    have same := whole.trim
    rw [trim, left] at same
    rw [trim, whole.trimLeft, trimRight_append_blanks (forall_mem_singleton.mpr (by decide)), same]
  simp only [Signature.parameter?, before, named, taken, modified]
  rw [if_neg (by simpa using proper.name_whole.ne_nil)]
  rfl

theorem Proper.not_mem_text : '\n' ∉ parameter.text := by
  intro member
  rw [text, mem_append, mem_append] at member
  rcases member with (inside | inside) | inside
  · rcases proper.named_mem inside with letter | blank
    · exact absurd letter (by decide)
    · exact absurd blank (by decide)
  · exact absurd inside (by decide)
  · exact proper.line inside

theorem Proper.trim_ne_nil : trim parameter.text ≠ [] := by
  rw [text, append_assoc]
  exact proper.named_whole.trim_ne_nil _

end WrittenParameter

namespace WrittenHeader

variable {header : WrittenHeader}

theorem Proper.list_balanced (proper : header.Proper) : Balanced true header.list :=
  .commaSeparated (forall_mem_map.mpr fun parameter member =>
    (proper.parameters parameter member).balanced.loosen)

theorem Proper.closed (proper : header.Proper) (after : Text) :
    splitParen? (header.list ++ ')' :: after) = some (header.list, after) :=
  proper.list_balanced.splitClose?_enclosed .round after

theorem Proper.not_mem_text (proper : header.Proper) : '\n' ∉ header.text := by
  have listed : '\n' ∉ header.list := by
    refine not_mem_commaSeparated (fun text among => ?_) (by decide) (by decide)
    obtain ⟨parameter, member, rfl⟩ := List.mem_map.mp among
    exact (proper.parameters parameter member).not_mem_text
  have annotated : '\n' ∉ header.ending := by
    intro member
    unfold ending at member
    split at member
    · simp at member
    · rename_i type shape
      rcases mem_append.mp member with inside | inside
      · exact absurd inside (by decide)
      · exact (proper.result type shape).2 inside
  intro member
  rcases mem_append.mp member with inside | inside
  · rcases mem_append.mp inside with inside | inside
    · exact absurd inside (by decide)
    · exact absurd (identifier?_mem proper.name inside) (by decide)
  · rcases mem_append.mp (mem_of_ne_of_mem (by decide) inside) with inside | inside
    · exact listed inside
    · exact annotated (mem_of_ne_of_mem (by decide) inside)

theorem text_eq (header : WrittenHeader) : header.text = "Fonction".toList ++
    ' ' :: (header.name ++ '(' :: (header.list ++ ')' :: header.ending)) := by
  have parted : "Fonction ".toList = "Fonction".toList ++ [' '] := by decide
  calc header.text
      = "Fonction ".toList ++ (header.name ++ '(' :: (header.list ++ ')' :: header.ending)) :=
        append_assoc ..
    _ = ("Fonction".toList ++ [' ']) ++ (header.name ++ '(' :: (header.list ++ ')' :: header.ending)) :=
        congrArg (· ++ _) parted
    _ = _ := append_assoc ..

theorem Proper.openHeader? (proper : header.Proper) :
    Signature.openHeader? header.text = some (header.name, header.list ++ ')' :: header.ending) := by
  have opened : identifier? (header.name ++ '(' :: (header.list ++ ')' :: header.ending)) =
      some (header.name, '(' :: (header.list ++ ')' :: header.ending)) :=
    identifier?_append proper.name rfl
  have first : ∀ c ∈ (header.name ++ '(' :: (header.list ++ ')' :: header.ending)).head?,
      isBlank c = false := by
    cases shape : header.name with
    | nil => exact absurd proper.name (by simp [shape, identifier?])
    | cons c rest =>
      have letter := identifier?_mem proper.name (c := c) (by simp [shape])
      simpa using (isWordChar_plain letter).2
  have blank : dropBlanks? (' ' :: (header.name ++ '(' :: (header.list ++ ')' :: header.ending))) =
      some (header.name ++ '(' :: (header.list ++ ')' :: header.ending)) :=
    dropBlanks?_append (cons_ne_nil ' ' []) (forall_mem_singleton.mpr (by decide)) first
  have word : "Fonction".toList.map caseKey = "fonction".toList.map caseKey := by decide
  have left : trimLeft header.text = header.text := by
    have spelled : "Fonction".toList = 'F' :: "onction".toList := by decide
    rw [header.text_eq, spelled]
    exact trimLeft_of_head (by simp; decide)
  rw [Signature.openHeader?, left, header.text_eq, dropWord?_append word]
  simp only [bind_eq_bind, bind_some, blank, opened]
  rfl

theorem Proper.header? (proper : header.Proper) :
    Signature.header? header.text = some (header.name, header.list) :=
  Signature.header?_closed proper.not_mem_text proper.openHeader? (proper.closed _)

theorem Proper.parameters? (proper : header.Proper) :
    Signature.parameters? header.list = header.parameters.map (·.meant) := by
  have kept : cutUnbalanced 0 (header.list ++ []) = header.list :=
    cutUnbalanced_inside (proper.closed []) (by simp)
  rw [append_nil] at kept
  rw [Signature.parameters?, kept, list]
  by_cases empty : header.parameters = []
  · rw [empty]
    rfl
  · have separable : Separable (header.parameters.map (·.text)) :=
      .of_balanced (by simpa using empty) (forall_mem_map.mpr fun parameter member =>
        (proper.parameters parameter member).balanced)
    rw [separable.splitArguments, reread, if_neg, List.map_map, List.filterMap_map]
    · refine List.filterMap_eq_map_iff_forall_eq_some.mpr fun parameter member => ?_
      rw [Function.comp_apply, Function.comp_apply]
      exact (proper.parameters parameter member).parameter?
    · intro last
      obtain ⟨text, among, blank⟩ := List.mem_map.mp (mem_of_getLast? last)
      obtain ⟨parameter, member, rfl⟩ := List.mem_map.mp among
      exact (proper.parameters parameter member).trim_ne_nil blank

theorem Proper.hasReturnType (proper : header.Proper) :
    Signature.hasReturnType header.text = header.result.isSome := by
  rw [Signature.hasReturnType, proper.header?, proper.openHeader?]
  simp only [proper.closed, any_some]
  cases shape : header.result with
  | none =>
    rw [ending, shape]
    rfl
  | some type =>
    obtain ⟨full, single⟩ := proper.result type shape
    have trimmed : trim (' ' :: type) = trim type := rfl
    have line : '\n' ∉ trim type := fun member => single ((trim_sublist type).mem member)
    have read : trimLeft (" : ".toList ++ type) = ':' :: ' ' :: type := rfl
    simp only [ending, shape, Signature.isAnnotation, read, trimmed]
    simp [full, line]

end WrittenHeader

theorem lookup_assign {κ α : Type} [DecidableEq κ] [BEq κ] [LawfulBEq κ] (key other : κ)
    (value : α) (bound : List (κ × α)) :
    (assign key value bound).lookup other = if other = key then some value else bound.lookup other := by
  have differs {first : κ} (same : ¬other = first) : (other == first) = false := beq_false_of_ne same
  induction bound with
  | nil =>
    by_cases same : other = key
    · simp [assign, same]
    · simp [assign, List.lookup, same, differs same]
  | cons pair bound ih =>
    obtain ⟨first, old⟩ := pair
    by_cases same : other = first
    · subst same
      by_cases here : other = key <;> simp [assign, List.lookup, here]
    · by_cases here : first = key
      · subst here
        simp [assign, List.lookup, same, differs same]
      · simp [assign, List.lookup, here, differs same, ih]

/-- The last entry for a key is the one that is found. -/
theorem lookup_foldl_assign {κ α : Type} [DecidableEq κ] [BEq κ] [LawfulBEq κ] (key : α → κ) (other : κ)
    (items : List α)
    (bound : List (κ × α)) :
    (items.foldl (fun bound item => assign (key item) item bound) bound).lookup other =
      (findLast? (fun item => key item = other) items).or (bound.lookup other) := by
  induction items generalizing bound with
  | nil => rfl
  | cons item items ih =>
    rw [foldl_cons, ih, lookup_assign, findLast?, findLast?, reverse_cons, find?_append,
      find?_singleton]
    by_cases same : key item = other
    · subst same
      simp
    · simp [same, Ne.symm same]

/-- Of several functions with one name the last counts. -/
theorem Signatures.get?_collect (source name : Text) :
    (Signatures.collect source).get? name =
      findLast? (fun signature => signature.name = name) ((lines source).filterMap Signature.ofLine?) := by
  have found := lookup_foldl_assign (fun signature : Signature => signature.name) name
    ((lines source).filterMap Signature.ofLine?) []
  rwa [lookup_nil, or_none] at found

theorem Signatures.mem_names_collect {source name : Text} :
    name ∈ (Signatures.collect source).names ↔
      name ∈ ((lines source).filterMap Signature.ofLine?).map (·.name) := by
  have found : name ∈ (Signatures.collect source).names ↔
      (Signatures.collect source).get? name ≠ none := by
    rw [ne_eq, Signatures.get?, lookup_eq_none_iff]
    simp [Signatures.names]
  rw [found, Signatures.get?_collect, findLast?, ne_eq, find?_eq_none]
  simp only [List.mem_reverse, decide_eq_true_eq, not_forall, not_not, List.mem_map, exists_prop]

theorem Signature.ofLine?_margin {margin line : Text} (blank : ∀ c ∈ margin, isBlank c = true) :
    Signature.ofLine? (margin ++ line) = Signature.ofLine? line := by
  have opened : Signature.openHeader? (margin ++ line) = Signature.openHeader? line := by
    rw [Signature.openHeader?, trimLeft, dropWhile_append_of_pos blank]
    rfl
  rw [Signature.ofLine?, Signature.header?, Signature.hasReturnType, Signature.header?, opened]
  rfl

/-- A printed header is read back: its name, the text of its parameters, the names and modifiers of
the parameters in order, and whether it has a return type. On every line the parameters end at the
parenthesis that matches the opening one, though the search for them starts at the last one. -/
theorem Signature.header_roundtrip :
    (∀ header : WrittenHeader, header.Proper →
      Signature.header? header.text = some (header.name, header.list) ∧
      Signature.parameters? header.list = header.parameters.map (·.meant) ∧
      Signature.hasReturnType header.text = header.result.isSome) ∧
    ∀ line name inside matched after : Text, '\n' ∉ line →
      Signature.openHeader? line = some (name, inside) →
      splitParen? inside = some (matched, after) →
        Signature.header? line = some (name, matched) :=
  ⟨fun _ proper => ⟨proper.header?, proper.parameters?, proper.hasReturnType⟩,
    fun _ _ _ _ _ single opened closed => Signature.header?_closed single opened closed⟩

/-- An array type has a comma inside its brackets, and the return type has a parenthesis that
nothing closes. -/
theorem Signature.header_roundtrip_array :
    Signature.parameters? "InOut t : tableau[n, (m)], k : entier".toList =
        [{ name := "t".toList, inOut := true }, { name := "k".toList }] ∧
      Signature.hasReturnType
        "Fonction f(InOut t : tableau[n, (m)], k : entier) : a) ou (b".toList = true ∧
      Signature.header? "fonction  g (a (b)) : (c) d".toList = some ("g".toList, "a (b)".toList) := by
  let array : WrittenParameter :=
    { inOut := true, name := "t".toList, type := "tableau[n, (m)]".toList }
  let count : WrittenParameter :=
    { inOut := false, name := "k".toList, type := "entier".toList }
  let header : WrittenHeader :=
    { name := "f".toList, parameters := [array, count], result := some "a) ou (b".toList }
  have plain {commas : Bool} (text : Text) (signs : text.all isPlainSign = true) : Balanced commas text :=
    .of_plain (all_eq_true.mp signs)
  have dimensions : Balanced true "n, (m)".toList :=
    .plain (by decide) (.comma (.plain (by decide) (.group .round (plain ['m'] (by decide)) .nil)))
  have proper : header.Proper :=
    { name := by decide
      parameters := forall_mem_cons.mpr ⟨
        { name := by decide
          other := by decide
          type := (plain "tableau".toList (by decide)).append (.group .square dimensions .nil)
          line := by decide },
        forall_mem_singleton.mpr
          { name := by decide
            other := by decide
            type := plain _ (by decide)
            line := by decide }⟩
      result := by
        rintro type ⟨⟩
        decide }
  obtain ⟨-, parameters, result⟩ := Signature.header_roundtrip.1 header proper
  exact ⟨parameters, result, Signature.header_roundtrip.2 "fonction  g (a (b)) : (c) d".toList "g".toList
    "a (b)) : (c) d".toList "a (b)".toList " : (c) d".toList (by decide) (by decide) (by decide)⟩

end Pseudocode
