import Pseudocode.Proofs.ArrayStorage
import Pseudocode.Proofs.Atomic
import Pseudocode.Proofs.FirstWord
import Pseudocode.Proofs.Masking

namespace Pseudocode

open Placeholder

/-- A sign that is spelled alike in Lua, and with which no respelled word starts. -/
def isForeign (c : Char) : Bool :=
  standardLanguage.spellings.all fun spelling =>
    spelling.source.head?.all fun w => caseKey w ≠ caseKey c

/-- Digits, and the signs around them in a list of numbers. -/
def isNumberSign (c : Char) : Bool :=
  c.isDigit || "-[], ".toList.contains c

theorem isNumberSign_ascii {c : Char} (sign : isNumberSign c = true) : c.toNat < 128 := by
  rcases Bool.or_eq_true_iff.mp sign with digit | other
  · simp only [Char.isDigit, Bool.and_eq_true, decide_eq_true_eq, UInt32.le_iff_toNat_le] at digit
    exact lt_of_le_of_lt digit.2 (by decide)
  · have all : "-[], ".toList.all (·.toNat < 128) = true := by decide
    simpa using List.all_eq_true.mp all c (by simpa using other)

theorem isNumberSign_foreign {c : Char} (sign : isNumberSign c = true) : isForeign c = true :=
  of_ascii (P := fun c => isNumberSign c = true → isForeign c = true) (by decide +kernel)
    (isNumberSign_ascii sign) sign

theorem Spelling.replacer_foreign {spelling : Spelling} (listed : spelling ∈ standardLanguage.spellings)
    {c : Char} (foreign : isForeign c = true) (before : Option Char) (rest : Text) :
    spelling.replacer before (c :: rest) = none := by
  have regular := standard_spellings_regular spelling listed
  have other := List.all_eq_true.mp foreign spelling listed
  cases isWord : spelling.isWord with
  | true =>
    obtain ⟨w, word, source⟩ := List.exists_cons_of_ne_nil (isRegular_word regular isWord).1
    have differs : caseKey w ≠ caseKey c := by simpa [source] using other
    simp [replacer_word isWord, wordReplacer, source, dropWord?, differs]
  | false =>
    obtain ⟨sign, source, -, -⟩ := isRegular_sign regular isWord
    have differs : sign ≠ c := by
      rintro rfl
      simp [source] at other
    simp [replacer_sign isWord, literally, source, differs]

/-- A name that is not respelled, with signs after it that are not either. -/
theorem respell_foreign {name signs : Text} (kept : name = [] ∨ IsRun name [])
    (foreign : ∀ c ∈ signs, isForeign c = true)
    (stop : name ≠ [] → ∀ c ∈ signs.head?, isQuiet c = true) :
    standardLanguage.respell (name ++ signs) = name ++ signs := by
  have regular := standard_spellings_regular
  refine (TurnsAlong.of_same fun spelling listed => ?_).eq regular
  have quiet := Spelling.quiet (regular spelling listed)
  have inert : spelling.replacer.Turns signs signs := quiet.turns_inert fun before c member rest =>
    Spelling.replacer_foreign listed (foreign c member) before rest
  rcases kept with rfl | run
  · exact inert
  · intro before tail fresh ends
    have copied := Spelling.copies (regular spelling listed) listed run before (signs ++ tail) fresh
    have passed := inert none tail rfl ends
    rw [List.append_nil] at copied
    rw [List.append_assoc, copied, passed, List.append_assoc]
    cases signs with
    | nil => exact ends
    | cons c signs =>
      intro d member
      obtain rfl : c = d := by simpa using member
      exact stop run.nonempty c rfl

section Plain

variable {text : Text} {desk : Desk}

theorem mask_plain (unquoted : ∀ c ∈ text, c ≠ '"' ∧ c ≠ '\'') (desk : Desk) :
    Gives (Conversion.mask text) desk text desk := by
  have masked := @Masks.code desk.store.held.size _ unquoted desk.store [] rfl
  have done : desk.store.mask text = (desk.store, text) := by
    simpa [Store.mask, Store.maskFrom] using masked
  rw [Conversion.mask, Gives, outcome_modifyGet, done]

theorem Conversion.expand_plain (render : List Entry → Conversion Text) (plain : opening ∉ text) :
    Gives (Conversion.expand render text) desk text desk := by
  have legible : Legible false (Readable false desk.store 0) text :=
    .of_plain fun c member => ⟨ne_of_mem_of_not_mem member plain, by simp⟩
  have limit : desk.store.roundLimit text = desk.store.held.size + text.length + 1 + 1 := rfl
  rw [expand, Gives, outcome_bind, outcome_get]
  simp only [limit, expandWithin]
  refine (expandOnce_literals legible).bind ?_
  rw [if_pos rfl]
  exact .pure _ _

/-- A text in which there is nothing to convert. -/
theorem Context.value_plain {context : Context} (usage : Usage) (calls : '(' ∉ text)
    (angles : '<' ∉ text) (equals : '=' ∉ text) (plain : opening ∉ text)
    (spelled : context.language.respell text = text) :
    Gives (context.value usage text) desk text desk := by
  have converted := @Context.convertValue_respell context _ _ _ _ usage
    (Records.convert_idle context.records calls (.inl angles) desk) calls (by rwa [spelled])
    (by rwa [spelled])
  rw [spelled] at converted
  obtain ⟨depth, limit⟩ : ∃ depth, depthLimit desk.store text = depth + 1 := ⟨_, rfl⟩
  rw [value, Gives, outcome_bind, outcome_get]
  simp only [limit, valueWithin]
  exact converted.bind (Conversion.expand_plain _ plain)

end Plain

theorem integerText_signs (n : Int) :
    integerText n ≠ [] ∧ ∀ c ∈ integerText n, c.isDigit = true ∨ c = '-' := by
  have digits : ∀ c ∈ Nat.toDigits 10 n.natAbs, c.isDigit = true :=
    fun c member => Nat.isDigit_of_mem_toDigits (by decide) (by decide) member
  rw [integerText]
  split
  · refine ⟨List.cons_ne_nil _ _, fun c member => ?_⟩
    rcases List.mem_cons.mp member with rfl | later
    · exact .inr rfl
    · exact .inl (digits c later)
  · exact ⟨Nat.toDigits_ne_nil, fun c member => .inl (digits c member)⟩

theorem isNumberSign_integer {n : Int} {c : Char} (member : c ∈ integerText n) :
    isNumberSign c = true := by
  rcases (integerText_signs n).2 c member with digit | rfl
  · simp [isNumberSign, digit]
  · decide

theorem integerText_whole (n : Int) : Whole (integerText n) := by
  have plain : ∀ c ∈ integerText n, isPlainSign c = true ∧ isBlank c = false := by
    intro c member
    rcases (integerText_signs n).2 c member with digit | rfl
    · exact isWordChar_plain (isDigit_word digit).1
    · decide
  exact .of_plain (integerText_signs n).1 (fun c member => (plain c member).1)
    fun c member => (plain c member).2

namespace Context

variable {context : Context} {desk : Desk}

theorem expression_integer (standard : context.language = standardLanguage) (n : Int) :
    Gives (context.expression {} (integerText n)) desk (integerText n) desk := by
  have absent {c : Char} (other : isNumberSign c = false) : c ∉ integerText n := by
    intro member
    simp [isNumberSign_integer member] at other
  have square : '[' ∉ integerText n := by
    intro member
    rcases (integerText_signs n).2 _ member with digit | dash
    · exact absurd digit (by decide)
    · exact absurd dash (by decide)
  have spelled : context.language.respell (integerText n) = integerText n := by
    have same := respell_foreign (.inl rfl)
      (fun c member => isNumberSign_foreign (isNumberSign_integer (n := n) member))
      (fun some => absurd rfl some)
    rw [standard]
    simpa using same
  have value := @value_plain _ desk _ {} (absent (by decide)) (absent (by decide))
    (absent (by decide)) (absent (by decide)) spelled
  refine value.bind ?_
  rw [finish_plain square (absent (by decide))]
  exact .pure _ _

end Context

namespace Extent

/-- Both ends of a dimension as they stand in the loop over it. -/
def dimension (extent : Extent) : Dimension where
  low := integerText extent.first
  high := extent.lastOffset.text

theorem dimensionBoundsFrom?_signs {signs : Text} (each : ∀ c ∈ signs, c ≠ '.' ∧ isBlank c = false)
    (before rest : Text) :
    dimensionBoundsFrom? before (signs ++ rest) = dimensionBoundsFrom? (signs.reverse ++ before) rest := by
  induction signs generalizing before with
  | nil => rfl
  | cons c signs ih =>
    obtain ⟨point, solid⟩ := each c (.head _)
    have here : trimLeft (c :: (signs ++ rest)) = c :: (signs ++ rest) := by
      rw [trimLeft, List.dropWhile_cons_of_neg (by simp [solid])]
    have later := ih (fun d member => each d (.tail _ member)) (c :: before)
    rw [List.reverse_cons, List.append_assoc, List.singleton_append, ← later, List.cons_append]
    conv_lhs => unfold dimensionBoundsFrom?
    simp only [here]
    split
    · rename_i upper same
      exact absurd (List.cons.inj same).1 point
    · rfl

theorem dimensionBoundsFrom?_dots {before upper : Text} (some : before ≠ []) (full : trimLeft upper ≠ []) :
    dimensionBoundsFrom? before ('.' :: '.' :: upper) = .some (before.reverse, trimLeft upper) := by
  have here : trimLeft ('.' :: '.' :: upper) = '.' :: '.' :: upper :=
    List.dropWhile_cons_of_neg (by decide)
  obtain ⟨c, before, rfl⟩ := List.exists_cons_of_ne_nil some
  unfold dimensionBoundsFrom?
  simp [here, full]

theorem dimensionBounds?_text (extent : Extent) :
    dimensionBounds? extent.text =
      match extent with
      | range low high => some (integerText low, integerText high)
      | size _ => none := by
  have signs (n : Int) : ∀ c ∈ integerText n, c ≠ '.' ∧ isBlank c = false := by
    intro c member
    rcases (integerText_signs n).2 c member with digit | rfl
    · refine ⟨?_, (isWordChar_plain (isDigit_word digit).1).2⟩
      rintro rfl
      exact absurd digit (by decide)
    · decide
  cases extent with
  | range low high =>
    have upper : trimLeft (integerText high) = integerText high := by
      simpa using (integerText_whole high).trimLeft []
    have before := (integerText_signs low).1
    have after := (integerText_signs high).1
    rw [text, dimensionBounds?, dimensionBoundsFrom?_signs (signs low),
      dimensionBoundsFrom?_dots (by simpa using before) (by rwa [upper]), upper]
    simp
  | size count =>
    have passed := dimensionBoundsFrom?_signs (signs count) [] []
    rw [List.append_nil] at passed
    exact passed

theorem text_whole (extent : Extent) : Whole extent.text := by
  cases extent with
  | range low high =>
    have point : isPlainSign '.' = true := by decide
    exact (integerText_whole low).append_balanced (.plain point (.plain point .nil))
      (integerText_whole high)
  | size count => exact integerText_whole count

end Extent

/-- A bracketed index for each loop variable. -/
theorem Dimension.cell_eq (name : Text) (counters : List Text) (depth : Nat) :
    cell (name ++ counters.flatMap fun c => '[' :: c ++ [']']) depth =
      name ++ (counters ++ [counter depth]).flatMap fun c => '[' :: c ++ [']'] := by
  simp [cell]

theorem forLine_pieces {lead counter first low second high third assign shift comma last : Text}
    (opens : first = assign ++ ['(']) (between : second = shift ++ comma ++ ['('])
    (closes : third = shift ++ last) :
    lead ++ counter ++ first ++ low ++ second ++ high ++ third =
      lead ++ counter ++ assign ++ ('(' :: low ++ shift) ++ comma ++ ('(' :: high ++ shift) ++ last := by
  subst opens between closes
  simp

theorem Dimension.forLine_eq (depth : Nat) (extent : Extent) :
    forLine depth extent.dimension = "for ".toList ++ counter depth ++ " = ".toList ++
      (Lua.Offset.up (.number extent.first)).text ++ ", ".toList ++
      (Lua.Offset.up extent.lastOffset).text ++ ", 1 do".toList := by
  exact forLine_pieces (by decide) (by decide) (by decide)

/-- The lines that fill an array are those of the loops over its dimensions. -/
theorem Dimension.fill_extents (indent name : Text) (zero : Option Text) (counters : List Text)
    (extents : List Extent) :
    fill indent zero (name ++ counters.flatMap fun c => '[' :: c ++ [']']) counters.length
        (extents.map Extent.dimension) =
      (Lua.Command.fill name zero counters extents).lines indent counters.length := by
  induction extents generalizing counters with
  | nil => rfl
  | cons extent rest ih =>
    have deeper := ih (counters ++ [counter counters.length])
    rw [List.length_append, List.length_singleton, ← cell_eq] at deeper
    cases rest with
    | nil =>
      cases zero with
      | none => rfl
      | some zero =>
        simp only [List.map_cons, List.map_nil, fill, forLine_eq, cell_eq]
        simp [Lua.Command.fill, Lua.Command.lines, indented, Lua.Content.text]
    | cons next rest =>
      rw [List.map_cons, List.map_cons, fill, ← List.map_cons, deeper, forLine_eq, cell_eq,
        Lua.Command.fill_next]
      simp [Lua.Command.lines, indented, Lua.Content.text]

namespace Context

variable {context : Context}

theorem dimension_extent (standard : context.language = standardLanguage) (extent : Extent) (desk : Desk) :
    ∃ reached, Gives (context.dimension extent.text) desk extent.dimension reached ∧
      reached.store = desk.store := by
  rw [Context.dimension, extent.dimensionBounds?_text]
  cases extent with
  | range low high =>
    exact ⟨desk, (expression_integer standard low).bind
      ((expression_integer standard high).bind (.pure _ _)), rfl⟩
  | size count =>
    have told : Gives (Conversion.notify (.sizeAsDimension (Extent.size count).text)) desk ()
        { desk with notices := desk.notices.push (.sizeAsDimension (Extent.size count).text) } := rfl
    have spoken := @expression_integer context { desk with
      notices := desk.notices.push (.sizeAsDimension (Extent.size count).text) } standard count
    have fromZero : (Extent.size count).dimension =
        { low := ['0'], high := '(' :: integerText count ++ ") - 1".toList } :=
      congrArg (Dimension.mk · _) (show integerText 0 = ['0'] by decide)
    rw [fromZero]
    refine ⟨_, told.bind (spoken.bind (.pure _ _)), ?_⟩
    rfl

theorem dimensions_extents (standard : context.language = standardLanguage) (extents : List Extent)
    (desk : Desk) :
    ∃ reached, Gives ((extents.map Extent.text).mapM context.dimension) desk
      (extents.map Extent.dimension) reached ∧ reached.store = desk.store := by
  induction extents generalizing desk with
  | nil => exact ⟨desk, .pure _ _, rfl⟩
  | cons extent extents ih =>
    obtain ⟨middle, first, kept⟩ := dimension_extent standard extent desk
    obtain ⟨reached, rest, same⟩ := ih middle
    refine ⟨reached, ?_, same.trans kept⟩
    rw [List.map_cons, List.mapM_cons]
    exact first.bind (rest.bind (.pure _ _))

theorem arrayLines_extents (standard : context.language = standardLanguage) (name element : Text)
    (extents : List Extent) (desk : Desk) :
    ∃ reached, Gives (context.arrayLines name element (commaSeparated (extents.map Extent.text))) desk
      ((Lua.Command.declare name (context.language.zeroValue? element) extents).lines
        context.layout.indent 0) reached := by
  have whole : ∀ text ∈ extents.map Extent.text, Whole text := by
    intro text member
    obtain ⟨extent, -, rfl⟩ := List.mem_map.mp member
    exact extent.text_whole
  obtain ⟨reached, run, -⟩ := dimensions_extents standard extents desk
  refine ⟨reached, ?_⟩
  rw [arrayLines, splitArguments_commaSeparated whole]
  refine run.bind ?_
  have filled := Dimension.fill_extents context.layout.indent name
    (context.language.zeroValue? element) [] extents
  rw [List.flatMap_nil, List.append_nil, List.length_nil] at filled
  have first : name ++ " = \x7b\x7d".toList = name ++ [] ++ " = ".toList ++ Lua.Content.newTable.text := by
    rw [List.append_nil, List.append_assoc]
    exact congrArg (name ++ ·) (by decide)
  have lines : (Lua.Command.declare name (context.language.zeroValue? element) extents).lines
      context.layout.indent 0 = (name ++ " = \x7b\x7d".toList) ::
        Dimension.fill context.layout.indent (context.language.zeroValue? element) name 0
          (extents.map Extent.dimension) := by
    rw [filled, first]
    rfl
  rw [lines]
  exact .pure _ _

end Context

/-- The declaration of an array in the pseudo-code. -/
def arrayDeclaration (name element : Text) (extents : List Extent) : Text :=
  name ++ (" ← tableau ".toList ++ (element ++ '[' :: (commaSeparated (extents.map Extent.text) ++ [']'])))

/-- Words that open a part of a program, so that no variable can be declared by a line that starts
with one. -/
def partWords : List String :=
  ["algorithme", "lexique", "début", "debut"]

def isPartWord (name : Text) : Bool :=
  partWords.any fun word => name.map caseKey = word.toList.map caseKey

section Reading

variable {name element : Text} {extents : List Extent}

theorem extents_signs {c : Char} (member : c ∈ commaSeparated (extents.map Extent.text)) :
    isNumberSign c = true ∨ c = '.' := by
  by_contra other
  rw [not_or, Bool.not_eq_true] at other
  obtain ⟨sign, point⟩ := other
  have comma : c ≠ ',' := by rintro rfl; exact absurd sign (by decide)
  have space : c ≠ ' ' := by rintro rfl; exact absurd sign (by decide)
  refine not_mem_commaSeparated (fun text among inside => ?_) comma space member
  obtain ⟨extent, -, rfl⟩ := List.mem_map.mp among
  have absent (n : Int) : c ∉ integerText n := by
    intro here
    simp [isNumberSign_integer here] at sign
  cases extent with
  | range low high =>
    simp only [Extent.text, List.mem_append, List.mem_cons] at inside
    rcases inside with here | here | here | here
    · exact absent low here
    · exact point here
    · exact point here
    · exact absent high here
  | size count => exact absent count inside

theorem closedByLine?_extents (some : extents ≠ []) :
    Statement.closedByLine? (commaSeparated (extents.map Extent.text) ++ [']']) =
      .some (commaSeparated (extents.map Extent.text)) := by
  have full : commaSeparated (extents.map Extent.text) ≠ [] := by
    obtain ⟨extent, extents, rfl⟩ := List.exists_cons_of_ne_nil some
    intro empty
    cases extents with
    | nil => exact extent.text_whole.ne_nil (by simpa using empty)
    | cons next extents =>
      rw [List.map_cons, List.map_cons, commaSeparated_cons] at empty
      simp at empty
  have oneLine : '\n' ∉ commaSeparated (extents.map Extent.text) := by
    intro member
    rcases extents_signs member with sign | point
    · exact absurd sign (by decide)
    · exact absurd point (by decide)
  have trimmed : trimRight (commaSeparated (extents.map Extent.text) ++ [']']) =
      commaSeparated (extents.map Extent.text) ++ [']'] := by
    have solid : isBlank ']' = false := by decide
    simp [trimRight, dropEndWhile, solid]
  simp [Statement.closedByLine?, trimmed, full, oneLine]

theorem arrayDeclaration_startsWith (named : isVariableName name = true) :
    StartsWith (arrayDeclaration name element extents) name
      (" ← tableau ".toList ++ (element ++ '[' :: (commaSeparated (extents.map Extent.text) ++ [']']))) where
  split := rfl
  letters := (isVariableName_run named).1.2
  stop c member := by
    obtain rfl : ' ' = c := by simpa using member
    decide

theorem array?_declaration (named : isVariableName name = true)
    (typed : identifier? element = some (element, [])) (some : extents ≠ []) :
    ∃ place, Statement.array? (arrayDeclaration name element extents) =
      .some (.arrayDeclaration name element (commaSeparated (extents.map Extent.text)) place) := by
  obtain ⟨rest, shape⟩ : ∃ rest, rest = '[' :: (commaSeparated (extents.map Extent.text) ++ [']']) :=
    ⟨_, rfl⟩
  have first := identifier?_append (isVariableName_identifier named).1
    (@arrayDeclaration_startsWith _ element extents named).ends
  have arrow : trimLeft (" ← tableau ".toList ++ (element ++ rest)) =
      '←' :: (" tableau ".toList ++ (element ++ rest)) := by
    rfl
  have keyword : dropWord? "tableau".toList (trimLeft (" tableau ".toList ++ (element ++ rest))) =
      .some (' ' :: (element ++ rest)) := by
    rfl
  have solid : ∀ c ∈ element.head?, isBlank c = false := by
    intro c member
    exact (isWordChar_plain (identifier?_mem typed (List.mem_of_mem_head? member))).2
  have blanks : dropBlanks? (' ' :: (element ++ rest)) = .some (element ++ rest) := by
    cases element with
    | nil => simp [identifier?] at typed
    | cons c tail =>
      have blank : isBlank ' ' = true := by decide
      simp [dropBlanks?, blank, trimLeft, solid c rfl]
  have second : identifier? (element ++ rest) = .some (element, rest) := by
    have square : isWordChar '[' = false := by decide
    exact identifier?_append typed (by simp [shape, atWordEnd, square])
  have bracket : trimLeft rest = rest := by
    rw [shape, trimLeft, List.dropWhile_cons_of_neg (by decide)]
  refine ⟨(arrayDeclaration name element extents).length -
    (commaSeparated (extents.map Extent.text) ++ [']']).length, ?_⟩
  rw [Statement.array?, show identifier? (arrayDeclaration name element extents) = _ from first, ← shape]
  simp only [Option.bind_eq_bind, Option.bind_some, arrow, keyword, blanks, second, bracket]
  simp only [shape, closedByLine?_extents some, Option.map_some]

theorem ofLine_declaration (named : isVariableName name = true) (apart : isPartWord name = false)
    (typed : identifier? element = some (element, [])) (some : extents ≠ []) (language : Language) :
    ∃ place, Statement.ofLine language (arrayDeclaration name element extents) =
      .arrayDeclaration name element (commaSeparated (extents.map Extent.text)) place := by
  have starts := @arrayDeclaration_startsWith _ element extents named
  have first := identifier?_append (isVariableName_identifier named).1 starts.ends
  rw [← starts.split] at first
  have other : ∀ word ∈ partWords, name.map caseKey ≠ word.toList.map caseKey := by
    intro word member
    simpa using List.any_eq_false.mp apart word member
  have algorithm : dropWholeWord? "algorithme" (arrayDeclaration name element extents) = none :=
    starts.dropWholeWord?_other (by decide) (other _ (by decide))
  have lexique : dropWholeWord? "lexique" (arrayDeclaration name element extents) = none :=
    starts.dropWholeWord?_other (by decide) (other _ (by decide))
  have marker : dropAnyWholeWord? ["début", "debut"] (arrayDeclaration name element extents) = none :=
    starts.dropAnyWholeWord?_other (by decide)
      fun word member => other word (List.mem_of_mem_drop (i := 2) member)
  obtain ⟨c, rest, shape⟩ := List.exists_cons_of_ne_nil (isVariableName_run named).1.1
  have letter := starts.letters c (by simp [shape])
  have blank : Statement.isBlankLine (arrayDeclaration name element extents) = false :=
    Statement.isBlankLine_letter (by rw [starts.split, shape]; simp) letter
  have arrow : trimLeft (" ← tableau ".toList ++
      (element ++ '[' :: (commaSeparated (extents.map Extent.text) ++ [']']))) =
      '←' :: (" tableau ".toList ++
        (element ++ '[' :: (commaSeparated (extents.map Extent.text) ++ [']']))) := by
    rfl
  have whole : trim (arrayDeclaration name element extents) = arrayDeclaration name element extents := by
    have left : trimLeft (arrayDeclaration name element extents) =
        arrayDeclaration name element extents := by
      rw [starts.split, shape, List.cons_append, trimLeft,
        List.dropWhile_cons_of_neg (by simp [(isWordChar_plain letter).2])]
    have last : arrayDeclaration name element extents =
        (name ++ (" ← tableau ".toList ++ (element ++ '[' :: commaSeparated (extents.map Extent.text)))) ++
          [']'] := by
      simp only [arrayDeclaration, List.append_assoc, List.cons_append]
    have solid : isBlank ']' = false := by decide
    rw [trim, left, last, trimRight, dropEndWhile, List.reverse_append]
    simp [solid]
  have record : RecordType.ofLine? language (arrayDeclaration name element extents) = none := by
    refine RecordType.ofLine?_none language (by rw [whole]; exact first) fun c member => ?_
    rw [arrow] at member
    obtain rfl : '←' = c := Option.some.inj member
    decide
  have declared : Statement.declaredNames? language (arrayDeclaration name element extents) = none := by
    have sign : (isWordChar '←' || '←' = ',' || isBlank '←') = false := by decide +kernel
    have space : (isWordChar ' ' || ' ' = ',' || isBlank ' ') = true := by decide
    refine Statement.declaredNames?_none language fun colon => ?_
    rw [starts.split, List.dropWhile_append_of_pos fun c member => by simp [starts.letters c member],
      show " ← tableau ".toList = ' ' :: '←' :: " tableau ".toList by decide, List.cons_append,
      List.dropWhile_cons_of_pos (by exact space), List.cons_append,
      List.dropWhile_cons_of_neg (by rw [Bool.not_eq_true]; exact sign), List.head?_cons] at colon
    exact absurd (Option.some.inj colon) (by decide)
  obtain ⟨place, array⟩ := array?_declaration named typed some
  refine ⟨place, ?_⟩
  simp only [Statement.ofLine, blank, algorithm, lexique, marker, record, declared, array,
    Option.isSome_none, Bool.false_eq_true, if_false]

theorem mask_declaration (named : isVariableName name = true)
    (typed : identifier? element = some (element, [])) (desk : Desk) :
    Gives (Conversion.mask (arrayDeclaration name element extents)) desk
      (arrayDeclaration name element extents) desk := by
  have word {c : Char} (letter : isWordChar c = true) : c ≠ '"' ∧ c ≠ '\'' := by
    constructor <;> (rintro rfl; exact absurd letter (by decide))
  have keyword : " ← tableau ".toList.all (fun c => c ≠ '"' ∧ c ≠ '\'') = true := by decide
  refine mask_plain (fun c member => ?_) desk
  simp only [arrayDeclaration, List.mem_append, List.mem_cons] at member
  rcases member with here | here | here | rfl | here | here
  · exact word ((isVariableName_run named).1.2 c here)
  · simpa using List.all_eq_true.mp keyword c here
  · exact word (identifier?_mem typed here)
  · decide
  · rcases extents_signs here with sign | rfl
    · constructor <;> (rintro rfl; exact absurd sign (by decide))
    · decide
  · obtain rfl : c = ']' := by simpa using here
    decide

end Reading

namespace Context

variable {context : Context} {name element : Text} {extents : List Extent}

/-- An access to an array in the pseudo-code. -/
def arrayAccess (name : Text) (indices : List Int) : Text :=
  name ++ '[' :: (commaSeparated (indices.map integerText) ++ [']'])

theorem finish_access (named : isVariableName name = true) {indices : List Int} (some : indices ≠ [])
    (desk : Desk) :
    Gives (finish (arrayAccess name indices)) desk (Lua.Access.shifted name indices).text desk := by
  have whole : ∀ text ∈ indices.map integerText, Whole text := by
    intro text member
    obtain ⟨n, -, rfl⟩ := List.mem_map.mp member
    exact integerText_whole n
  have inner : '[' ∉ commaSeparated (indices.map integerText) := by
    refine not_mem_commaSeparated (fun text member inside => ?_) (by decide) (by decide)
    obtain ⟨n, -, rfl⟩ := List.mem_map.mp member
    rcases (integerText_signs n).2 _ inside with digit | dash
    · exact absurd digit (by decide)
    · exact absurd dash (by decide)
  have outer : ∀ c ∈ name, c ≠ '[' := by
    rintro c member rfl
    exact absurd ((isVariableName_run named).1.2 _ member) (by decide)
  have closed := (Balanced.commaSeparated fun text member =>
    (whole text member).balanced.loosen).splitClose?_enclosed .square []
  have bracketed (n : Int) : Index.bracketed desk.store (integerText n) =
      '[' :: (Lua.Offset.up (.number n)).text ++ [']'] := by
    have plain : isPlaceholder (integerText n) = false := by
      obtain ⟨c, rest, shape⟩ := List.exists_cons_of_ne_nil (integerText_signs n).1
      have other : c ≠ opening := by
        rintro rfl
        have sign := isNumberSign_integer (n := n) (c := opening) (by simp [shape])
        exact absurd sign (by decide)
      rw [isPlaceholder, index?, (integerText_whole n).trim, shape]
      simp [digits?, other]
    rw [Index.bracketed, plain]
    simp [Lua.Offset.text]
  have accessed : Index.access desk.store (commaSeparated (indices.map integerText)) =
      indices.flatMap fun n => '[' :: (Lua.Offset.up (.number n)).text ++ [']'] := by
    rw [Index.access, splitArguments_commaSeparated whole]
    obtain ⟨index, indices, rfl⟩ := List.exists_cons_of_ne_nil some
    simp [List.flatMap_map, bracketed]
  have plain : opening ∉ (Lua.Access.shifted name indices).text := by
    have fixed : opening ∉ ") + 1".toList := by decide
    have offset (n : Int) : opening ∉ (Lua.Offset.up (.number n)).text := by
      rw [Lua.Offset.text, Lua.Offset.text, List.mem_append, List.mem_cons]
      rintro ((round | digits) | shift)
      · exact absurd round (by decide)
      · exact absurd (isNumberSign_integer digits) (by decide)
      · exact fixed shift
    rw [Lua.Access.text, Lua.Access.shifted, List.flatMap_map, List.mem_append, List.mem_flatMap]
    rintro (letter | ⟨n, -, inside⟩)
    · exact isRunChar_ne_opening (by simp [isRunChar, (isVariableName_run named).1.2 _ letter]) rfl
    · rw [List.mem_append, List.mem_cons, List.mem_singleton] at inside
      rcases inside with (square | inside) | square
      · exact absurd square (by decide)
      · exact offset n inside
      · exact absurd square (by decide)
  have position : Index.isPosition name.reverse = true := by
    have apart : Index.Apart [] := by simp [Index.Apart]
    simpa using Index.isPosition_variable named apart
  have grouped : Gives (Index.convertFrom name.reverse
      ('[' :: (commaSeparated (indices.map integerText) ++ [']']))) desk
      (indices.flatMap fun n => '[' :: (Lua.Offset.up (.number n)).text ++ [']']) desk := by
    rw [Index.convertFrom_group closed, Index.convertFrom_plain inner, pure_bind, Gives, outcome_bind,
      outcome_get]
    simp only [Index.group, position, if_true, accessed]
    rw [Index.convertFrom, pure_bind, List.append_nil, outcome_pure]
  have converted : Gives (Index.convert (arrayAccess name indices)) desk
      (Lua.Access.shifted name indices).text desk := by
    rw [Index.convert, arrayAccess, Index.convertFrom_passes outer, List.append_nil]
    refine grouped.bind ?_
    rw [Lua.Access.text, Lua.Access.shifted, List.flatMap_map]
    exact .pure _ _
  refine converted.bind ?_
  rw [Gives, outcome_restore, desk.store.restore_plain plain]

theorem translate_access (standard : context.language = standardLanguage)
    (named : isVariableName name = true) {indices : List Int} (some : indices ≠ []) :
    context.translate {} (arrayAccess name indices) = .ok (Lua.Access.shifted name indices).text := by
  have signs : ∀ c ∈ '[' :: (commaSeparated (indices.map integerText) ++ [']']),
      isNumberSign c = true := by
    intro c member
    rcases List.mem_cons.mp member with rfl | member
    · decide
    · rcases List.mem_append.mp member with inside | last
      · by_contra other
        have comma : c ≠ ',' := by rintro rfl; exact other (by decide)
        have space : c ≠ ' ' := by rintro rfl; exact other (by decide)
        refine not_mem_commaSeparated (fun text among here => ?_) comma space inside
        obtain ⟨n, -, rfl⟩ := List.mem_map.mp among
        exact other (isNumberSign_integer here)
      · obtain rfl : c = ']' := by simpa using last
        decide
  have absent {c : Char} (noLetter : isWordChar c = false) (noSign : isNumberSign c = false) :
      c ∉ arrayAccess name indices := by
    intro member
    rcases List.mem_append.mp member with letter | sign
    · simp [(isVariableName_run named).1.2 c letter] at noLetter
    · simp [signs c sign] at noSign
  have run : IsRun name [] := by
    obtain ⟨⟨full, letters⟩, kept⟩ := isVariableName_run named
    exact ⟨full, letters, kept, by simp, by simp⟩
  have spelled : context.language.respell (arrayAccess name indices) = arrayAccess name indices := by
    rw [standard]
    refine respell_foreign (.inr run) (fun c member => isNumberSign_foreign (signs c member)) ?_
    intro _ c member
    obtain rfl : '[' = c := by simpa using member
    decide
  have masked : Gives (Conversion.mask (arrayAccess name indices)) {} (arrayAccess name indices) {} := by
    have unquoted : ∀ c ∈ arrayAccess name indices, c ≠ '"' ∧ c ≠ '\'' := fun c member =>
      ⟨ne_of_mem_of_not_mem member (absent (by decide) (by decide)),
        ne_of_mem_of_not_mem member (absent (by decide) (by decide))⟩
    exact mask_plain unquoted {}
  have value := @value_plain _ {} context {} (absent (by decide) (by decide))
    (absent (by decide) (by decide)) (absent (by decide) (by decide))
    (absent (by decide +kernel) (by decide)) spelled
  have whole : Gives (Conversion.mask (arrayAccess name indices) >>= context.expression {}) {}
      (Lua.Access.shifted name indices).text {} :=
    masked.bind (value.bind (finish_access named some {}))
  exact congrArg Prod.fst whole

/-- What a declared array is stored as, and how its elements are found. The declaration emits the
lines of nested loops, which end normally. An access reads at its indices moved up by one, and finds
the zero value if and only if the indices were declared; without a zero value the tables of all
dimensions are there, and those of the last one are empty. -/
theorem array_storage (standard : context.language = standardLanguage)
    (named : isVariableName name = true) (apart : isPartWord name = false)
    (own : ∀ depth, name ≠ Dimension.counter depth) (typed : identifier? element = some (element, []))
    (declared : extents ≠ []) {progress : Progress} (outside : progress.inLexique = false) (number : Nat)
    (desk : Desk) (memory : Lua.Memory) :
    let command := Lua.Command.declare name (context.language.zeroValue? element) extents
    ∃ after place reached,
      Gives (context.convertCode number progress (arrayDeclaration name element extents)) desk
        (.arrayDeclaration name element (commaSeparated (extents.map Extent.text)) place,
          some { lines := command.lines context.layout.indent 0, frames := progress.frames }) reached ∧
      command.exec memory = some after ∧
      (∀ indices : List Int, indices ≠ [] → context.translate {} (arrayAccess name indices) =
        .ok (Lua.Access.shifted name indices).text) ∧
      match context.language.zeroValue? element with
      | some zero => ∀ indices : List Int, indices.length = extents.length →
        (Lua.Access.shifted name indices).value? after =
          if Lua.Inside extents indices then some (.constant zero) else none
      | none => ∀ indices : List Int, indices.length < extents.length →
        (Lua.Inside extents indices → ∃ cells,
          (Lua.Access.shifted name indices).value? after = some (.table cells) ∧
            (indices.length + 1 = extents.length → ∀ position, cells position = none)) ∧
        (¬Lua.Inside extents indices → (Lua.Access.shifted name indices).value? after = none) := by
  intro command
  obtain ⟨place, read⟩ := ofLine_declaration named apart typed declared context.language
  have told : Gives (Conversion.notify (.lineRead number LineKind.arrayDeclaration)) desk ()
      { desk with notices := desk.notices.push (.lineRead number .arrayDeclaration) } := rfl
  obtain ⟨reached, lines⟩ := arrayLines_extents standard name element extents
    { desk with notices := desk.notices.push (.lineRead number .arrayDeclaration) }
  refine ⟨_, place, reached, ?_, Lua.Command.exec_declare memory own,
    fun indices given => translate_access standard named given, ?_⟩
  · refine (mask_declaration named typed desk).bind ?_
    simp only [read, Statement.kind, outside, Bool.false_and, Bool.false_eq_true, if_false]
    have effect : Gives (context.effect (.arrayDeclaration name element
        (commaSeparated (extents.map Extent.text)) place) (arrayDeclaration name element extents)
        progress.frames progress.lastCode) _ _ reached := lines.bind (.pure _ _)
    exact told.bind (effect.bind (.pure _ _))
  · have stored (indices : List Int) :
        (Lua.Access.shifted name indices).value? (Function.update memory name
          (some (.array (context.language.zeroValue? element) extents))) =
          Lua.reach? (some (.array (context.language.zeroValue? element) extents))
            (Lua.positions indices) := by
      rw [Lua.Access.value?_shifted, Function.update_self]
    simp only [stored]
    cases context.language.zeroValue? element with
    | some zero => exact fun indices full => Lua.reach?_array_zero full declared
    | none => exact fun indices short => Lua.reach?_array_none short

/-- An array of two dimensions, one of them with negative indices. -/
theorem array_storage_negative :
    let command := Lua.Command.declare ['t'] (some ['0']) [.range (-1) 1, .size 2]
    isVariableName ['t'] = true ∧
      ∃ after statement reached,
        Gives (({} : Context).convertCode 1 {} (arrayDeclaration ['t'] "entier".toList
          [.range (-1) 1, .size 2])) {} (statement, some { lines := command.lines ['\t'] 0, frames := [] })
          reached ∧
        command.exec (fun _ => none) = some after ∧
        (Lua.Access.shifted ['t'] [-1, 1]).value? after = some (.constant ['0']) ∧
        (Lua.Access.shifted ['t'] [-1, 2]).value? after = none := by
  have own : ∀ depth, ['t'] ≠ Dimension.counter depth := by
    intro depth same
    exact absurd (List.cons.inj same).1 (by decide)
  have zero : standardLanguage.zeroValue? "entier".toList = some ['0'] := by decide +kernel
  obtain ⟨after, place, reached, emitted, run, -, found⟩ :=
    @array_storage {} ['t'] "entier".toList [.range (-1) 1, .size 2] rfl (by decide +kernel)
      (by decide +kernel) own (by decide +kernel) (by simp) {} rfl 1 {} fun _ => none
  rw [show ({} : Context).language = standardLanguage from rfl, zero] at emitted run found
  refine ⟨by decide +kernel, after, _, reached, emitted, run, ?_, ?_⟩
  · rw [found _ rfl, if_pos (by decide)]
  · rw [found _ rfl, if_neg (by decide)]

end Context

end Pseudocode
