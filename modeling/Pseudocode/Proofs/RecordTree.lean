import Pseudocode.Proofs.Callees
import Pseudocode.Proofs.Opaque

namespace Pseudocode

open List

/-- Records inside records, in either notation. The leaves are words, that is names and numbers,
and quoted literals that are known by their labels. -/
inductive RecordTree (α : Type) where
  | word (text : Text)
  | quoted (label : α)
  | make (type : Text) (arguments : List (RecordTree α))
  | literal (items : List (RecordTree α))

namespace RecordTree

variable {α : Type}

/-- The tree as it is written in the source. -/
def print (quote : α → Text) : RecordTree α → Text
  | word text => text
  | quoted label => quote label
  | make type arguments => type ++ '(' :: commaSeparated (arguments.map (print quote)) ++ [')']
  | literal items => '<' :: commaSeparated (items.map (print quote)) ++ ['>']

@[elab_as_elim]
theorem induction {motive : RecordTree α → Prop} (word : ∀ text, motive (.word text))
    (quoted : ∀ label, motive (.quoted label))
    (make : ∀ type arguments, (∀ tree ∈ arguments, motive tree) → motive (.make type arguments))
    (literal : ∀ items, (∀ tree ∈ items, motive tree) → motive (.literal items))
    (tree : RecordTree α) : motive tree := by
  induction tree using print.induct with
  | case1 text => exact word text
  | case2 label => exact quoted label
  | case3 type arguments ih => exact make type arguments ih
  | case4 items ih => exact literal items ih

def isLiteral : RecordTree α → Bool
  | literal _ => true
  | _ => false

/-- A tree that is no literal, with the numbers of brackets of literals that stand right before and
after it. -/
structure Part (α : Type) where
  opens : Nat := 0
  tree : RecordTree α
  closes : Nat := 0

/-- A text in brackets of literals, as many on either side as are given. -/
def angled (opens closes : Nat) (text : Text) : Text :=
  List.replicate opens '<' ++ text ++ List.replicate closes '>'

def openFirst : List (Part α) → List (Part α)
  | [] => []
  | part :: parts => { part with opens := part.opens + 1 } :: parts

def closeLast : List (Part α) → List (Part α)
  | [] => []
  | [part] => [{ part with closes := part.closes + 1 }]
  | part :: next :: parts => part :: closeLast (next :: parts)

/-- The stretches between the commas of a tree, those inside constructor calls aside. -/
def parts : RecordTree α → List (Part α)
  | literal items => openFirst (closeLast (items.flatMap parts))
  | word text => [{ tree := .word text }]
  | quoted label => [{ tree := .quoted label }]
  | make type arguments => [{ tree := .make type arguments }]

theorem mem_openFirst {parts : List (Part α)} {part : Part α} (member : part ∈ openFirst parts) :
    ∃ old ∈ parts, old.tree = part.tree := by
  cases parts with
  | nil => simp [openFirst] at member
  | cons first others =>
    rcases mem_cons.mp member with rfl | member
    · exact ⟨first, .head _, rfl⟩
    · exact ⟨part, .tail _ member, rfl⟩

theorem mem_closeLast {parts : List (Part α)} {part : Part α} (member : part ∈ closeLast parts) :
    ∃ old ∈ parts, old.tree = part.tree := by
  fun_induction closeLast parts with
  | case1 => simp at member
  | case2 last =>
    obtain rfl := mem_singleton.mp member
    exact ⟨last, .head _, rfl⟩
  | case3 first next others ih =>
    rcases mem_cons.mp member with rfl | member
    · exact ⟨part, .head _, rfl⟩
    · obtain ⟨old, inside, same⟩ := ih member
      exact ⟨old, .tail _ inside, same⟩

theorem sizeOf_parts {tree : RecordTree α} {part : Part α} (member : part ∈ tree.parts) :
    sizeOf part.tree ≤ sizeOf tree := by
  induction tree using induction generalizing part with
  | word | quoted | make =>
    rw [parts] at member
    obtain rfl := mem_singleton.mp member
    exact le_rfl
  | literal items ih =>
    rw [parts] at member
    obtain ⟨opened, inside, same⟩ := mem_openFirst member
    obtain ⟨old, inside, older⟩ := mem_closeLast inside
    obtain ⟨item, among, inside⟩ := mem_flatMap.mp inside
    have smaller := ih item among inside
    have := sizeOf_lt_of_mem among
    rw [← same, ← older]
    simp only [literal.sizeOf_spec]
    omega

/-- A table with named fields. Missing values are `nil`. -/
def record (fields values : List Text) : Text :=
  ListLiteral.braced (commaSeparated (fieldTexts fields values))

/-- The names of the fields of a type. -/
def fields (records : Records) (type : Text) : List Text :=
  ((records.get? type).map RecordType.fieldNames).getD []

/-- The table of a literal: of the first type with as many fields, or by position. -/
def listed (records : Records) (values : List Text) : Text :=
  match records.withFields? values.length with
  | some type => record type.fieldNames values
  | none => ListLiteral.braced (commaSeparated values)

section Meaning

variable (records : Records) (quote : α → Text)

/-- The nested table that mirrors the tree. -/
def lua : RecordTree α → Text
  | word text => standardLanguage.respell text
  | quoted label => quote label
  | make type arguments => record (fields records type) (arguments.map lua)
  | literal items => listed records (items.map lua)

/-- What the tree becomes: the arguments of a constructor are parted at all their commas, those of
literals among them. -/
def value : RecordTree α → Text
  | word text => standardLanguage.respell text
  | quoted label => quote label
  | make type arguments => record (fields records type)
      ((arguments.flatMap parts).attach.map fun ⟨part, _⟩ =>
        angled part.opens part.closes (value part.tree))
  | literal items => listed records (items.map value)
decreasing_by
  · rename_i member
    obtain ⟨argument, among, inside⟩ := mem_flatMap.mp member
    have := sizeOf_parts inside
    have := sizeOf_lt_of_mem among
    simp only [make.sizeOf_spec]
    omega
  · rename_i member
    have := sizeOf_lt_of_mem member
    simp only [literal.sizeOf_spec]
    omega

def Part.text (part : Part α) : Text :=
  angled part.opens part.closes (part.tree.value records quote)

theorem value_make (type : Text) (arguments : List (RecordTree α)) :
    (make type arguments).value records quote = record (fields records type)
      ((arguments.flatMap parts).map (·.text records quote)) := by
  rw [value]
  exact congrArg _ (attach_map_val (f := fun part : Part α => part.text records quote))

/-- No argument that a constructor keeps is a literal. -/
def isClear : RecordTree α → Bool
  | word _ => true
  | quoted _ => true
  | make type arguments => (arguments.take (fields records type).length).attach.all
      fun ⟨argument, _⟩ => !argument.isLiteral && argument.isClear
  | literal items => items.attach.all fun ⟨item, _⟩ => item.isClear
decreasing_by
  · rename_i member
    have := sizeOf_lt_of_mem (mem_of_mem_take member)
    simp only [make.sizeOf_spec]
    omega
  · rename_i member
    have := sizeOf_lt_of_mem member
    simp only [literal.sizeOf_spec]
    omega

end Meaning

/-- A name or a number. -/
def IsWord (text : Text) : Prop :=
  identifier? text = some (text, []) ∨ ∃ digits, isNumeral digits = true ∧ text = dotted digits

/-- Words are words, labels are admitted, constructors are those of declared types, and literals
have several items. -/
inductive IsProper (records : Records) (admits : α → Prop) : RecordTree α → Prop
  | word {text : Text} : IsWord text → IsProper records admits (.word text)
  | quoted {label : α} : admits label → IsProper records admits (.quoted label)
  | make {name : Text} {type : RecordType} {arguments : List (RecordTree α)} :
      identifier? name = some (name, []) → records.get? name = some type →
      name.map caseKey = type.name.map caseKey →
      (∀ argument ∈ arguments, IsProper records admits argument) →
      IsProper records admits (.make name arguments)
  | literal {items : List (RecordTree α)} : 2 ≤ items.length →
      (∀ item ∈ items, IsProper records admits item) → IsProper records admits (.literal items)

variable {records : Records} {quote : α → Text} {admits : α → Prop} {tree : RecordTree α}

theorem isClear_make {type : Text} {arguments : List (RecordTree α)} :
    (make type arguments).isClear records = true ↔
      ∀ argument ∈ arguments.take (fields records type).length,
        argument.isLiteral = false ∧ argument.isClear records = true := by
  simp [isClear]

theorem isClear_literal {items : List (RecordTree α)} :
    (literal items).isClear records = true ↔ ∀ item ∈ items, item.isClear records = true := by
  simp [isClear]

theorem parts_of_not_literal (plain : tree.isLiteral = false) : tree.parts = [{ tree }] := by
  cases tree with
  | literal => simp [isLiteral] at plain
  | word | quoted | make => rw [parts]

@[simp] theorem Part.text_bare : Part.text records quote { tree } = tree.value records quote := by
  simp [Part.text, angled]

theorem IsProper.mono {α : Type} {admits others : α → Prop} {tree : RecordTree α}
    (proper : tree.IsProper records admits) (weaker : ∀ label, admits label → others label) :
    tree.IsProper records others := by
  induction proper with
  | word word => exact .word word
  | quoted admitted => exact .quoted (weaker _ admitted)
  | make called found cased _ ih => exact .make called found cased ih
  | literal several _ ih => exact .literal several ih

theorem IsProper.part_tree (proper : tree.IsProper records admits) {part : Part α}
    (member : part ∈ tree.parts) : part.tree.IsProper records admits := by
  induction proper generalizing part with
  | word word =>
    rw [parts] at member
    obtain rfl := mem_singleton.mp member
    exact .word word
  | quoted admitted =>
    rw [parts] at member
    obtain rfl := mem_singleton.mp member
    exact .quoted admitted
  | make named found cased each =>
    rw [parts] at member
    obtain rfl := mem_singleton.mp member
    exact .make named found cased each
  | literal several each ih =>
    rw [parts] at member
    obtain ⟨opened, inside, same⟩ := mem_openFirst member
    obtain ⟨old, inside, older⟩ := mem_closeLast inside
    obtain ⟨item, among, inside⟩ := mem_flatMap.mp inside
    rw [← same, ← older]
    exact ih item among inside

section Labels

variable {β : Type}

/-- The tree with other labels. -/
def map (change : α → β) : RecordTree α → RecordTree β
  | word text => word text
  | quoted label => quoted (change label)
  | make type arguments => make type (arguments.map (map change))
  | literal items => literal (items.map (map change))

theorem print_map (change : α → β) (quote : β → Text) (tree : RecordTree α) :
    (tree.map change).print quote = tree.print (quote ∘ change) := by
  induction tree using RecordTree.induction with
  | word | quoted => simp [map, print]
  | make type arguments ih =>
    have same : arguments.map (print quote ∘ map change) = arguments.map (print (quote ∘ change)) :=
      map_congr_left ih
    simp only [map, print, map_map, same]
  | literal items ih =>
    have same : items.map (print quote ∘ map change) = items.map (print (quote ∘ change)) :=
      map_congr_left ih
    simp only [map, print, map_map, same]

def Part.map (change : α → β) (part : Part α) : Part β where
  opens := part.opens
  tree := part.tree.map change
  closes := part.closes

theorem openFirst_map (change : α → β) (parts : List (Part α)) :
    openFirst (parts.map (Part.map change)) = (openFirst parts).map (Part.map change) := by
  cases parts <;> rfl

theorem closeLast_map (change : α → β) (parts : List (Part α)) :
    closeLast (parts.map (Part.map change)) = (closeLast parts).map (Part.map change) := by
  fun_induction closeLast parts with
  | case1 => rfl
  | case2 => rfl
  | case3 part next parts ih => simpa [closeLast] using ih

theorem parts_map (change : α → β) (tree : RecordTree α) :
    (tree.map change).parts = tree.parts.map (Part.map change) := by
  induction tree using RecordTree.induction with
  | word | quoted | make => simp [map, parts, Part.map]
  | literal items ih =>
    rw [map, parts, parts, flatMap_map, ← openFirst_map, ← closeLast_map, map_flatMap]
    congr 2
    exact flatMap_congr fun item member => ih item member

theorem value_map (records : Records) (change : α → β) (quote : β → Text) (tree : RecordTree α) :
    (tree.map change).value records quote = tree.value records (quote ∘ change) := by
  induction tree using value.induct with
  | case1 | case2 => simp [map, value]
  | case3 type arguments ih =>
    rw [map, value_make, value_make]
    congr 1
    rw [flatMap_map, flatMap_congr fun argument _ => parts_map change argument,
      ← map_flatMap, map_map]
    refine map_congr_left fun part member => ?_
    simp [Part.text, Part.map, ih part member]
  | case4 items ih =>
    rw [map, value, value, map_map]
    exact congrArg _ (map_congr_left ih)

theorem IsProper.map {other : β → Prop} {change : α → β} (proper : tree.IsProper records admits)
    (admitted : ∀ label, admits label → other (change label)) :
    (tree.map change).IsProper records other := by
  induction proper with
  | word word =>
    rw [RecordTree.map]
    exact .word word
  | quoted here =>
    rw [RecordTree.map]
    exact .quoted (admitted _ here)
  | make called found cased _ ih =>
    rw [RecordTree.map]
    exact .make called found cased (by simpa using ih)
  | literal several _ ih =>
    rw [RecordTree.map]
    exact .literal (by simpa using several) (by simpa using ih)

end Labels

/-- Two texts that differ at a place where neither has ended. -/
def Departs (first second : Text) : Prop :=
  ∃ common a b rest others, first = common ++ a :: rest ∧ second = common ++ b :: others ∧ a ≠ b

namespace Departs

variable {first second : Text}

theorem ne (departs : Departs first second) : first ≠ second := by
  obtain ⟨common, a, b, rest, others, rfl, rfl, differ⟩ := departs
  intro same
  exact differ (List.cons.inj (append_cancel_left same)).1

theorem cons {a b : Char} (differ : a ≠ b) (rest others : Text) : Departs (a :: rest) (b :: others) :=
  ⟨[], a, b, rest, others, rfl, rfl, differ⟩

theorem append (departs : Departs first second) (before rest others : Text) :
    Departs (before ++ (first ++ rest)) (before ++ (second ++ others)) := by
  obtain ⟨common, a, b, inside, within, rfl, rfl, differ⟩ := departs
  exact ⟨before ++ common, a, b, inside ++ rest, within ++ others, by simp, by simp, differ⟩

theorem commaSeparated (departs : Departs first second) (items rest others : List Text) :
    Departs (Pseudocode.commaSeparated (items ++ first :: rest))
      (Pseudocode.commaSeparated (items ++ second :: others)) := by
  have tailed (item : Text) (more : List Text) :
      ∃ tail, Pseudocode.commaSeparated (item :: more) = item ++ tail := by
    cases more with
    | nil => exact ⟨[], by simp⟩
    | cons next more => exact ⟨_, commaSeparated_cons item next more⟩
  induction items with
  | nil =>
    obtain ⟨tail, shape⟩ := tailed first rest
    obtain ⟨ending, form⟩ := tailed second others
    rw [nil_append, nil_append, shape, form]
    simpa using departs.append [] tail ending
  | cons item items ih =>
    obtain ⟨next, more, shape⟩ : ∃ next more, items ++ first :: rest = next :: more := by
      cases items <;> simp
    obtain ⟨other, further, form⟩ : ∃ next more, items ++ second :: others = next :: more := by
      cases items <;> simp
    rw [shape, form] at ih
    rw [cons_append, cons_append, shape, form, commaSeparated_cons, commaSeparated_cons]
    simpa using ih.append (item ++ [',', ' ']) [] []

theorem braced (departs : Departs first second) :
    Departs (ListLiteral.braced first) (ListLiteral.braced second) :=
  departs.append ['\x7b'] ['\x7d'] ['\x7d']

theorem record (departs : Departs first second) {fields values : List Text}
    (within : values.length < fields.length) (rest others : List Text) :
    Departs (record fields (values ++ first :: rest)) (record fields (values ++ second :: others)) := by
  -- the fields up to the one of the two texts are the same
  have split : ∃ items name names, ∀ text more, fieldTexts fields (values ++ text :: more) =
      items ++ (name ++ " = ".toList ++ text) :: fieldTexts names more := by
    induction fields generalizing values with
    | nil => simp at within
    | cons name names ih =>
      cases values with
      | nil => exact ⟨[], name, names, fun text more => rfl⟩
      | cons value values =>
        obtain ⟨items, later, left, shape⟩ := ih (Nat.lt_of_succ_lt_succ within)
        refine ⟨(name ++ " = ".toList ++ value) :: items, later, left, fun text more => ?_⟩
        rw [cons_append, fieldTexts, shape, cons_append]
  obtain ⟨items, name, names, shape⟩ := split
  rw [RecordTree.record, RecordTree.record, shape, shape]
  have here := departs.append (name ++ " = ".toList) [] []
  simp only [append_nil] at here
  exact (here.commaSeparated items _ _).braced

end Departs

theorem fieldTexts_take (fields values : List Text) :
    fieldTexts fields (values.take fields.length) = fieldTexts fields values := by
  induction fields generalizing values with
  | nil => rfl
  | cons name names ih =>
    cases values with
    | nil => rfl
    | cons value values => simp [fieldTexts, ih]

/-- The first of several elements that fails a test. -/
theorem exists_first_failing {β : Type} (test : β → Bool) {items : List β}
    (fails : ∃ item ∈ items, test item = false) :
    ∃ before item after, items = before ++ item :: after ∧ (∀ other ∈ before, test other = true) ∧
      test item = false := by
  induction items with
  | nil => simp at fails
  | cons first items ih =>
    cases here : test first with
    | false => exact ⟨[], first, items, rfl, by simp, here⟩
    | true =>
      obtain ⟨item, member, failing⟩ := fails
      rcases mem_cons.mp member with rfl | member
      · rw [failing] at here
        simp at here
      · obtain ⟨before, bad, after, rfl, passing, failed⟩ := ih ⟨item, member, failing⟩
        refine ⟨first :: before, bad, after, rfl, ?_, failed⟩
        simpa [here] using passing

theorem IsProper.parts_ne_nil (proper : tree.IsProper records admits) : tree.parts ≠ [] := by
  induction proper with
  | word | quoted | make => simp [parts]
  | @literal items several each ih =>
    rw [parts]
    obtain ⟨item, others, rfl⟩ := exists_cons_of_length_pos (by omega : 0 < items.length)
    obtain ⟨part, parts, shape⟩ := exists_cons_of_ne_nil (ih item (.head _))
    rw [flatMap_cons, shape, cons_append]
    cases parts ++ others.flatMap RecordTree.parts <;> simp [closeLast, openFirst]

theorem IsProper.parts_literal {items : List (RecordTree α)}
    (proper : (RecordTree.literal items).IsProper records admits) :
    ∃ part others, (RecordTree.literal items).parts = part :: others ∧ 0 < part.opens := by
  have nonempty := proper.parts_ne_nil
  rw [parts] at nonempty ⊢
  cases shape : closeLast (items.flatMap parts) with
  | nil => simp [shape, openFirst] at nonempty
  | cons part others => exact ⟨_, others, rfl, Nat.succ_pos _⟩

theorem values_of_not_literal {arguments : List (RecordTree α)}
    (plain : ∀ argument ∈ arguments, argument.isLiteral = false) :
    (arguments.flatMap parts).map (·.text records quote) =
      arguments.map (·.value records quote) := by
  induction arguments with
  | nil => rfl
  | cons argument arguments ih =>
    rw [flatMap_cons, parts_of_not_literal (plain argument (.head _)), map_append,
      ih fun other member => plain other (.tail _ member)]
    simp

variable (records quote) in
theorem lua_literal (items : List (RecordTree α)) :
    ∃ rest, (literal items).lua records quote = '\x7b' :: rest := by
  rw [lua, listed]
  split
  · exact ⟨_, rfl⟩
  · exact ⟨_, rfl⟩

theorem record_surplus {fields values : List Text} (enough : fields.length ≤ values.length)
    (surplus : List Text) : record fields (values ++ surplus) = record fields values := by
  rw [record, ← fieldTexts_take, take_append_of_le_length enough, fieldTexts_take, record]

/-- A tree becomes the table that mirrors it if it is clear, and differs from it otherwise. -/
theorem IsProper.value_or_departs (proper : tree.IsProper records admits) :
    (tree.isClear records = true ∧ tree.value records quote = tree.lua records quote) ∨
      (tree.isClear records = false ∧
        Departs (tree.value records quote) (tree.lua records quote)) := by
  induction proper with
  | word | quoted => exact .inl ⟨by simp [isClear], by simp [value, lua]⟩
  | @make name type arguments named found cased each ih =>
    -- `clear` arguments have equal values, whatever follows them
    have same (clear : List (RecordTree α)) (among : ∀ argument ∈ clear, argument ∈ arguments)
        (good : ∀ argument ∈ clear, argument.isLiteral = false ∧ argument.isClear records = true) :
        (clear.flatMap parts).map (·.text records quote) = clear.map (·.lua records quote) := by
      rw [values_of_not_literal fun argument member => (good argument member).1]
      refine map_congr_left fun argument member => ?_
      rcases ih argument (among argument member) with ⟨-, equal⟩ | ⟨unclear, -⟩
      · exact equal
      · simp [(good argument member).2] at unclear
    rw [value_make, lua]
    by_cases clear : (RecordTree.make name arguments).isClear records = true
    · refine .inl ⟨clear, ?_⟩
      have equal := same _ (fun _ => mem_of_mem_take) (isClear_make.mp clear)
      rw [← take_append_drop (fields records name).length arguments, flatMap_append,
        map_append, map_append, equal]
      by_cases more : (fields records name).length ≤ arguments.length
      · rw [record_surplus (by simp [more]), record_surplus (by simp [more])]
      · rw [drop_eq_nil_of_le (by omega)]
        simp
    · refine .inr ⟨by simpa using clear, ?_⟩
      rw [isClear_make] at clear
      push Not at clear
      have fails : ∃ argument ∈ arguments.take (fields records name).length,
          (!argument.isLiteral && argument.isClear records) = false := by
        simpa using clear
      obtain ⟨before, bad, after, shape, passing, failing⟩ := exists_first_failing _ fails
      have split : arguments = before ++ bad :: (after ++ arguments.drop (fields records name).length) := by
        rw [← cons_append, ← append_assoc, ← shape, take_append_drop]
      have within : before.length < (fields records name).length := by
        have := congrArg List.length shape
        simp only [length_take, length_append, length_cons] at this
        omega
      have among : bad ∈ arguments := split ▸ by simp
      have equal := same before (fun argument member => split ▸ mem_append_left _ member)
        (by simpa using passing)
      rw [split, flatMap_append, flatMap_cons, map_append, map_append,
        map_append, equal, map_cons]
      cases bad with
      | literal items =>
        obtain ⟨part, others, first, opens⟩ := (each _ among).parts_literal
        obtain ⟨rest, brace⟩ := lua_literal records quote items
        obtain ⟨count, many⟩ := Nat.exists_eq_succ_of_ne_zero opens.ne'
        rw [first, map_cons, cons_append, brace, Part.text, angled, many,
          replicate_succ, cons_append, cons_append]
        exact (Departs.cons (by decide) _ _).record (by simpa using within) _ _
      | word | quoted | make =>
        rw [parts_of_not_literal rfl, map_singleton, Part.text_bare, singleton_append]
        rcases ih _ among with ⟨clear, -⟩ | ⟨-, departs⟩
        · simp [isLiteral, clear] at failing
        · exact departs.record (by simpa using within) _ _
  | @literal items several each ih =>
    rw [value, lua]
    by_cases clear : (RecordTree.literal items).isClear records = true
    · refine .inl ⟨clear, congrArg _ (map_congr_left fun item member => ?_)⟩
      rcases ih item member with ⟨-, equal⟩ | ⟨unclear, -⟩
      · exact equal
      · simp [isClear_literal.mp clear item member] at unclear
    · refine .inr ⟨by simpa using clear, ?_⟩
      rw [isClear_literal] at clear
      push Not at clear
      obtain ⟨before, bad, after, rfl, passing, failing⟩ := exists_first_failing (isClear records)
        (by simpa using clear)
      have equal : before.map (·.value records quote) = before.map (·.lua records quote) := by
        refine map_congr_left fun item member => ?_
        rcases ih item (mem_append_left _ member) with ⟨-, equal⟩ | ⟨unclear, -⟩
        · exact equal
        · simp [passing item member] at unclear
      rcases ih bad (by simp) with ⟨clear, -⟩ | ⟨-, departs⟩
      · simp [clear] at failing
      · rw [map_append, map_append, map_cons, map_cons, equal, listed, listed]
        simp only [length_append, length_map, length_cons]
        split
        · rename_i type chosen
          have count := find?_some chosen
          simp only [decide_eq_true_eq] at count
          refine departs.record ?_ _ _
          rw [RecordType.fieldNames, length_map, length_map]
          omega
        · exact (departs.commaSeparated _ _ _).braced

theorem IsProper.value_eq_iff (proper : tree.IsProper records admits) :
    tree.value records quote = tree.lua records quote ↔ tree.isClear records = true := by
  rcases (proper.value_or_departs : (_ ∧ tree.value records quote = _) ∨ _) with ⟨clear, equal⟩ | ⟨unclear, departs⟩
  · simp [clear, equal]
  · simp [unclear, departs.ne]

end RecordTree
end Pseudocode
