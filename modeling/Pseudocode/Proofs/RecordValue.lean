import Pseudocode.Proofs.Masking
import Pseudocode.Proofs.RecordNest

namespace Pseudocode

open List Placeholder RecordTree
variable {context : Context} {text out : Text}

namespace Records

variable (records : Records)
variable {type : RecordType}

/-- The walk that converts constructor calls. -/
def constructorRun : Option Char → Text → Conversion Text :=
  convertCalls (namedCallee (longestFirst (records.map (·.2.name)))) .openConstructor
    fun head arguments => do
      match records.get? head.name with
      | some type => Conversion.hold (.table (constructed type (splitArguments arguments)))
      | none => throw .unlistedRecord

theorem convertConstructors_eq (text : Text) :
    records.convertConstructors text = records.constructorRun none text := by
  rw [convertConstructors]
  split
  · rename_i empty
    have undeclared : records = [] := by simpa using empty
    have idle (before : Option Char) : records.constructorRun before text = pure text := by
      induction text generalizing before with
      | nil => rw [constructorRun, convertCalls]
      | cons c rest ih =>
        rw [constructorRun] at ih ⊢
        rw [convertCalls_plain, ih]
        · simp
        · simp [callAt?, undeclared, longestFirst, namedCallee]
    exact (idle none).symm
  · rfl

variable {records}

theorem IsNamed.sound (named : records.IsNamed) :
    Callee.Sound (namedCallee (longestFirst (records.map (·.2.name)))) := by
  refine Callee.namedCallee_sound fun name member => ?_
  obtain ⟨pair, among, rfl⟩ := mem_map.mp (mem_mergeSort.mp member)
  exact named.names pair among

theorem get?_mem {name : Text} (found : records.get? name = some type) :
    ∃ pair ∈ records, pair.2 = type :=
  ⟨(lower name, type), mem_of_lookup found, rfl⟩

/-- The name of a declared type starts a constructor call. -/
theorem namedCallee_declared {name : Text} (found : records.get? name = some type)
    (cased : name.map caseKey = type.name.map caseKey) (rest : Text) :
    namedCallee (longestFirst (records.map (·.2.name))) (name ++ '(' :: rest) ≠ none := by
  obtain ⟨pair, member, rfl⟩ := get?_mem found
  have listed : pair.2.name ∈ longestFirst (records.map (·.2.name)) :=
    mem_mergeSort.mpr (mem_map.mpr ⟨pair, member, rfl⟩)
  rw [namedCallee, ne_eq, findSome?_eq_none_iff]
  intro missed
  have length : pair.2.name.length = name.length := by
    simpa using congrArg List.length cased.symm
  have here := missed _ listed
  rw [dropWord?_append cased, Option.bind_some, length] at here
  simp [headAt?, trimLeft, isBlank] at here

end Records

theorem Context.Fragment.mono {store reached : Store} {height above : Nat}
    (fragment : context.Fragment store height text out)
    (grown : store.Extends reached) (higher : height ≤ above) :
    context.Fragment reached above text out := by
  obtain ⟨opens, closers, atom, meaning, oneSided, rfl, rfl, atomic⟩ := fragment
  exact ⟨opens, closers, atom, meaning, oneSided, rfl, rfl, atomic.mono grown higher⟩

/-- No constructor call starts in an atom. -/
theorem Context.Atomic.becomes {store : Store} {height : Nat} {atom : Text}
    {callee : Callee} {onOpen : Text → Notice} {build : CallHead → Text → Conversion Text}
    (atomic : context.Atomic store height atom out) (sound : callee.Sound) :
    Becomes (convertCalls callee onOpen build) atom (pure atom) := by
  rcases atomic with ⟨word, -⟩ | ⟨index, rfl, -⟩
  · rcases word.run with ⟨-, letters⟩ | ⟨first, rest, rfl, run⟩
    · have fields : ∀ c ∈ ([] : Text), isRunChar c = true := by simp
      simpa using sound.becomes_run letters fields (by simp)
    · exact sound.becomes_run run.letters run.fields run.point
  · exact sound.walk.becomes_quiet fun c member => by simp [isQuiet, isMark_of_mem_write c member]

section Works

variable {α : Type} {print : α → Text} {reduced : Store → Nat → α → α → Prop}
variable {store : Store} {height above : Nat} {items : List α}

/-- The work leaves what the item is reduced to, however far the store has grown. -/
def Works (print : α → Text) (reduced : Store → Nat → α → α → Prop) (store : Store) (height : Nat)
    (item : α) (work : Conversion Text) : Prop :=
  ∀ desk : Desk, store.Extends desk.store → ∃ out reached,
    Gives work desk (print out) reached ∧ desk.store.Extends reached.store ∧
      reduced reached.store height item out

/-- What is reduced stays so while the store grows, and at every greater height. -/
def Lasts (reduced : Store → Nat → α → α → Prop) : Prop :=
  ∀ ⦃store reached height above item out⦄, reduced store height item out →
    store.Extends reached → height ≤ above → reduced reached above item out

variable (lasts : Lasts reduced)
include lasts

theorem Works.mono {item : α} {work : Conversion Text} (works : Works print reduced store height item work)
    (higher : height ≤ above) : Works print reduced store above item work := fun desk extended => by
  obtain ⟨out, reached, run, grown, here⟩ := works desk extended
  exact ⟨out, reached, run, grown, lasts here (.refl _) higher⟩

theorem Works.forall₂ {works : List (Conversion Text)}
    (each : List.Forall₂ (Works print reduced store height) items works) (desk : Desk)
    (extended : store.Extends desk.store) :
    ∃ outs reached, Gives (works.mapM id) desk (outs.map print) reached ∧
      desk.store.Extends reached.store ∧ List.Forall₂ (reduced reached.store height) items outs := by
  induction each generalizing desk with
  | nil => exact ⟨[], desk, .pure _ _, .refl _, .nil⟩
  | cons here _ ih =>
    obtain ⟨out, middle, first, grown, settled⟩ := here desk extended
    obtain ⟨outs, reached, rest, further, others⟩ := ih middle (extended.trans grown)
    refine ⟨out :: outs, reached, ?_, grown.trans further, .cons (lasts settled further le_rfl) others⟩
    rw [mapM_cons]
    exact first.bind (rest.bind (.pure _ _))

theorem exists_works {run : Option Char → Text → Conversion Text}
    (each : ∀ item ∈ items, ∃ work, Becomes run (print item) work ∧
      Works print reduced store ((print item).count '(') item work) :
    ∃ works, List.Forall₂ (Becomes run) (items.map print) works ∧
      List.Forall₂ (Works print reduced store ((commaSeparated (items.map print)).count '(')) items works := by
  rw [count_commaSeparated _ (by decide) (by decide)]
  induction items with
  | nil => exact ⟨[], .nil, .nil⟩
  | cons item items ih =>
    obtain ⟨work, becomes, here⟩ := each item (.head _)
    obtain ⟨works, others, rest⟩ := ih fun other member => each other (.tail _ member)
    rw [map_cons, map_cons, sum_cons]
    refine ⟨work :: works, .cons becomes others, .cons (here.mono lasts (by omega)) ?_⟩
    exact rest.imp fun _ _ inner => inner.mono lasts (by omega)

end Works

namespace RecordTree

theorem angled_whole {opens closers : Nat} (whole : Whole text) :
    Whole (angled opens closers text) := by
  have signs (count : Nat) {sign : Char} (plain : isPlainSign sign = true) (solid : isBlank sign = false) :
      Whole (List.replicate (count + 1) sign) :=
    .of_plain (by simp) (fun c member => eq_of_mem_replicate member ▸ plain)
      fun c member => eq_of_mem_replicate member ▸ solid
  have led : Whole (List.replicate opens '<' ++ text) := by
    cases opens with
    | zero => simpa using whole
    | succ count => exact (signs count (by decide) (by decide)).append whole
  cases closers with
  | zero => simpa [angled] using led
  | succ count => exact led.append (signs count (by decide) (by decide))

/-- The second tree is the first with its constructor calls taken out: it means the same. -/
structure Reduced (context : Context) (store : Store) (height : Nat) (tree nest : RecordTree Token) :
    Prop where
  isNest : nest.IsNest (Token.Means context store height)
  value : nest.value context.records Token.meaning = tree.value context.records Token.meaning
  parts : nest.parts.map (·.text context.records Token.meaning) =
    tree.parts.map (·.text context.records Token.meaning)
  angles : (nest.print Token.code).count '<' ≤ (tree.print Token.code).count '<'

section Constructors

variable {context : Context} {store reached : Store} {height above : Nat}
variable {tree : RecordTree Token} {items nests : List (RecordTree Token)}

theorem Reduced.mono {nest : RecordTree Token} (reduced : Reduced context store height tree nest)
    (grown : store.Extends reached) (higher : height ≤ above) :
    Reduced context reached above tree nest :=
  { reduced with isNest := reduced.isNest.mono fun _ means => means.mono grown higher }

theorem Reduced.lasts : Lasts (Reduced context) := fun _ _ _ _ _ _ => Reduced.mono

/-- Converting the constructor calls of a tree leaves a nest that means the same. -/
abbrev Reduces (context : Context) : Store → Nat → RecordTree Token → Conversion Text → Prop :=
  Works (print Token.code) (Reduced context)

theorem map_openFirst {α : Type} (records : Records) (quote : α → Text) (parts : List (Part α)) :
    (openFirst parts).map (·.text records quote) =
      (parts.map (·.text records quote)).modifyHead ('<' :: ·) := by
  cases parts with
  | nil => rfl
  | cons part parts => simp [openFirst, Part.text, angled, replicate_succ]

theorem map_closeLast {α : Type} (records : Records) (quote : α → Text) (parts : List (Part α)) :
    (closeLast parts).map (·.text records quote) =
      (parts.map (·.text records quote)).modifyLast (· ++ ['>']) := by
  rcases eq_nil_or_concat parts with rfl | ⟨init, last, rfl⟩
  · rfl
  · rw [concat_eq_append, closeLast_append, map_append, map_append, map_singleton,
      map_singleton, modifyLast_concat]
    simp [Part.text, angled, replicate_succ']

theorem Token.Means.balanced {token : Token} (means : Token.Means context store height token) :
    Balanced true token.code :=
  means.whole.balanced.loosen

theorem IsProper.balanced (proper : tree.IsProper context.records (Token.Means context store height)) :
    Balanced true (tree.print Token.code) := by
  induction proper with
  | word word =>
    rw [print]
    exact .of_plain fun c member => (isRunChar_plain (word.chars.2 c member)).1
  | quoted means =>
    rw [print]
    exact Token.Means.balanced means
  | @make name type arguments named found cased each ih =>
    have inside : Balanced true (commaSeparated (arguments.map (print Token.code))) :=
      .commaSeparated (by simpa using ih)
    have lead : Balanced true name :=
      .of_plain fun c member => (isWordChar_plain (identifier?_mem named member)).1
    rw [print, append_assoc]
    exact lead.append (.enclosed .round inside)
  | literal several each ih =>
    rw [print]
    exact .plain (by decide) ((Balanced.commaSeparated (by simpa using ih)).append
      (.plain (by decide) .nil))

theorem Reduced.lists (each : List.Forall₂ (Reduced context store height) items nests) :
    nests.map (·.value context.records Token.meaning) =
        items.map (·.value context.records Token.meaning) ∧
      (nests.flatMap RecordTree.parts).map (·.text context.records Token.meaning) =
        (items.flatMap RecordTree.parts).map (·.text context.records Token.meaning) ∧
      (commaSeparated (nests.map (print Token.code))).count '<' ≤
        (commaSeparated (items.map (print Token.code))).count '<' ∧
      ∀ nest ∈ nests, nest.IsNest (Token.Means context store height) := by
  have comma : '<' ≠ ',' := by decide
  have space : '<' ≠ ' ' := by decide
  rw [count_commaSeparated _ comma space, count_commaSeparated _ comma space]
  induction each with
  | nil => simp
  | cons here _ ih =>
    obtain ⟨values, parts, angles, isNest⟩ := ih
    simp only [map_cons, flatMap_cons, map_append, sum_cons, forall_mem_cons]
    exact ⟨by rw [here.value, values], by rw [here.parts, parts], Nat.add_le_add here.angles angles,
      here.isNest, isNest⟩

/-- The arguments that a constructor gets are the parts of what its arguments have become. -/
theorem splitArguments_nests (each : ∀ nest ∈ nests, nest.IsNest (Token.Means context store height)) :
    List.Forall₂ (context.Fragment store height)
      (splitArguments (commaSeparated (nests.map (print Token.code))))
      ((nests.flatMap parts).map (·.text context.records Token.meaning)) := by
  have fragments (part : Part Token) (member : part ∈ nests.flatMap parts) :
      context.Fragment store height (part.print Token.code)
        (part.text context.records Token.meaning) := by
    obtain ⟨nest, among, inside⟩ := mem_flatMap.mp member
    obtain ⟨token, means, tree⟩ := (each nest among).part inside
    refine ⟨part.opens, part.closes, token.code, token.meaning,
      (each nest among).outward.oneSided part inside, ?_, ?_, means⟩
    · simp [Part.print, tree, print]
    · simp [Part.text, tree, value]
  have printed : commaSeparated (nests.map (print Token.code)) =
      commaSeparated ((nests.flatMap parts).map (·.print Token.code)) := by
    rw [map_flatMap, commaSeparated_flatMap fun nest member => by
      simpa using (each nest member).outward.nonempty]
    exact congrArg _ (map_congr_left fun nest member => (each nest member).print_eq _)
  have whole : ∀ text ∈ (nests.flatMap parts).map (·.print Token.code), Whole text := by
    intro text member
    obtain ⟨part, inside, rfl⟩ := mem_map.mp member
    obtain ⟨opens, closers, atom, meaning, -, shape, -, atomic⟩ := fragments part inside
    rw [shape]
    exact angled_whole atomic.whole
  rw [printed, splitArguments_commaSeparated whole, forall₂_map_left_iff,
    forall₂_map_right_iff, forall₂_same]
  exact fragments

section Make

variable {name : Text} {type : RecordType} {arguments : List (RecordTree Token)}
variable {works : List (Conversion Text)}

/-- The work on a constructor call: its arguments are converted, and the table of its fields is held. -/
def makeWork (type : RecordType) (works : List (Conversion Text)) : Conversion Text := do
  let texts ← works.mapM id
  Conversion.hold (.table (Records.constructed type (splitArguments (commaSeparated texts))))

theorem becomes_make (named : context.records.IsNamed) (called : identifier? name = some (name, []))
    (found : context.records.get? name = some type) (cased : name.map caseKey = type.name.map caseKey)
    (each : ∀ argument ∈ arguments, argument.IsProper context.records (Token.Means context store 0))
    (becomes : List.Forall₂ (Becomes context.records.constructorRun) (arguments.map (print Token.code)) works) :
    Becomes context.records.constructorRun ((make name arguments).print Token.code)
      (makeWork type works) := by
  have nonempty : name ≠ [] := by
    rintro rfl
    simp [identifier?] at called
  have inside : Balanced true (commaSeparated (arguments.map (print Token.code))) :=
    .commaSeparated (by simpa using fun argument member => (each argument member).balanced)
  have call : Becomes context.records.constructorRun
      (name ++ [] ++ '(' :: commaSeparated (arguments.map (print Token.code)) ++ [')'])
      (makeWork type works) :=
    named.sound.becomes_call [] nonempty (fun c => identifier?_mem called) (by simp) inside
      (Becomes.commaSeparated named.sound.walk becomes) (fun text head _ same _ texts => by simp [same, found])
      (fun text missed => absurd missed (Records.namedCallee_declared found cased text))
  rw [append_nil] at call
  rw [print]
  exact call

/-- The table that is held for a constructor call means the value of the record. -/
theorem atomic_make (standard : context.language = standardLanguage) (named : context.records.IsNamed)
    (found : context.records.get? name = some type)
    (reduced : List.Forall₂ (Reduced context store height) arguments nests) :
    context.Atomic (store.hold (.table (Records.constructed type
        (splitArguments (commaSeparated (nests.map (print Token.code))))))).1 (height + 1)
      (write store.held.size) ((make name arguments).value context.records Token.meaning) := by
  obtain ⟨-, texts, -, isNest⟩ := Reduced.lists reduced
  set entries := Records.constructed type
    (splitArguments (commaSeparated (nests.map (print Token.code)))) with entriesEq
  obtain ⟨outs, fragments, rendered⟩ := namedEntries_rendered type.fieldNames Context.Fragment.nil
    ((splitArguments_nests isNest).imp fun _ _ fragment =>
      fragment.mono (Store.Extends.hold store (.table entries)) le_rfl)
  rw [← Records.constructed_eq, ← entriesEq] at fragments rendered
  have meaning : (make name arguments).value context.records Token.meaning =
      ListLiteral.braced (commaSeparated (zipWith Entry.rendered entries outs)) := by
    rw [value_make, rendered, texts, record, fields, found]
    rfl
  rw [meaning]
  refine Context.Atomic.of_table standard (by simp [Store.hold]) ?_ fragments
  intro entry member field entryName
  rw [entriesEq, Records.constructed_eq] at member
  have among := namedEntries_names member field entryName
  obtain ⟨pair, listed, rfl⟩ := Records.get?_mem found
  have word := named.fields pair listed field among
  exact ⟨fun inside => isRunChar_ne_opening (by simp [isRunChar, word _ inside]) rfl,
    fun inside => by have := word _ inside; revert this; decide⟩

theorem reduces_make (standard : context.language = standardLanguage) (named : context.records.IsNamed)
    (called : identifier? name = some (name, [])) (found : context.records.get? name = some type)
    (reduces : List.Forall₂ (Reduces context store
      ((commaSeparated (arguments.map (print Token.code))).count '(')) arguments works) :
    Reduces context store (((make name arguments).print Token.code).count '(') (make name arguments)
      (makeWork type works) := by
  intro desk extended
  obtain ⟨nests, middle, run, grown, reduced⟩ := Works.forall₂ Reduced.lasts reduces desk extended
  have height : ((make name arguments).print Token.code).count '(' =
      (commaSeparated (arguments.map (print Token.code))).count '(' + 1 := by
    have plain : name.count '(' = 0 := count_eq_zero.mpr fun member => by
      have := identifier?_mem called member
      revert this
      decide
    simp [print, plain]
  refine ⟨.quoted ⟨write middle.store.held.size, (make name arguments).value context.records Token.meaning⟩,
    { middle with store := (middle.store.hold (.table (Records.constructed type
      (splitArguments (commaSeparated (nests.map (print Token.code))))))).1 }, ?_,
    grown.trans (Store.Extends.hold middle.store _), .quoted ?_, by simp [RecordTree.value],
    by simp [RecordTree.parts, RecordTree.value], ?_⟩
  · rw [print]
    exact run.bind rfl
  · rw [height]
    exact atomic_make standard named found reduced
  · rw [print, count_eq_zero.mpr fun member => ?_]
    · exact Nat.zero_le _
    · exact isMark_ne (isMark_of_mem_write _ member) (by decide) rfl

end Make

/-- A literal stays a literal, of what its items have become. -/
theorem reduces_literal {works : List (Conversion Text)} (several : 2 ≤ items.length)
    (reduces : List.Forall₂ (Reduces context store
      ((commaSeparated (items.map (print Token.code))).count '(')) items works) :
    Reduces context store (((literal items).print Token.code).count '(') (literal items) (do
      let texts ← works.mapM id
      return '<' :: commaSeparated texts ++ ['>']) := by
  intro desk extended
  obtain ⟨nests, reached, run, grown, reduced⟩ := Works.forall₂ Reduced.lasts reduces desk extended
  obtain ⟨values, parts, angles, isNest⟩ := Reduced.lists reduced
  refine ⟨.literal nests, reached, ?_, grown, ?_⟩
  · rw [print]
    exact run.bind (.pure _ _)
  · refine (Reduced.mk ?_ ?_ ?_ ?_ : Reduced context reached.store _ _ _).mono (.refl _)
      (show (commaSeparated (items.map (print Token.code))).count '(' ≤ _ by simp [print])
    · exact .literal (reduced.length_eq ▸ several) isNest
    · rw [RecordTree.value, RecordTree.value, values]
    · rw [RecordTree.parts, RecordTree.parts, map_openFirst, map_closeLast, map_openFirst, map_closeLast,
        parts]
    · simpa [print] using angles

/-- Constructor calls are converted from the inside out, and what is left means the same. -/
theorem IsProper.reduces (standard : context.language = standardLanguage)
    (named : context.records.IsNamed)
    (proper : tree.IsProper context.records (Token.Means context store 0)) :
    ∃ work, Becomes context.records.constructorRun (tree.print Token.code) work ∧
      Reduces context store ((tree.print Token.code).count '(') tree work := by
  have walk : Walk context.records.constructorRun := named.sound.walk
  induction proper with
  | @word text word =>
    refine ⟨pure text, ?_, fun desk _ => ?_⟩
    · have atomic : context.Atomic store 0 text (standardLanguage.respell text) := .inl ⟨word, rfl⟩
      rw [print]
      exact atomic.becomes named.sound
    · refine ⟨.quoted ⟨text, standardLanguage.respell text⟩, desk, ?_, .refl _, .quoted (.inl ⟨word, rfl⟩),
        by simp [RecordTree.value], by simp [RecordTree.parts, RecordTree.value], by simp [print]⟩
      rw [print]
      exact .pure _ _
  | @quoted token means =>
    refine ⟨pure token.code, ?_, fun desk extended => ?_⟩
    · rw [print]
      exact Context.Atomic.becomes means named.sound
    · refine ⟨.quoted token, desk, ?_, .refl _,
        .quoted (Context.Atomic.mono means extended (Nat.zero_le _)), rfl, rfl, le_rfl⟩
      rw [print]
      exact .pure _ _
  | make called found cased each ih =>
    obtain ⟨works, becomes, reduces⟩ := exists_works Reduced.lasts ih
    exact ⟨_, becomes_make named called found cased each becomes,
      reduces_make standard named called found reduces⟩
  | literal several each ih =>
    obtain ⟨works, becomes, reduces⟩ := exists_works Reduced.lasts ih
    have closer : ∀ c ∈ ['>'], isQuiet c = true := forall_mem_singleton.mpr (by decide)
    have closed := (Becomes.commaSeparated walk becomes).append (walk.becomes_quiet closer)
      fun tail _ => closes_sign (by decide) (by decide) (by decide) tail
    refine ⟨_, ?_, reduces_literal several reduces⟩
    rw [print]
    have whole := walk.becomes_sign (show isQuiet '<' = true by decide) closed
    simpa only [bind_assoc, pure_bind, cons_append] using whole

end Constructors

end RecordTree
namespace RecordTree

section Conversion

variable {context : Context} {desk : Desk} {tree : RecordTree Token}

/-- A tree is converted to an atom that means its value. -/
theorem IsProper.convert (standard : context.language = standardLanguage)
    (named : context.records.IsNamed)
    (proper : tree.IsProper context.records (Token.Means context desk.store 0)) :
    ∃ atom reached, Gives (context.records.convert (tree.print Token.code)) desk atom reached ∧
      desk.store.Extends reached.store ∧
      context.Atomic reached.store (brackets (tree.print Token.code)) atom
        (tree.value context.records Token.meaning) := by
  obtain ⟨work, becomes, reduces⟩ := proper.reduces standard named
  obtain ⟨nest, middle, run, grown, reduced⟩ := reduces desk (.refl _)
  obtain ⟨atom, reached, atomic, further, collapsed⟩ := collapses standard named nest middle 0 [] []
    reduced.isNest (by simp) rfl
  refine ⟨atom, reached, ?_, grown.trans further, ?_⟩
  · have walk : Walk context.records.constructorRun := named.sound.walk
    rw [Records.convert, Records.convertConstructors_eq, becomes.eq walk]
    refine run.bind ?_
    rw [Records.convertLiterals, Gives]
    simpa [Records.convertLiteralsWithin] using collapsed
  · rw [← reduced.value]
    exact atomic.mono (.refl _) (Nat.add_le_add_left reduced.angles _)

theorem IsProper.rewritten (usage : Usage) (standard : context.language = standardLanguage)
    (named : context.records.IsNamed)
    (proper : tree.IsProper context.records (Token.Means context desk.store 0)) :
    ∃ reached, Gives (context.rewritten usage (tree.print Token.code)) desk
        (tree.value context.records Token.meaning) reached ∧
      desk.store.Extends reached.store ∧
      Legible false (Readable false reached.store 0) (tree.value context.records Token.meaning) := by
  obtain ⟨atom, middle, converted, grown, atomic⟩ := proper.convert standard named
  have depth : brackets (tree.print Token.code) ≤
      Context.depthLimit desk.store (tree.print Token.code) - 1 := by
    have := brackets_le_length (tree.print Token.code)
    simp only [Context.depthLimit]
    omega
  have converted : Gives (context.records.convert (tree.print Token.code)) desk (angled 0 0 atom) middle := by
    simpa [angled] using converted
  obtain ⟨reached, run, further⟩ := Context.Atomic.valueWithin usage standard converted atomic
    depth
  have legible := Context.Expands.legible (fun _ _ holds => holds.legible) atomic.respelled.2.2
  refine ⟨reached, ?_, grown.trans further, legible.readable_mono further le_rfl⟩
  have limit : Context.depthLimit desk.store (tree.print Token.code) - 1 + 1 =
      Context.depthLimit desk.store (tree.print Token.code) := by
    simp [Context.depthLimit]
  rw [limit] at run
  simp only [angled, replicate_zero, nil_append, append_nil] at run
  have valued : Gives (context.value usage (tree.print Token.code)) desk
      (tree.value context.records Token.meaning) reached := by
    rw [Context.value, Gives, outcome_bind, outcome_get]
    exact run
  refine valued.bind ?_
  rw [Index.convert_idle atomic.flat]
  exact .pure _ _

end Conversion

end RecordTree
namespace Expands

variable {stands : Nat → Text → Prop}

theorem record {fields values outs : List Text} (names : ∀ name ∈ fields, opening ∉ name)
    (each : List.Forall₂ (Expands stands) values outs) :
    Expands stands (RecordTree.record fields values) (RecordTree.record fields outs) := by
  refine .braced (.commaSeparated ?_)
  induction fields generalizing values outs with
  | nil => exact .nil
  | cons name fields ih =>
    have plain := names name (.head _)
    have later := fun other member => names other (.tail _ member)
    cases each with
    | nil =>
      refine .cons (.of_plain ?_) (ih later .nil)
      simpa [plain] using (by decide : opening ∉ " = nil".toList)
    | cons here each =>
      refine .cons (Expands.append (.of_plain ?_) here) (ih later each)
      simpa [plain] using (by decide : opening ∉ " = ".toList)

theorem angled {opens closers : Nat} (expands : Expands stands text out) :
    Expands stands (RecordTree.angled opens closers text) (RecordTree.angled opens closers out) := by
  have signs (count : Nat) {sign : Char} (other : sign ≠ opening) :
      Expands stands (List.replicate count sign) (List.replicate count sign) :=
    .of_plain fun member => other (eq_of_mem_replicate member).symm
  exact ((signs opens (by decide)).append expands).append (signs closers (by decide))

end Expands

namespace RecordTree

variable {α β : Type} {records : Records} {admits : α → Prop} {tree : RecordTree α}

/-- What a tree becomes depends on its labels only where they stand. -/
theorem IsProper.value_expands {tree : RecordTree Nat} {admits : Nat → Prop} (named : records.IsNamed)
    (proper : tree.IsProper records admits) (quote : Nat → Text) :
    Expands (fun index value => value = quote index) (tree.value records write)
      (tree.value records quote) := by
  have plain {pair : Text × RecordType} (listed : pair ∈ records) :
      ∀ name ∈ pair.2.fieldNames, opening ∉ name := fun name member inside =>
    isRunChar_ne_opening (by simp [isRunChar, named.fields pair listed name member _ inside]) rfl
  induction tree using value.induct with
  | case1 text =>
    cases proper with
    | word word =>
      rw [value, value]
      exact .of_plain fun member => (word.respelled.2 _ member).2 rfl
  | case2 index =>
    rw [value, value]
    exact .single rfl
  | case3 type arguments ih =>
    cases proper with
    | make called found cased each =>
      obtain ⟨pair, listed, rfl⟩ := Records.get?_mem found
      rw [value_make, value_make]
      refine .record (by simpa [fields, found] using plain listed) ?_
      rw [forall₂_map_left_iff, forall₂_map_right_iff, forall₂_same]
      intro part member
      obtain ⟨argument, among, inside⟩ := mem_flatMap.mp member
      exact .angled (ih part member ((each argument among).part_tree inside))
  | case4 items ih =>
    cases proper with
    | literal several each =>
      have values : List.Forall₂ (Expands fun index value => value = quote index)
          (items.map (·.value records write)) (items.map (·.value records quote)) := by
        rw [forall₂_map_left_iff, forall₂_map_right_iff, forall₂_same]
        exact fun item member => ih item member (each item member)
      rw [value, value, listed, listed, length_map, length_map]
      cases chosen : records.withFields? items.length with
      | none => exact .braced (.commaSeparated values)
      | some type =>
        obtain ⟨pair, listed, rfl⟩ := mem_map.mp (mem_of_find?_eq_some chosen)
        exact .record (plain listed) values

end RecordTree
namespace RecordTree

variable {records : Records}


/-- A quoted literal as it can stand in a source. -/
def IsQuoted (text : Text) : Prop :=
  literal? text = some text ∧ opening ∉ text

/-- The tree with its literals numbered from `start` on, in the order of the text. -/
structure Numbered (records : Records) (start : Nat) (literals : List Text) (tree : RecordTree Text)
    (numbered : RecordTree Nat) : Prop where
  masks : Masks start (tree.print id) literals (numbered.print write)
  proper : numbered.IsProper records fun index => start ≤ index ∧ index < start + literals.length
  labels : ∀ quote : Nat → Text,
    (∀ place text, literals[place]? = some text → quote (start + place) = text) →
      numbered.map quote = tree

theorem exists_numbered_items {items : List (RecordTree Text)}
    (each : ∀ item ∈ items, ∀ start, ∃ literals numbered,
      Numbered records start literals item numbered ∧ ∀ text ∈ literals, opening ∉ text) (start : Nat) :
    ∃ (literals : List Text) (numbered : List (RecordTree Nat)), (∀ text ∈ literals, opening ∉ text) ∧
      numbered.length = items.length ∧
      Masks start (commaSeparated (items.map (print id))) literals
        (commaSeparated (numbered.map (print write))) ∧
      (∀ item ∈ numbered, item.IsProper records fun index =>
        start ≤ index ∧ index < start + literals.length) ∧
      ∀ quote : Nat → Text,
        (∀ place text, literals[place]? = some text → quote (start + place) = text) →
          numbered.map (map quote) = items := by
  induction items generalizing start with
  | nil => exact ⟨[], [], by simp, rfl, .nil, by simp, by simp⟩
  | cons item items ih =>
    obtain ⟨literals, numbered, here, plain⟩ := each item (.head _) start
    obtain ⟨others, rest, plainer, length, masks, proper, labels⟩ :=
      ih (fun other member => each other (.tail _ member)) (start + literals.length)
    refine ⟨literals ++ others, numbered :: rest, forall_mem_append.mpr ⟨plain, plainer⟩,
      by simp [length], ?_, ?_, fun quote same => ?_⟩
    · rw [map_cons, map_cons]
      cases items with
      | nil =>
        obtain rfl : rest = [] := by simpa using length
        simpa [commaSeparated, joinWith] using here.masks.append masks
      | cons next items =>
        have more : rest.map (print write) ≠ [] := by
          simpa using ne_nil_of_length_pos (by rw [length]; simp)
        rw [commaSeparated_start _ (by simp), commaSeparated_start _ more]
        exact here.masks.append (.sign (by simp) (.sign (by simp) masks))
    · rw [length_append]
      refine forall_mem_cons.mpr ⟨here.proper.mono fun index bounds => by omega, ?_⟩
      exact fun other member => (proper other member).mono fun index bounds => by omega
    · rw [map_cons, here.labels quote fun place text found => same place text ?_,
        labels quote fun place text found => ?_]
      · rw [Nat.add_assoc]
        exact same _ text (by rw [getElem?_append_right (by omega)]; simpa using found)
      · rw [List.getElem?_append_left (List.getElem?_eq_some_iff.mp found).1]
        exact found

theorem IsWord.unquoted (word : IsWord text) : ∀ c ∈ text, c ≠ '"' ∧ c ≠ '\'' := by
  intro c member
  have plain := (isRunChar_plain (word.chars.2 c member)).1
  constructor
  · rintro rfl
    simp [isPlainSign] at plain
  · rintro rfl
    simp [isPlainSign] at plain

theorem IsProper.exists_numbered {tree : RecordTree Text} (proper : tree.IsProper records IsQuoted)
    (start : Nat) : ∃ literals numbered, Numbered records start literals tree numbered ∧
      ∀ text ∈ literals, opening ∉ text := by
  induction proper generalizing start with
  | @word text word =>
    refine ⟨[], .word text, ⟨?_, .word word, fun quote _ => by rw [RecordTree.map]⟩, by simp⟩
    rw [print, print]
    exact .code word.unquoted
  | @quoted text whole =>
    refine ⟨[text], .quoted start, ⟨?_, .quoted (by simp), fun quote same => ?_⟩, by simpa using whole.2⟩
    · rw [print, print]
      exact .literal whole.1
    · rw [RecordTree.map, ← same 0 text rfl, Nat.add_zero]
  | @make name type arguments called found cased each ih =>
    obtain ⟨literals, numbered, plain, length, masks, proper, labels⟩ := exists_numbered_items ih start
    refine ⟨literals, .make name numbered, ⟨?_, .make called found cased proper, fun quote same => ?_⟩,
      plain⟩
    · rw [print, print, List.append_assoc, List.append_assoc]
      have lead : Masks start name [] name := .code (IsWord.unquoted (.inl called))
      exact lead.append (.sign (by simp) (masks.closed (by simp)))
    · rw [RecordTree.map, labels quote same]
  | @literal items several each ih =>
    obtain ⟨literals, numbered, plain, length, masks, proper, labels⟩ := exists_numbered_items ih start
    refine ⟨literals, .literal numbered, ⟨?_, .literal (by omega) proper, fun quote same => ?_⟩, plain⟩
    · rw [print, print]
      exact .sign (by simp) (masks.closed (by simp))
    · rw [RecordTree.map, labels quote same]

end RecordTree

namespace Records

theorem collect_named (declarations : Text) (language : Language) :
    (collect language declarations).IsNamed where
  names pair member := by
    obtain ⟨-, line, -, ofLine⟩ := mem_collect member
    obtain ⟨⟨nonempty, letters⟩, -⟩ := RecordType.ofLine?_mem ofLine
    exact ⟨nonempty, fun c inside => (letters c inside).1⟩
  fields pair member name among := by
    obtain ⟨-, line, -, ofLine⟩ := mem_collect member
    obtain ⟨field, listed, rfl⟩ := List.mem_map.mp among
    exact fun c inside => ((RecordType.ofLine?_mem ofLine).2 field listed c inside).1

end Records

namespace Context

variable {context : Context} {tree : RecordTree Text}
variable {arguments : List (RecordTree Text)}

/-- What a tree becomes as an expression. -/
theorem translate_tree (usage : Usage) (standard : context.language = standardLanguage)
    (named : context.records.IsNamed) (proper : tree.IsProper context.records RecordTree.IsQuoted) :
    context.translate usage (tree.print id) = .ok (tree.value context.records id) := by
  obtain ⟨literals, numbered, ⟨masks, numbers, labels⟩, plain⟩ := proper.exists_numbered 0
  set start : Store := Store.withLiterals {} literals with startEq
  have masked : Store.mask {} (tree.print id) = (start, numbered.print write) := by
    simpa [Store.mask, Store.maskFrom] using masks {} [] rfl
  have held (index : Nat) (text : Text) (found : literals[index]? = some text) :
      start.held[index]? = some (.literal text) := by
    simp [startEq, Store.withLiterals, found]
  -- the numbered tree, each literal known by its placeholder and meaning it
  set tokens : RecordTree Token := numbered.map fun index => ⟨write index, write index⟩ with tokensEq
  have printed : tokens.print Token.code = numbered.print write := RecordTree.print_map _ _ _
  have meaning : tokens.value context.records Token.meaning = numbered.value context.records write :=
    RecordTree.value_map _ _ _ _
  have means : tokens.IsProper context.records
      (RecordTree.Token.Means context ({ store := start } : Desk).store 0) :=
    numbers.map fun index bounds => by
      obtain ⟨text, found⟩ : ∃ text, literals[index]? = some text :=
        ⟨_, List.getElem?_eq_getElem (by omega)⟩
      refine .inr ⟨index, rfl, .literal (held index text found) (plain text (List.mem_of_getElem? found)),
        fun member => ?_⟩
      exact isMark_ne (isMark_of_mem_write _ member) (by decide) rfl
  obtain ⟨reached, run, grown, legible⟩ := means.rewritten usage standard named
  rw [printed, meaning] at run
  rw [meaning] at legible
  rw [translate_eq, masked]
  simp only [show outcome _ _ = _ from run]
  rw [Store.restore_literals legible, Expands.fill (numbers.value_expands named
    fun index => reached.store.literals[index]?.getD (write index))]
  have restored := labels (fun index => reached.store.literals[index]?.getD (write index))
    fun place text found => by
      rw [Nat.zero_add, Store.literals_getElem? (grown _ _ (held place text found)), Option.getD_some]
  rw [← restored, RecordTree.value_map]
  rfl

/-- Nested records in any notation become a table, and it is the table that mirrors them exactly if
no literal stands among the arguments that a constructor keeps. -/
theorem translate_mirrors_iff {declarations : Text} (standard : context.language = standardLanguage)
    (collected : context.records = Records.collect standardLanguage declarations) (usage : Usage)
    (proper : tree.IsProper context.records RecordTree.IsQuoted) :
    context.translate usage (tree.print id) = .ok (tree.value context.records id) ∧
      (context.translate usage (tree.print id) = .ok (tree.lua context.records id) ↔
        tree.isClear context.records = true) := by
  have translated := translate_tree usage standard (collected ▸ Records.collect_named _ _) proper
  refine ⟨translated, ?_⟩
  rw [translated, Except.ok.injEq]
  exact proper.value_eq_iff

/-- Two record types, one of which has a field of the other. -/
def nestedDeclarations : Text :=
  "P = <x : entier, y : entier>\nS = <a : P, b : entier>\n".toList

def nestedTypes : Context where
  records := Records.collect standardLanguage nestedDeclarations

def pointType : RecordType where
  name := ['P']
  fields := [⟨['x'], "entier".toList⟩, ⟨['y'], "entier".toList⟩]

def segmentType : RecordType where
  name := ['S']
  fields := [⟨['a'], ['P']⟩, ⟨['b'], "entier".toList⟩]

theorem nestedTypes_collected :
    nestedTypes.records = Records.collect standardLanguage nestedDeclarations :=
  rfl

theorem nestedTypes_language : nestedTypes.language = standardLanguage :=
  rfl

theorem nestedTypes_records : nestedTypes.records = [(['p'], pointType), (['s'], segmentType)] := by
  decide

theorem isProper_point (each : ∀ argument ∈ arguments, argument.IsProper nestedTypes.records IsQuoted) :
    (RecordTree.make ['P'] arguments).IsProper nestedTypes.records IsQuoted := by
  have found : nestedTypes.records.get? ['P'] = some pointType := by
    rw [nestedTypes_records]
    decide
  exact .make (by decide) found rfl each

theorem isProper_segment (each : ∀ argument ∈ arguments, argument.IsProper nestedTypes.records IsQuoted) :
    (RecordTree.make ['S'] arguments).IsProper nestedTypes.records IsQuoted := by
  have found : nestedTypes.records.get? ['S'] = some segmentType := by
    rw [nestedTypes_records]
    decide
  exact .make (by decide) found rfl each

theorem isProper_pair {first second : RecordTree Text}
    (left : first.IsProper nestedTypes.records IsQuoted)
    (right : second.IsProper nestedTypes.records IsQuoted) :
    ∀ tree ∈ [first, second], tree.IsProper nestedTypes.records IsQuoted :=
  List.forall_mem_cons.mpr ⟨left, List.forall_mem_singleton.mpr right⟩

theorem isProper_digit {c : Char} (digit : c.isDigit = true) :
    (RecordTree.word [c]).IsProper nestedTypes.records IsQuoted :=
  .word (.inr ⟨[[c]], by simpa [isNumeral] using digit, by simp⟩)

/-- Constructors in a constructor and in a literal. -/
def clearTree : RecordTree Text :=
  .literal [.make ['S'] [.make ['P'] [.word ['1'], .quoted "\"u, v\"".toList], .word ['2']],
    .literal [.word ['3'], .word ['4']]]

theorem translate_mirrors_iff_clear :
    nestedTypes.translate {} "<S(P(1, \"u, v\"), 2), <3, 4>>".toList =
      .ok "\x7bx = \x7ba = \x7bx = 1, y = \"u, v\"\x7d, b = 2\x7d, y = \x7bx = 3, y = 4\x7d\x7d".toList := by
  have proper : clearTree.IsProper nestedTypes.records IsQuoted :=
    .literal (by decide) (isProper_pair
      (isProper_segment (isProper_pair
        (isProper_point (isProper_pair (isProper_digit (by decide))
          (.quoted ⟨by decide, by decide⟩)))
        (isProper_digit (by decide))))
      (.literal (by decide) (isProper_pair (isProper_digit (by decide)) (isProper_digit (by decide)))))
  have clear : clearTree.isClear nestedTypes.records = true := by
    rw [nestedTypes_records]
    cbv
  have mirrored := (translate_mirrors_iff nestedTypes_language nestedTypes_collected {} proper).2.mpr clear
  have printed : clearTree.print id = "<S(P(1, \"u, v\"), 2), <3, 4>>".toList := by cbv
  have table : clearTree.lua nestedTypes.records id =
      "\x7bx = \x7ba = \x7bx = 1, y = \"u, v\"\x7d, b = 2\x7d, y = \x7bx = 3, y = 4\x7d\x7d".toList := by
    simp only [nestedTypes_records, clearTree, lua, map_cons, map_nil]
    decide
  rw [← printed, ← table]
  exact mirrored

/-- A literal among the arguments of a constructor. -/
def cutTree : RecordTree Text :=
  .make ['S'] [.literal [.word ['1'], .word ['2']], .word ['3']]

/-- A literal among the arguments of a constructor is cut at its comma. -/
theorem translate_literal_argument :
    cutTree.print id = "S(<1, 2>, 3)".toList ∧
      cutTree.lua nestedTypes.records id = "{a = {x = 1, y = 2}, b = 3}".toList ∧
      nestedTypes.translate {} "S(<1, 2>, 3)".toList = .ok "{a = <1, b = 2>}".toList := by
  have proper : cutTree.IsProper nestedTypes.records IsQuoted := by
    exact isProper_segment (isProper_pair (.literal (by decide)
      (isProper_pair (isProper_digit (by decide)) (isProper_digit (by decide))))
      (isProper_digit (by decide)))
  have printed : cutTree.print id = "S(<1, 2>, 3)".toList := by cbv
  have named : nestedTypes.records.IsNamed := nestedTypes_collected ▸ Records.collect_named _ _
  have translated := translate_tree {} rfl named proper
  have cut : cutTree.value nestedTypes.records id = "{a = <1, b = 2>}".toList := by
    simp only [nestedTypes_records, cutTree, value_make, parts, flatMap_cons, flatMap_nil,
      cons_append, nil_append, closeLast, openFirst, map_cons, map_nil, Part.text,
      RecordTree.value]
    decide
  refine ⟨printed, ?_, by rw [← printed, ← cut]; exact translated⟩
  simp only [nestedTypes_records, cutTree, lua, map_cons, map_nil]
  decide

end Context

end Pseudocode
