import Pseudocode.Proofs.LetterCase
import Pseudocode.Proofs.RecordValue

namespace Pseudocode

open List Option

section Order

variable {names others : List Text} {text : Text}

/-- The first value that a search finds does not depend on the order of equal measures, if those of the
greatest measure come first and equal measures find the same. -/
theorem findSome?_eq_of_perm {α β : Type} {find : α → Option β} {size : α → Nat} {items others : List α}
    (alike : ∀ a b, size a = size b → (find a).isSome → (find b).isSome → find a = find b)
    (same : items.Perm others) (ordered : items.Pairwise fun a b => size b ≤ size a)
    (also : others.Pairwise fun a b => size b ≤ size a) : items.findSome? find = others.findSome? find := by
  -- what is found first has the greatest size of all that would be found
  have greatest {items : List α} {value : β} (ordered : items.Pairwise fun a b => size b ≤ size a)
      (found : items.findSome? find = some value) :
      ∃ a ∈ items, find a = some value ∧ ∀ b ∈ items, (find b).isSome → size b ≤ size a := by
    obtain ⟨before, a, after, rfl, here, none⟩ := findSome?_eq_some_iff.mp found
    refine ⟨a, by simp, here, fun b listed some => ?_⟩
    rcases mem_append.mp listed with early | late
    · simp [none b early] at some
    · rcases mem_cons.mp late with rfl | late
      · exact le_rfl
      · exact (pairwise_cons.mp (pairwise_append.mp ordered).2.1).1 b late
  cases found : items.findSome? find with
  | none =>
    refine (findSome?_eq_none_iff.mpr fun b listed => ?_).symm
    exact findSome?_eq_none_iff.mp found b (same.mem_iff.mpr listed)
  | some value =>
    obtain ⟨a, listed, here, most⟩ := greatest ordered found
    cases other : others.findSome? find with
    | none =>
      have absent := findSome?_eq_none_iff.mp other a (same.mem_iff.mp listed)
      rw [here] at absent
      cases absent
    | some next =>
      obtain ⟨b, among, there, more⟩ := greatest also other
      have size : size a = size b := Nat.le_antisymm
        (more a (same.mem_iff.mp listed) (by simp [here])) (most b (same.mem_iff.mpr among) (by simp [there]))
      have agree := alike a b size (by simp [here]) (by simp [there])
      rw [here, there] at agree
      exact agree

/-- Names of one length take the same stretch of a text, so their order does not matter. -/
theorem namedCallee_perm (same : names.Perm others) :
    namedCallee (longestFirst names) = namedCallee (longestFirst others) := by
  have ordered (names : List Text) : (longestFirst names).Pairwise fun a b => b.length ≤ a.length := by
    have sorted := @List.pairwise_mergeSort Text (fun a b => decide (b.length ≤ a.length))
      (by simp; omega) (by simp; omega) names
    simpa [longestFirst] using sorted
  funext text
  refine findSome?_eq_of_perm (fun a b length first second => ?_)
    ((mergeSort_perm _ _).trans (same.trans (mergeSort_perm _ _).symm)) (ordered names) (ordered others)
  obtain ⟨_, first⟩ := isSome_iff_exists.mp first
  obtain ⟨_, second⟩ := isSome_iff_exists.mp second
  obtain ⟨_, word, first⟩ := bind_eq_some_iff.mp first
  obtain ⟨_, other, second⟩ := bind_eq_some_iff.mp second
  rw [word, other, bind_some, bind_some, length]

theorem lookup_eq_of_perm {κ α : Type} [BEq κ] [LawfulBEq κ] {bound others : List (κ × α)}
    (same : bound.Perm others) (distinct : (bound.map Prod.fst).Nodup) (key : κ) :
    bound.lookup key = others.lookup key := by
  induction same with
  | nil => rfl
  | cons pair _ ih =>
    rw [lookup_cons, lookup_cons, ih (nodup_cons.mp distinct).2]
  | swap first second rest =>
    obtain ⟨one, value⟩ := first
    obtain ⟨two, other⟩ := second
    have apart : one ≠ two := by
      rintro rfl
      simp at distinct
    by_cases atOne : key = one
    · subst atOne
      have here : (key == two) = false := by simpa using apart
      simp [lookup_cons, here]
    · have here : (key == one) = false := by simpa using atOne
      simp [lookup_cons, here]
  | trans first _ ih also =>
    exact (ih distinct).trans (also ((first.map _).nodup_iff.mp distinct))

end Order

theorem subscript_mem_lower {text : Text} : '\u0345' ∈ lower text ↔ '\u0345' ∈ text := by
  unfold lower
  generalize [] = before
  induction text generalizing before with
  | nil => rfl
  | cons c rest ih =>
    rw [lowerAfter, mem_append, ih, mem_cons]
    refine or_congr_left ?_
    split
    · rename_i dotted
      simp [dotted]
    · split
      · rename_i sigma
        split <;> simp [sigma]
      · rw [mem_singleton]
        constructor
        · exact fun small => (eq_subscript_of_smallLetter small.symm).symm
        · rintro rfl
          decide

/-- The work always ends well. -/
def Conversion.Returns {α : Type} (work : Conversion α) : Prop :=
  ∀ desk, ∃ value reached, Gives work desk value reached

theorem Conversion.Returns.bind {α β : Type} {work : Conversion α} {next : α → Conversion β}
    (first : Returns work) (second : ∀ value, Returns (next value)) : Returns (work >>= next) := by
  intro desk
  obtain ⟨value, reached, run⟩ := first desk
  obtain ⟨result, final, rest⟩ := second value reached
  exact ⟨result, final, run.bind rest⟩

theorem Conversion.Returns.pure {α : Type} (value : α) : Returns (Pure.pure value) :=
  fun desk => ⟨value, desk, .pure value desk⟩

namespace Records

variable {records others : Records} {text rest : Text} {before : Option Char} {head : CallHead}

theorem convertConstructors_perm (same : records.Perm others) (distinct : (records.map (·.1)).Nodup) :
    records.convertConstructors = others.convertConstructors := by
  have found : records.get? = others.get? := funext fun name => lookup_eq_of_perm same distinct (lower name)
  funext text
  rw [convertConstructors_eq, convertConstructors_eq, constructorRun, constructorRun,
    namedCallee_perm (same.map _), found]

/-- A stretch of the text that is the name of a type in any letter case is its name in small
letters. -/
def ReadsAlike (records : Records) (text : Text) : Prop :=
  ∀ word, word <:+: text → ∀ pair ∈ records,
    word.map caseKey = pair.2.name.map caseKey → lower word = lower pair.2.name

theorem ReadsAlike.of_letters (plain : ∀ c ∈ text, isPlainCase c = true)
    (names : ∀ pair ∈ records, ∀ c ∈ pair.2.name, isPlainCase c = true) : records.ReadsAlike text := by
  intro word inside pair listed same
  rw [lower_eq_map_caseKey fun c member => plain c (inside.subset member), same,
    lower_eq_map_caseKey (names pair listed)]

/-- The name in front of a parenthesis is that of a declared type, and a whole word. -/
theorem IsNamed.callAt?_whole (named : records.IsNamed) (alike : records.ReadsAlike text) (inside : rest <:+: text)
    (found : callAt? (namedCallee (longestFirst (records.map (·.2.name)))) before rest = some head) :
    atNameStart before = true ∧ rest.takeWhile isWordChar = head.name ∧
      ∃ pair ∈ records, lower head.name = lower pair.2.name := by
  simp only [callAt?, ite_none_right_eq_some] at found
  obtain ⟨start, found⟩ := found
  obtain ⟨after, split⟩ := named.sound.split found
  obtain ⟨-, name, listed, same⟩ := namedCallee_eq_some found
  obtain ⟨pair, declared, rfl⟩ := mem_map.mp (mem_mergeSort.mp listed)
  have part : head.name <:+: text := .trans ⟨[], _, by simpa using split.symm⟩ inside
  have lowered := alike head.name part pair declared same
  have letters : ∀ c ∈ head.name, isWordChar c = true := by
    intro c member
    by_contra outside
    obtain ⟨d, among, key⟩ := mem_map.mp (same ▸ mem_map_of_mem member)
    have subscript := eq_subscript_of_caseKey key.symm (by simpa using outside)
      ((named.names pair declared).2 d among)
    have shown := subscript_mem_lower.mp (lowered ▸ subscript_mem_lower.mpr (subscript ▸ member))
    exact absurd ((named.names pair declared).2 _ shown) (by decide)
  have stop : (head.gap ++ '(' :: after).takeWhile isWordChar = [] := by
    cases gap : head.gap with
    | nil => rfl
    | cons c blanks =>
      have blank := named.sound.gap found c (by simp [gap])
      simp [isBlank_not_wordChar blank]
  refine ⟨start, ?_, pair, declared, lowered⟩
  rw [split, takeWhile_append_of_pos letters, stop, append_nil]

theorem get?_declared (keyed : ∀ pair ∈ records, pair.1 = lower pair.2.name) {name : Text}
    (declared : ∃ pair ∈ records, lower name = lower pair.2.name) : ∃ type, records.get? name = some type := by
  obtain ⟨pair, listed, same⟩ := declared
  refine ne_none_iff_exists'.mp fun absent => ?_
  have other := lookup_eq_none_iff.mp absent pair listed
  rw [keyed pair listed, same] at other
  simp at other

theorem IsNamed.constructorRun_returns (named : records.IsNamed)
    (keyed : ∀ pair ∈ records, pair.1 = lower pair.2.name) (alike : records.ReadsAlike text)
    (before : Option Char) (part : Text) (inside : part <:+: text) :
    Conversion.Returns (records.constructorRun before part) := by
  unfold constructorRun
  fun_induction convertCalls _ _ _ before part with
  | case1 => exact .pure []
  | case2 before c rest none ih => exact (ih (.trans ⟨[c], [], by simp⟩ inside)).bind fun _ => .pure _
  | case3 => exact .bind (fun _ => ⟨_, _, rfl⟩) fun _ => .pure _
  | case4 before c rest head found argument after closed _ _ ihArgument ihAfter =>
    have dropped : (c :: rest).drop head.length <:+: text := (drop_suffix _ _).isInfix.trans inside
    rw [splitParen?_eq_some closed] at dropped
    have first : argument <:+: text := .trans ⟨[], ')' :: after, by simp⟩ dropped
    have second : after <:+: text := .trans ⟨argument ++ [')'], [], by simp⟩ dropped
    obtain ⟨type, listed⟩ := get?_declared keyed (named.callAt?_whole alike inside found).2.2
    split
    refine (ihArgument first).bind fun arguments => ?_
    rw [listed]
    exact .bind (fun _ => ⟨_, _, rfl⟩) fun _ => (ihAfter second).bind fun _ => .pure _

/-- Registries that hold the same types in different orders convert constructor calls in the same way:
to the same text, with the same placeholders held. Where letter case plays no part in a lookup but to
be set aside, the conversion returns, and every name it takes for that of a type is a whole word. -/
theorem convertConstructors_order_free (same : records.Perm others) (distinct : (records.map (·.1)).Nodup) :
    (∀ text desk, outcome (records.convertConstructors text) desk =
      outcome (others.convertConstructors text) desk) ∧
    ∀ text, records.IsNamed → (∀ pair ∈ records, pair.1 = lower pair.2.name) → records.ReadsAlike text →
      Conversion.Returns (records.convertConstructors text) ∧
      ∀ before rest head, rest <:+: text →
        callAt? (namedCallee (longestFirst (records.map (·.2.name)))) before rest = some head →
        atNameStart before = true ∧ rest.takeWhile isWordChar = head.name ∧
          ∃ type, records.get? head.name = some type := by
  refine ⟨fun text desk => by rw [convertConstructors_perm same distinct], fun text named keyed alike => ⟨?_, ?_⟩⟩
  · rw [convertConstructors_eq]
    exact named.constructorRun_returns keyed alike none text infix_rfl
  · intro before rest head inside found
    obtain ⟨start, whole, declared⟩ := named.callAt?_whole alike inside found
    exact ⟨start, whole, get?_declared keyed declared⟩

/-- Two types of which one has a name that starts the other's, in both orders. -/
theorem convertConstructors_order_free_nested :
    let longer : Text × RecordType := (['a', 'b'], { name := ['A', 'b'], fields := [⟨['x'], []⟩] })
    let shorter : Text × RecordType := (['a'], { name := ['A'], fields := [⟨['y'], []⟩] })
    let text := ['a', 'B', '(', 'A', '(', '1', ')', ')', '+', 'a', '(']
    (∀ desk, outcome (convertConstructors [longer, shorter] text) desk =
      outcome (convertConstructors [shorter, longer] text) desk) ∧
    Conversion.Returns (convertConstructors [longer, shorter] text) ∧
    ∃ head, callAt? (namedCallee (longestFirst [longer.2.name, shorter.2.name])) none text = some head ∧
      text.takeWhile isWordChar = head.name := by
  intro longer shorter text
  have plain : text.all isPlainCase = true ∧
      [longer, shorter].all (fun pair => pair.2.name.all isPlainCase) = true := by
    decide
  have letters : [longer, shorter].all (fun pair =>
      !pair.2.name.isEmpty && pair.2.name.all isWordChar && pair.2.fieldNames.all (·.all isWordChar)) = true := by
    decide
  simp only [List.all_eq_true, Bool.and_eq_true, Bool.not_eq_true', List.isEmpty_eq_false_iff] at plain letters
  have named : IsNamed [longer, shorter] :=
    ⟨fun pair listed => (letters pair listed).1, fun pair listed => (letters pair listed).2⟩
  have keyed : ∀ pair ∈ [longer, shorter], pair.1 = lower pair.2.name := by decide
  have alike : ReadsAlike [longer, shorter] text := .of_letters plain.1 plain.2
  obtain ⟨outcomes, rest⟩ := convertConstructors_order_free (List.Perm.swap shorter longer []) (by decide)
  obtain ⟨returns, whole⟩ := rest text named keyed alike
  have found : callAt? (namedCallee (longestFirst [longer.2.name, shorter.2.name])) none text =
      some { name := ['a', 'B'], gap := [] } := by
    rw [longestFirst, mergeSort_of_pairwise (by decide)]
    decide
  exact ⟨outcomes text, returns, _, found, (whole none text _ infix_rfl found).2.1⟩

end Records

end Pseudocode
