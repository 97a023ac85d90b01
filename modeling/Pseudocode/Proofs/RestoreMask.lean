import Pseudocode.Proofs.Masking

namespace Pseudocode

open List Option Placeholder

/-- What may stand between double quotes: a backslash takes the next character along, unless that is a
line feed. -/
inductive QuotedBody : Text → Prop
  | nil : QuotedBody []
  | escape {c : Char} {rest : Text} : c ≠ '\n' → QuotedBody rest → QuotedBody ('\\' :: c :: rest)
  | plain {c : Char} {rest : Text} : c ≠ '"' → c ≠ '\\' → QuotedBody rest → QuotedBody (c :: rest)

/-- A string or character literal from its first quote to its last. -/
inductive IsLiteral : Text → Prop
  | string {body : Text} : QuotedBody body → IsLiteral ('"' :: body ++ ['"'])
  | escape {c : Char} : c ≠ '\n' → IsLiteral ['\'', '\\', c, '\'']
  | character {c : Char} : c ≠ '\\' → c ≠ '\'' → IsLiteral ['\'', c, '\'']

theorem QuotedBody.of_doubleQuotedRest? {text rest : Text} (found : doubleQuotedRest? text = some rest) :
    ∃ body, QuotedBody body ∧ rest = body ++ ['"'] := by
  fun_induction doubleQuotedRest? text generalizing rest with
  | case1 => simp at found
  | case2 => simp at found
  | case3 => simp at found
  | case4 c text other ih =>
    obtain ⟨tail, inner, rfl⟩ := map_eq_some_iff.mp found
    obtain ⟨body, quoted, rfl⟩ := ih inner
    exact ⟨_, .escape other quoted, rfl⟩
  | case5 => exact ⟨[], .nil, by simpa using found.symm⟩
  | case6 c text alone escaped other ih =>
    obtain ⟨tail, inner, rfl⟩ := map_eq_some_iff.mp found
    obtain ⟨body, quoted, rfl⟩ := ih inner
    have solid : c ≠ '\\' := by
      rintro rfl
      cases text with
      | nil => exact alone rfl rfl
      | cons d text => exact escaped d text rfl rfl
    exact ⟨_, .plain other solid quoted, rfl⟩

theorem QuotedBody.doubleQuotedRest? {body : Text} (quoted : QuotedBody body) :
    doubleQuotedRest? (body ++ ['"']) = some (body ++ ['"']) := by
  induction quoted with
  | nil => rfl
  | escape other _ ih => simp [Pseudocode.doubleQuotedRest?, other, ih]
  | plain quote slash _ ih =>
    rw [cons_append, Pseudocode.doubleQuotedRest?, if_neg quote, ih]
    · rfl
    · exact fun same => absurd same slash
    · exact fun _ _ same => absurd same slash

/-- At most one literal starts a text, and it is the one that is found there. -/
theorem literal?_eq_some_iff {text literal : Text} :
    literal? text = some literal ↔ IsLiteral literal ∧ literal <+: text := by
  constructor
  · intro found
    refine ⟨?_, (literal?_starts found).1⟩
    unfold literal? at found
    split at found
    · obtain ⟨rest, quoted, rfl⟩ := map_eq_some_iff.mp found
      obtain ⟨body, inner, rfl⟩ := QuotedBody.of_doubleQuotedRest? quoted
      exact .string inner
    · split at found
      · simp at found
      · obtain rfl := Option.some.inj found
        exact .escape ‹_›
    · split at found
      · simp at found
      · rename_i other
        obtain rfl := Option.some.inj found
        exact .character (fun same => other (.inl same)) fun same => other (.inr same)
    · simp at found
  · rintro ⟨isLiteral, rest, rfl⟩
    refine literal?_append ?_ rest
    cases isLiteral with
    | string quoted => simp [literal?, quoted.doubleQuotedRest?]
    | escape other => simp [literal?, other]
    | character slash quote =>
      unfold literal?
      split <;> simp_all

/-- A text read from left to right: its literals are taken out one after the other, and placeholders
that are numbered from `start` on stand in their places. -/
inductive Scans : (start : Nat) → Text → List Text → Text → Prop
  | nil {start : Nat} : Scans start [] [] []
  | literal {start : Nat} {literal rest masked : Text} {literals : List Text} :
      IsLiteral literal → Scans (start + 1) rest literals masked →
        Scans start (literal ++ rest) (literal :: literals) (write start ++ masked)
  | code {start : Nat} {c : Char} {rest masked : Text} {literals : List Text} :
      (∀ literal, IsLiteral literal → ¬literal <+: c :: rest) → Scans start rest literals masked →
        Scans start (c :: rest) literals (c :: masked)

theorem exists_scans (start : Nat) (text : Text) : ∃ literals masked, Scans start text literals masked := by
  induction length : text.length using Nat.strong_induction_on generalizing start text with
  | _ _ ih =>
    subst length
    cases text with
    | nil => exact ⟨[], [], .nil⟩
    | cons c rest =>
      cases found : literal? (c :: rest) with
      | none =>
        obtain ⟨literals, masked, scans⟩ := ih rest.length (by simp) start rest rfl
        refine ⟨literals, c :: masked, .code (fun literal isLiteral starts => ?_) scans⟩
        simp [literal?_eq_some_iff.mpr ⟨isLiteral, starts⟩] at found
      | some literal =>
        obtain ⟨isLiteral, after, split⟩ := literal?_eq_some_iff.mp found
        have solid := length_pos_iff.mpr (literal?_starts found).2
        have lengths := congrArg List.length split
        rw [length_append] at lengths
        obtain ⟨literals, masked, scans⟩ := ih after.length (by omega) (start + 1) after rfl
        exact ⟨literal :: literals, write start ++ masked, split ▸ .literal isLiteral scans⟩

section Scanned

variable {start : Nat} {text masked : Text} {literals : List Text}

theorem Scans.maskFrom (scans : Scans start text literals masked) {store : Store}
    (size : store.held.size = start) : store.maskFrom 0 text = (store.withLiterals literals, masked) := by
  induction scans generalizing store with
  | nil => simp [Store.maskFrom]
  | @literal start literal rest masked literals isLiteral _ ih =>
    have whole := literal?_eq_some_iff.mpr ⟨isLiteral, prefix_rfl⟩
    rw [Masks.literal whole store rest size, ih (by simp [size]), ← Store.withLiterals_append]
    rfl
  | code none _ ih =>
    have code := eq_none_iff_forall_not_mem.mpr fun literal found =>
      none literal (literal?_eq_some_iff.mp found).1 (literal?_eq_some_iff.mp found).2
    rw [Store.maskFrom_code code, ih size]

theorem Scans.isInfix (scans : Scans start text literals masked) :
    ∀ literal ∈ literals, IsLiteral literal ∧ literal <:+: text := by
  induction scans with
  | nil => simp
  | literal isLiteral _ ih =>
    refine forall_mem_cons.mpr ⟨⟨isLiteral, (prefix_append _ _).isInfix⟩, fun other member => ?_⟩
    obtain ⟨others, inside⟩ := ih other member
    exact ⟨others, inside.trans (suffix_append _ _).isInfix⟩
  | code _ _ ih =>
    intro literal member
    obtain ⟨isLiteral, inside⟩ := ih literal member
    exact ⟨isLiteral, inside.trans (suffix_cons _ _).isInfix⟩

theorem Store.withLiterals_getElem? (store : Store) (literal : Text) (literals : List Text) :
    (store.withLiterals (literal :: literals)).held[store.held.size]? = some (.literal literal) := by
  simp [withLiterals]

theorem Scans.restoreOnce (scans : Scans start text literals masked) {store : Store}
    (size : store.held.size = start) (plain : opening ∉ text) :
    (store.withLiterals literals).restoreOnce masked = .ok text := by
  induction scans generalizing store with
  | nil => exact Store.restoreOnce_nil _
  | @literal start literal rest masked literals _ _ ih =>
    have later := @ih (store.withLiterals [literal]) (by simp [size])
      fun member => plain (mem_append_right _ member)
    rw [← Store.withLiterals_append] at later
    have held := store.withLiterals_getElem? literal literals
    rw [size] at held
    rw [Store.restoreOnce_literal held, show literal :: literals = [literal] ++ literals from rfl, later]
    rfl
  | code _ _ ih =>
    rw [Store.restoreOnce_cons _ (Ne.symm (ne_of_not_mem_cons plain)),
      ih size (not_mem_of_not_mem_cons plain)]
    rfl

end Scanned

namespace Store

/-- The text after so many rounds of putting literals back. -/
def restoreTimes (store : Store) : (rounds : Nat) → Text → Except Fault Text
  | 0, text => .ok text
  | rounds + 1, text => store.restoreOnce text >>= store.restoreTimes rounds

variable {store : Store} {index : Nat} {entries : List Entry}

theorem restoreOnce_table (held : store.held[index]? = some (.table entries)) (rest : Text) :
    store.restoreOnce (write index ++ rest) = (store.restoreOnce rest).map (write index ++ ·) :=
  store.restoreOnce_of_pieces (pieces_write index rest) (by simp [restorePiece, held])

theorem restoreOnce_append {first second : Text}
    (shape : pieces (first ++ second) = pieces first ++ pieces second) :
    store.restoreOnce (first ++ second) =
      (store.restoreOnce first).bind fun left => (store.restoreOnce second).map (left ++ ·) := by
  rw [restoreOnce, restoreOnce, restoreOnce, shape, mapM_append]
  cases (pieces first).mapM store.restorePiece with
  | error fault => rfl
  | ok left =>
    cases (pieces second).mapM store.restorePiece with
    | error fault => rfl
    | ok right => exact congrArg Except.ok flatten_append

/-- A round leaves the placeholder of a table where it is, and what stands before and after it is
treated as if it stood alone. -/
theorem restoreOnce_around (held : store.held[index]? = some (.table entries)) {before after next : Text} :
    store.restoreOnce (before ++ write index ++ after) = .ok next ↔ ∃ left right,
      store.restoreOnce before = .ok left ∧ store.restoreOnce after = .ok right ∧
        next = left ++ write index ++ right := by
  have shape : pieces (before ++ (write index ++ after)) = pieces before ++ pieces (write index ++ after) := by
    rw [write_eq, cons_append, pieces_upto]
  rw [append_assoc, restoreOnce_append shape, restoreOnce_table held]
  cases store.restoreOnce before with
  | error fault => simp [Except.bind]
  | ok left =>
    cases store.restoreOnce after with
    | error fault => simp [Except.bind, Except.map]
    | ok right => simp [Except.bind, Except.map, eq_comm]

/-- The placeholder of a table is still there when all rounds are over. -/
theorem restoreWithin_around (held : store.held[index]? = some (.table entries)) {rounds : Nat}
    {before after out : Text} (restored : store.restoreWithin rounds (before ++ write index ++ after) = .ok out) :
    ∃ n left right, store.restoreTimes n before = .ok left ∧ store.restoreTimes n after = .ok right ∧
      out = left ++ write index ++ right := by
  induction rounds generalizing before after with
  | zero => simp [restoreWithin] at restored
  | succ rounds ih =>
    rw [restoreWithin] at restored
    cases once : store.restoreOnce (before ++ write index ++ after) with
    | error fault =>
      rw [once] at restored
      simp at restored
    | ok next =>
      obtain ⟨left, right, leftOnce, rightOnce, rfl⟩ := (restoreOnce_around held).mp once
      simp only [once] at restored
      split at restored
      · exact ⟨0, before, after, rfl, rfl, (Except.ok.inj restored).symm⟩
      · obtain ⟨n, first, last, firstTimes, lastTimes, shape⟩ := ih restored
        refine ⟨n + 1, first, last, ?_, ?_, shape⟩
        · rw [restoreTimes, leftOnce]
          exact firstTimes
        · rw [restoreTimes, rightOnce]
          exact lastTimes

/-- A text with its literals back in place, where tables keep their placeholders. -/
def restored (store : Store) (text : Text) : Text :=
  (pieces text).flatMap fun
    | .plain c => [c]
    | .placeholder index written =>
      match store.held[index]? with
      | some (.literal literal) => literal
      | _ => written

/-- What is held, and in which no further placeholder shows up once it is put back. -/
def Settled (store : Store) (index : Nat) : Prop :=
  ∃ part, store.held[index]? = some part ∧ ∀ literal, part = .literal literal → opening ∉ literal

/-- Where all placeholders of a text are known, literals are put back and tables stay. -/
theorem restore_settled {text : Text} (legible : Legible false store.Settled text) :
    store.restore text = .ok (store.restored text) := by
  suffices rounds : store.restoreOnce text = .ok (store.restored text) ∧
      store.restoreOnce (store.restored text) = .ok (store.restored text) from restore_of_once rounds.1 rounds.2
  induction legible with
  | nil => exact ⟨rfl, rfl⟩
  | @plain c rest ne _ _ ih =>
    have shape : store.restored (c :: rest) = c :: store.restored rest := by
      simp [restored, pieces_plain ne]
    rw [shape, restoreOnce_cons _ ne, restoreOnce_cons _ ne, ih.1, ih.2]
    exact ⟨rfl, rfl⟩
  | @placeholder index rest known _ ih =>
    obtain ⟨part, held, unmarked⟩ := known
    cases part with
    | literal literal =>
      have shape : store.restored (write index ++ rest) = literal ++ store.restored rest := by
        simp [restored, pieces_write, held]
      rw [shape, restoreOnce_literal held, store.restoreOnce_text (unmarked literal rfl), ih.1, ih.2]
      exact ⟨rfl, rfl⟩
    | table entries =>
      have shape : store.restored (write index ++ rest) = write index ++ store.restored rest := by
        simp [restored, pieces_write, held]
      rw [shape, restoreOnce_table held, restoreOnce_table held, ih.1, ih.2]
      exact ⟨rfl, rfl⟩

/-- Masking and putting back are inverse to each other, whatever is held already. Masking holds back the
literals that are found from left to right, each as it is written and after all that was held before;
putting them back gives the text again, and it leaves the placeholders of tables alone. -/
theorem restore_mask (store : Store) :
    (∀ text, (∃ literals masked, Scans store.held.size text literals masked) ∧
      ∀ literals masked, Scans store.held.size text literals masked →
        store.mask text = (store.withLiterals literals, masked) ∧
          (opening ∉ text → (store.withLiterals literals).restore masked = .ok text)) ∧
    (∀ index entries, store.held[index]? = some (.table entries) → ∀ rounds before after out,
      store.restoreWithin rounds (before ++ write index ++ after) = .ok out →
        ∃ n left right, store.restoreTimes n before = .ok left ∧ store.restoreTimes n after = .ok right ∧
          out = left ++ write index ++ right) ∧
    ∀ text, Legible false store.Settled text → store.restore text = .ok (store.restored text) := by
  refine ⟨fun text => ⟨exists_scans _ text, fun literals masked scans => ⟨scans.maskFrom rfl, fun plain => ?_⟩⟩,
    fun index entries held rounds before after out => restoreWithin_around held, fun text => restore_settled⟩
  exact restore_of_once (scans.restoreOnce rfl plain) (restoreOnce_plain _ plain)

/-- An apostrophe, an escaped quote, a quoted character and a quote that is never closed, masked where a
table is held already. -/
theorem restore_mask_quotes :
    (∃ literals masked, Scans 1 "l'a \"b\\\"\" 'c' \"d".toList literals masked ∧
      (withLiterals { held := #[.table []] } literals).restore masked = .ok "l'a \"b\\\"\" 'c' \"d".toList) ∧
    (∃ n left right, restoreTimes { held := #[.table []] } n ['x'] = .ok left ∧
      restoreTimes { held := #[.table []] } n ['y'] = .ok right ∧
        ['x'] ++ write 0 ++ ['y'] = left ++ write 0 ++ right) ∧
    restore { held := #[.table []] } (write 0) = .ok (restored { held := #[.table []] } (write 0)) := by
  obtain ⟨masking, tables, settled⟩ := restore_mask { held := #[.table []] }
  obtain ⟨⟨literals, masked, scans⟩, all⟩ := masking "l'a \"b\\\"\" 'c' \"d".toList
  have known : Settled { held := #[.table []] } 0 := ⟨.table [], rfl, by simp⟩
  refine ⟨⟨literals, masked, scans, (all literals masked scans).2 (by decide)⟩, ?_, settled _ ?_⟩
  · exact tables 0 [] rfl 1 ['x'] ['y'] _ (by decide +kernel)
  · exact .single known

end Store

end Pseudocode
