import Pseudocode.Proofs.Opaque

namespace Pseudocode

open Placeholder

/-- The store with more literals. -/
def Store.withLiterals (store : Store) (literals : List Text) : Store where
  held := store.held ++ (literals.map Held.literal).toArray

@[simp] theorem Store.withLiterals_nil (store : Store) : store.withLiterals [] = store := by
  simp [withLiterals]

theorem Store.withLiterals_append (store : Store) (first second : List Text) :
    store.withLiterals (first ++ second) = (store.withLiterals first).withLiterals second := by
  simp [withLiterals]

@[simp] theorem Store.withLiterals_size (store : Store) (literals : List Text) :
    (store.withLiterals literals).held.size = store.held.size + literals.length := by
  simp [withLiterals]

theorem Store.maskFrom_skip (store : Store) (skip : Nat) (text : Text) :
    store.maskFrom skip text = store.maskFrom 0 (text.drop skip) := by
  induction text generalizing skip with
  | nil => cases skip <;> simp [maskFrom]
  | cons c text ih =>
    cases skip with
    | zero => rfl
    | succ skip => rw [maskFrom, ih, List.drop_succ_cons]

/-- Whatever follows, masking takes these literals out of the text and puts placeholders in that
are numbered from `start` on. -/
def Masks (start : Nat) (text : Text) (literals : List Text) (masked : Text) : Prop :=
  ∀ (store : Store) (rest : Text), store.held.size = start →
    store.maskFrom 0 (text ++ rest) =
      (((store.withLiterals literals).maskFrom 0 rest).1,
        masked ++ ((store.withLiterals literals).maskFrom 0 rest).2)

theorem literal?_code {c : Char} (double : c ≠ '"') (single : c ≠ '\'') (rest : Text) :
    literal? (c :: rest) = none := by
  unfold literal?
  split
  · simp_all
  · simp_all
  · simp_all
  · rfl

theorem literal?_append {text : Text} (whole : literal? text = some text) (rest : Text) :
    literal? (text ++ rest) = some text := by
  have double (body : Text) (closed : doubleQuotedRest? body = some body) :
      doubleQuotedRest? (body ++ rest) = some body := by
    fun_induction doubleQuotedRest? body with
    | case1 => simp at closed
    | case2 => simp at closed
    | case3 => simp at closed
    | case4 c body other ih =>
      obtain ⟨tail, found, same⟩ := Option.map_eq_some_iff.mp closed
      simp only [List.cons.injEq, true_and] at same
      subst same
      simp [doubleQuotedRest?, other, ih found]
    | case5 body first second =>
      obtain rfl : body = [] := by simpa using closed.symm
      simp [doubleQuotedRest?]
    | case6 c body alone escaped other ih =>
      obtain ⟨tail, found, same⟩ := Option.map_eq_some_iff.mp closed
      obtain rfl : tail = body := by simpa using same
      have plain : c ≠ '\\' := by
        rintro rfl
        cases tail with
        | nil => exact alone rfl rfl
        | cons d tail => exact escaped d tail rfl rfl
      rw [List.cons_append, doubleQuotedRest?, if_neg other, ih found]
      · rfl
      · exact fun slash => absurd slash plain
      · exact fun _ _ slash => absurd slash plain
  unfold literal? at whole
  split at whole
  · obtain ⟨body, found, same⟩ := Option.map_eq_some_iff.mp whole
    simp only [List.cons.injEq, true_and] at same
    subst same
    simp [literal?, double _ found]
  · split at whole
    · simp at whole
    · rename_i other
      obtain ⟨rfl⟩ : _ = [] := by simpa using whole.symm
      simp [literal?, other]
  · split at whole
    · simp at whole
    · rename_i other
      obtain ⟨rfl⟩ : _ = [] := by simpa using whole.symm
      push Not at other
      unfold literal?
      split <;> simp_all
  · simp at whole

namespace Masks

variable {start : Nat} {text rest masked more : Text} {literals others : List Text}

theorem nil : Masks start [] [] [] := by
  intro store rest _
  simp

theorem append (first : Masks start text literals masked)
    (second : Masks (start + literals.length) rest others more) :
    Masks start (text ++ rest) (literals ++ others) (masked ++ more) := by
  intro store tail size
  rw [List.append_assoc, first store _ size, second _ tail (by simp [size]), List.append_assoc,
    Store.withLiterals_append]

theorem code (plain : ∀ c ∈ text, c ≠ '"' ∧ c ≠ '\'') : Masks start text [] text := by
  intro store tail size
  induction text with
  | nil => simp
  | cons c text ih =>
    obtain ⟨double, single⟩ := plain c (.head _)
    rw [List.cons_append, Store.maskFrom_code (literal?_code double single _),
      ih fun d member => plain d (.tail _ member)]
    rfl

theorem sign {c : Char} (plain : c ≠ '"' ∧ c ≠ '\'') (masks : Masks start text literals masked) :
    Masks start (c :: text) literals (c :: masked) := by
  have lead : Masks start [c] [] [c] := .code (by simpa using plain)
  exact lead.append masks

theorem closed {c : Char} (plain : c ≠ '"' ∧ c ≠ '\'') (masks : Masks start text literals masked) :
    Masks start (text ++ [c]) literals (masked ++ [c]) := by
  have tail : Masks (start + literals.length) [c] [] [c] := .code (by simpa using plain)
  simpa using masks.append tail

theorem literal (whole : literal? text = some text) : Masks start text [text] (write start) := by
  intro store tail size
  have found := literal?_append whole tail
  obtain ⟨c, rest, rfl⟩ := List.exists_cons_of_ne_nil (literal?_starts whole).2
  have skipped : (store.hold (.literal (c :: rest))).1.maskFrom ((c :: rest).length - 1)
      (rest ++ tail) = (store.withLiterals [c :: rest]).maskFrom 0 tail := by
    rw [List.length_cons, Nat.add_sub_cancel, Store.maskFrom_skip, List.drop_left]
    simp [Store.hold, Store.withLiterals]
  rw [List.cons_append] at found ⊢
  rw [Store.maskFrom_literal found, skipped, size]

end Masks

end Pseudocode
