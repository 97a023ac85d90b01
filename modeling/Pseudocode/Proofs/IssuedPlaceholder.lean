import Pseudocode.Proofs.Appearance

namespace Pseudocode

open List Option

namespace Placeholder

theorem digit_injective {d e : Nat} (small : d < radix) (smaller : e < radix)
    (same : digit d = digit e) : d = e := by
  have codes := congrArg Char.toNat same
  rw [toNat_digit small, toNat_digit smaller] at codes
  omega

/-- Only zero is written with a zero in front. -/
theorem head?_encode (index : Nat) : (encode index).head? = some (digit 0) ↔ index = 0 := by
  fun_induction encode index with
  | case1 index small =>
    constructor
    · exact fun head => digit_injective small (by decide) (Option.some.inj head)
    · rintro rfl
      rfl
  | case2 index large ih =>
    have quotient : index / radix ≠ 0 := (Nat.div_pos (Nat.le_of_not_lt large) (by decide)).ne'
    have positive : index ≠ 0 := fun zero => large (zero ▸ by decide)
    rw [head?_append_of_ne_nil _ (encode_ne_nil _), ih]
    exact iff_of_false quotient positive

theorem encode_injective {index other : Nat} (same : encode index = encode other) : index = other := by
  rw [← decode_encode index, same, decode_encode]

/-- No placeholder is part of another: it would have to start with it, and then end with it. -/
theorem write_infix {index other : Nat} (within : write index <:+: write other) : index = other := by
  obtain ⟨before, after, shape⟩ := within
  have opens : before = [] := by
    cases before with
    | nil => rfl
    | cons c before =>
      have inside : opening ∈ encode other ++ [closing] := by
        rw [write_eq other, append_assoc, cons_append] at shape
        rw [← (List.cons.inj shape).2, write_eq index]
        simp
      rcases mem_append.mp inside with digit | last
      · exact absurd (encode_isDigit _ digit) (by decide)
      · exact absurd (mem_singleton.mp last) (by decide)
  subst opens
  have digits : some (encode index) = some (encode other) := by
    rw [← digits?_write index after, ← digits?_write other [], ← shape]
    simp
  exact encode_injective (Option.some.inj digits)

end Placeholder

open Placeholder

namespace Store

/-- Holds several parts back in order, and gives their placeholders. -/
def holdAll (store : Store) : List Held → Store × List Text
  | [] => (store, [])
  | part :: parts =>
    let (store, token) := store.hold part
    let (store, tokens) := store.holdAll parts
    (store, token :: tokens)

/-- What is held grows at its end, and the placeholders count on from what was held. -/
theorem holdAll_eq (store : Store) (parts : List Held) :
    (store.holdAll parts).1.held = store.held ++ parts.toArray ∧
      (store.holdAll parts).2 = (List.range' store.held.size parts.length).map write := by
  induction parts generalizing store with
  | nil => simp [holdAll]
  | cons part parts ih =>
    obtain ⟨held, tokens⟩ := ih { held := store.held.push part }
    simp only [holdAll, hold]
    constructor
    · rw [held]
      simp
    · rw [tokens, length_cons, range'_succ]
      simp

/-- The placeholders that stand for parts held back, the first for the first and so on: each is
recognized, none is part of another, each gives its own part back after whatever is held later, and any
further one gives nothing. -/
structure Issues (store : Store) (parts : List Held) (tokens : List Text) : Prop where
  count : tokens.length = parts.length
  recognized : ∀ token ∈ tokens, isPlaceholder token = true
  distinct : tokens.Nodup
  apart : ∀ i j (first : i < tokens.length) (second : j < tokens.length), tokens[i] <:+: tokens[j] → i = j
  kept : ∀ later (k : Nat), (tokens[k]?).bind (store.holdAll later).1.get? = parts[k]?
  unknown : ∀ text, isPlaceholder text = true →
    (store.get? text = none ↔ ∀ token ∈ tokens, index? token ≠ index? text)

theorem get?_write (store : Store) (index : Nat) : store.get? (write index) = store.held[index]? := by
  rw [get?, index?_write, bind_some]

/-- Indices are written without ambiguity, and what is held back is found again under the placeholder
that was given for it, and under no other. -/
theorem holdAll_issues :
    (∀ index, decode (encode index) = index ∧ encode index ≠ [] ∧
        ((encode index).head? = some (digit 0) ↔ index = 0)) ∧
      ∀ parts : List Held, Issues (holdAll {} parts).1 parts (holdAll {} parts).2 := by
  refine ⟨fun index => ⟨decode_encode index, encode_ne_nil index, head?_encode index⟩, fun parts => ?_⟩
  obtain ⟨held, tokens⟩ := holdAll_eq {} parts
  have issued : (holdAll {} parts).2 = (List.range parts.length).map write := by
    rw [tokens, range_eq_range']
    rfl
  have stored : (holdAll {} parts).1.held = parts.toArray := by simp [held]
  rw [issued]
  constructor
  · simp
  · simp [isPlaceholder_write]
  · exact nodup_range.map fun index other same => write_infix (same ▸ infix_refl _)
  · intro i j first second within
    simpa using write_infix (by simpa using within)
  · intro later k
    obtain ⟨grown, -⟩ := holdAll_eq (holdAll {} parts).1 later
    by_cases inside : k < parts.length
    · rw [getElem?_map, getElem?_range inside, map_some, bind_some, get?_write, grown, stored,
        append_toArray, List.getElem?_toArray, getElem?_append_left inside]
    · simp [inside]
  · intro text placeholder
    obtain ⟨index, found⟩ := isSome_iff_exists.mp placeholder
    rw [get?, found, bind_some, stored]
    simp only [List.getElem?_toArray, List.getElem?_eq_none_iff, List.forall_mem_map, List.mem_range, index?_write,
      ne_eq, Option.some.injEq]
    exact ⟨fun beyond k small => (small.trans_le beyond).ne,
      fun none => Nat.le_of_not_lt fun small => none index small rfl⟩

end Store

end Pseudocode
