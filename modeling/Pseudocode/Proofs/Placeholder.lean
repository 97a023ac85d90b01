import Pseudocode.Proofs.Character
import Pseudocode.Proofs.Outcome

namespace Pseudocode

open List Option
variable {c : Char} {index : Nat} {text : Text}

namespace Placeholder

/-- A character of the range that placeholders are kept in. -/
def isReserved (c : Char) : Bool :=
  0xe000 ≤ c.toNat && c.toNat ≤ 0xe1ff

theorem isReserved_iff : isReserved c = true ↔ 0xe000 ≤ c.toNat ∧ c.toNat ≤ 0xe1ff := by
  simp [isReserved]

theorem isReserved_ascii (ascii : c.toNat < 128) : isReserved c = false := by
  rw [Bool.eq_false_iff, Ne, isReserved_iff]
  omega

theorem isReserved_not_wordChar (reserved : isReserved c = true) : isWordChar c = false := by
  obtain ⟨above, below⟩ := isReserved_iff.mp reserved
  have gap := signRanges_apart.1 (0xe000, 0xe1ff) (by decide)
  have letter : isAlphanumeric c = false := by
    rw [isAlphanumeric, if_neg (by omega), inRanges_gap gap above below]
  have bar : c ≠ '_' := by rintro rfl; exact absurd above (by decide)
  simp [isWordChar, letter, bar]

theorem smallLetter_reserved (reserved : isReserved c = true) : smallLetter c = c := by
  obtain ⟨above, below⟩ := isReserved_iff.mp reserved
  have gap : ∀ run ∈ capitalRuns, run.2.1 < 0xe000 ∨ 0xe1ff < run.1 := fun run member =>
    (signRanges_apart.2.1 run member).1
  rw [smallLetter, if_neg (by omega), smallInRuns_gap gap above below, Char.ofNat_toNat]

theorem caseKey_reserved (reserved : isReserved c = true) : caseKey c = c := by
  obtain ⟨above, below⟩ := isReserved_iff.mp reserved
  have gap : ∀ pair ∈ caseVariants, pair.1 < 0xe000 ∨ 0xe1ff < pair.1 := by decide
  have unlisted : caseVariants.lookup c.toNat = none := by
    rw [lookup_eq_none_iff]
    intro pair member
    have outside := gap pair member
    simp
    omega
  simp only [caseKey, smallLetter_reserved reserved, unlisted]
  rw [if_neg (by omega)]

theorem isReserved_uncased (reserved : isReserved c = true) : isUncased c = true := by
  obtain ⟨above, below⟩ := isReserved_iff.mp reserved
  have runs : ∀ run ∈ capitalRuns,
      run.2.2.2 + (run.2.1 - run.1) < 0xe000 ∨ 0xe1ff < run.2.2.2 := fun run member =>
    (signRanges_apart.2.1 run member).2
  have variants : ∀ pair ∈ caseVariants,
      (Char.ofNat pair.2).toNat < 0xe000 ∨ 0xe1ff < (Char.ofNat pair.2).toNat := by
    decide
  have symbol : c.isAlpha = false := by
    have number : c.val.toNat = c.toNat := rfl
    simp only [Char.isAlpha, Char.isUpper, Char.isLower, Bool.or_eq_false_iff, Bool.and_eq_false_iff,
      decide_eq_false_iff_not, ge_iff_le, UInt32.le_iff_toNat_le, number]
    refine ⟨fun ⟨_, small⟩ => absurd (above.trans small) (by decide), .inr fun small => ?_⟩
    exact absurd (above.trans small) (by decide)
  simp only [isUncased, caseKey_reserved reserved, symbol, Bool.and_eq_true, List.all_eq_true,
    Bool.or_eq_true, decide_eq_true_eq]
  refine ⟨⟨⟨⟨trivial, rfl⟩, by omega⟩, fun run member => ?_⟩, fun pair member same => ?_⟩
  · have := runs run member
    omega
  · have := variants pair member
    rw [same] at this
    omega

/-- No letter is a reserved character in another case. -/
theorem eq_of_caseKey_reserved {w : Char} (reserved : isReserved c = true)
    (same : caseKey w = caseKey c) : w = c :=
  eq_of_caseKey_uncased (isReserved_uncased reserved) same

/-- A character that placeholders are written with. -/
def isMark (c : Char) : Bool :=
  c = opening || isDigit c || c = closing

section

variable (mark : isMark c = true)
include mark

theorem isMark_reserved : isReserved c = true := by
  simp only [isMark, isDigit, Bool.or_eq_true, Bool.and_eq_true, decide_eq_true_eq] at mark
  rw [isReserved_iff]
  rcases mark with (rfl | range) | rfl
  · decide
  · omega
  · decide

theorem isMark_range : 0xe000 ≤ c.toNat ∧ c.toNat ≤ 0xe1ff :=
  isReserved_iff.mp (isMark_reserved mark)

theorem isMark_not_wordChar : isWordChar c = false :=
  isReserved_not_wordChar (isMark_reserved mark)

theorem isMark_not_startsIdentifier : startsIdentifier c = false := by
  simp [startsIdentifier, isMark_not_wordChar mark]

theorem isMark_not_blank : isBlank c = false := by
  obtain ⟨above, below⟩ := isMark_range mark
  simp only [isBlank, Bool.or_eq_false_iff, Bool.and_eq_false_iff, decide_eq_false_iff_not,
    beq_eq_false_iff_ne]
  omega

theorem isMark_ne {d : Char} (small : d.toNat < 0xe000) : c ≠ d := by
  rintro rfl
  have above := (isMark_range mark).1
  omega

theorem isMark_uncased : isUncased c = true :=
  isReserved_uncased (isMark_reserved mark)

/-- No letter is a mark in another case. -/
theorem eq_of_caseKey_mark {w : Char} (same : caseKey w = caseKey c) : w = c :=
  eq_of_caseKey_reserved (isMark_reserved mark) same

end

theorem toNat_digit {d : Nat} (small : d < radix) : (digit d).toNat = 0xe100 + d := by
  unfold radix at small
  rw [digit, Char.toNat_ofNat, if_pos]
  right
  omega

theorem encode_isDigit : ∀ c ∈ encode index, isDigit c = true := by
  have digits {d : Nat} (small : d < radix) : isDigit (digit d) = true := by
    have value := toNat_digit small
    unfold radix at small
    simp only [isDigit, value, Bool.and_eq_true, decide_eq_true_eq]
    omega
  fun_induction encode index with
  | case1 index small => simpa using digits small
  | case2 index large ih =>
    intro c member
    rcases mem_append.mp member with inside | last
    · exact ih c inside
    · rw [mem_singleton.mp last]
      exact digits (Nat.mod_lt _ (by decide))

theorem decode_append {d : Nat} (small : d < radix) (digits : Text) :
    decode (digits ++ [digit d]) = decode digits * radix + d := by
  simp only [decode, foldl_append, foldl_cons, foldl_nil, toNat_digit small,
    Nat.add_sub_cancel_left]

theorem decode_encode (index : Nat) : decode (encode index) = index := by
  fun_induction encode index with
  | case1 index small => rw [← nil_append [_], decode_append small, decode, foldl_nil,
      Nat.zero_mul, Nat.zero_add]
  | case2 index large ih =>
    rw [decode_append (Nat.mod_lt _ (by decide)), ih, Nat.div_add_mod']

theorem encode_ne_nil (index : Nat) : encode index ≠ [] := by
  fun_induction encode index <;> simp

theorem write_eq (index : Nat) : write index = opening :: (encode index ++ [closing]) :=
  rfl

theorem isMark_of_mem_write : ∀ c ∈ write index, isMark c = true := by
  intro c member
  simp only [write_eq, mem_cons, mem_append, not_mem_nil, or_false] at member
  rcases member with rfl | inside | rfl
  · rfl
  · simp [isMark, encode_isDigit c inside]
  · rfl

theorem takeWhile_encode (index : Nat) (rest : Text) :
    (encode index ++ closing :: rest).takeWhile isDigit = encode index := by
  rw [takeWhile_append_of_pos encode_isDigit, takeWhile_cons_of_neg (by decide),
    append_nil]

theorem dropWhile_encode (index : Nat) (rest : Text) :
    (encode index ++ closing :: rest).dropWhile isDigit = closing :: rest := by
  rw [dropWhile_append_of_pos encode_isDigit, dropWhile_cons_of_neg (by decide)]

@[simp] theorem digits?_write (index : Nat) (rest : Text) :
    digits? (write index ++ rest) = some (encode index) := by
  simp [write_eq, digits?, takeWhile_encode, dropWhile_encode, encode_ne_nil]

theorem digits?_plain (plain : c ≠ opening) (rest : Text) :
    digits? (c :: rest) = none := by
  simp [digits?, plain]

/-- A placeholder is closed before the next one opens. -/
theorem digits?_upto (c : Char) (before after : Text) :
    digits? (c :: before ++ opening :: after) = digits? (c :: before) := by
  have ends : ∀ before : Text,
      (before ++ opening :: after).takeWhile isDigit = before.takeWhile isDigit ∧
        (((before ++ opening :: after).dropWhile isDigit).head? = some closing ↔
          (before.dropWhile isDigit).head? = some closing) := by
    intro before
    induction before with
    | nil => simp [show isDigit opening = false by decide, show opening ≠ closing by decide]
    | cons d before ih => cases digit : isDigit d <;> simp [digit, ih]
  simp only [cons_append, digits?, ends]

theorem digits?_eq_some {rest digits : Text} (found : digits? (c :: rest) = some digits) :
    c = opening ∧ (∀ d ∈ digits, isDigit d = true) ∧ ∃ after, rest = digits ++ closing :: after := by
  rw [digits?, ite_none_right_eq_some, Option.some.injEq] at found
  obtain ⟨⟨opens, -, closed⟩, rfl⟩ := found
  obtain ⟨after, shape⟩ := head?_eq_some_iff.mp closed
  exact ⟨opens, fun d => mem_takeWhile_imp, after, by rw [← shape, takeWhile_append_dropWhile]⟩

end Placeholder

open Placeholder

theorem piecesFrom_drop (skip : Nat) (text : Text) : piecesFrom skip text = pieces (text.drop skip) := by
  induction text generalizing skip with
  | nil => cases skip <;> rfl
  | cons c rest ih =>
    cases skip with
    | zero => rfl
    | succ skip => rw [piecesFrom, ih, drop_succ_cons]

@[simp] theorem pieces_nil : pieces [] = [] :=
  rfl

theorem pieces_plain (plain : c ≠ opening) (rest : Text) :
    pieces (c :: rest) = .plain c :: pieces rest := by
  rw [pieces, piecesFrom, digits?_plain plain]
  rfl

theorem pieces_write (index : Nat) (rest : Text) :
    pieces (write index ++ rest) = .placeholder index (write index) :: pieces rest := by
  have digits := digits?_write index rest
  rw [write_eq, cons_append] at digits
  rw [write_eq, cons_append, pieces, piecesFrom, digits]
  simp only [decode_encode, piecesFrom_drop]
  congr 2
  simp

theorem pieces_of_plain (plain : opening ∉ text) : pieces text = text.map .plain := by
  induction text with
  | nil => rfl
  | cons c rest ih =>
    simp only [mem_cons, not_or] at plain
    rw [pieces_plain (Ne.symm plain.1), ih plain.2, map_cons]

/-- No placeholder crosses the place where another one opens. -/
theorem pieces_upto (before after : Text) :
    pieces (before ++ opening :: after) = pieces before ++ pieces (opening :: after) := by
  induction length : before.length using Nat.strong_induction_on generalizing before with
  | _ _ ih =>
    subst length
    cases before with
    | nil => rfl
    | cons c before =>
      have same := digits?_upto c before after
      rw [cons_append] at same ⊢
      rw [pieces, piecesFrom, pieces, piecesFrom, same]
      cases found : digits? (c :: before) with
      | none =>
        have later := ih before.length (by simp) before rfl
        simp only [piecesFrom_drop, drop_zero, later, cons_append]
      | some digits =>
        obtain ⟨-, -, rest, rfl⟩ := digits?_eq_some found
        have later := ih rest.length (by simp; omega) rest rfl
        have dropped (tail : Text) : (digits ++ closing :: tail).drop (digits.length + 1) = tail := by
          rw [append_cons, drop_left' (by simp)]
        simp only [piecesFrom_drop, append_assoc, cons_append, dropped, later]

namespace Store

theorem restoreOnce_nil (store : Store) : store.restoreOnce [] = .ok [] :=
  rfl

theorem restoreOnce_of_pieces (store : Store) {rest piece : Text} {first : Piece}
    (shape : pieces text = first :: pieces rest) (restored : store.restorePiece first = .ok piece) :
    store.restoreOnce text = (store.restoreOnce rest).map (piece ++ ·) := by
  rw [restoreOnce, restoreOnce, shape, mapM_cons, restored]
  cases (pieces rest).mapM store.restorePiece <;> rfl

theorem restoreOnce_cons (store : Store) (plain : c ≠ opening) (rest : Text) :
    store.restoreOnce (c :: rest) = (store.restoreOnce rest).map (c :: ·) :=
  store.restoreOnce_of_pieces (pieces_plain plain rest) rfl

theorem restoreOnce_literal {store : Store} {literal : Text}
    (held : store.held[index]? = some (.literal literal)) (rest : Text) :
    store.restoreOnce (write index ++ rest) = (store.restoreOnce rest).map (literal ++ ·) :=
  store.restoreOnce_of_pieces (pieces_write index rest) (by simp [restorePiece, held])

theorem restoreOnce_text (store : Store) (plain : opening ∉ text) (rest : Text) :
    store.restoreOnce (text ++ rest) = (store.restoreOnce rest).map (text ++ ·) := by
  induction text with
  | nil =>
    rw [nil_append]
    cases store.restoreOnce rest <;> rfl
  | cons c text ih =>
    rw [cons_append, store.restoreOnce_cons (Ne.symm (ne_of_not_mem_cons plain)),
      ih (not_mem_of_not_mem_cons plain)]
    cases store.restoreOnce rest <;> rfl

theorem restoreOnce_plain (store : Store) (plain : opening ∉ text) :
    store.restoreOnce text = .ok text := by
  simpa [restoreOnce_nil, Except.map] using store.restoreOnce_text plain []

/-- Two rounds are enough where the first leaves nothing to do. -/
theorem restore_of_once {store : Store} {restored : Text} (first : store.restoreOnce text = .ok restored)
    (second : store.restoreOnce restored = .ok restored) : store.restore text = .ok restored := by
  have twice : store.roundLimit text = store.held.size + text.length + 1 + 1 := rfl
  rw [restore, twice, restoreWithin, first]
  by_cases same : restored = text
  · simp [same]
  · simp only [if_neg same, restoreWithin, second, if_true]

theorem restore_plain (store : Store) (plain : opening ∉ text) :
    store.restore text = .ok text := by
  simp [restore, roundLimit, restoreWithin, restoreOnce_plain store plain]

end Store

theorem outcome_restore (text : Text) (desk : Desk) :
    outcome (Conversion.restore text) desk = (desk.store.restore text, desk) := by
  rw [Conversion.restore, outcome_bind, outcome_get]
  simp only
  cases desk.store.restore text <;> rfl

end Pseudocode
