import Mathlib
import Pseudocode.Comment

namespace Pseudocode

variable {quote c : Char} {rest : Text}

/-- A literal that `quote` opens ends in the text, read one character at a time. -/
def closesAfter (quote : Char) : (escaped : Bool) → Text → Bool
  | _, [] => false
  | true, _ :: rest => closesAfter quote false rest
  | false, c :: rest =>
    if c = '\\' then closesAfter quote true rest else c = quote || closesAfter quote false rest

/-- Comments split off a text that starts inside a literal, one character at a time. -/
def splitAfter (quote : Char) : (escaped : Bool) → Text → SplitLine
  | _, [] => { code := [] }
  | true, c :: rest => (splitAfter quote false rest).consCode c
  | false, c :: rest =>
    (if c = '\\' then splitAfter quote true rest
      else if c = quote then splitComments .code rest
      else splitAfter quote false rest).consCode c

theorem closesQuote_eq_closesAfter (quote : Char) (text : Text) :
    closesQuote quote text = closesAfter quote false text := by
  fun_induction closesQuote quote text with
  | case1 => rfl
  | case2 => simp [closesAfter]
  | case3 _ rest ih => simp only [closesAfter, if_true, ih]
  | case4 c rest lone pair ih =>
    have step : c ≠ '\\' := by
      rintro rfl
      cases rest with
      | nil => exact lone rfl rfl
      | cons next rest => exact pair next rest rfl rfl
    simp only [closesAfter, if_neg step, ih]

theorem splitComments_quoted_escape (quote c : Char) (rest : Text) :
    splitComments (.quoted quote) ('\\' :: c :: rest) =
      ((splitComments (.quoted quote) rest).consCode c).consCode '\\' := by
  rw [splitComments]

theorem splitComments_quoted_cons (plain : c = '\\' → rest = []) :
    splitComments (.quoted quote) (c :: rest) =
      (splitComments (if c = quote then .code else .quoted quote) rest).consCode c := by
  rw [splitComments]
  rintro next tail rfl rfl
  exact absurd (plain rfl) (List.cons_ne_nil next tail)

theorem splitComments_block_cons (plain : c = '*' → rest.head? ≠ some '/') :
    splitComments .block (c :: rest) = splitComments .block rest := by
  rw [splitComments]
  rintro tail rfl rfl
  exact plain rfl rfl

theorem splitComments_code_cons (plain : c = '/' → rest.head? ≠ some '/' ∧ rest.head? ≠ some '*') :
    splitComments .code (c :: rest) =
      (splitComments (if (c = '"' ∨ c = '\'') ∧ closesQuote c rest then .quoted c else .code)
        rest).consCode c := by
  rw [splitComments]
  · rintro tail rfl rfl
    exact (plain rfl).1 rfl
  · rintro tail rfl rfl
    exact (plain rfl).2 rfl

theorem splitComments_quoted (plain : quote ≠ '\\') (text : Text) :
    splitComments (.quoted quote) text = splitAfter quote false text := by
  fun_induction closesQuote quote text with
  | case1 => simp [splitComments, splitAfter]
  | case2 =>
    rw [splitComments_quoted_cons (fun _ => rfl), if_neg (Ne.symm plain)]
    simp [splitComments, splitAfter]
  | case3 c rest ih => simp [splitComments_quoted_escape, splitAfter, ih]
  | case4 c rest lone pair ih =>
    have step : c ≠ '\\' := by
      rintro rfl
      cases rest with
      | nil => exact lone rfl rfl
      | cons next rest => exact pair next rest rfl rfl
    rw [splitComments_quoted_cons (fun same => absurd same step), splitAfter, if_neg step]
    split
    · rfl
    · rw [ih]

/-- The next character is escaped after `c`. -/
def escapes (escaped : Bool) (c : Char) : Bool :=
  !escaped && c = '\\'

theorem closesAfter_cons (plain : quote ≠ '\\') (escaped : Bool) (c : Char) (rest : Text) :
    closesAfter quote escaped (c :: rest) =
      ((!escaped && c = quote) || closesAfter quote (escapes escaped c) rest) := by
  cases escaped with
  | true => simp [closesAfter, escapes]
  | false =>
    by_cases slash : c = '\\'
    · subst slash
      simp [closesAfter, escapes, Ne.symm plain]
    · simp [closesAfter, escapes, slash]

theorem splitAfter_cons (plain : quote ≠ '\\') (escaped : Bool) (c : Char) (rest : Text) :
    splitAfter quote escaped (c :: rest) =
      (if escaped = false ∧ c = quote then splitComments .code rest
        else splitAfter quote (escapes escaped c) rest).consCode c := by
  cases escaped with
  | true => simp [splitAfter, escapes]
  | false =>
    by_cases slash : c = '\\'
    · subst slash
      simp [splitAfter, escapes, Ne.symm plain]
    · simp [splitAfter, escapes, slash]

theorem consCode_code (c : Char) (line : SplitLine) : (line.consCode c).code = c :: line.code :=
  rfl

/-- Splitting finds no comment. -/
def IsCode (split : Text → SplitLine) (text : Text) : Prop :=
  split text = { code := text }

theorem IsCode.splitAfter_cons {escaped : Bool} (plain : quote ≠ '\\')
    (closes : escaped = false → c = quote → IsCode (splitComments .code) rest)
    (stays : (escaped = false → c ≠ quote) → IsCode (splitAfter quote (escapes escaped c)) rest) :
    IsCode (splitAfter quote escaped) (c :: rest) := by
  unfold IsCode
  rw [Pseudocode.splitAfter_cons plain]
  by_cases ends : escaped = false ∧ c = quote
  · rw [if_pos ends, closes ends.1 ends.2]
    rfl
  · rw [if_neg ends, stays (fun fresh same => ends ⟨fresh, same⟩)]
    rfl

theorem IsCode.splitComments_cons (plain : c = '/' → rest.head? ≠ some '/' ∧ rest.head? ≠ some '*')
    (isCode : IsCode
      (splitComments (if (c = '"' ∨ c = '\'') ∧ closesQuote c rest then .quoted c else .code)) rest) :
    IsCode (splitComments .code) (c :: rest) := by
  unfold IsCode at isCode ⊢
  rw [splitComments_code_cons plain, isCode]
  rfl

/-- What is left of a text in which `quote` is never closed. Inside a literal that the quote opens,
splitting the rest again finds nothing, whether or not its first character is escaped there. -/
structure Unclosed (quote : Char) (text : Text) : Prop where
  code : ∀ escaped again, closesAfter quote escaped text = false →
    IsCode (splitAfter quote again) (splitComments .code text).code
  block : ∀ escaped again, closesAfter quote escaped text = false →
    IsCode (splitAfter quote again) (splitComments .block text).code
  quoted : ∀ other inner escaped, other ≠ quote → other ≠ '\\' →
    closesAfter other inner text = true → closesAfter quote escaped text = false →
    IsCode (splitAfter quote escaped) (splitAfter other inner text).code

theorem Unclosed.nil (quote : Char) : Unclosed quote [] := by
  refine ⟨?_, ?_, ?_⟩
  · intro _ again _
    cases again <;> rfl
  · intro _ again _
    cases again <;> rfl
  · intro other inner escaped _ _ closed
    cases inner <;> simp [closesAfter] at closed

/-- A comment mark leaves no escape behind. -/
theorem closesAfter_mark {a b : Char} (plain : quote ≠ '\\') {escaped : Bool}
    (aPlain : a ≠ '\\') (bPlain : b ≠ '\\')
    (opened : closesAfter quote escaped (a :: b :: rest) = false) :
    closesAfter quote false rest = false := by
  rw [closesAfter_cons plain, closesAfter_cons plain] at opened
  simpa [escapes, aPlain, bPlain] using (Bool.or_eq_false_iff.mp (Bool.or_eq_false_iff.mp opened).2).2

theorem Unclosed.of_shorter (isQuote : quote = '"' ∨ quote = '\'') {n : Nat}
    (shorter : ∀ text : Text, text.length < n →
      IsCode (splitComments .code) (splitComments .code text).code)
    (text : Text) (bound : text.length ≤ n) : Unclosed quote text := by
  have plain : quote ≠ '\\' := by rcases isQuote with rfl | rfl <;> decide
  induction size : text.length using Nat.strong_induction_on generalizing text with
  | _ size ih =>
  subst size
  match text with
  | [] => exact .nil quote
  | c :: rest =>
    simp only [List.length_cons] at bound ih
    have next := ih rest.length (by omega) rest (by omega) rfl
    refine ⟨?_, ?_, ?_⟩
    · intro escaped again opened
      by_cases starts : c = '/' → rest.head? ≠ some '/' ∧ rest.head? ≠ some '*'
      · rw [closesAfter_cons plain, Bool.or_eq_false_iff] at opened
        rw [splitComments_code_cons starts, consCode_code]
        by_cases quoted : (c = '"' ∨ c = '\'') ∧ closesQuote c rest
        · have cPlain : c ≠ '\\' := by rcases quoted.1 with rfl | rfl <;> decide
          have fresh : ∀ flag, escapes flag c = false := by simp [escapes, cPlain]
          have ends := quoted.2
          rw [closesQuote_eq_closesAfter] at ends
          rw [fresh] at opened
          have different : c ≠ quote := by
            rintro rfl
            simp [ends] at opened
          rw [if_pos quoted, splitComments_quoted cPlain]
          refine .splitAfter_cons plain (fun _ same => absurd same different) fun _ => ?_
          rw [fresh]
          exact next.quoted c false false different cPlain ends opened.2
        · rw [if_neg quoted]
          exact .splitAfter_cons plain (fun _ _ => shorter rest (by omega))
            fun _ => next.code _ _ opened.2
      · simp only [not_forall, not_and_or, not_not] at starts
        obtain ⟨rfl, line | block⟩ := starts
        · obtain ⟨tail, rfl⟩ := List.head?_eq_some_iff.mp line
          rw [splitComments]
          cases again <;> rfl
        · obtain ⟨tail, rfl⟩ := List.head?_eq_some_iff.mp block
          rw [splitComments]
          simp only [List.length_cons] at bound ih
          have inside := ih tail.length (by omega) tail (by omega) rfl
          exact inside.block false again (closesAfter_mark plain (by decide) (by decide) opened)
    · intro escaped again opened
      by_cases ends : c = '*' ∧ rest.head? = some '/'
      · obtain ⟨rfl, slash⟩ := ends
        obtain ⟨tail, rfl⟩ := List.head?_eq_some_iff.mp slash
        rw [splitComments]
        simp only [List.length_cons] at bound ih
        have outside := ih tail.length (by omega) tail (by omega) rfl
        exact outside.code false again (closesAfter_mark plain (by decide) (by decide) opened)
      · rw [closesAfter_cons plain, Bool.or_eq_false_iff] at opened
        rw [splitComments_block_cons (fun star slash => ends ⟨star, slash⟩)]
        exact next.block _ again opened.2
    · intro other inner escaped different otherPlain closed opened
      rw [closesAfter_cons otherPlain, Bool.or_eq_true_iff] at closed
      rw [closesAfter_cons plain, Bool.or_eq_false_iff] at opened
      rw [Pseudocode.splitAfter_cons otherPlain, consCode_code]
      have stays : escaped = false → c ≠ quote := by
        rintro rfl rfl
        simp at opened
      refine .splitAfter_cons plain (fun fresh same => absurd same (stays fresh)) fun _ => ?_
      by_cases ends : inner = false ∧ c = other
      · rw [if_pos ends]
        exact next.code _ _ opened.2
      · rw [if_neg ends]
        refine next.quoted other _ _ different otherPlain (closed.resolve_left ?_) opened.2
        simpa using ends

/-- Splitting again what is left of a text finds nothing more. -/
structure Resplit (text : Text) : Prop where
  code : IsCode (splitComments .code) (splitComments .code text).code
  block : IsCode (splitComments .code) (splitComments .block text).code
  quoted : ∀ quote escaped, quote ≠ '\\' → closesAfter quote escaped text = true →
    IsCode (splitAfter quote escaped) (splitAfter quote escaped text).code ∧
      closesAfter quote escaped (splitAfter quote escaped text).code = true

/-- A slash that starts no comment is followed by the same character in the code. -/
theorem head?_code {mark : Char} (plain : rest.head? ≠ some '/')
    (other : rest.head? ≠ some mark) : (splitComments .code rest).code.head? ≠ some mark := by
  cases rest with
  | nil => simp [splitComments]
  | cons c rest =>
    rw [splitComments_code_cons (fun same => absurd (congrArg some same) plain), consCode_code]
    simpa using other

theorem resplit (text : Text) : Resplit text := by
  induction size : text.length using Nat.strong_induction_on generalizing text with
  | _ size ih =>
  subst size
  match text with
  | [] =>
    refine ⟨rfl, rfl, ?_⟩
    intro quote escaped _ closed
    cases escaped <;> simp [closesAfter] at closed
  | c :: rest =>
    simp only [List.length_cons] at ih
    have next := ih rest.length (by omega) rest rfl
    refine ⟨?_, ?_, ?_⟩
    · by_cases starts : c = '/' → rest.head? ≠ some '/' ∧ rest.head? ≠ some '*'
      · rw [splitComments_code_cons starts, consCode_code]
        by_cases quoted : (c = '"' ∨ c = '\'') ∧ closesQuote c rest
        · have cPlain : c ≠ '\\' := by rcases quoted.1 with rfl | rfl <;> decide
          have closed := quoted.2
          rw [closesQuote_eq_closesAfter] at closed
          obtain ⟨isCode, closes⟩ := next.quoted c false cPlain closed
          rw [← closesQuote_eq_closesAfter] at closes
          rw [if_pos quoted, splitComments_quoted cPlain]
          refine .splitComments_cons ?_ ?_
          · rintro rfl
            simp at quoted
          · rw [if_pos ⟨quoted.1, closes⟩, funext (splitComments_quoted cPlain)]
            exact isCode
        · rw [if_neg quoted]
          refine .splitComments_cons (fun slash => ?_) ?_
          · exact ⟨head?_code (starts slash).1 (starts slash).1,
              head?_code (starts slash).1 (starts slash).2⟩
          · split
            -- without the comments a quote that stood alone may close: the backslash before a
            -- later quote can come to be escaped itself
            · rename_i again
              have cPlain : c ≠ '\\' := by rcases again.1 with rfl | rfl <;> decide
              have opened : closesAfter c false rest = false := by
                rw [← closesQuote_eq_closesAfter, ← Bool.not_eq_true]
                exact fun closed => quoted ⟨again.1, closed⟩
              rw [funext (splitComments_quoted cPlain)]
              exact (Unclosed.of_shorter again.1 (fun text bound => (ih _ (by omega) text rfl).code)
                rest le_rfl).code false false opened
            · exact next.code
      · simp only [not_forall, not_and_or, not_not] at starts
        obtain ⟨rfl, line | block⟩ := starts
        · obtain ⟨tail, rfl⟩ := List.head?_eq_some_iff.mp line
          rw [splitComments]
          rfl
        · obtain ⟨tail, rfl⟩ := List.head?_eq_some_iff.mp block
          rw [splitComments]
          simp only [List.length_cons] at ih
          exact (ih tail.length (by omega) tail rfl).block
    · by_cases ends : c = '*' ∧ rest.head? = some '/'
      · obtain ⟨rfl, slash⟩ := ends
        obtain ⟨tail, rfl⟩ := List.head?_eq_some_iff.mp slash
        rw [splitComments]
        simp only [List.length_cons] at ih
        exact (ih tail.length (by omega) tail rfl).code
      · rw [splitComments_block_cons (fun star slash => ends ⟨star, slash⟩)]
        exact next.block
    · intro quote escaped plain closed
      rw [closesAfter_cons plain, Bool.or_eq_true_iff] at closed
      rw [Pseudocode.splitAfter_cons plain, consCode_code]
      by_cases ends : escaped = false ∧ c = quote
      · rw [if_pos ends]
        refine ⟨.splitAfter_cons plain (fun _ _ => next.code) fun stays => ?_, ?_⟩
        · exact absurd ends.2 (stays ends.1)
        · rw [closesAfter_cons plain]
          simp [ends]
      · rw [if_neg ends]
        have later : closesAfter quote (escapes escaped c) rest = true := by
          refine closed.resolve_left ?_
          simpa using ends
        obtain ⟨isCode, closes⟩ := next.quoted quote _ plain later
        refine ⟨.splitAfter_cons plain (fun fresh same => absurd ⟨fresh, same⟩ ends) fun _ => isCode, ?_⟩
        rw [closesAfter_cons plain, closes, Bool.or_true]

theorem splitLine_code (inBlock : Bool) (line : Text) :
    splitLine false (splitLine inBlock line).code = { code := (splitLine inBlock line).code } := by
  cases inBlock with
  | false => exact (resplit line).code
  | true => exact (resplit line).block

end Pseudocode
