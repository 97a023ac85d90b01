import Pseudocode.Proofs.CommentFree

namespace Pseudocode

/-- What can stand between two quotes. A backslash takes the next character along. -/
inductive Enclosed (quote : Char) : Text → Prop
  | nil : Enclosed quote []
  | sign {c : Char} {rest : Text} :
      c ≠ '\\' → c ≠ quote → Enclosed quote rest → Enclosed quote (c :: rest)
  | escape {c : Char} {rest : Text} : Enclosed quote rest → Enclosed quote ('\\' :: c :: rest)

theorem Enclosed.append {quote : Char} {body rest : Text} (first : Enclosed quote body)
    (second : Enclosed quote rest) : Enclosed quote (body ++ rest) := by
  induction first with
  | nil => exact second
  | sign plain different _ ih => exact .sign plain different ih
  | escape _ ih => exact .escape ih

/-- A quote is closed exactly if a text that can be quoted stands between it and another one. -/
theorem closesQuote_iff {quote : Char} (plain : quote ≠ '\\') (text : Text) :
    closesQuote quote text = true ↔
      ∃ body after, Enclosed quote body ∧ text = body ++ quote :: after := by
  constructor
  · intro closes
    fun_induction closesQuote quote text with
    | case1 | case2 => simp at closes
    | case3 c rest ih =>
      obtain ⟨body, after, enclosed, rfl⟩ := ih closes
      exact ⟨'\\' :: c :: body, after, .escape enclosed, rfl⟩
    | case4 c rest lone pair ih =>
      have step : c ≠ '\\' := by
        rintro rfl
        cases rest with
        | nil => exact lone rfl rfl
        | cons next rest => exact pair next rest rfl rfl
      by_cases same : c = quote
      · exact ⟨[], rest, .nil, by rw [same, List.nil_append]⟩
      · obtain ⟨body, after, enclosed, rfl⟩ := ih (by simpa [same] using closes)
        exact ⟨c :: body, after, .sign step same enclosed, rfl⟩
  · rintro ⟨body, after, enclosed, rfl⟩
    rw [closesQuote_eq_closesAfter]
    induction enclosed with
    | nil => simp [closesAfter, plain]
    | sign step different _ ih => simpa [closesAfter, step, different] using ih
    | escape _ ih => simpa [closesAfter] using ih

/-- Text without comments. A comment mark stands only between quotes, and a quote that no other
one closes is like any other sign. -/
inductive Bare : Text → Prop
  | nil : Bare []
  | sign {c : Char} {rest : Text} :
      (c = '/' → rest.head? ≠ some '/' ∧ rest.head? ≠ some '*') →
        (c = '"' ∨ c = '\'' → ∀ body after, Enclosed c body → rest ≠ body ++ c :: after) →
        Bare rest → Bare (c :: rest)
  | literal {quote : Char} {body rest : Text} :
      quote = '"' ∨ quote = '\'' → Enclosed quote body → Bare rest →
        Bare (quote :: (body ++ quote :: rest))

theorem quote_ne_backslash {quote : Char} (isQuote : quote = '"' ∨ quote = '\'') : quote ≠ '\\' := by
  rcases isQuote with rfl | rfl <;> decide

/-- A literal is code, and what follows it is read as code again. -/
theorem Enclosed.splitAfter {quote : Char} {body : Text} (plain : quote ≠ '\\')
    (enclosed : Enclosed quote body) (rest : Text) :
    splitAfter quote false (body ++ quote :: rest) =
      { splitComments .code rest with code := body ++ quote :: (splitComments .code rest).code } := by
  induction enclosed with
  | nil => simp [Pseudocode.splitAfter, plain, SplitLine.consCode]
  | sign step different _ ih => simp [Pseudocode.splitAfter, step, different, ih, SplitLine.consCode]
  | escape _ ih => simp [Pseudocode.splitAfter, ih, SplitLine.consCode]

theorem splitComments_literal {quote : Char} {body : Text} (isQuote : quote = '"' ∨ quote = '\'')
    (enclosed : Enclosed quote body) (rest : Text) :
    splitComments .code (quote :: (body ++ quote :: rest)) =
      { splitComments .code rest with
        code := quote :: (body ++ quote :: (splitComments .code rest).code) } := by
  have plain := quote_ne_backslash isQuote
  have closes : closesQuote quote (body ++ quote :: rest) = true :=
    (closesQuote_iff plain _).mpr ⟨body, rest, enclosed, rfl⟩
  have starts : quote = '/' → (body ++ quote :: rest).head? ≠ some '/' ∧
      (body ++ quote :: rest).head? ≠ some '*' := by
    rintro rfl
    simp at isQuote
  rw [splitComments_code_cons starts, if_pos ⟨isQuote, closes⟩, splitComments_quoted plain,
    enclosed.splitAfter plain]
  rfl

theorem SplitLine.eq_code_iff {line : SplitLine} {code : Text} :
    line = { code } ↔ line.code = code ∧ line.comment = none ∧ line.inBlock = false := by
  cases line
  simp

theorem splitComments_sublist (reading : Reading) (text : Text) :
    (splitComments reading text).code.Sublist text := by
  fun_induction splitComments reading text with
  | case1 | case2 | case3 | case8 => exact List.nil_sublist _
  | case4 rest ih | case9 rest ih => exact (ih.cons _).cons _
  | case5 _ rest _ ih => exact ih.cons _
  | case6 quote c rest ih => exact (ih.cons_cons c).cons_cons '\\'
  | case7 quote c rest _ ih | case10 c rest _ _ quoted ih => exact ih.cons_cons c

/-- Splitting finds no comment exactly in text without comments. -/
theorem isCode_iff_bare (text : Text) : IsCode (splitComments .code) text ↔ Bare text := by
  constructor
  · intro isCode
    induction size : text.length using Nat.strong_induction_on generalizing text with
    | _ size ih =>
    subst size
    match text with
    | [] => exact .nil
    | c :: rest =>
      have starts : c = '/' → rest.head? ≠ some '/' ∧ rest.head? ≠ some '*' := by
        rintro rfl
        refine ⟨fun line => ?_, fun block => ?_⟩
        · obtain ⟨tail, rfl⟩ := List.head?_eq_some_iff.mp line
          simp [IsCode, splitComments] at isCode
        · obtain ⟨tail, rfl⟩ := List.head?_eq_some_iff.mp block
          have shorter := (splitComments_sublist .block tail).length_le
          have same := congrArg (·.code.length) isCode
          simp [splitComments] at same
          omega
      by_cases quoted : (c = '"' ∨ c = '\'') ∧ closesQuote c rest
      · obtain ⟨body, after, enclosed, rfl⟩ :=
          (closesQuote_iff (quote_ne_backslash quoted.1) rest).mp quoted.2
        unfold IsCode at isCode
        rw [splitComments_literal quoted.1 enclosed] at isCode
        refine .literal quoted.1 enclosed (ih after.length (by simp; omega) after ?_ rfl)
        simpa [IsCode, SplitLine.eq_code_iff] using isCode
      · unfold IsCode at isCode
        rw [splitComments_code_cons starts, if_neg quoted] at isCode
        refine .sign starts (fun isQuote body after enclosed split => quoted ⟨isQuote, ?_⟩)
          (ih rest.length (by simp) rest ?_ rfl)
        · exact (closesQuote_iff (quote_ne_backslash isQuote) rest).mpr ⟨body, after, enclosed, split⟩
        · simpa [IsCode, SplitLine.eq_code_iff, SplitLine.consCode] using isCode
  · intro bare
    induction bare with
    | nil => rfl
    | @sign c rest starts unclosed _ ih =>
      refine .splitComments_cons starts ?_
      rw [if_neg]
      · exact ih
      · rintro ⟨isQuote, closes⟩
        obtain ⟨body, after, enclosed, split⟩ := (closesQuote_iff (quote_ne_backslash isQuote) rest).mp closes
        exact unclosed isQuote body after enclosed split
    | literal isQuote enclosed _ ih =>
      unfold IsCode at ih ⊢
      rw [splitComments_literal isQuote enclosed, ih]

/-- The removal of comments is complete and takes nothing else. What is left of a line, whether or
not it starts inside a comment, is text without comments, in which splitting finds nothing more; it
is part of the line, and all of it exactly if the line has no comment. -/
theorem splitLine_leaves_bare (inBlock : Bool) (line : Text) :
    splitLine false (splitLine inBlock line).code =
        { code := (splitLine inBlock line).code, comment := none, inBlock := false } ∧
      Bare (splitLine inBlock line).code ∧
      (splitLine inBlock line).code.Sublist line ∧
      ((splitLine false line).code = line ↔ Bare line) := by
  have again := splitLine_code inBlock line
  refine ⟨again, (isCode_iff_bare _).mp again, splitComments_sublist _ line, fun whole => ?_, fun bare => ?_⟩
  · have same := splitLine_code false line
    rw [whole] at same
    exact (isCode_iff_bare line).mp same
  · exact congrArg SplitLine.code ((isCode_iff_bare line).mpr bare)

/-- The backslash before the last quote comes to be escaped itself once the comment is gone, so
that the quotes then enclose what stood apart. -/
example : (splitLine false "\"a\\/* c */\\\"".toList).code = "\"a\\\\\"".toList := by
  decide

end Pseudocode
