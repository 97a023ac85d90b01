import Pseudocode.Proofs.Shadowing

namespace Pseudocode

open List Option

/-- The columns of the diagnostic are those of a stretch of the text. -/
def Diagnostic.CoversIn (diagnostic : Diagnostic) (text : Text) : Prop :=
  diagnostic.column < diagnostic.endColumn ∧ diagnostic.endColumn ≤ text.length

/-- What was found after `before` comes behind it, and covers some of the line. -/
def Scopes.Extends (line : Nat) (code : Text) (before after : Scopes) : Prop :=
  ∃ found, after.diagnostics = before.diagnostics ++ found ∧
    ∀ diagnostic ∈ found, diagnostic.line = line ∧ diagnostic.finding ≠ .openBlock ∧ diagnostic.CoversIn code

namespace Scopes.Extends

variable {line : Nat} {code : Text} {before scopes after : Scopes}

theorem of_eq (same : after.diagnostics = before.diagnostics) : Extends line code before after :=
  ⟨[], by simpa using same, by simp⟩

theorem trans (first : Extends line code before scopes) (second : Extends line code scopes after) :
    Extends line code before after := by
  obtain ⟨early, reported, covers⟩ := first
  obtain ⟨late, more, also⟩ := second
  refine ⟨early ++ late, by rw [more, reported, append_assoc], fun diagnostic inside => ?_⟩
  exact (mem_append.mp inside).elim (covers diagnostic) (also diagnostic)

theorem report {diagnostics : List Diagnostic}
    (covers : ∀ diagnostic ∈ diagnostics,
      diagnostic.line = line ∧ diagnostic.finding ≠ .openBlock ∧ diagnostic.CoversIn code) :
    Extends line code before (before.report diagnostics) :=
  ⟨diagnostics, rfl, covers⟩

end Scopes.Extends

/-- The head of a call and what follows its parenthesis fill the text from its column on. -/
theorem callsFrom_fills {before : Option Char} {place column : Nat} {text after : Text} {head : CallHead}
    (found : (column, head, after) ∈ callsFrom anyCallee before place text) :
    column + head.length + after.length = place + text.length := by
  induction text generalizing before place with
  | nil => simp [callsFrom] at found
  | cons c rest ih =>
    rw [callsFrom] at found
    split at found
    · rename_i first called
      rcases mem_cons.mp found with here | later
      · simp only [callAt?, ite_none_right_eq_some] at called
        obtain ⟨opened, written⟩ := Callee.anyCallee_sound.split called.2
        have length := congrArg List.length written
        simp only [length_append, length_cons] at length
        obtain ⟨rfl, rfl, rfl⟩ := by simpa only [Prod.mk.injEq] using here
        simp only [CallHead.length, length_drop, length_cons]
        omega
      · have := ih later
        simp only [length_cons]
        omega
    · have := ih found
      simp only [length_cons]
      omega

namespace Checker

variable (checker : Checker) (line : Nat) {code masked : Text}

theorem checkWords_extends (same : masked.length = code.length) (start stop : Nat) (scopes : Scopes) :
    scopes.Extends line code (checker.checkWords line masked start stop scopes) := by
  refine .report fun diagnostic inside => ?_
  obtain ⟨⟨column, name⟩, found, known⟩ := mem_filterMap.mp inside
  simp only [ite_none_left_eq_some] at known
  obtain rfl := Option.some.inj known.2
  have shows := wordsBetween_shows found
  have positive := length_pos_iff.mpr shows.nonempty
  have bound := shows.stands.length_le
  rw [length_drop] at bound
  refine ⟨rfl, by simp, ?_⟩
  simp only [Diagnostic.CoversIn]
  omega

theorem callDiagnostics_covers (calls : List (Nat × CallHead × Text))
    (filled : ∀ call ∈ calls, call.1 + call.2.1.length + call.2.2.length = code.length) :
    ∀ diagnostic ∈ checker.callDiagnostics line code calls,
      diagnostic.line = line ∧ diagnostic.finding ≠ .openBlock ∧ diagnostic.CoversIn code := by
  induction calls with
  | nil => simp [callDiagnostics]
  | cons call others ih =>
    obtain ⟨column, head, rest⟩ := call
    obtain ⟨here, later⟩ := forall_mem_cons.mp filled
    have others := ih later
    have opened : 0 < head.length := Nat.succ_pos _
    simp only at here
    rw [callDiagnostics]
    simp only
    split
    · intro diagnostic inside
      obtain rfl := List.mem_singleton.mp inside
      refine ⟨rfl, by simp, ?_⟩
      simp only [Diagnostic.CoversIn]
      omega
    · rename_i content after closed
      have shorter := splitClose?_length closed
      split
      · exact others
      · split
        · exact others
        · refine forall_mem_cons.mpr ⟨⟨rfl, by simp, ?_⟩, others⟩
          simp only [Diagnostic.CoversIn]
          omega

theorem checkCalls_extends (same : masked.length = code.length) (scopes : Scopes) :
    scopes.Extends line code (checker.checkCalls line code masked scopes) :=
  .report (checker.callDiagnostics_covers line _ fun call inside => by
    simpa [same] using callsFrom_fills inside)

theorem checkLine_extends (code : Text) (scopes : Scopes) :
    scopes.Extends line code (checker.checkLine line code scopes) := by
  have same := (masked_fades code).length_eq.symm
  exact checker.checkLine_relates line .of_eq .trans (checker.checkWords_extends line same)
    (checker.checkCalls_extends line same) scopes

/-- What a run of lines adds to the findings is in the order of the lines, and covers some of the code of
its line. -/
theorem checkFrom_extends (number : Nat) (inBlock : Bool) (scopes : Scopes) (ls : List Text) :
    ∃ found, (checker.checkFrom number inBlock scopes ls).diagnostics = scopes.diagnostics ++ found ∧
      (found.map (·.line)).Pairwise (· ≤ ·) ∧
      ∀ diagnostic ∈ found, diagnostic.finding ≠ .openBlock ∧ ∃ index raw, ls[index]? = some raw ∧
        diagnostic.line = number + index ∧
        diagnostic.CoversIn (splitLine (inBlockAt inBlock ls index) raw).code := by
  induction ls generalizing number inBlock scopes with
  | nil => exact ⟨[], by simp [checkFrom], .nil, by simp⟩
  | cons raw rest ih =>
    obtain ⟨here, reported, covers⟩ := checker.checkLine_extends number (splitLine inBlock raw).code scopes
    obtain ⟨later, more, ordered, placed⟩ := ih (number + 1) (splitLine inBlock raw).inBlock
      (checker.checkLine number (splitLine inBlock raw).code scopes)
    refine ⟨here ++ later, by rw [checkFrom, more, reported, append_assoc], ?_, ?_⟩
    · have level : (here.map (·.line)).Pairwise (· ≤ ·) := by
        refine pairwise_map.mpr (pairwise_of_forall_mem_list fun a inside b other => ?_)
        rw [(covers a inside).1, (covers b other).1]
      rw [map_append, pairwise_append]
      refine ⟨level, ordered, ?_⟩
      simp only [List.mem_map]
      rintro _ ⟨a, inside, rfl⟩ _ ⟨b, other, rfl⟩
      obtain ⟨-, index, -, -, place, -⟩ := placed b other
      have := (covers a inside).1
      omega
    · intro diagnostic inside
      rcases mem_append.mp inside with found | found
      · obtain ⟨place, kind, covered⟩ := covers diagnostic found
        exact ⟨kind, 0, raw, rfl, place, covered⟩
      · obtain ⟨kind, index, other, listed, place, covered⟩ := placed diagnostic found
        exact ⟨kind, index + 1, other, listed, by omega, covered⟩

end Checker

/-- What a line does to the scopes: it opens one inside the others, leaves the innermost, or
neither. -/
inductive Shift where
  | enters
  | leaves
  | stays
  deriving DecidableEq, Repr

namespace Shift

/-- How many scopes are open inside that of the whole program, after `depth` of them. -/
def after (depth : Nat) : Shift → Nat
  | enters => depth + 1
  | leaves => depth - 1
  | stays => depth

/-- The number of scopes that are open after a run of shifts. -/
def height (shifts : List Shift) : Nat :=
  shifts.foldl after 0

@[simp]
theorem height_concat (shifts : List Shift) (shift : Shift) :
    height (shifts ++ [shift]) = shift.after (height shifts) := by
  simp [height]

/-- A run never leaves more scopes than it enters, and enters at least `above` more in the end. -/
def Keeps (above : Nat) (shifts : List Shift) : Prop :=
  (∀ part, part <+: shifts → part.count leaves ≤ part.count enters) ∧
    shifts.count leaves + above ≤ shifts.count enters

/-- How many scopes must be open before a shift for `above` to be open after it. -/
def needed (above : Nat) : Shift → Nat
  | enters => above - 1
  | leaves => above + 1
  | stays => above

theorem keeps_concat {above : Nat} {shifts : List Shift} {shift : Shift} :
    Keeps above (shifts ++ [shift]) ↔ Keeps (shift.needed above) shifts := by
  simp only [Keeps, prefix_concat_iff, forall_eq_or_imp, count_append]
  constructor
  · rintro ⟨⟨whole, parts⟩, final⟩
    have full := parts shifts (prefix_refl shifts)
    refine ⟨parts, ?_⟩
    cases shift <;> simp [needed] at final whole ⊢ <;> omega
  · rintro ⟨parts, final⟩
    have full := parts shifts (prefix_refl shifts)
    refine ⟨⟨?_, parts⟩, ?_⟩ <;> cases shift <;> simp [needed] at final ⊢ <;> omega

/-- A scope is entered that is not left again, and at least `above` scopes are open inside it at the
end. -/
def Stands (above : Nat) (shifts : List Shift) : Prop :=
  ∃ before later, shifts = before ++ enters :: later ∧ Keeps above later

theorem stands_concat {above : Nat} {shifts : List Shift} {shift : Shift} :
    Stands above (shifts ++ [shift]) ↔
      shift = enters ∧ above = 0 ∨ Stands (shift.needed above) shifts := by
  constructor
  · rintro ⟨before, later, whole, keeps⟩
    rcases later.eq_nil_or_concat with rfl | ⟨later, last, rfl⟩
    · obtain ⟨-, last⟩ := append_inj' whole rfl
      exact .inl ⟨(List.cons.inj last).1, by simpa [Keeps] using keeps.2⟩
    · rw [concat_eq_append, ← cons_append, ← append_assoc] at whole
      obtain ⟨front, last⟩ := append_inj' whole rfl
      obtain rfl := (List.cons.inj last).1
      rw [concat_eq_append] at keeps
      exact .inr ⟨before, later, front, keeps_concat.mp keeps⟩
  · rintro (⟨rfl, rfl⟩ | ⟨before, later, rfl, keeps⟩)
    · exact ⟨shifts, [], rfl, by simp [Keeps]⟩
    · exact ⟨before, later ++ [shift], by simp, keeps_concat.mpr keeps⟩

/-- More than `above` scopes are open after a run exactly if it enters one that stands with that many
inside it. -/
theorem lt_height_iff (above : Nat) (shifts : List Shift) : above < height shifts ↔ Stands above shifts := by
  induction shifts using reverseRecOn generalizing above with
  | nil => simp [height, Stands]
  | append_singleton shifts shift ih =>
    rw [height_concat, stands_concat, ← ih]
    cases shift <;> simp [after, needed] <;> omega

end Shift

/-- Nothing that was open is left, and the names of the whole program are kept. -/
def Scopes.Keeps (before after : Scopes) : Prop :=
  after.inner.length = before.inner.length ∧ before.outer <:+ after.outer

namespace Scopes.Keeps

variable {before scopes after : Scopes}

theorem trans (first : before.Keeps scopes) (second : scopes.Keeps after) : before.Keeps after :=
  ⟨second.1.trans first.1, first.2.trans second.2⟩

theorem report (scopes : Scopes) (diagnostics : List Diagnostic) : scopes.Keeps (scopes.report diagnostics) :=
  ⟨rfl, suffix_rfl⟩

theorem declare (scopes : Scopes) (names : List Text) : scopes.Keeps (scopes.declare names) := by
  unfold Scopes.declare
  split
  · exact ⟨rfl, suffix_append _ _⟩
  · rename_i inner
    exact ⟨by simp [inner], suffix_rfl⟩

end Scopes.Keeps

namespace Checker

/-- What a line does to the scopes, by its form. -/
def shift (checker : Checker) (code : Text) (scopes : Scopes) : Shift :=
  let stripped := trim (maskFields (maskStrings code))
  if scopes.inHeader then .stays
  else match Statement.ofLine checker.language stripped with
    | .blank | .lexique | .typeDeclaration | .algorithmHeader | .variableDeclaration _
    | .arrayDeclaration .. => .stays
    | .functionHeader | .forEach .. | .counted => .enters
    | .sectionMarker => if scopes.pending then .stays else .enters
    | .blockClose _ => .leaves
    | _ => if opensBlock stripped then .enters else .stays

variable (checker : Checker)

theorem checkAssignment_keeps (line : Nat) (masked : Text) (arrow : Nat) (scopes : Scopes) :
    scopes.Keeps (checker.checkAssignment line masked arrow scopes) := by
  unfold checkAssignment
  simp only
  split
  · exact .report _ _
  · exact ((Scopes.Keeps.report _ _).trans (.declare _ _)).trans (.report _ _)

/-- A line opens and leaves scopes as its form says, and forgets no name of the whole program. -/
theorem checkLine_shift (line : Nat) (code : Text) (scopes : Scopes) :
    (checker.checkLine line code scopes).inner.length =
        (checker.shift code scopes).after scopes.inner.length ∧
      scopes.outer <:+ (checker.checkLine line code scopes).outer := by
  unfold checkLine shift
  simp only
  split
  · exact ⟨rfl, suffix_rfl⟩
  · cases Statement.ofLine checker.language (trim (maskFields (maskStrings code))) with
    | blank | lexique | typeDeclaration | algorithmHeader | functionHeader =>
      exact ⟨rfl, suffix_rfl⟩
    | sectionMarker =>
      dsimp only
      split <;> exact ⟨rfl, suffix_rfl⟩
    | blockClose keyword => exact ⟨length_tail, suffix_rfl⟩
    | variableDeclaration names => exact Scopes.Keeps.declare _ _
    | arrayDeclaration name type dimensions place =>
      exact ((Scopes.Keeps.report _ _).trans (.declare _ _)).trans (.report _ _)
    | forEach name items place => exact ⟨rfl, suffix_rfl⟩
    | counted =>
      dsimp only
      split <;> exact ⟨rfl, suffix_rfl⟩
    | _ =>
      dsimp only
      by_cases opens : opensBlock (trim (maskFields (maskStrings code))) = true
      · rw [if_pos opens, if_pos opens]
        split
        · exact checker.checkAssignment_keeps _ _ _ _
        · exact ⟨rfl, suffix_rfl⟩
      · rw [if_neg opens, if_neg opens]
        split
        · exact checker.checkAssignment_keeps _ _ _ _
        · exact ⟨rfl, suffix_rfl⟩

/-- What the lines of a run do to the scopes, one after the other. -/
def shiftsFrom (checker : Checker) (line : Nat) (inComment : Bool) (scopes : Scopes) : List Text → List Shift
  | [] => []
  | raw :: rest =>
    let split := splitLine inComment raw
    checker.shift split.code scopes ::
      checker.shiftsFrom (line + 1) split.inBlock (checker.checkLine line split.code scopes) rest

theorem checkFrom_shifts (line : Nat) (inComment : Bool) (scopes : Scopes) (ls : List Text) :
    (checker.checkFrom line inComment scopes ls).inner.length =
        (checker.shiftsFrom line inComment scopes ls).foldl Shift.after scopes.inner.length ∧
      scopes.outer <:+ (checker.checkFrom line inComment scopes ls).outer := by
  induction ls generalizing line inComment scopes with
  | nil => exact ⟨rfl, suffix_rfl⟩
  | cons raw rest ih =>
    obtain ⟨depth, kept⟩ := checker.checkLine_shift line (splitLine inComment raw).code scopes
    obtain ⟨depths, keeps⟩ := ih (line + 1) (splitLine inComment raw).inBlock
      (checker.checkLine line (splitLine inComment raw).code scopes)
    rw [checkFrom, shiftsFrom, foldl_cons, ← depth]
    exact ⟨depths, kept.trans keeps⟩

theorem checkFrom_append (line : Nat) (inComment : Bool) (scopes : Scopes) (part rest : List Text) :
    ∃ reached, checker.checkFrom line inComment scopes (part ++ rest) =
      checker.checkFrom (line + part.length) reached (checker.checkFrom line inComment scopes part) rest := by
  induction part generalizing line inComment scopes with
  | nil => exact ⟨inComment, by simp [checkFrom]⟩
  | cons raw part ih =>
    obtain ⟨inside, same⟩ := ih (line + 1) (splitLine inComment raw).inBlock
      (checker.checkLine line (splitLine inComment raw).code scopes)
    refine ⟨inside, ?_⟩
    rw [cons_append, checkFrom, same, checkFrom, length_cons, Nat.add_assoc, Nat.add_comm 1]

/-- The findings are in the order of the lines of a source, and each covers some of the code of its
line. -/
structure Placed (source : Text) (found : List Diagnostic) : Prop where
  ordered : (found.map (·.line)).Pairwise (· ≤ ·)
  covers : ∀ diagnostic ∈ found, diagnostic.finding ≠ .openBlock ∧
    ∃ bound : diagnostic.line < (lines source).length, diagnostic.CoversIn
      (splitLine (inBlockAt false (lines source) diagnostic.line) (lines source)[diagnostic.line]).code

theorem checkFrom_height (ls : List Text) :
    (checker.checkFrom 0 false {} ls).inner.length = Shift.height (checker.shiftsFrom 0 false {} ls) :=
  (checker.checkFrom_shifts 0 false {} ls).1

/-- What is found on the lines of a source, and the open block after it if a scope stands. -/
theorem diagnostics_eq (source : Text) : ∃ found, Placed source found ∧
    (checker.diagnostics source = found ∧ ¬Shift.Stands 0 (checker.shiftsFrom 0 false {} (lines source)) ∨
      checker.diagnostics source = found ++
          [{ line := (lines source).length - 1, column := 0, endColumn := 0, finding := .openBlock }] ∧
        Shift.Stands 0 (checker.shiftsFrom 0 false {} (lines source)) ∧ 0 < (lines source).length) := by
  obtain ⟨found, reported, ordered, placed⟩ := checker.checkFrom_extends 0 false {} (lines source)
  have stands := Shift.lt_height_iff 0 (checker.shiftsFrom 0 false {} (lines source))
  rw [← checkFrom_height, length_pos_iff] at stands
  refine ⟨found, ⟨ordered, fun diagnostic inside => ?_⟩, ?_⟩
  · obtain ⟨kind, index, raw, listed, place, covered⟩ := placed diagnostic inside
    obtain rfl : diagnostic.line = index := by omega
    obtain ⟨bound, rfl⟩ := List.getElem?_eq_some_iff.mp listed
    exact ⟨kind, bound, covered⟩
  · rw [← stands]
    simp only [diagnostics]
    split
    · rename_i closed
      exact .inl ⟨by simp [reported], by simpa using closed⟩
    · rename_i opened
      refine .inr ⟨by simp [reported], by simpa using opened, length_pos_iff.mpr fun empty => opened ?_⟩
      rw [empty]
      rfl

end Checker

/-- The report of any source is well formed. It goes down the lines, and each finding but an open block
covers some of the code of its line. An open block is reported exactly if some scope was entered and
never left, and then once, at the end and on the last line. Lines leave no more scopes than are open,
and the names of the whole program stay declared. -/
theorem check_wellFormed (language : Language) (source : Text) :
    let checker := Checker.ofSource language source
    let report := (check language source).result
    (report.map (·.line)).Pairwise (· ≤ ·) ∧
    (∀ diagnostic ∈ report, ∃ bound : diagnostic.line < (lines source).length,
      diagnostic.finding ≠ .openBlock → diagnostic.CoversIn
        (splitLine (inBlockAt false (lines source) diagnostic.line) (lines source)[diagnostic.line]).code) ∧
    ((∃ diagnostic ∈ report, diagnostic.finding = .openBlock) ↔
      Shift.Stands 0 (checker.shiftsFrom 0 false {} (lines source))) ∧
    (∀ before last after, report = before ++ last :: after → last.finding = .openBlock →
      after = [] ∧ last.line + 1 = (lines source).length) ∧
    ∀ part, part <+: lines source →
      (checker.checkFrom 0 false {} part).inner.length = Shift.height (checker.shiftsFrom 0 false {} part) ∧
      (checker.checkFrom 0 false {} part).outer <:+ (checker.checkFrom 0 false {} (lines source)).outer := by
  intro checker report
  obtain ⟨found, ⟨ordered, covers⟩, outcome⟩ := checker.diagnostics_eq source
  have heights (part : List Text) (start : part <+: lines source) :
      (checker.checkFrom 0 false {} part).inner.length = Shift.height (checker.shiftsFrom 0 false {} part) ∧
        (checker.checkFrom 0 false {} part).outer <:+ (checker.checkFrom 0 false {} (lines source)).outer := by
    obtain ⟨rest, split⟩ := start
    obtain ⟨inComment, same⟩ := checker.checkFrom_append 0 false {} part rest
    rw [← split, same]
    exact ⟨checker.checkFrom_height part, (checker.checkFrom_shifts _ _ _ rest).2⟩
  rcases outcome with ⟨closed, none⟩ | ⟨opened, stands, some⟩
  · have whole : report = found := closed
    rw [whole]
    refine ⟨ordered, fun diagnostic inside => ?_, ⟨?_, fun stands => absurd stands none⟩, ?_, heights⟩
    · obtain ⟨-, bound, covered⟩ := covers diagnostic inside
      exact ⟨bound, fun _ => covered⟩
    · rintro ⟨diagnostic, inside, kind⟩
      exact absurd kind (covers diagnostic inside).1
    · rintro before last after rfl kind
      exact absurd kind (covers last (by simp)).1
  · have whole : report = found ++ [_] := opened
    rw [whole]
    refine ⟨?_, ?_, ⟨fun _ => stands, fun _ => ⟨_, mem_append_right _ (mem_singleton_self _), rfl⟩⟩, ?_,
      heights⟩
    · rw [map_append, pairwise_append]
      refine ⟨ordered, pairwise_singleton _ _, ?_⟩
      simp only [List.mem_map, List.map_singleton, List.mem_singleton]
      rintro _ ⟨diagnostic, inside, rfl⟩ _ rfl
      obtain ⟨-, bound, -⟩ := covers diagnostic inside
      omega
    · intro diagnostic inside
      rcases mem_append.mp inside with inside | last
      · obtain ⟨-, bound, covered⟩ := covers diagnostic inside
        exact ⟨bound, fun _ => covered⟩
      · obtain rfl := List.mem_singleton.mp last
        exact ⟨Nat.sub_lt some Nat.one_pos, fun other => absurd rfl other⟩
    · intro before last after split kind
      rcases after.eq_nil_or_concat with rfl | ⟨middle, final, rfl⟩
      · obtain ⟨-, same⟩ := append_inj' split rfl
        obtain rfl := (List.cons.inj same).1
        exact ⟨rfl, Nat.sub_add_cancel some⟩
      · rw [concat_eq_append, ← cons_append, ← append_assoc] at split
        obtain ⟨front, -⟩ := append_inj' split rfl
        exact absurd kind (covers last (by simp [front])).1

end Pseudocode
