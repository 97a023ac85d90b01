import Pseudocode.Check.Basic
import Pseudocode.Proofs.Character
import Pseudocode.Proofs.CommentFree

namespace Pseudocode

variable {columns : List Nat} {n column : Nat} {name text : Text} {before : Option Char} {view : Text → Text}

/-- The columns of a line that hold its code. -/
def codeColumns : Reading → Text → List Nat
  | _, [] => []
  | .block, '*' :: '/' :: rest => (codeColumns .code rest).map (· + 2)
  | .block, _ :: rest => (codeColumns .block rest).map (· + 1)
  | .quoted quote, '\\' :: _ :: rest =>
    0 :: 1 :: (codeColumns (.quoted quote) rest).map (· + 2)
  | .quoted quote, c :: rest =>
    0 :: (codeColumns (if c = quote then .code else .quoted quote) rest).map (· + 1)
  | .code, '/' :: '/' :: _ => []
  | .code, '/' :: '*' :: rest => (codeColumns .block rest).map (· + 2)
  | .code, c :: rest =>
    let quoted := (c = '"' ∨ c = '\'') ∧ closesQuote c rest
    0 :: (codeColumns (if quoted then .quoted c else .code) rest).map (· + 1)

/-- The code of a line is what stands in its code columns. -/
theorem codeColumns_read (reading : Reading) (text : Text) :
    (codeColumns reading text).map (text[·]?) = (splitComments reading text).code.map some := by
  fun_induction splitComments reading text with
  | case1 | case2 | case3 => simp [codeColumns]
  | case4 rest ih => simpa [codeColumns, Function.comp_def] using ih
  | case5 c rest other ih => simpa [codeColumns, other, Function.comp_def] using ih
  | case6 quote c rest ih => simpa [codeColumns, consCode_code, Function.comp_def] using ih
  | case7 quote c rest other ih => simpa [codeColumns, other, consCode_code, Function.comp_def] using ih
  | case8 rest => simp [codeColumns]
  | case9 rest ih => simpa [codeColumns, Function.comp_def] using ih
  | case10 c rest line block quoted ih =>
    simpa [codeColumns, line, block, consCode_code, Function.comp_def] using ih

theorem codeColumns_increasing (reading : Reading) (text : Text) :
    (codeColumns reading text).Pairwise (· < ·) := by
  fun_induction codeColumns reading text with
  | case1 | case6 => exact .nil
  | case2 rest ih | case3 _ rest _ ih | case7 rest ih =>
    exact ih.map _ fun _ _ less => Nat.add_lt_add_right less _
  | case4 quote c rest ih =>
    have later := ih.map (· + 2) fun _ _ less => Nat.add_lt_add_right less _
    exact .cons (by simp) (.cons (by simp) later)
  | case5 quote c rest _ ih | case8 c rest _ _ quoted ih =>
    exact .cons (by simp) (ih.map (· + 1) fun _ _ less => Nat.add_lt_add_right less _)

/-- Increasing columns from `low` on have no gap up to a place exactly if they count through. -/
theorem take_eq_range' (increasing : columns.Pairwise (· < ·)) {low : Nat}
    (above : ∀ i ∈ columns, low ≤ i) (n : Nat) :
    columns.take n = List.range' low n ↔ ∀ i, low ≤ i → i < low + n → i ∈ columns := by
  induction n generalizing columns low with
  | zero => simp; omega
  | succ n ih =>
    cases columns with
    | nil => simpa using ⟨low, le_rfl, by omega⟩
    | cons c rest =>
      obtain ⟨less, increasing⟩ := List.pairwise_cons.mp increasing
      have start := above c (.head _)
      have beyond : ∀ i ∈ rest, low + 1 ≤ i := fun i inside => start.trans_lt (less i inside)
      have later := ih increasing beyond
      rw [List.take_succ_cons, List.range'_succ, List.cons.injEq, later]
      constructor
      · rintro ⟨rfl, full⟩ i least bound
        rcases least.eq_or_lt with rfl | further
        · exact .head _
        · exact .tail _ (full i further (by omega))
      · intro full
        have first : c = low := by
          rcases List.mem_cons.mp (full low le_rfl (by omega)) with same | inside
          · exact same.symm
          · have := less low inside
            omega
        refine ⟨first, fun i least bound => ?_⟩
        rcases List.mem_cons.mp (full i (by omega) (by omega)) with same | inside
        · omega
        · exact inside

/-- Increasing columns that are at their own place somewhere have no gap before it. -/
theorem take_eq_range'_of_head (increasing : columns.Pairwise (· < ·)) {low : Nat}
    (above : ∀ i ∈ columns, low ≤ i) (own : (columns.drop n).head? = some (low + n)) :
    columns.take n = List.range' low n := by
  induction n generalizing columns low with
  | zero => simp
  | succ n ih =>
    cases columns with
    | nil => simp at own
    | cons c rest =>
      obtain ⟨less, increasing⟩ := List.pairwise_cons.mp increasing
      have start := above c (.head _)
      have own : (rest.drop n).head? = some (low + 1 + n) := by
        simpa [Nat.add_comm, Nat.add_left_comm] using own
      have beyond : ∀ i ∈ rest, low + 1 ≤ i := fun i inside => start.trans_lt (less i inside)
      have tail := ih increasing beyond own
      have second : low + 1 ∈ rest := by
        cases n with
        | zero => exact List.mem_of_head? (by simpa using own)
        | succ n => exact List.mem_of_mem_take (tail ▸ List.mem_range'_1.mpr ⟨le_rfl, by omega⟩)
      have := less _ second
      rw [List.take_succ_cons, List.range'_succ, tail]
      congr
      omega

/-- A stretch of increasing columns is at its own place exactly if nothing is left out up to its
end. -/
theorem stretch_eq_range' (increasing : columns.Pairwise (· < ·)) {start length : Nat}
    (positive : 0 < length) :
    (columns.drop start).take length = List.range' start length ↔
      ∀ i < start + length, i ∈ columns := by
  have whole := take_eq_range' increasing (fun i _ => Nat.zero_le i) (start + length)
  simp only [Nat.zero_le, true_implies, Nat.zero_add] at whole
  rw [← whole]
  constructor
  · intro stretch
    have own : (columns.drop start).head? = some (0 + start) := by
      obtain ⟨length, rfl⟩ := Nat.exists_eq_succ_of_ne_zero positive.ne'
      cases rest : columns.drop start with
      | nil => simp [rest] at stretch
      | cons c later =>
        rw [rest, List.take_succ_cons, List.range'_succ] at stretch
        simp [(List.cons.inj stretch).1]
    rw [List.take_add, stretch, take_eq_range'_of_head increasing (fun _ _ => Nat.zero_le _) own,
      ← List.range'_append_1]
    simp
  · intro full
    have cut := congrArg (List.drop start) full
    rwa [List.drop_take, Nat.add_sub_cancel_left, List.drop_range', Nat.zero_add, Nat.mul_one,
      Nat.add_sub_cancel_left] at cut

/-- One text shows through another: as long as it, every character kept or made blank. -/
def Fades (text faded : Text) : Prop :=
  List.Forall₂ (fun c d => d = c ∨ d = ' ') text faded

namespace Fades

variable {text faded : Text}

theorem refl (text : Text) : Fades text text :=
  List.forall₂_same.mpr fun _ _ => .inl rfl

theorem trans {other : Text} (first : Fades text faded) (second : Fades faded other) : Fades text other := by
  unfold Fades at *
  induction first generalizing other with
  | nil => exact second
  | cons kept _ ih =>
    cases second with
    | cons again rest => exact .cons (by grind) (ih rest)

theorem blanks (bound : n ≤ text.length) : Fades (text.take n) (blanks n) := by
  induction text generalizing n with
  | nil =>
    obtain rfl : n = 0 := by simpa using bound
    exact .nil
  | cons c rest ih =>
    cases n with
    | zero => exact .nil
    | succ n => exact .cons (.inr rfl) (ih (Nat.le_of_succ_le_succ bound))

theorem eq_of_letters (fades : Fades text faded) (letters : ∀ c ∈ faded, isWordChar c = true) :
    text = faded := by
  unfold Fades at fades
  induction fades with
  | nil => rfl
  | @cons c d _ _ kept _ ih =>
    obtain ⟨letter, letters⟩ := List.forall_mem_cons.mp letters
    rcases kept with rfl | rfl
    · rw [ih letters]
    · exact absurd letter (by decide)

/-- A word that shows was there before. -/
theorem reveals (fades : Fades text faded) {word : Text}
    (letters : ∀ c ∈ word, isWordChar c = true) (shows : word <+: faded.drop column) :
    word <+: text.drop column := by
  obtain ⟨rest, whole⟩ := shows
  have cut : Fades ((text.drop column).take word.length) word :=
    List.forall₂_take_append _ _ _ (whole ▸ List.forall₂_drop column fades)
  exact List.prefix_iff_eq_take.mpr (cut.eq_of_letters letters).symm

end Fades

/-- What the replacer puts in fades what it takes out, and it takes something out. -/
def Replacer.Fades (replacer : Replacer) : Prop :=
  ∀ before text n new, replacer before text = some (n, new) →
    0 < n ∧ n ≤ text.length ∧ Pseudocode.Fades (text.take n) new

namespace Replacer.Fades

variable {replacer : Replacer}

theorem substituteFrom (fading : replacer.Fades) (before : Option Char) (skip : Nat) (text : Text) :
    Pseudocode.Fades (text.drop skip) (substituteFrom replacer before skip text) := by
  fun_induction Pseudocode.substituteFrom replacer before skip text with
  | case1 before skip n new found =>
    obtain ⟨positive, bound, -⟩ := fading _ _ _ _ found
    exact absurd bound (by simpa using positive.ne')
  | case2 before skip found => simpa using Pseudocode.Fades.refl []
  | case3 before skip c rest ih => exact ih
  | case4 before c rest new found ih => exact absurd (fading _ _ _ _ found).1 (lt_irrefl 0)
  | case5 before c rest n new found ih =>
    obtain ⟨-, -, fades⟩ := fading _ _ _ _ found
    rw [List.drop_zero, ← List.take_append_drop (n + 1) (c :: rest)]
    exact List.rel_append fades ih
  | case6 before c rest found ih => exact .cons (.inl rfl) ih

theorem substitute (fading : replacer.Fades) (text : Text) :
    Pseudocode.Fades text (substitute replacer text) :=
  fading.substituteFrom none 0 text

end Replacer.Fades

theorem blankDoubleQuoted_fades : Replacer.Fades blankDoubleQuoted := by
  intro before text n new found
  unfold blankDoubleQuoted at found
  split at found
  · simp only [Option.ite_none_right_eq_some] at found
    obtain ⟨closed, found⟩ := found
    obtain ⟨rfl, rfl⟩ := Prod.mk.inj (Option.some.inj found)
    have bound : (List.takeWhile (· ≠ '"') ‹Text›).length + 2 ≤ ('"' :: ‹Text›).length := by
      rw [List.length_cons]
      omega
    exact ⟨by omega, bound, .blanks bound⟩
  · simp at found

theorem blankSingleQuoted_fades : Replacer.Fades blankSingleQuoted := by
  intro before text n new found
  unfold blankSingleQuoted at found
  split at found
  · simp only [Option.ite_none_left_eq_some] at found
    obtain ⟨rfl, rfl⟩ := Prod.mk.inj (Option.some.inj found.2)
    exact ⟨by omega, by simp, .blanks (by simp)⟩
  · simp only [Option.ite_none_left_eq_some] at found
    obtain ⟨rfl, rfl⟩ := Prod.mk.inj (Option.some.inj found.2)
    exact ⟨by omega, by simp, .blanks (by simp)⟩
  · simp at found

theorem maskStrings_fades (text : Text) : Fades text (maskStrings text) :=
  (blankDoubleQuoted_fades.substitute text).trans (blankSingleQuoted_fades.substitute _)

theorem blankField_fades : Replacer.Fades blankField := by
  intro before text n new found
  unfold blankField at found
  split at found
  · rename_i rest
    obtain ⟨⟨name, after⟩, named, same⟩ := Option.map_eq_some_iff.mp found
    obtain ⟨rfl, rfl⟩ := Prod.mk.inj same
    have bound : name.length + 1 ≤ ('.' :: rest).length := by
      rw [(identifier?_eq_some named).1]
      simp
    exact ⟨by omega, bound, .blanks bound⟩
  · simp at found

/-- A field after a base that is kept. -/
theorem Fades.after {base after new : Text} (fades : Fades (after.take n) new) :
    Fades ((base ++ after).take (base.length + n)) (base ++ new) := by
  rw [List.take_length_add_append]
  exact List.rel_append (Fades.refl base) fades

theorem blankNamedField_fades : Replacer.Fades blankNamedField := by
  intro before text n new found
  unfold blankNamedField at found
  split at found
  · rename_i base after named
    obtain ⟨⟨length, blank⟩, field, same⟩ := Option.map_eq_some_iff.mp found
    obtain ⟨rfl, rfl⟩ := Prod.mk.inj same
    obtain ⟨positive, bound, fades⟩ := blankField_fades _ _ _ _ field
    obtain ⟨rfl, -⟩ := identifier?_eq_some named
    exact ⟨by omega, by rw [List.length_append]; omega, fades.after⟩
  · simp at found

theorem blankIndexedField_fades : Replacer.Fades blankIndexedField := by
  intro before text n new found
  unfold blankIndexedField at found
  split at found
  · obtain ⟨⟨length, blank⟩, field, same⟩ := Option.map_eq_some_iff.mp found
    obtain ⟨rfl, rfl⟩ := Prod.mk.inj same
    obtain ⟨positive, bound, fades⟩ := blankField_fades _ _ _ _ field
    exact ⟨by omega, by rw [List.length_cons]; omega, .cons (.inl rfl) fades⟩
  · simp at found

theorem maskFieldsOnce_fades (text : Text) : Fades text (maskFieldsOnce text) :=
  (blankNamedField_fades.substitute text).trans
    ((blankIndexedField_fades.substitute _).trans (blankField_fades.substitute _))

theorem maskFieldsWithin_fades (limit : Nat) (text : Text) : Fades text (maskFieldsWithin limit text) := by
  induction limit generalizing text with
  | zero => exact .refl text
  | succ limit ih =>
    rw [maskFieldsWithin]
    split
    · exact .refl text
    · exact (maskFieldsOnce_fades text).trans (ih _)

/-- The masked line has every character of the line in its place, or a blank. -/
theorem masked_fades (code : Text) : Fades code (maskFields (maskStrings code)) :=
  (maskStrings_fades code).trans (maskFieldsWithin_fades _ _)

/-- A word stands at a column, where `place` is that of the text. -/
structure Shows (text : Text) (place column : Nat) (word : Text) : Prop where
  nonempty : word ≠ []
  letters : ∀ c ∈ word, isWordChar c = true
  bound : place ≤ column
  stands : word <+: text.drop (column - place)

namespace Shows

variable {text word : Text} {place column : Nat}

theorem cons (shows : Shows text (place + 1) column word) (c : Char) : Shows (c :: text) place column word where
  nonempty := shows.nonempty
  letters := shows.letters
  bound := Nat.le_of_succ_le shows.bound
  stands := by
    have bound := shows.bound
    rw [show column - place = column - (place + 1) + 1 by omega, List.drop_succ_cons]
    exact shows.stands

theorem of_identifier {rest : Text} (named : identifier? text = some (name, rest)) :
    Shows text place place name where
  nonempty := by
    rintro rfl
    simpa [identifier?] using (identifier?_eq_some named).2
  letters _ := identifier?_mem (identifier?_eq_some named).2
  bound := le_rfl
  stands := by
    rw [Nat.sub_self, List.drop_zero, (identifier?_eq_some named).1]
    exact List.prefix_append _ _

end Shows

theorem wordsFrom_shows {place : Nat}
    (found : (column, name) ∈ wordsFrom before place text) : Shows text place column name := by
  induction text generalizing before place with
  | nil => simp [wordsFrom] at found
  | cons c rest ih =>
    rw [wordsFrom] at found
    split at found
    · rename_i start
      rcases List.mem_cons.mp found with here | later
      · obtain ⟨rightHere, named⟩ := Prod.mk.inj here
        rw [rightHere, named]
        rw [Bool.and_eq_true] at start
        exact .of_identifier (if_pos start.2)
      · exact (ih later).cons c
    · exact (ih found).cons c

theorem anyCallee_name {head : CallHead} (found : anyCallee text = some head) :
    (∃ rest, identifier? text = some (head.name, rest)) ∧ headAt? head.name.length text = some head := by
  obtain ⟨⟨name, rest⟩, named, headed⟩ := Option.bind_eq_some_iff.mp found
  simp only at headed
  have same : head.name = name := by
    unfold headAt? at headed
    simp only at headed
    split at headed
    · obtain rfl := Option.some.inj headed
      change text.take name.length = name
      rw [(identifier?_eq_some named).1, List.take_left]
    · simp at headed
  rw [same]
  exact ⟨⟨rest, named⟩, headed⟩

theorem callsFrom_shows {place : Nat} {after : Text} {head : CallHead}
    (found : (column, head, after) ∈ callsFrom anyCallee before place text) :
    Shows text place column head.name := by
  induction text generalizing before place with
  | nil => simp [callsFrom] at found
  | cons c rest ih =>
    rw [callsFrom] at found
    split at found
    · rename_i called
      rcases List.mem_cons.mp found with here | later
      · obtain ⟨rightHere, same⟩ := Prod.mk.inj here
        rw [rightHere, (Prod.mk.inj same).1]
        simp only [callAt?, Option.ite_none_right_eq_some] at called
        exact .of_identifier (anyCallee_name called.2).1.choose_spec
      · exact (ih later).cons c
    · exact (ih found).cons c

/-- The name that a finding is about. -/
def Finding.name? : Finding → Option Text
  | undeclared name => some name
  | wrongArity name _ _ => some name
  | _ => none

/-- The diagnostic is about a name that starts at its column of the text. One on an undeclared name
ends with it. -/
def Diagnostic.PointsIn (diagnostic : Diagnostic) (text : Text) : Prop :=
  ∀ name, diagnostic.finding.name? = some name →
    (name ≠ [] ∧ ∀ c ∈ name, isWordChar c = true) ∧ name <+: text.drop diagnostic.column ∧
      (diagnostic.finding = .undeclared name → diagnostic.endColumn = diagnostic.column + name.length)

/-- What was found after `before` is about names of the line. -/
def Scopes.Finds (line : Nat) (code : Text) (before after : Scopes) : Prop :=
  ∀ diagnostic ∈ after.diagnostics,
    diagnostic ∈ before.diagnostics ∨ diagnostic.line = line ∧ diagnostic.PointsIn code

namespace Scopes.Finds

variable {line : Nat} {code : Text} {before scopes after : Scopes}

theorem of_eq (same : after.diagnostics = before.diagnostics) : Finds line code before after :=
  fun _ inside => .inl (same ▸ inside)

theorem trans (first : Finds line code before scopes) (second : Finds line code scopes after) :
    Finds line code before after := fun diagnostic inside =>
  (second diagnostic inside).elim (first diagnostic) .inr

theorem report {diagnostics : List Diagnostic}
    (points : ∀ diagnostic ∈ diagnostics, diagnostic.line = line ∧ diagnostic.PointsIn code) :
    Finds line code before (before.report diagnostics) := fun diagnostic inside =>
  (List.mem_append.mp inside).imp_right (points diagnostic)

end Scopes.Finds

@[simp] theorem Scopes.declare_diagnostics (scopes : Scopes) (names : List Text) :
    (scopes.declare names).diagnostics = scopes.diagnostics := by
  unfold declare
  split <;> rfl

namespace Checker

variable (checker : Checker) (line : Nat) {view : Text}
variable {masked : Text}

theorem wordsBetween_shows {start stop : Nat}
    (found : (column, name) ∈ wordsBetween masked start stop) : Shows masked 0 column name := by
  have shows := wordsFrom_shows found
  refine ⟨shows.nonempty, shows.letters, Nat.zero_le _, ?_⟩
  have stands := shows.stands
  rw [List.drop_drop, Nat.add_sub_cancel' shows.bound] at stands
  exact stands.trans (List.IsPrefix.drop (List.take_prefix stop masked) column)

theorem checkWords_finds (fades : Fades view masked) (start stop : Nat) (scopes : Scopes) :
    scopes.Finds line view (checker.checkWords line masked start stop scopes) := by
  refine .report fun diagnostic inside => ?_
  obtain ⟨⟨column, name⟩, found, known⟩ := List.mem_filterMap.mp inside
  simp only [Option.ite_none_left_eq_some] at known
  obtain rfl := Option.some.inj known.2
  have shows := wordsBetween_shows found
  refine ⟨rfl, fun other named => ?_⟩
  obtain rfl := Option.some.inj named
  exact ⟨⟨shows.nonempty, shows.letters⟩, fades.reveals shows.letters shows.stands, fun _ => rfl⟩

theorem callDiagnostics_points (fades : Fades view masked) (code : Text)
    (calls : List (Nat × CallHead × Text))
    (among : ∀ call ∈ calls, call ∈ callsFrom anyCallee none 0 masked) :
    ∀ diagnostic ∈ checker.callDiagnostics line code calls,
      diagnostic.line = line ∧ diagnostic.PointsIn view := by
  induction calls with
  | nil => simp [callDiagnostics]
  | cons call others ih =>
    obtain ⟨column, head, rest⟩ := call
    obtain ⟨here, later⟩ := List.forall_mem_cons.mp among
    have others := ih later
    rw [callDiagnostics]
    simp only
    split
    · simp [Diagnostic.PointsIn, Finding.name?]
    · split
      · exact others
      · split
        · exact others
        · refine List.forall_mem_cons.mpr ⟨⟨rfl, fun name named => ?_⟩, others⟩
          obtain rfl := Option.some.inj named
          have shows := callsFrom_shows here
          exact ⟨⟨shows.nonempty, shows.letters⟩, fades.reveals shows.letters shows.stands, by simp⟩

theorem checkCalls_finds (fades : Fades view masked) (code : Text) (scopes : Scopes) :
    scopes.Finds line view (checker.checkCalls line code masked scopes) :=
  .report (checker.callDiagnostics_points line fades code _ fun _ inside => inside)

/-- What a line adds to the findings is what its words and its calls add: a relation of states that
holds of these, and of states that agree on the findings, holds of the states around the line. -/
theorem checkLine_relates {code : Text} {relates : Scopes → Scopes → Prop}
    (silent : ∀ {before after : Scopes}, after.diagnostics = before.diagnostics → relates before after)
    (trans : ∀ {before scopes after}, relates before scopes → relates scopes after → relates before after)
    (words : ∀ start stop scopes,
      relates scopes (checker.checkWords line (maskFields (maskStrings code)) start stop scopes))
    (calls : ∀ scopes, relates scopes (checker.checkCalls line code (maskFields (maskStrings code)) scopes))
    (scopes : Scopes) : relates scopes (checker.checkLine line code scopes) := by
  have assigned (arrow : Nat) (scopes : Scopes) :
      relates scopes (checker.checkAssignment line (maskFields (maskStrings code)) arrow scopes) := by
    unfold checkAssignment
    simp only
    split
    · exact words _ _ _
    · exact trans (trans (words _ _ _) (silent (Scopes.declare_diagnostics _ _))) (words _ _ _)
  have pushed (names : List Text) (scopes : Scopes) : relates scopes (scopes.push names false) := silent rfl
  unfold checkLine
  simp only
  split
  · exact silent rfl
  · split
    · exact silent rfl
    · exact silent rfl
    · exact silent rfl
    · exact silent rfl
    · exact silent rfl
    · split <;> exact silent rfl
    · exact silent rfl
    · exact silent (Scopes.declare_diagnostics _ _)
    · exact trans (trans (calls _) (silent (Scopes.declare_diagnostics _ _))) (words _ _ _)
    · exact trans (trans (calls _) (pushed _ _)) (words _ _ _)
    · split <;> exact trans (trans (calls _) (pushed _ _)) (words _ _ _)
    · have entered : relates scopes
          (if opensBlock (trim (maskFields (maskStrings code))) then
            (checker.checkCalls line code (maskFields (maskStrings code)) scopes).push [] false
          else checker.checkCalls line code (maskFields (maskStrings code)) scopes) := by
        split
        · exact trans (calls _) (pushed _ _)
        · exact calls _
      split
      · exact trans entered (assigned _ _)
      · exact trans entered (words _ _ _)

/-- What a line adds to the findings is about names in its code, or in any text that its masked form
shows through. -/
theorem checkLine_finds {code : Text} (fades : Fades view (maskFields (maskStrings code)))
    (scopes : Scopes) : scopes.Finds line view (checker.checkLine line code scopes) :=
  checker.checkLine_relates line .of_eq .trans (checker.checkWords_finds line fades)
    (checker.checkCalls_finds line fades code) scopes

end Checker

/-- Whether a block comment is open where the line of an index starts. -/
def inBlockAt : (inBlock : Bool) → List Text → Nat → Bool
  | inBlock, line :: rest, index + 1 => inBlockAt (splitLine inBlock line).inBlock rest index
  | inBlock, _, _ => inBlock

/-- Every finding on a run of lines is one from before, or is about a name in the view of a line. -/
theorem Checker.checkFrom_finds
    (fades : ∀ code, Fades (view code) (maskFields (maskStrings code))) (checker : Checker) (number : Nat)
    (inBlock : Bool) (scopes : Scopes) (ls : List Text) :
    ∀ diagnostic ∈ (checker.checkFrom number inBlock scopes ls).diagnostics,
      diagnostic ∈ scopes.diagnostics ∨ ∃ index raw, ls[index]? = some raw ∧
        diagnostic.line = number + index ∧
        diagnostic.PointsIn (view (splitLine (inBlockAt inBlock ls index) raw).code) := by
  induction ls generalizing number inBlock scopes with
  | nil => exact fun _ inside => .inl inside
  | cons raw rest ih =>
    intro diagnostic inside
    rcases ih _ _ _ diagnostic inside with early | ⟨index, later, listed, line, points⟩
    · refine (checker.checkLine_finds number (fades _) scopes diagnostic early).imp_right fun found => ?_
      exact ⟨0, raw, rfl, found.1, found.2⟩
    · exact .inr ⟨index + 1, later, listed, by omega, points⟩

/-- The columns of a line of the source that hold code. -/
def codeColumnsAt (source : Text) (index : Nat) : List Nat :=
  match (lines source)[index]? with
  | some raw => codeColumns (if inBlockAt false (lines source) index then .block else .code) raw
  | none => []

/-- The columns of the source at which the characters of a reported name stand. -/
def Diagnostic.nameColumns (diagnostic : Diagnostic) (source name : Text) : List Nat :=
  ((codeColumnsAt source diagnostic.line).drop diagnostic.column).take name.length

theorem check_pointsIn {language : Language} {source : Text} {diagnostic : Diagnostic}
    (fades : ∀ code, Fades (view code) (maskFields (maskStrings code)))
    (found : diagnostic ∈ (check language source).result) (named : diagnostic.finding.name? = some name) :
    ∃ raw, (lines source)[diagnostic.line]? = some raw ∧
      diagnostic.PointsIn (view (splitLine (inBlockAt false (lines source) diagnostic.line) raw).code) := by
  have reported : diagnostic ∈ (Checker.checkFrom
      { language, functions := (Signatures.collect source).names,
        records := (Records.collect language source).names } 0 false {} (lines source)).diagnostics := by
    simp only [check, Checker.diagnostics] at found
    split at found
    · exact found
    · refine (List.mem_append.mp found).resolve_right fun last => ?_
      rw [List.mem_singleton.mp last] at named
      simp [Finding.name?] at named
  obtain early | ⟨index, raw, listed, line, points⟩ := Checker.checkFrom_finds fades _ _ _ _ _ _ reported
  · simp at early
  · obtain rfl : diagnostic.line = index := by omega
    exact ⟨raw, listed, points⟩

theorem prefix_of_range' {raw : Text}
    (read : (List.range' column name.length).map (raw[·]?) = name.map some) : name <+: raw.drop column := by
  rw [List.prefix_iff_getElem?]
  intro i bound
  have here := congrArg (·[i]?) read
  simp only [List.getElem?_map, List.getElem?_range' bound, Option.map_some,
    List.getElem?_eq_getElem bound] at here
  simpa using here

/-- A reported name stands in the code columns of its line, from the reported column on. These are the
reported columns of the line itself exactly if no comment stands before the end of the name. -/
theorem check_places (language : Language) (source : Text) {diagnostic : Diagnostic} {name : Text}
    (found : diagnostic ∈ (check language source).result) (named : diagnostic.finding.name? = some name) :
    ∃ raw, (lines source)[diagnostic.line]? = some raw ∧ name ≠ [] ∧
      (diagnostic.nameColumns source name).map (raw[·]?) = name.map some ∧
      (diagnostic.nameColumns source name = List.range' diagnostic.column name.length ↔
        ∀ i < diagnostic.column + name.length, i ∈ codeColumnsAt source diagnostic.line) ∧
      ((∀ i < diagnostic.column + name.length, i ∈ codeColumnsAt source diagnostic.line) →
        name <+: raw.drop diagnostic.column ∧
        (diagnostic.finding = .undeclared name →
          (raw.take diagnostic.endColumn).drop diagnostic.column = name)) := by
  obtain ⟨raw, listed, points⟩ := check_pointsIn masked_fades found named
  obtain ⟨⟨nonempty, -⟩, stands, ends⟩ := points name named
  have columns : codeColumnsAt source diagnostic.line =
      codeColumns (if inBlockAt false (lines source) diagnostic.line then .block else .code) raw := by
    rw [codeColumnsAt, listed]
  have read : (diagnostic.nameColumns source name).map (raw[·]?) = name.map some := by
    rw [Diagnostic.nameColumns, columns, List.map_take, List.map_drop, codeColumns_read, ← List.map_drop,
      ← List.map_take]
    exact congrArg (List.map some) (List.prefix_iff_eq_take.mp stands).symm
  have inPlace : diagnostic.nameColumns source name = List.range' diagnostic.column name.length ↔
      ∀ i < diagnostic.column + name.length, i ∈ codeColumnsAt source diagnostic.line := by
    rw [Diagnostic.nameColumns, columns]
    exact stretch_eq_range' (codeColumns_increasing _ _) (List.length_pos_iff.mpr nonempty)
  refine ⟨raw, listed, nonempty, read, inPlace, fun bare => ?_⟩
  have shown : name <+: raw.drop diagnostic.column := prefix_of_range' (inPlace.mpr bare ▸ read)
  refine ⟨shown, fun undeclared => ?_⟩
  rw [ends undeclared, List.drop_take, Nat.add_sub_cancel_left]
  exact (List.prefix_iff_eq_take.mp shown).symm

/-- Behind a literal and before a comment, on the second line. -/
def literalSource : Text :=
  "a ← 1 // un\nx ← \"é\" + y.z /* z */\n".toList

theorem check_places_literal :
    { line := 1, column := 10, endColumn := 11, finding := .undeclared ['y'] } ∈
        (check standardLanguage literalSource).result ∧
      ∃ raw, (lines literalSource)[1]? = some raw ∧ (raw.take 11).drop 10 = ['y'] := by
  have found : { line := 1, column := 10, endColumn := 11, finding := .undeclared ['y'] } ∈
      (check standardLanguage literalSource).result := by
    decide +kernel
  obtain ⟨raw, listed, -, -, -, bare⟩ := check_places standardLanguage literalSource found rfl
  have code : ∀ i < 11, i ∈ codeColumnsAt literalSource 1 := by decide +kernel
  exact ⟨found, raw, listed, (bare code).2 rfl⟩

/-- A block comment moves what follows it to the left of where it stands. -/
theorem check_places_shifted :
    { line := 0, column := 5, endColumn := 6, finding := .undeclared ['y'] } ∈
        (check standardLanguage "/* c */ x ← y\n".toList).result ∧
      ("/* c */ x ← y".toList.take 6).drop 5 ≠ ['y'] := by
  decide +kernel

end Pseudocode
