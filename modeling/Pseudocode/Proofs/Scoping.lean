import Pseudocode.Proofs.CheckedLine

namespace Pseudocode

/-- A program as a sequence of assignments, outputs and blocks. -/
inductive Program where
  | done
  | assign (target : Text) (value : Phrase) (next : Program)
  | write (values : Phrase) (next : Program)
  | block (opening : Opening) (body : Program) (closer : String) (next : Program)
  deriving DecidableEq, Repr

/-- The undeclared names among those that are used in a line. -/
def undeclaredIn (line : Nat) (visible : List Text) (uses : List (Nat × Text)) : List Diagnostic :=
  uses.filterMap fun (column, name) =>
    if visible.contains name then none
    else some { line, column, endColumn := column + name.length, finding := .undeclared name }

/-- Lines set in by margins, where `line` is the number of the first. -/
def setIn (margin : Nat → Text) (line : Nat) : List Text → List Text
  | [] => []
  | code :: rest => (margin line ++ code) :: setIn margin (line + 1) rest

namespace Program

def code : Program → List Text
  | done => []
  | assign target value next => (target ++ ' ' :: '←' :: ' ' :: value.text) :: next.code
  | write values next => ("écrire".toList ++ '(' :: (values.text ++ [')'])) :: next.code
  | block opening body closer next => opening.lines ++ body.code ++ closer.toList :: next.code

def source (program : Program) (margin : Nat → Text) : Text :=
  unlines (setIn margin 0 program.code)

/-- The uses of names that no block which is open there has introduced or assigned before, in the
order of the text. `line` is the number of the first line, and `visible` has the names that may be
used there. -/
def undeclared (margin : Nat → Text) : Program → (line : Nat) → (visible : List Text) → List Diagnostic
  | done, _, _ => []
  | assign target value next, line, visible =>
    undeclaredIn line visible (value.names ((margin line).length + target.length + 3)) ++
      next.undeclared margin (line + 1) (target :: visible)
  | write values next, line, visible =>
    undeclaredIn line visible (values.names ((margin line).length + 7)) ++
      next.undeclared margin (line + 1) visible
  | block opening body _ next, line, visible =>
    undeclaredIn line (opening.declared ++ visible) (opening.uses (margin line).length) ++
      body.undeclared margin (line + opening.lines.length) (opening.declared ++ visible) ++
      next.undeclared margin (line + opening.lines.length + body.code.length + 1) visible

def functions : Program → List Text
  | done => []
  | assign _ _ next | write _ next => next.functions
  | block (.fonction header) body _ next => header.name :: (body.functions ++ next.functions)
  | block _ body _ next => body.functions ++ next.functions

def Proper : Program → Prop
  | done => True
  | assign target value next => isUserName target = true ∧ value.isWhole = true ∧ next.Proper
  | write values next => values.isProper = true ∧ next.Proper
  | block opening body closer next =>
    opening.Proper ∧ closer ∈ opening.closers ∧ body.Proper ∧ next.Proper

end Program

namespace Scopes

variable (scopes : Scopes)

theorem report_report (first second : List Diagnostic) :
    (scopes.report first).report second = scopes.report (first ++ second) := by
  simp only [report, List.append_assoc]

theorem declare_report (names : List Text) (found : List Diagnostic) :
    (scopes.declare names).report found = (scopes.report found).declare names := by
  obtain ⟨inner, outer, pending, inHeader, diagnostics⟩ := scopes
  cases inner <;> rfl

theorem declare_declare (first second : List Text) :
    (scopes.declare first).declare second = scopes.declare (second ++ first) := by
  obtain ⟨inner, outer, pending, inHeader, diagnostics⟩ := scopes
  cases inner <;> simp [declare]

theorem declare_nil : scopes.declare [] = scopes := by
  obtain ⟨inner, outer, pending, inHeader, diagnostics⟩ := scopes
  cases inner <;> rfl

/-- What is declared in a block is gone when the block is left. -/
theorem pop_declare_push {scopes : Scopes} (settled : scopes.pending = false) (names others : List Text)
    (pending : Bool) (found : List Diagnostic) :
    (((scopes.push names pending).report found).declare others).pop = scopes.report found := by
  simp only [push, report, declare, pop, List.tail_cons, ← settled]

theorem declares_push (names : List Text) (pending : Bool) (name : Text) :
    (scopes.push names pending).declares name = (names.contains name || scopes.declares name) := by
  simp only [push, declares, List.any_cons, Bool.or_assoc]

theorem declares_declare (names : List Text) (name : Text) :
    (scopes.declare names).declares name = (names.contains name || scopes.declares name) := by
  obtain ⟨inner, outer, pending, inHeader, diagnostics⟩ := scopes
  cases inner with
  | nil => simp [declare, declares]
  | cons scope inner => simp [declare, declares, Bool.or_assoc]

@[simp] theorem inHeader_declare (names : List Text) : (scopes.declare names).inHeader = scopes.inHeader := by
  obtain ⟨inner, outer, pending, inHeader, diagnostics⟩ := scopes
  cases inner <;> rfl

@[simp] theorem pending_declare (names : List Text) : (scopes.declare names).pending = scopes.pending := by
  obtain ⟨inner, outer, pending, inHeader, diagnostics⟩ := scopes
  cases inner <;> rfl

end Scopes

/-- The diagnostic is about none of these names. -/
def Diagnostic.isApart (names : List Text) (diagnostic : Diagnostic) : Bool :=
  diagnostic.finding.name?.all (!names.contains ·)

/-- The names that the blocks which are open declare are the visible ones, and no header waits for
the beginning of its block. -/
structure Scopes.Settled (scopes : Scopes) (visible : List Text) : Prop where
  inBody : scopes.inHeader = false
  settled : scopes.pending = false
  same : ∀ name, scopes.declares name = visible.contains name

namespace Checker

/-- At names of the program, what is unknown is what is undeclared, functions aside. -/
theorem unknown_eq (functions : List Text) (line : Nat) {scopes : Scopes} {visible : List Text}
    (same : ∀ name, scopes.declares name = visible.contains name) {uses : List (Nat × Text)}
    (users : ∀ use ∈ uses, isUserName use.2 = true) :
    uses.filterMap (({ functions } : Checker).unknown line scopes) =
      (undeclaredIn line visible uses).filter (·.isApart functions) := by
  rw [undeclaredIn, List.filter_filterMap]
  refine List.filterMap_congr fun use member => ?_
  obtain ⟨column, name⟩ := use
  have user := users _ member
  simp only [isUserName, Bool.and_eq_true, Bool.not_eq_true'] at user
  have known : ({ functions } : Checker).knows scopes name =
      (functions.contains name || visible.contains name) := by
    rw [knows, user.2, same name]
    rfl
  simp only [unknown, known]
  by_cases seen : name ∈ visible
  · simp [seen]
  · by_cases own : name ∈ functions <;>
      simp [seen, own, Diagnostic.isApart, Finding.name?, Option.filter]

end Checker

/-- A trimmed line in which nothing can be masked, that declares nothing. -/
def isFixedLine (code : Text) : Bool :=
  code.all (fun c => c ≠ '"' && c ≠ '\'' && c ≠ '/' && c ≠ '.' && !isLineBreak c) &&
    code.head?.all (!isBlank ·) && trim code = code && Signature.ofLine? code = none &&
    RecordType.ofLine? standardLanguage code = none

theorem isSet_fixed {margin code : Text} (blank : ∀ c ∈ margin, c = ' ' ∨ c = '\t')
    (fixed : isFixedLine code = true) : IsSet margin code := by
  simp only [isFixedLine, Bool.and_eq_true, decide_eq_true_eq, Option.all_eq_true, List.all_eq_true] at fixed
  obtain ⟨⟨⟨⟨plain, first⟩, trimmed⟩, -⟩, -⟩ := fixed
  refine ⟨blank, ⟨fun c member => ⟨(plain c member).1.1.1.1, (plain c member).1.1.1.2⟩, ?_⟩,
    fun c head => by simpa using first c head, trimmed⟩
  exact (List.pairwise_of_forall_mem_list fun a member b _ =>
    Phrase.adjoins_other (plain a member).1.1.2 (plain a member).1.2).isChain

theorem Opening.closer_fixed {opening : Opening} {closer : String} (own : closer ∈ opening.closers) :
    ∃ keyword : BlockKeyword, closer ∈ keyword.closers := by
  cases opening with
  | si => exact ⟨.si, own⟩
  | tantQue => exact ⟨.tantQue, own⟩
  | pour => exact ⟨.pour, own⟩
  | fonction | debut =>
    obtain rfl := List.mem_singleton.mp own
    exact ⟨.si, by decide⟩

theorem BlockKeyword.closer_fixed {keyword : BlockKeyword} {closer : String} (own : closer ∈ keyword.closers) :
    isFixedLine closer.toList = true := by
  have all : ∀ keyword ∈ [BlockKeyword.si, .pour, .tantQue], ∀ closer ∈ keyword.closers,
      isFixedLine closer.toList = true := by decide
  exact all keyword (by cases keyword <;> decide) closer own

theorem begin_fixed : isFixedLine "Début".toList = true := by
  decide

namespace Checker

variable (functions : List Text) {margin : Nat → Text}

theorem checkFrom_set {code margin : Text} (set : IsSet margin code) (checker : Checker) (line : Nat)
    (scopes : Scopes) (rest : List Text) :
    checker.checkFrom line false scopes ((margin ++ code) :: rest) =
      checker.checkFrom (line + 1) false (checker.checkLine line (margin ++ code) scopes) rest := by
  rw [checkFrom]
  simp only [set.whole.splitLine]

/-- The lines that open a block enter its scope. -/
theorem checkFrom_opening (blank : ∀ n, ∀ c ∈ margin n, c = ' ' ∨ c = '\t') {opening : Opening}
    (proper : opening.Proper) {scopes : Scopes} {visible : List Text} (settled : scopes.Settled visible)
    (line : Nat) (rest : List Text) :
    ({ functions } : Checker).checkFrom line false scopes (setIn margin line opening.lines ++ rest) =
      ({ functions } : Checker).checkFrom (line + opening.lines.length) false
        ((scopes.push opening.declared false).report
          ((undeclaredIn line (opening.declared ++ visible) (opening.uses (margin line).length)).filter
            (·.isApart functions))) rest := by
  have same (pending : Bool) (names : List Text) (name : Text) :
      (scopes.push names pending).declares name = (names ++ visible).contains name := by
    rw [scopes.declares_push, settled.same, List.contains_append]
  have opener (n : Nat) : IsSet (margin n) "Début".toList := isSet_fixed (blank n) begin_fixed
  have marker : Statement.ofLine standardLanguage "Début".toList = .sectionMarker := by decide
  have first {opening : Opening} (proper : opening.Proper) (set : IsSet (margin line) opening.firstLine)
      (read : ({ functions } : Checker).checkLine line (margin line ++ opening.firstLine) scopes =
        (scopes.push opening.declared false).report ((opening.uses (margin line).length).filterMap
          (({ functions } : Checker).unknown line (scopes.push opening.declared false)))) :
      ({ functions } : Checker).checkFrom line false scopes ((margin line ++ opening.firstLine) :: rest) =
        ({ functions } : Checker).checkFrom (line + 1) false ((scopes.push opening.declared false).report
          ((undeclaredIn line (opening.declared ++ visible) (opening.uses (margin line).length)).filter
            (·.isApart functions))) rest := by
    rw [checkFrom_set set, read, unknown_eq functions line (same false _) (opening.uses_user proper _)]
  cases opening with
  | si condition =>
    exact first proper ((Opening.told_si proper).isSet (blank line))
      (checkLine_si functions line proper (blank line) settled.inBody)
  | tantQue condition =>
    exact first proper ((Opening.told_tantQue proper).isSet (blank line))
      (checkLine_tantQue functions line proper (blank line) settled.inBody)
  | pour counter start stop =>
    exact first proper ((Opening.told_pour proper.1 proper.2.1 proper.2.2).isSet (blank line))
      (checkLine_pour functions line proper.1 proper.2.1 proper.2.2 (blank line) settled.inBody)
  | fonction header =>
    have entered := checkLine_header functions line (isSet_fonction proper (blank line)) settled.inBody
      (ofLine_fonction proper)
    rw [parametersOf_fonction proper] at entered
    have opened := checkLine_begin functions (line + 1) (opener (line + 1))
      (show (scopes.push (Opening.fonction header).declared true).inHeader = false from settled.inBody) marker
    rw [Opening.lines, setIn, setIn, setIn, List.cons_append, List.cons_append,
      checkFrom_set (isSet_fonction proper (blank line)), entered, checkFrom_set (opener (line + 1)), opened]
    simp [Scopes.push, Scopes.report, Opening.uses, undeclaredIn]
  | debut =>
    have opened := checkLine_begin functions line (opener line) settled.inBody marker
    rw [settled.settled, if_neg (by decide)] at opened
    refine first trivial (opener line) (opened.trans ?_)
    simp [Scopes.report, Opening.uses, Opening.declared]

end Checker

theorem setIn_append (margin : Nat → Text) (line : Nat) (first second : List Text) :
    setIn margin line (first ++ second) = setIn margin line first ++ setIn margin (line + first.length) second := by
  induction first generalizing line with
  | nil => rfl
  | cons code first ih =>
    rw [List.cons_append, setIn, ih, setIn, List.cons_append, List.length_cons, Nat.add_right_comm, Nat.add_assoc]

namespace Scopes.Settled

variable {scopes : Scopes} {visible : List Text}

theorem report (settled : scopes.Settled visible) (found : List Diagnostic) :
    (scopes.report found).Settled visible :=
  ⟨settled.inBody, settled.settled, settled.same⟩

theorem declare (settled : scopes.Settled visible) (names : List Text) :
    (scopes.declare names).Settled (names ++ visible) where
  inBody := scopes.inHeader_declare names ▸ settled.inBody
  settled := scopes.pending_declare names ▸ settled.settled
  same name := by rw [scopes.declares_declare, settled.same, List.contains_append]

theorem push (settled : scopes.Settled visible) (names : List Text) :
    (scopes.push names false).Settled (names ++ visible) where
  inBody := settled.inBody
  settled := rfl
  same name := by rw [scopes.declares_push, settled.same, List.contains_append]

end Scopes.Settled

namespace Program

/-- The targets that are assigned outside inner blocks, the last first. -/
def assigned : Program → List Text
  | done => []
  | assign target _ next => next.assigned ++ [target]
  | write _ next | block _ _ _ next => next.assigned

/-- The check of a program reports its undeclared names, functions aside, and leaves the targets that
it assigns outside inner blocks declared. -/
theorem checkFrom_code (functions : List Text) {margin : Nat → Text}
    (blank : ∀ n, ∀ c ∈ margin n, c = ' ' ∨ c = '\t') {program : Program} (proper : program.Proper)
    {scopes : Scopes} {visible : List Text} (settled : scopes.Settled visible) (line : Nat) (rest : List Text) :
    ({ functions } : Checker).checkFrom line false scopes (setIn margin line program.code ++ rest) =
      ({ functions } : Checker).checkFrom (line + program.code.length) false
        ((scopes.report ((program.undeclared margin line visible).filter (·.isApart functions))).declare
          program.assigned) rest := by
  induction program generalizing scopes visible line rest with
  | done =>
    rw [undeclared, List.filter_nil, Scopes.report, List.append_nil, assigned, Scopes.declare_nil]
    rfl
  | assign target value next ih =>
    obtain ⟨named, whole, later⟩ := proper
    have read := Checker.checkLine_assign functions line named whole (blank line) settled.inBody
    rw [Checker.unknown_eq functions line settled.same (Phrase.names_user (Phrase.isWhole_proper whole) _)] at read
    rw [code, setIn, List.cons_append, Checker.checkFrom_set (isSet_assign named whole (blank line)), read,
      ih later ((settled.report _).declare [target]), Scopes.declare_report, Scopes.report_report,
      Scopes.declare_declare, ← List.filter_append, List.length_cons, Nat.add_right_comm, Nat.add_assoc]
    rfl
  | write values next ih =>
    obtain ⟨written, later⟩ := proper
    have read := Checker.checkLine_write functions line written (blank line) settled.inBody
    rw [Checker.unknown_eq functions line settled.same (Phrase.names_user written _)] at read
    rw [code, setIn, List.cons_append, Checker.checkFrom_set ((told_write written).isSet (blank line)), read,
      ih later (settled.report _), Scopes.report_report, ← List.filter_append, List.length_cons,
      Nat.add_right_comm, Nat.add_assoc]
    rfl
  | block opening body closer next ihBody ih =>
    obtain ⟨opened, own, inner, later⟩ := proper
    obtain ⟨keyword, listed⟩ := Opening.closer_fixed own
    obtain ⟨closed, close, -⟩ := Statement.ofLine_closer listed
    obtain ⟨place, reached⟩ : ∃ place, place = line + opening.lines.length + body.code.length := ⟨_, rfl⟩
    have set : IsSet (margin place) closer.toList :=
      isSet_fixed (blank place) (BlockKeyword.closer_fixed listed)
    have parted : setIn margin line (block opening body closer next).code =
        setIn margin line opening.lines ++ (setIn margin (line + opening.lines.length) body.code ++
          ((margin place ++ closer.toList) :: setIn margin (place + 1) next.code)) := by
      rw [code, List.append_assoc, setIn_append, setIn_append, setIn, reached]
    have length : line + (block opening body closer next).code.length = place + 1 + next.code.length := by
      rw [code, List.length_append, List.length_append, List.length_cons, reached]
      omega
    have entered := (settled.push opening.declared).report
      ((undeclaredIn line (opening.declared ++ visible) (opening.uses (margin line).length)).filter
        (·.isApart functions))
    have left := Checker.checkLine_close functions place set ((entered.report
      ((body.undeclared margin (line + opening.lines.length) (opening.declared ++ visible)).filter
        (·.isApart functions))).declare body.assigned).inBody close
    rw [Scopes.report_report, Scopes.pop_declare_push settled.settled] at left
    rw [parted, List.append_assoc, Checker.checkFrom_opening functions blank opened settled, List.append_assoc,
      ihBody inner entered, ← reached, Scopes.report_report, List.cons_append, Checker.checkFrom_set set, left,
      ih later (settled.report _), Scopes.report_report, length]
    simp only [undeclared, List.filter_append, assigned, reached]

end Program

/-- A trimmed line that holds no break and declares no record type. -/
structure IsSimple (code : Text) : Prop where
  unbroken : ∀ c ∈ code, isLineBreak c = false
  trimmed : trim code = code
  record : RecordType.ofLine? standardLanguage code = none

theorem Led.isSimple {line word tail : Text} (led : Led line word tail)
    (unbroken : ∀ c ∈ line, isLineBreak c = false) : IsSimple line where
  unbroken := unbroken
  trimmed := led.trimmed
  record := RecordType.ofLine?_none standardLanguage (by rw [led.trimmed]; exact led.identifier?_eq) led.follow

/-- Only a line that starts with the keyword declares a function. -/
theorem Led.signature_none {line word tail : Text} (led : Led line word tail)
    (other : word.map caseKey ≠ "fonction".toList.map caseKey) : Signature.ofLine? line = none := by
  have unopened : Signature.openHeader? line = none := by
    have none := led.dropWord?_blanks_other (by decide) other
    rw [Option.bind_eq_none_iff] at none
    rw [Signature.openHeader?, trimLeft_of_head (led.split ▸ identifier?_head led.name tail),
      Option.bind_eq_bind, Option.bind_eq_none_iff]
    intro rest found
    rw [none rest found]
    rfl
  rw [Signature.ofLine?, Signature.header?, unopened]
  rfl

theorem isFixedLine_isSimple {code : Text} (fixed : isFixedLine code = true) :
    IsSimple code ∧ Signature.ofLine? code = none := by
  simp only [isFixedLine, Bool.and_eq_true, decide_eq_true_eq, List.all_eq_true] at fixed
  obtain ⟨⟨⟨⟨plain, -⟩, trimmed⟩, signature⟩, record⟩ := fixed
  exact ⟨⟨fun c member => by simpa using (plain c member).2, trimmed, record⟩, signature⟩

namespace Opening

theorem lines_isSimple {opening : Opening} (proper : opening.Proper) : ∀ code ∈ opening.lines, IsSimple code := by
  have opener : IsSimple "Début".toList := (isFixedLine_isSimple begin_fixed).1
  cases opening with
  | si condition => exact List.forall_mem_singleton.mpr ((told_si proper).toLed.isSimple (told_si proper).unbroken)
  | tantQue condition =>
    exact List.forall_mem_singleton.mpr ((told_tantQue proper).toLed.isSimple (told_tantQue proper).unbroken)
  | pour counter start stop =>
    have told := told_pour proper.1 proper.2.1 proper.2.2
    exact List.forall_mem_singleton.mpr (told.toLed.isSimple told.unbroken)
  | fonction header =>
    exact List.forall_mem_cons.mpr ⟨(led_fonction proper).isSimple proper.2.2.1,
      List.forall_mem_singleton.mpr opener⟩
  | debut => exact List.forall_mem_singleton.mpr opener

/-- The name of the function that the block belongs to. -/
def function? : Opening → Option Text
  | fonction header => some header.name
  | _ => none

theorem lines_signatures {margin : Nat → Text} (blank : ∀ n, ∀ c ∈ margin n, isBlank c = true)
    {opening : Opening} (proper : opening.Proper) (line : Nat) :
    ((setIn margin line opening.lines).filterMap Signature.ofLine?).map (·.name) = opening.function?.toList := by
  have opener : Signature.ofLine? "Début".toList = none := (isFixedLine_isSimple begin_fixed).2
  have single {code : Text} (none : Signature.ofLine? code = none) :
      ((setIn margin line [code]).filterMap Signature.ofLine?).map (·.name) = [] := by
    rw [setIn, setIn, List.filterMap_cons, Signature.ofLine?_margin (blank line), none]
    rfl
  cases opening with
  | si condition => exact single ((told_si proper).signature_none (by decide))
  | tantQue condition => exact single ((told_tantQue proper).signature_none (by decide))
  | pour counter start stop =>
    exact single ((told_pour proper.1 proper.2.1 proper.2.2).signature_none (by decide))
  | fonction header =>
    rw [lines, setIn, setIn, setIn, List.filterMap_cons, Signature.ofLine?_margin (blank line),
      Signature.ofLine?, proper.1.header?, Option.map_some, List.filterMap_cons,
      Signature.ofLine?_margin (blank (line + 1)), opener]
    rfl
  | debut => exact single opener

end Opening

namespace Program

theorem code_isSimple {program : Program} (proper : program.Proper) : ∀ code ∈ program.code, IsSimple code := by
  induction program with
  | done => simp [code]
  | assign target value next ih =>
    obtain ⟨named, whole, later⟩ := proper
    refine List.forall_mem_cons.mpr ⟨(led_assign named whole).isSimple fun c member => ?_, ih later⟩
    rcases List.mem_append.mp member with inside | inside
    · exact (Orderly.word fun c => identifier?_mem (isUserName_identifier named)).unbroken c inside
    · rcases List.mem_cons.mp inside with rfl | inside
      · decide
      · rcases List.mem_cons.mp inside with rfl | inside
        · decide
        · rcases List.mem_cons.mp inside with rfl | inside
          · decide
          · exact (Orderly.phrase (Phrase.isWhole_proper whole)).unbroken c inside
  | write values next ih =>
    have told := told_write proper.1
    exact List.forall_mem_cons.mpr ⟨told.toLed.isSimple told.unbroken, ih proper.2⟩
  | block opening body closer next ihBody ih =>
    obtain ⟨opened, own, inner, later⟩ := proper
    obtain ⟨keyword, listed⟩ := Opening.closer_fixed own
    exact List.forall_mem_append.mpr ⟨List.forall_mem_append.mpr ⟨Opening.lines_isSimple opened, ihBody inner⟩,
      List.forall_mem_cons.mpr ⟨(isFixedLine_isSimple (BlockKeyword.closer_fixed listed)).1, ih later⟩⟩

theorem code_signatures {margin : Nat → Text} (blank : ∀ n, ∀ c ∈ margin n, isBlank c = true)
    {program : Program} (proper : program.Proper) (line : Nat) :
    ((setIn margin line program.code).filterMap Signature.ofLine?).map (·.name) = program.functions := by
  induction program generalizing line with
  | done => rfl
  | assign target value next ih =>
    have none := (led_assign proper.1 proper.2.1).signature_none ((isUserName_differs proper.1) _ (by decide))
    rw [code, setIn, List.filterMap_cons, Signature.ofLine?_margin (blank line), none]
    exact ih proper.2.2 (line + 1)
  | write values next ih =>
    have none := (told_write proper.1).signature_none (by decide)
    rw [code, setIn, List.filterMap_cons, Signature.ofLine?_margin (blank line), none]
    exact ih proper.2 (line + 1)
  | block opening body closer next ihBody ih =>
    obtain ⟨opened, own, inner, later⟩ := proper
    obtain ⟨keyword, listed⟩ := Opening.closer_fixed own
    have none := (isFixedLine_isSimple (BlockKeyword.closer_fixed listed)).2
    rw [code, setIn_append, setIn_append, setIn, List.filterMap_append, List.filterMap_append,
      List.filterMap_cons, Signature.ofLine?_margin (blank _), none, List.map_append, List.map_append,
      Opening.lines_signatures blank opened, ihBody inner, ih later]
    cases opening <;> rfl

end Program

theorem RecordType.ofLine?_trim (language : Language) {line other : Text} (same : trim line = trim other) :
    RecordType.ofLine? language line = RecordType.ofLine? language other := by
  rw [RecordType.ofLine?, same]
  rfl

theorem mem_setIn {margin : Nat → Text} {line : Nat} {code : List Text} {raw : Text}
    (member : raw ∈ setIn margin line code) : ∃ n, ∃ text ∈ code, raw = margin n ++ text := by
  induction code generalizing line with
  | nil => simp [setIn] at member
  | cons text code ih =>
    rcases List.mem_cons.mp member with rfl | later
    · exact ⟨line, text, .head _, rfl⟩
    · obtain ⟨n, other, inside, same⟩ := ih later
      exact ⟨n, other, .tail _ inside, same⟩

namespace Program

variable {program : Program} {margin : Nat → Text}

variable (proper : program.Proper) (blank : ∀ n, ∀ c ∈ margin n, c = ' ' ∨ c = '\t')
include proper blank

theorem lines_source : lines (program.source margin) = setIn margin 0 program.code := by
  refine lines_unlines fun raw member c inside => ?_
  obtain ⟨n, text, listed, rfl⟩ := mem_setIn member
  rcases List.mem_append.mp inside with before | within
  · rcases blank n c before with rfl | rfl <;> decide
  · exact (code_isSimple proper text listed).unbroken c within

/-- What is known of a program before its lines are checked: its functions. -/
theorem checker_source : Checker.ofSource standardLanguage (program.source margin) =
      { functions := (Signatures.collect (program.source margin)).names } := by
  have none : (lines (program.source margin)).filterMap (RecordType.ofLine? standardLanguage) = [] := by
    rw [lines_source proper blank, List.filterMap_eq_nil_iff]
    intro raw member
    obtain ⟨n, text, listed, rfl⟩ := mem_setIn member
    have trimmed : trim (margin n ++ text) = trim text := by
      rw [trim, trimLeft, List.dropWhile_append_of_pos fun c member => ?_]
      · rfl
      · rcases blank n c member with rfl | rfl <;> decide
    rw [RecordType.ofLine?_trim _ trimmed, (code_isSimple proper text listed).record]
  rw [Checker.ofSource, Records.collect, none]
  rfl

theorem mem_functions (name : Text) :
    name ∈ (Signatures.collect (program.source margin)).names ↔ name ∈ program.functions := by
  rw [Signatures.mem_names_collect, lines_source proper blank, code_signatures (fun n c member => ?_) proper]
  rcases blank n c member with rfl | rfl <;> decide

theorem result_eq : (check standardLanguage (program.source margin)).result =
      (program.undeclared margin 0 []).filter (·.isApart program.functions) := by
  have settled : ({} : Scopes).Settled [] := ⟨rfl, rfl, fun _ => rfl⟩
  have run := checkFrom_code (Signatures.collect (program.source margin)).names blank proper settled 0 []
  rw [List.append_nil] at run
  have same : ∀ diagnostic : Diagnostic, diagnostic.isApart (Signatures.collect (program.source margin)).names =
      diagnostic.isApart program.functions := by
    intro diagnostic
    rw [Diagnostic.isApart, Diagnostic.isApart]
    congr 1
    funext name
    rw [Bool.eq_iff_iff]
    simp [mem_functions proper blank name]
  rw [Checker.check_ofSource, checker_source proper blank, Checker.diagnostics, lines_source proper blank, run,
    Checker.checkFrom, List.filter_congr fun diagnostic _ => same diagnostic]
  rfl

end Program

/-- A check finds the names that the rules of scoping call undeclared, in the order of the text, the
names of the program's own functions aside, and nothing else. So it follows those rules exactly if no
name that they call undeclared is that of a function. -/
theorem check_scoping {program : Program} {margin : Nat → Text} (proper : program.Proper)
    (blank : ∀ n, ∀ c ∈ margin n, c = ' ' ∨ c = '\t') :
    (check standardLanguage (program.source margin)).result =
        (program.undeclared margin 0 []).filter (·.isApart program.functions) ∧
      ((check standardLanguage (program.source margin)).result = program.undeclared margin 0 [] ↔
        ∀ diagnostic ∈ program.undeclared margin 0 [], ∀ name ∈ diagnostic.finding.name?,
          name ∉ program.functions) := by
  have result := Program.result_eq proper blank
  refine ⟨result, ?_⟩
  rw [result, List.filter_eq_self]
  simp [Diagnostic.isApart, Option.all_eq_true]

/-- A function with one parameter that is handed back. -/
def sampleFunction : WrittenHeader where
  name := "f".toList
  parameters := [{ inOut := true, name := "a".toList, type := "entier".toList }]
  result := none

theorem sampleFunction_proper : (Opening.fonction sampleFunction).Proper := by
  have plain : "entier".toList.all isPlainSign = true := by decide
  have unmarked : sampleFunction.text.all (fun c => c ≠ '"' && c ≠ '\'' && c ≠ '/' && c ≠ '.') = true := by decide
  have unbroken : sampleFunction.text.all (!isLineBreak ·) = true := by decide
  have other : ∀ c ∈ sampleFunction.text, ((c ≠ '"' ∧ c ≠ '\'') ∧ c ≠ '/') ∧ c ≠ '.' := fun c member => by
    simpa using List.all_eq_true.mp unmarked c member
  refine ⟨⟨by decide, List.forall_mem_singleton.mpr ⟨by decide, by decide, .of_plain (List.all_eq_true.mp plain),
    by decide⟩, by simp [sampleFunction]⟩, ⟨fun c member => (other c member).1.1, ?_⟩, fun c member => ?_,
    fun c last => ?_⟩
  · exact (List.pairwise_of_forall_mem_list fun a member b _ =>
      Phrase.adjoins_other (other a member).1.2 (other a member).2).isChain
  · simpa using List.all_eq_true.mp unbroken c member
  · obtain rfl : ')' = c := Option.some.inj last
    decide

/-- The name `a`, a plus sign and the name `b`. -/
def sampleSum : Phrase :=
  .name "a".toList (.sign ' ' (.sign '+' (.sign ' ' (.name "b".toList .nil))))

/-- A function that uses its parameter and an unknown name, and a main program whose loop uses its own
variable and the variable of the function. After the loop its variable is used. -/
def sampleProgram : Program :=
  .block (.fonction sampleFunction) (.assign "x".toList sampleSum .done) "Fin"
    (.block .debut
      (.block (.pour "i".toList (.name "i".toList .nil) (.group (.name "x".toList .nil) .nil))
        (.write (.name "i".toList (.sign ',' (.number "2".toList .nil))) .done) "fpour"
        (.assign "x".toList (.name "i".toList .nil) .done)) "Fin" .done)

theorem check_scoping_sample :
    sampleProgram.Proper ∧
      sampleProgram.source (fun n => if n = 6 then "  ".toList else []) =
        ("Fonction f(InOut a : entier)\nDébut\nx ← a + b\nFin\nDébut\nPour i de i à (x) Faire\n" ++
          "  écrire(i,2)\nfpour\nx ← i\nFin\n").toList ∧
      (check standardLanguage (sampleProgram.source fun n => if n = 6 then "  ".toList else [])).result =
        [{ line := 2, column := 8, endColumn := 9, finding := .undeclared "b".toList },
          { line := 5, column := 15, endColumn := 16, finding := .undeclared "x".toList },
          { line := 8, column := 4, endColumn := 5, finding := .undeclared "i".toList }] := by
  have proper : sampleProgram.Proper := by
    have names : (isUserName "x".toList && isUserName "i".toList && sampleSum.isWhole) = true := by decide +kernel
    simp only [Bool.and_eq_true] at names
    obtain ⟨⟨x, i⟩, sum⟩ := names
    have single : (Phrase.name "i".toList .nil).isWhole = true := by
      simp only [Phrase.isWhole, Phrase.isProper, i]
      decide
    have grouped : (Phrase.group (.name "x".toList .nil) .nil).isWhole = true := by
      simp only [Phrase.isWhole, Phrase.isProper, x]
      decide
    have written : (Phrase.name "i".toList (.sign ',' (.number "2".toList .nil))).isProper = true := by
      simp only [Phrase.isProper, i]
      decide
    exact ⟨sampleFunction_proper, by decide, ⟨x, sum, trivial⟩, trivial, by decide,
      ⟨⟨i, single, grouped⟩, by decide, ⟨written, trivial⟩, x, single, trivial⟩, trivial⟩
  refine ⟨proper, by decide +kernel, (check_scoping proper fun n c member => ?_).1.trans (by decide +kernel)⟩
  split at member
  · have blank : "  ".toList.all (· = ' ') = true := by decide
    exact .inl (by simpa using List.all_eq_true.mp blank c member)
  · simp at member

/-- A function whose body reads its own name. -/
def recursiveName : Program :=
  .block (.fonction sampleFunction) (.assign "x".toList (.name "f".toList .nil) .done) "Fin" .done

/-- The name of a function is taken for declared wherever it stands. -/
theorem check_function_name :
    recursiveName.Proper ∧
      recursiveName.source (fun _ => []) = "Fonction f(InOut a : entier)\nDébut\nx ← f\nFin\n".toList ∧
      recursiveName.undeclared (fun _ => []) 0 [] =
        [{ line := 2, column := 4, endColumn := 5, finding := .undeclared "f".toList }] ∧
      (check standardLanguage "Fonction f(InOut a : entier)\nDébut\nx ← f\nFin\n".toList).result = [] := by
  have names : (isUserName "x".toList && (Phrase.name "f".toList .nil).isWhole) = true := by decide +kernel
  rw [Bool.and_eq_true] at names
  exact ⟨⟨sampleFunction_proper, by decide, ⟨names.1, names.2, trivial⟩, trivial⟩, by decide,
    by decide, by decide +kernel⟩

end Pseudocode
