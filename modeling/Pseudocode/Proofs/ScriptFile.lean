import Pseudocode.Launch.Basic
import Pseudocode.Proofs.Utf8

namespace Pseudocode

namespace FileTree

variable {tree made : FileTree}

/-- The files with their contents, directories aside. -/
def regular (tree : FileTree) : List (List Text × List UInt8) :=
  tree.filterMap fun (parts, entry) =>
    match entry with
    | .file content => some (parts, content)
    | .directory => none

@[simp]
theorem regular_append (tree more : FileTree) : regular (tree ++ more) = tree.regular ++ regular more :=
  List.filterMap_append

theorem addDirectory_regular {path : Text} (added : tree.addDirectory path = .ok made) :
    made.regular = tree.regular := by
  unfold addDirectory at added
  split at added
  · cases added
  · split at added
    · cases added
    · cases added
      simp [regular]
    · cases added
      rfl

/-- Making a directory makes no file, also when it fails halfway. -/
theorem makeDirectoryUpTo_regular (tree : FileTree) (path : Path) (count : Nat) :
    (tree.makeDirectoryUpTo path count).1.regular = tree.regular := by
  induction count with
  | zero => rfl
  | succ count ih =>
    unfold makeDirectoryUpTo
    dsimp only
    split
    · exact addDirectory_regular ‹_›
    · split
      · rename_i stopped
        rw [← ih, stopped]
      · rename_i above reached
        rw [reached] at ih
        split
        · exact (addDirectory_regular ‹_›).trans ih
        · exact ih
        · exact ih
    · rfl

/-- Nothing is listed at a path. -/
def Lacks (tree : FileTree) (parts : List Text) : Prop :=
  ∀ pair ∈ tree, pair.1 ≠ parts

variable {parts : List Text}

theorem Lacks.insert (fresh : tree.Lacks parts) (content : List UInt8) :
    tree.insert parts content = tree ++ [(parts, .file content)] := by
  unfold FileTree.insert
  induction tree with
  | nil => rfl
  | cons first tree ih =>
    have others : FileTree.Lacks tree parts := fun pair listed => fresh pair (.tail _ listed)
    rw [assign, if_neg (fresh first (.head _)), ih others, List.cons_append]

theorem Lacks.filter (fresh : tree.Lacks parts) (entry : FileEntry) :
    (tree ++ [(parts, entry)]).filter (·.1 ≠ parts) = tree := by
  have others : tree.filter (·.1 ≠ parts) = tree :=
    List.filter_eq_self.mpr fun pair listed => decide_eq_true (fresh pair listed)
  rw [List.filter_append, others]
  simp

theorem Lacks.lookup (fresh : tree.Lacks parts) (entry : FileEntry) :
    List.lookup parts (tree ++ [(parts, entry)]) = some entry := by
  have absent : tree.lookup parts = none :=
    List.lookup_eq_none_iff.mpr fun pair listed => by simpa using (fresh pair listed).symm
  rw [List.lookup_append, absent]
  simp

end FileTree

namespace Settings

theorem prepared_regular (settings : Settings) (files : FileTree) :
    (settings.prepared files).1.regular = files.regular := by
  unfold prepared
  split
  · rfl
  · exact files.makeDirectoryUpTo_regular _ _

variable {settings : Settings} {machine : Machine} {files : FileTree} {script : Path} {code : Text}
variable {input : Option Text} {capture : Bool} {interpreter : Text}

theorem run_absent (absent : machine.locate settings.command = none) :
    settings.run machine files script code input capture =
      { result := .error (.noInterpreter settings.command), files } := by
  rw [run, absent]

theorem run_unprepared (found : machine.locate settings.command = some interpreter) {failure : Failure}
    (failed : (settings.prepared files).2 = some failure) :
    settings.run machine files script code input capture =
      { result := .error failure, files := (settings.prepared files).1 } := by
  rcases whole : settings.prepared files with ⟨made, stopped⟩
  rw [whole] at failed
  obtain rfl : stopped = some failure := failed
  simp only [run, found, whole]

theorem run_brokenOff (found : machine.locate settings.command = some interpreter)
    (ready : (settings.prepared files).2 = none) (fresh : (settings.prepared files).1.Lacks script.parts)
    {count : Nat} {failure : Failure} (stops : machine.breaksOff = some (count, failure)) :
    settings.run machine files script code input capture =
      { result := .error failure
        files := (settings.prepared files).1 ++
          [(script.parts, .file ((Encoding.encode code).take count))] } := by
  rcases whole : settings.prepared files with ⟨made, stopped⟩
  rw [whole] at ready fresh
  obtain rfl : stopped = none := ready
  simp only [run, found, whole, stops, fresh.insert]

theorem run_started (found : machine.locate settings.command = some interpreter)
    (ready : (settings.prepared files).2 = none) (fresh : (settings.prepared files).1.Lacks script.parts)
    (whole : machine.breaksOff = none) :
    settings.run machine files script code input capture =
      { result := settings.resultOf script machine.ending
        invocation := some
          { interpreter, script, directory := settings.directory
            content := some (.file (Encoding.encode code)), input, capture, timeout := settings.timeout }
        files :=
          if settings.keepScript then
            (settings.prepared files).1 ++ [(script.parts, .file (Encoding.encode code))]
          else (settings.prepared files).1
        notices := .starting interpreter script.toText :: endNotices machine.ending } := by
  rcases parts : settings.prepared files with ⟨made, stopped⟩
  rw [parts] at ready fresh
  obtain rfl : stopped = none := ready
  simp only [run, found, parts, whole, fresh.insert, fresh.filter, fresh.lookup]

/-- A run that leaves nothing behind but a script that is to be kept, whatever way the interpreter
ends. Without an interpreter nothing is started or written. Otherwise it is started on a file that
holds just the code; a run that takes too long is told as that, and a start that fails as a missing
interpreter. -/
structure IsTidy (settings : Settings) (machine : Machine) (files : FileTree) (script : Path)
    (code : Text) (input : Option Text) (capture : Bool) (run : Run) : Prop where
  absent : machine.locate settings.command = none →
    run.result = .error (.noInterpreter settings.command) ∧ run.invocation = none ∧ run.files = files
  started : ∀ interpreter, machine.locate settings.command = some interpreter →
    ∃ bytes, Encoding.utf8.decode bytes = .ok code ∧
      run.invocation = some
        { interpreter, script, directory := settings.directory, content := some (.file bytes)
          input, capture, timeout := settings.timeout } ∧
      run.files.regular =
        files.regular ++ if settings.keepScript then [(script.parts, bytes)] else []
  late : (machine.locate settings.command).isSome → machine.ending = .timedOut →
    run.result = .error (.timedOut settings.timeout script.toText)
  unstarted : (machine.locate settings.command).isSome →
    (machine.ending = .missing ∨ ∃ failure, machine.ending = .refused failure) →
      run.result = .error (.noInterpreter settings.command)

/-- What a run with an interpreter leaves, and the error it ends in if its directory cannot be made, if
the writing of its script breaks off, or else by the ending of the process. -/
structure Leaves (settings : Settings) (machine : Machine) (files : FileTree) (script : Path)
    (code : Text) (run : Run) : Prop where
  unprepared : ∀ failure, (settings.prepared files).2 = some failure →
    run.result = .error failure ∧ run.invocation = none ∧ run.files.regular = files.regular
  brokenOff : (settings.prepared files).2 = none →
    ∀ count failure, machine.breaksOff = some (count, failure) →
      run.result = .error failure ∧ run.invocation = none ∧
        ∃ bytes, Encoding.utf8.decode bytes = .ok code ∧
          run.files.regular = files.regular ++ [(script.parts, bytes.take count)]
  ended : (settings.prepared files).2 = none → machine.breaksOff = none →
    run.invocation.isSome ∧ run.result =
      match machine.ending with
      | .exited status stdout stderr =>
        .ok { status, stdout := stdout.getD [], stderr := stderr.getD [] }
      | .garbled error => .error (.unreadable error)
      | .timedOut => .error (.timedOut settings.timeout script.toText)
      | .missing => .error (.noInterpreter settings.command)
      | .refused failure => .error failure

theorem run_leaves (found : machine.locate settings.command = some interpreter)
    (fresh : (settings.prepared files).1.Lacks script.parts) :
    Leaves settings machine files script code (settings.run machine files script code input capture) where
  unprepared failure failed := by
    rw [run_unprepared found failed]
    exact ⟨rfl, rfl, settings.prepared_regular files⟩
  brokenOff ready count failure stops := by
    rw [run_brokenOff found ready fresh stops]
    refine ⟨rfl, rfl, Encoding.encode code, Encoding.decode_encode code, ?_⟩
    rw [FileTree.regular_append, settings.prepared_regular]
    rfl
  ended ready whole := by
    rw [run_started found ready fresh whole]
    refine ⟨rfl, ?_⟩
    cases machine.ending <;> rfl

theorem run_isTidy (ready : (settings.prepared files).2 = none)
    (fresh : (settings.prepared files).1.Lacks script.parts) (whole : machine.breaksOff = none)
    (starts : ∀ failure, machine.ending = .refused failure → failure = .noInterpreter settings.command) :
    IsTidy settings machine files script code input capture
      (settings.run machine files script code input capture) where
  absent absent := by
    rw [run_absent absent]
    exact ⟨rfl, rfl, rfl⟩
  started interpreter found := by
    rw [run_started found ready fresh whole]
    refine ⟨Encoding.encode code, Encoding.decode_encode code, rfl, ?_⟩
    dsimp only
    split
    · rw [FileTree.regular_append, settings.prepared_regular]
      rfl
    · rw [settings.prepared_regular, List.append_nil]
  late located ended := by
    obtain ⟨interpreter, found⟩ := Option.isSome_iff_exists.mp located
    rw [run_started found ready fresh whole, ended]
    rfl
  unstarted located fails := by
    obtain ⟨interpreter, found⟩ := Option.isSome_iff_exists.mp located
    rw [run_started found ready fresh whole]
    rcases fails with missing | ⟨failure, refused⟩
    · rw [missing]
      rfl
    · rw [refused, ← starts failure refused]
      rfl

/-- A run on a fresh path is tidy if and only if there is no interpreter, or the directory for the
script is there, the script is written whole, and no start fails but for want of the program. Every
other run ends in the error that stopped it: without a process, and with the part of the script that was
written left behind whether it is to be kept or not. -/
theorem run_isTidy_iff (settings : Settings) (machine : Machine) (files : FileTree) (script : Path)
    (code : Text) (input : Option Text) (capture : Bool)
    (fresh : (settings.prepared files).1.Lacks script.parts) :
    (IsTidy settings machine files script code input capture
        (settings.run machine files script code input capture) ↔
      machine.locate settings.command = none ∨
        (settings.prepared files).2 = none ∧ machine.breaksOff = none ∧
          ∀ failure, machine.ending = .refused failure → failure = .noInterpreter settings.command) ∧
    ((machine.locate settings.command).isSome →
      Leaves settings machine files script code
        (settings.run machine files script code input capture)) := by
  refine ⟨⟨fun tidy => ?_, ?_⟩, fun located => ?_⟩
  · cases located : machine.locate settings.command with
    | none => exact .inl rfl
    | some interpreter =>
      have leaves : Leaves settings machine files script code
          (settings.run machine files script code input capture) :=
        run_leaves located fresh
      obtain ⟨_, -, started, -⟩ := tidy.started interpreter located
      have ready : (settings.prepared files).2 = none := by
        cases failed : (settings.prepared files).2 with
        | none => rfl
        | some failure => simp [(leaves.unprepared failure failed).2.1] at started
      have whole : machine.breaksOff = none := by
        cases stops : machine.breaksOff with
        | none => rfl
        | some stop => simp [(leaves.brokenOff ready stop.1 stop.2 stops).2.1] at started
      refine .inr ⟨ready, whole, fun failure refused => ?_⟩
      have told := tidy.unstarted (by rw [located]; rfl) (.inr ⟨failure, refused⟩)
      rw [(leaves.ended ready whole).2, refused] at told
      exact Except.error.inj told
  · rintro (absent | ⟨ready, whole, starts⟩)
    · rw [run_absent absent]
      exact ⟨fun _ => ⟨rfl, rfl, rfl⟩, by simp [absent], by simp [absent], by simp [absent]⟩
    · exact run_isTidy ready fresh whole starts
  · obtain ⟨interpreter, found⟩ := Option.isSome_iff_exists.mp located
    exact run_leaves found fresh

/-- A script that is kept in a directory that was not there, although its process timed out. -/
theorem run_isTidy_iff_timedOut :
    let settings : Settings := { keepScript := true, directory := some { parts := ["a".toList, "b".toList] } }
    let machine : Machine := { locate := fun _ => some "lua".toList, ending := .timedOut }
    let script : Path := { parts := ["a".toList, "b".toList, "c".toList] }
    let files : FileTree := [(["d".toList], .file [1])]
    (settings.prepared files).1.Lacks script.parts ∧
    ∃ bytes, Encoding.utf8.decode bytes = .ok ['é'] ∧
      (settings.run machine files script ['é'] none true).files.regular =
        [(["d".toList], [1]), (script.parts, bytes)] ∧
      (settings.run machine files script ['é'] none true).result = .error (.timedOut none "a/b/c".toList) := by
  intro settings machine script files
  have fresh : (settings.prepared files).1.Lacks script.parts := by
    unfold FileTree.Lacks
    decide
  have tidy := (run_isTidy_iff settings machine files script ['é'] none true fresh).1.mpr
    (.inr ⟨by decide, rfl, by simp [machine]⟩)
  obtain ⟨bytes, read, -, left⟩ := tidy.started "lua".toList rfl
  exact ⟨fresh, bytes, read, left, tidy.late rfl rfl⟩

/-- Three runs that are not tidy: the directory for the script is a file, so that no process is
started; the writing breaks off after two bytes, and the script stays; the program may not be started,
and the error is passed on. -/
theorem not_isTidy :
    let script : Path := { parts := ["a".toList, "c".toList] }
    let files : FileTree := [(["a".toList], .file [1])]
    let inFile : Settings := { directory := some { parts := ["a".toList] } }
    let full := Failure.internal "[Errno 28] No space left on device".toList
    let barred := Failure.refusedFile "[Errno 13] Permission denied: 'lua'".toList
    let sound : Machine := { locate := fun _ => some "lua".toList, ending := .exited 0 none none }
    let cramped : Machine := { sound with breaksOff := some (2, full) }
    let locked : Machine := { sound with ending := .refused barred }
    let taken := inFile.run sound files script ['x'] none true
    let cut := ({} : Settings).run cramped [] script "abc".toList none true
    let held := ({} : Settings).run locked [] script ['x'] none true
    (¬IsTidy inFile sound files script ['x'] none true taken ∧
      taken.invocation = none ∧ taken.result = .error (.path .taken "a".toList)) ∧
    (¬IsTidy {} cramped [] script "abc".toList none true cut ∧
      cut.files = [(script.parts, .file ((Encoding.encode "abc".toList).take 2))] ∧ cut.result = .error full) ∧
    ¬IsTidy {} locked [] script ['x'] none true held ∧ held.result = .error barred := by
  intro script files inFile full barred sound cramped locked taken cut held
  have unstarted : taken.invocation = none := by decide
  have unrun : cut.invocation = none := rfl
  refine ⟨⟨fun tidy => ?_, unstarted, by decide⟩, ⟨fun tidy => ?_, rfl, rfl⟩, fun tidy => ?_, rfl⟩
  · obtain ⟨_, -, started, -⟩ := tidy.started "lua".toList rfl
    cases unstarted.symm.trans started
  · obtain ⟨_, -, started, -⟩ := tidy.started "lua".toList rfl
    cases unrun.symm.trans started
  · have told := tidy.unstarted rfl (.inr ⟨barred, rfl⟩)
    exact absurd told (by decide)

end Settings

end Pseudocode
