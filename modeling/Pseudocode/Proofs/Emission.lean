import Pseudocode.Program.Line
import Pseudocode.Proofs.Statement

namespace Pseudocode

open List Option Placeholder

variable {strict : Bool}
variable {signature : Signature} {frames : List Frame}

theorem Conversion.notifyAll_settles {notices : List Notice} {desk : Desk} :
    Settles strict (notices.forM Conversion.notify) desk fun _ reached => reached.store = desk.store := by
  induction notices generalizing desk with
  | nil => exact .pure rfl
  | cons notice notices ih =>
    exact Conversion.notify_settles.bind fun _ _ same => ih.mono fun _ _ later => later.trans same

/-- The names of a function and of its parameters have a property. -/
def Signature.Each (holds : Text → Prop) (signature : Signature) : Prop :=
  holds signature.name ∧ ∀ parameter ∈ signature.parameters, holds parameter.name

/-- The names that an open block brings along have a property. -/
def Frame.Each (holds : Text → Prop) : Frame → Prop
  | .function (some signature) _ => signature.Each holds
  | _ => True

/-- The calls of helpers that statements are made with. -/
def Context.emittedCalls : List Text :=
  ["__psc_write(", " = __psc_lire()", " = __psc_lire_chaine()"].map (·.toList)

/-- What a context makes of the parts of a line. Those that satisfy `input` at the store become texts
that satisfy `output`, while the store `grows`; whatever else the context adds satisfies `output` too. -/
structure Context.Emits (context : Context) (strict : Bool) (grows : Store → Store → Prop)
    (input : Store → Text → Prop) (output : Text → Prop) : Prop where
  refl : ∀ store, grows store store
  trans : ∀ {first second third}, grows first second → grows second third → grows first third
  mono : ∀ {store reached text}, grows store reached → input store text → input reached text
  parts : ∀ {store text}, input store text → Fitting strict (input store)
  undirected : ∀ {store line}, input store line → input store (CountedLoop.withoutDirection line)
  joins : Joinable output
  names : ∀ {store name}, IsName (input store) name → output name
  expression : ∀ (usage : Usage) {desk : Desk} {text : Text}, input desk.store text →
    Settles strict (context.expression usage text) desk fun out reached =>
      grows desk.store reached.store ∧ output out
  finish : ∀ {desk : Desk} {text : Text}, input desk.store text →
    Settles strict (finish text) desk fun out reached => reached.store = desk.store ∧ output out
  restore : ∀ {desk : Desk} {text : Text}, input desk.store text →
    Settles strict (Conversion.restore text) desk fun out reached => reached = desk ∧ output out
  closed : ∀ {desk : Desk} {text : Text}, input desk.store (')' :: text) →
    Settles strict (Conversion.restore text) desk fun out reached => reached = desk ∧ output (')' :: out)
  zeros : ∀ {element zero}, context.language.zeroValue? element = some zero → output zero
  calls : ∀ text ∈ Context.emittedCalls, output text
  indent : ∀ {text}, output text → output (context.layout.indent ++ text)
  signatures : ∀ pair ∈ context.signatures, pair.2.Each output

section Declared

variable {output : Text → Prop}

theorem Signature.Each.inOutNames (each : signature.Each output) :
    ∀ name ∈ signature.inOutNames, output name := by
  intro name member
  obtain ⟨parameter, inside, rfl⟩ := mem_map.mp member
  exact each.2 parameter (mem_filter.mp inside).1

theorem Signature.Each.implicitValues (joins : Joinable output)
    (each : signature.Each output) : ∀ name ∈ Frame.implicitValues signature, output name := by
  intro name member
  unfold Frame.implicitValues at member
  split at member
  · rcases mem_cons.mp member with rfl | inside
    · exact joins.fixed (by decide)
    · exact each.inOutNames name inside
  · exact each.inOutNames name member

theorem Signature.Each.handed (joins : Joinable output) {current : Option Signature} {written : List Text}
    (declared : ∀ signature ∈ current, signature.Each output) (each : ∀ value ∈ written, output value) :
    ∀ value ∈ (match current with
      | none => written
      | some signature =>
        if signature.inOutNames.isEmpty then written
        else if written.isEmpty then Frame.implicitValues signature
        else written ++ signature.inOutNames), output value := by
  cases current with
  | none => exact each
  | some signature =>
    have signatureEach := declared signature rfl
    simp only
    split
    · exact each
    · split
      · exact signatureEach.implicitValues joins
      · intro value member
        exact (mem_append.mp member).elim (each value) (signatureEach.inOutNames value)

theorem Frame.currentFunction?_each (each : ∀ frame ∈ frames, frame.Each output)
    (current : Frame.currentFunction? frames = some signature) :
    signature.Each output := by
  obtain ⟨found, first, same⟩ := bind_eq_some_iff.mp current
  obtain rfl : found = some signature := same
  obtain ⟨frame, member, opened⟩ := exists_of_findSome?_eq_some first
  cases frame with
  | function declared waits =>
    obtain rfl : declared = some signature := Option.some.inj opened
    exact each _ member
  | main => simp at opened
  | control keyword => simp at opened

theorem Frame.begin_each (each : ∀ frame ∈ frames, frame.Each output) :
    ∀ frame ∈ Frame.begin frames, frame.Each output := by
  unfold Frame.begin
  split
  · rename_i signature rest
    refine forall_mem_cons.mpr ⟨?_, (forall_mem_cons.mp each).2⟩
    have first := (forall_mem_cons.mp each).1
    cases signature with
    | none => trivial
    | some signature => exact first
  · exact forall_mem_cons.mpr ⟨trivial, each⟩

theorem Frame.closing_output (joins : Joinable output) {layout : Layout}
    (indent : ∀ {text}, output text → output (layout.indent ++ text)) (lastCode : Text)
    {frame : Frame} (each : frame.Each output) :
    ∀ line ∈ Frame.closing layout lastCode frame, output line := by
  have ends : ∀ line ∈ ["end".toList], output line := by
    intro line member
    rw [mem_singleton.mp member]
    exact joins.fixed (by decide)
  unfold Frame.closing
  split
  · simp
  · split
    · exact ends
    · refine forall_mem_cons.mpr ⟨?_, ends⟩
      rw [append_assoc]
      exact indent (joins.lead (by decide)
        (joins.commaSeparated (Signature.Each.implicitValues joins each)))
  · exact ends

theorem Frame.close_output (joins : Joinable output) {layout : Layout}
    (indent : ∀ {text}, output text → output (layout.indent ++ text)) (lastCode : Text)
    (closed : Option BlockKeyword)
    (each : ∀ frame ∈ frames, frame.Each output) :
    (∀ line ∈ (Frame.close layout lastCode closed frames).1, output line) ∧
      ∀ frame ∈ (Frame.close layout lastCode closed frames).2, frame.Each output := by
  unfold Frame.close
  split
  · refine ⟨fun line member => ?_, by simp⟩
    rw [mem_singleton.mp member]
    exact joins.fixed (by decide)
  · refine ⟨fun line member => ?_, fun frame member => each frame (mem_of_mem_drop member)⟩
    obtain ⟨frame, inside, here⟩ := mem_flatMap.mp member
    exact closing_output joins indent lastCode (each frame (mem_of_mem_take inside)) line here

theorem Dimension.counter_fixed (depth : Nat) : isFixed (Dimension.counter depth) = true := by
  have digits : ∀ c ∈ (toString (depth + 1)).toList, 48 ≤ c.toNat ∧ c.toNat ≤ 57 := by
    intro c member
    rw [Nat.toString_eq_repr, Nat.toList_repr] at member
    have digit : c.isDigit = true := Nat.isDigit_of_mem_toDigits (by decide) (by decide) member
    simp only [Char.isDigit, Bool.and_eq_true, decide_eq_true_eq, ge_iff_le, UInt32.le_iff_toNat_le]
      at digit
    exact digit
  have absent (c : Char) (fixed : c ∉ "__i".toList) (other : ¬ (48 ≤ c.toNat ∧ c.toNat ≤ 57)) :
      c ∉ Dimension.counter depth := by
    rw [Dimension.counter, mem_append, not_or]
    exact ⟨fixed, fun member => other (digits c member)⟩
  refine isFixed_iff.mpr ⟨fun c member => ?_, fun stem => ?_, .of_open (absent ')' (by decide) (by decide))⟩
  · rcases mem_append.mp member with fixed | digit
    · have small : "__i".toList.all (·.toNat < 128) = true := by decide
      simpa using all_eq_true.mp small c fixed
    · have bound := (digits c digit).2
      omega
  · exact absent 'p' (by decide) (by decide) (stem.mem (by decide))

theorem Dimension.fill_output (joins : Joinable output) {indent path : Text} {zero : Option Text}
    (indentHolds : ∀ {text}, output text → output (indent ++ text))
    (zeroHolds : ∀ value ∈ zero, output value) (pathHolds : output path)
    (depth : Nat) {dimensions : List Dimension}
    (bounds : ∀ dimension ∈ dimensions, output dimension.low ∧ output dimension.high) :
    ∀ line ∈ Dimension.fill indent zero path depth dimensions, output line := by
  have indented (depth : Nat) {line : Text} (here : output line) : output (indented indent depth line) := by
    unfold Dimension.indented
    induction depth with
    | zero => exact here
    | succ depth ih =>
      rw [replicate_succ, flatten_cons, append_assoc]
      exact indentHolds ih
  induction dimensions generalizing path depth with
  | nil => simp [Dimension.fill]
  | cons dimension rest ih =>
    obtain ⟨here, later⟩ := forall_mem_cons.mp bounds
    have counter : output (Dimension.counter depth) := joins.fixed (Dimension.counter_fixed depth)
    have header : output (Dimension.forLine depth dimension) :=
      joins.trail (joins.between (joins.between (joins.lead (by decide) counter) (by decide) here.1)
        (by decide) here.2) (by decide)
    have cell : output (Dimension.cell path depth) := by
      have index : output (path ++ ['['] ++ Dimension.counter depth) :=
        joins.between pathHolds (by decide) counter
      have closed : output (path ++ ['['] ++ Dimension.counter depth ++ [']']) :=
        joins.trail index (by decide)
      simpa [Dimension.cell] using closed
    have loop {value : Text} {body : List Text} (valueHolds : output value)
        (bodyHolds : ∀ line ∈ body, output line) :
        ∀ line ∈ Dimension.indented indent depth (Dimension.forLine depth dimension) ::
          Dimension.indented indent (depth + 1) (Dimension.cell path depth ++ " = ".toList ++ value) ::
          body ++ [Dimension.indented indent depth "end".toList], output line := by
      intro line member
      simp only [cons_append, mem_cons, mem_append, not_mem_nil, or_false] at member
      rcases member with rfl | rfl | inside | rfl
      · exact indented depth header
      · exact indented (depth + 1) (joins.between cell (by decide) valueHolds)
      · exact bodyHolds line inside
      · exact indented depth (joins.fixed (by decide))
    unfold Dimension.fill
    split
    · simp
    · exact loop (zeroHolds _ rfl) (by simp)
    · exact loop (joins.fixed (by decide)) (ih cell (depth + 1) later)

end Declared

namespace Context.Emits

variable {context : Context} {grows : Store → Store → Prop} {input : Store → Text → Prop}
  {output : Text → Prop} {desk : Desk} {line text : Text}
variable {name : Text} {holds : Text → Prop}

theorem dimension (emits : context.Emits strict grows input output) (here : input desk.store text) :
    Settles strict (context.dimension text) desk fun dimension reached =>
      grows desk.store reached.store ∧ output dimension.low ∧ output dimension.high := by
  unfold Context.dimension
  split
  · rename_i low high found
    obtain ⟨lowHolds, highHolds⟩ := dimensionBounds?_severable (emits.parts here).toSeverable here found
    refine (emits.expression {} lowHolds).bind fun _ reached ⟨grown, lowOut⟩ => ?_
    refine (emits.expression {} (emits.mono grown highHolds)).bind
      fun _ final ⟨later, highOut⟩ => ?_
    exact .pure ⟨emits.trans grown later, lowOut, highOut⟩
  · refine Conversion.notify_settles.bind fun _ reached same => ?_
    rw [← same] at here ⊢
    refine (emits.expression {} here).bind fun _ final ⟨later, out⟩ => ?_
    exact .pure ⟨later, emits.joins.fixed (show isFixed ['0'] = true by decide),
      emits.joins.enclosed (show isLead ['('] = true by decide) out (by decide)⟩

theorem arrayLines (emits : context.Emits strict grows input output)
    (named : IsName (input desk.store) name) (element : Text) (here : input desk.store text) :
    Settles strict (context.arrayLines name element text) desk fun lines reached =>
      grows desk.store reached.store ∧ ∀ line ∈ lines, output line := by
  refine (Settles.mapM (fun reached : Desk => grows desk.store reached.store)
    (fun dimension => output dimension.low ∧ output dimension.high) (emits.refl _) ?_).bind
    fun dimensions _ ⟨grown, bounds⟩ => .pure ⟨grown, ?_⟩
  · intro item member reached grown
    have itemHolds := emits.mono grown ((emits.parts here).splitArguments here item member)
    exact (emits.dimension itemHolds).mono fun _ _ ⟨later, bounds⟩ => ⟨emits.trans grown later, bounds⟩
  · have nameOut := emits.names named
    refine forall_mem_cons.mpr ⟨emits.joins.trail nameOut (by decide), ?_⟩
    exact Dimension.fill_output emits.joins emits.indent (fun _ zero => emits.zeros zero) nameOut 0 bounds

theorem writtenBack {signatures : Signatures} {arguments : List Text}
    (severable : Severable strict holds) (each : ∀ argument ∈ arguments, holds argument) :
    ∀ target ∈ signatures.writtenBack name arguments, holds target := by
  intro target member
  unfold Signatures.writtenBack at member
  split at member
  · simp at member
  · obtain ⟨⟨parameter, argument⟩, zipped, kept⟩ := mem_filterMap.mp member
    simp only at kept
    split at kept
    · obtain rfl := Option.some.inj kept
      exact severable.trim (each _ (of_mem_zip zipped).2)
    · simp at kept

theorem inOutCall? (severable : Severable strict holds)
    {calls : List (Nat × CallHead × Text)} (each : ∀ call ∈ calls, holds call.2.2) :
    Settles strict (context.inOutCall? calls) desk fun found reached => reached.store = desk.store ∧
      ∀ call ∈ found, ∀ target ∈ call.2, holds target := by
  induction calls with
  | nil => exact .pure ⟨rfl, by simp⟩
  | cons call calls ih =>
    obtain ⟨place, head, rest⟩ := call
    have others := ih fun call member => each call (.tail _ member)
    rw [Context.inOutCall?]
    split
    · exact others
    · split
      · exact others
      · split
        · exact Conversion.notify_settles.bind fun _ _ same => .pure ⟨same, by simp⟩
        · rename_i inside after closed
          have insideHolds := (severable.cut_at (each _ (.head _))
            (splitParen?_eq_some closed) (isMark_ascii (by decide))).1
          split
          · exact others
          · refine .pure ⟨rfl, ?_⟩
            rintro _ ⟨⟩ target member
            exact writtenBack severable (severable.splitArguments insideHolds) target member

/-- What follows a call in a text is cut off at a parenthesis. -/
theorem calls_severable (severable : Severable strict holds) (here : holds text) :
    ∀ call ∈ Context.calls text, holds call.2.2 := by
  intro call member
  obtain ⟨passed, split⟩ := callsFrom_split (fun _ _ => anyCallee_eq_some) call member
  exact (severable.cut_at here split (isMark_ascii (by decide))).2

theorem mutated? (severable : Severable strict holds) (here : holds line)
    {target : Text} (found : context.mutated? line = some target) : holds target := by
  obtain ⟨head, called, found⟩ := bind_eq_some_iff.mp found
  obtain ⟨builtin, -, found⟩ := bind_eq_some_iff.mp found
  have split := anyCallee_eq_some (show anyCallee line = some head from called)
  rw [CallHead.written, append_assoc, singleton_append] at split
  have rest := (severable.cut_at here split (isMark_ascii (by decide))).2
  split at found
  · simp at found
  · split at found
    · rename_i inside closed
      have insideHolds := (severable.cut_at rest (splitParen?_eq_some closed) (isMark_ascii (by decide))).1
      exact severable.splitArguments insideHolds _ (mem_of_head? found)
    · simp at found

section

variable (emits : context.Emits strict grows input output)
include emits

theorem assignment {targets : List Text}
    (targetsHold : ∀ target ∈ targets, input desk.store target) (here : input desk.store text) :
    Settles strict (context.assignment targets text) desk fun out reached =>
      grows desk.store reached.store ∧ output out := by
  refine (emits.finish ((emits.parts here).commaSeparated targetsHold)).bind
    fun _ reached ⟨same, left⟩ => ?_
  rw [← same] at here ⊢
  refine (emits.expression {} here).bind fun _ final ⟨later, right⟩ => .pure ⟨later, ?_⟩
  exact emits.joins.between left (by decide) right

theorem assignmentLine (here : input desk.store line) :
    Settles strict (context.assignmentLine line) desk fun out reached =>
      grows desk.store reached.store ∧ output out := by
  have parts := emits.parts here
  have sides : input desk.store ((cutAt? '←' line).getD (line, [])).1 ∧
      input desk.store ((cutAt? '←' line).getD (line, [])).2 := by
    cases cut : cutAt? '←' line with
    | none => exact ⟨here, parts.nil⟩
    | some pair => exact parts.cut_at here (cutAt?_eq_some cut) (by decide)
  unfold Context.assignmentLine
  refine (inOutCall? parts.toSeverable (calls_severable parts.toSeverable (parts.trim sides.2))).bind
    fun found reached ⟨same, targets⟩ => ?_
  rw [← same] at sides targets parts ⊢
  refine emits.assignment ?_ (parts.trim sides.2)
  intro target member
  rcases mem_cons.mp member with rfl | written
  · exact parts.trim sides.1
  · have inside := (mem_filter.mp written).1
    cases found with
    | none => simp at inside
    | some call => exact targets call rfl target inside

theorem expressionLine (here : input desk.store line) :
    Settles strict (context.expressionLine line) desk fun out reached =>
      grows desk.store reached.store ∧ output out := by
  have parts := emits.parts here
  unfold Context.expressionLine
  refine (inOutCall? parts.toSeverable (calls_severable parts.toSeverable here)).bind
    fun found reached ⟨same, targets⟩ => ?_
  rw [← same] at here targets parts ⊢
  split
  · rename_i signature written
    refine emits.assignment ?_ here
    intro target member
    split at member
    · rcases mem_cons.mp member with rfl | member
      · exact parts.fixed (by decide)
      · exact targets _ rfl target member
    · exact targets _ rfl target member
  · split
    · rename_i target mutated
      refine emits.assignment (fun other member => ?_) here
      rw [mem_singleton.mp member]
      exact mutated? parts.toSeverable here mutated
    · exact emits.expression { comparison := false } here

theorem writeLine (here : input desk.store line) :
    Settles strict (context.writeLine line) desk fun out reached =>
      grows desk.store reached.store ∧ output out := by
  have parts := emits.parts here
  have rest : input desk.store ((cutAt? '(' line).getD (line, [])).2 := by
    cases cut : cutAt? '(' line with
    | none => exact parts.nil
    | some pair => exact (parts.cut_at here (cutAt?_eq_some cut) (isMark_ascii (by decide))).2
  have written {inside after : Text} (reached : Desk) (same : reached.store = desk.store)
      (insideHolds : input desk.store inside) (afterHolds : input desk.store (')' :: after)) :
      Settles strict (do
        let values ← context.expression {} inside
        let after ← Conversion.restore after
        return "__psc_write(".toList ++ values ++ ')' :: after) reached fun out final =>
        grows desk.store final.store ∧ output out := by
    rw [← same] at insideHolds afterHolds ⊢
    refine (emits.expression {} insideHolds).bind fun _ later ⟨grown, values⟩ => ?_
    refine (emits.closed (emits.mono grown afterHolds)).bind ?_
    rintro _ _ ⟨rfl, rest⟩
    have start : output ("__psc_write(".toList ++ _) :=
      emits.joins.fit (.inl (by decide)) (emits.calls _ (by simp [emittedCalls])) values
    exact .pure ⟨grown, emits.joins.fit (.inr rfl) start rest⟩
  unfold Context.writeLine
  generalize (cutAt? '(' line).getD (line, []) = cut at rest
  obtain ⟨_, rest⟩ := cut
  simp only [pure_bind]
  split
  · rename_i closed
    rw [splitParen?_eq_some closed] at rest
    obtain ⟨inside, after⟩ := parts.split_before rest (isMark_ascii (by decide))
    exact written desk rfl inside after
  · refine (emits.restore here).bind ?_
    rintro _ _ ⟨rfl, -⟩
    exact Conversion.notify_settles.bind fun _ reached same => written reached same rest
      (parts.fixed (by decide))

theorem countedLine (here : input desk.store line) :
    Settles strict (context.countedLine line) desk fun out reached =>
      grows desk.store reached.store ∧ output out := by
  have header := emits.undirected here
  unfold Context.countedLine
  simp only
  split
  · refine (emits.restore here).bind ?_
    rintro _ _ ⟨rfl, -⟩
    refine Conversion.notify_settles.bind fun _ reached same => ?_
    rw [← same] at header ⊢
    exact emits.expression _ header
  · rename_i loop found
    obtain ⟨counter, start, stop⟩ := CountedLoop.ofLine?_severable (emits.parts here).toSeverable header found
    refine (emits.expression _ start).bind fun _ reached ⟨grown, startOut⟩ => ?_
    refine (emits.expression _ (emits.mono grown stop)).bind fun _ final ⟨later, stopOut⟩ => ?_
    refine .pure ⟨emits.trans grown later, ?_⟩
    have joins := emits.joins
    refine joins.trail (joins.between (joins.lead (by decide) (emits.names counter)) (by decide)
      (joins.commaSeparated ?_)) (by decide)
    have step : output (if CountedLoop.isDownward line then "-1" else "1").toList := by
      split <;> exact joins.fixed (by decide)
    simpa using ⟨startOut, stopOut, step⟩

theorem returnLine {current : Option Signature}
    (declared : ∀ signature ∈ current, signature.Each output) (here : input desk.store text) :
    Settles strict (context.returnLine current text) desk fun out reached =>
      grows desk.store reached.store ∧ output out := by
  have joins := emits.joins
  have finished {values : List Text} (each : ∀ value ∈ values, output value) :
      output (if values.isEmpty then "return".toList else "return ".toList ++ commaSeparated values) := by
    split
    · exact joins.fixed (by decide)
    · exact joins.lead (by decide) (joins.commaSeparated each)
  unfold Context.returnLine
  by_cases empty : text.isEmpty = true
  · simp only [empty, if_true, pure_bind]
    exact .pure ⟨emits.refl _, finished (Signature.Each.handed joins declared (by simp))⟩
  · simp only [empty, pure_bind]
    exact (emits.expression {} here).bind fun out _ written =>
      .pure ⟨written.1, finished (Signature.Each.handed joins declared (by simpa using written.2))⟩

end

theorem headerName? (severable : Severable strict holds) (here : holds line)
    (found : Context.headerName? line = some name) : IsName holds name := by
  unfold Context.headerName? at found
  split at found
  · rename_i read
    obtain rfl := Option.some.inj found
    obtain ⟨⟨name, inside⟩, opened, read⟩ := bind_eq_some_iff.mp read
    obtain ⟨_, -, read⟩ := bind_eq_some_iff.mp read
    obtain ⟨rfl, -⟩ := Prod.mk.inj (Option.some.inj read)
    obtain ⟨afterWord, word, opened⟩ := bind_eq_some_iff.mp opened
    obtain ⟨afterBlanks, blanks, opened⟩ := bind_eq_some_iff.mp opened
    obtain ⟨⟨name, rest⟩, named, opened⟩ := bind_eq_some_iff.mp opened
    have isName := (severable.identifier? (severable.dropBlanks?
      (severable.dropWord? (by decide) (severable.trimLeft here) word) blanks) named).1
    simp only at opened
    split at opened
    · obtain ⟨rfl, -⟩ := Prod.mk.inj (Option.some.inj opened)
      exact isName
    · simp at opened
  · obtain ⟨afterBlanks, spaced, read⟩ := bind_eq_some_iff.mp found
    obtain ⟨afterWord, word, blanks⟩ := bind_eq_some_iff.mp spaced
    obtain ⟨⟨name, rest⟩, named, rfl⟩ := map_eq_some_iff.mp read
    exact (severable.identifier? (severable.dropBlanks?
      (severable.dropWord? (by decide) here word) blanks) named).1

variable (emits : context.Emits strict grows input output)
include emits

theorem headerSignature? (here : input desk.store line)
    (found : context.headerSignature? line = some signature) :
    signature.Each output := by
  obtain ⟨name, named, rfl⟩ := map_eq_some_iff.mp found
  have nameOut := emits.names (headerName? (emits.parts here).toSeverable here named)
  cases declared : context.signatures.get? name with
  | none => exact ⟨nameOut, by simp⟩
  | some signature => exact emits.signatures (name, signature) (mem_of_lookup declared)

theorem headerLine (here : input desk.store line) :
    Settles strict (context.headerLine line) desk fun out reached =>
      grows desk.store reached.store ∧ output out := by
  have joins := emits.joins
  unfold Context.headerLine
  split
  · rename_i signature found
    obtain ⟨nameOut, parameters⟩ := emits.headerSignature? here found
    have names : output (commaSeparated signature.parameterNames) := by
      refine joins.commaSeparated fun name member => ?_
      obtain ⟨parameter, inside, rfl⟩ := mem_map.mp member
      exact parameters parameter inside
    have header : output ("function ".toList ++ signature.name ++ ['('] ++
        commaSeparated signature.parameterNames) :=
      joins.between (joins.lead (by decide) nameOut) (by decide) names
    have closed : output ("function ".toList ++ signature.name ++ ['('] ++
        commaSeparated signature.parameterNames ++ [')']) :=
      joins.trail header (by decide)
    exact .pure ⟨emits.refl _, by simpa using closed⟩
  · refine (emits.restore here).bind ?_
    rintro out _ ⟨rfl, holds⟩
    exact Conversion.notify_settles.bind fun _ _ same => .pure ⟨same ▸ emits.refl _, holds⟩

theorem conditionLine {before after : String}
    (fixed : isLead before.toList = true ∧ isTrail after.toList = true)
    (here : input desk.store text) :
    Settles strict (context.conditionLine before text after) desk fun out reached =>
      grows desk.store reached.store ∧ output out :=
  (emits.expression _ here).bind fun _ _ ⟨grown, holds⟩ =>
    .pure ⟨grown, emits.joins.enclosed fixed.1 holds fixed.2⟩

/-- What a statement emits satisfies `output`, if the loop variable of a loop over a collection does:
that one is taken over from the line as it stands. -/
theorem effect {statement : Statement}
    (parts : statement.Each (input desk.store)) (here : input desk.store line)
    (each : ∀ frame ∈ frames, frame.Each output) (lastCode : Text) :
    Settles strict (context.effect statement line frames lastCode) desk fun effect reached =>
      grows desk.store reached.store ∧ (∀ frame ∈ effect.frames, frame.Each output) ∧
        ((∀ item collection place, statement = .forEach item collection place → output item) →
          ∀ line ∈ effect.lines, output line) := by
  have joins := emits.joins
  have single {code : Text} (holds : output code) : ∀ line ∈ [code], output line := by
    simpa using holds
  have control (keyword : BlockKeyword) : ∀ frame ∈ Frame.control keyword :: frames, frame.Each output :=
    forall_mem_cons.mpr ⟨trivial, each⟩
  unfold Context.effect
  cases statement with
  | blank | algorithmHeader | lexique | typeDeclaration | variableDeclaration =>
    exact .pure ⟨emits.refl _, each, by simp⟩
  | sectionMarker => exact .pure ⟨emits.refl _, Frame.begin_each each, by simp⟩
  | arrayDeclaration name element dimensions place =>
    exact (emits.arrayLines parts.1 element parts.2).bind fun _ _ ⟨grown, lines⟩ =>
      .pure ⟨grown, each, fun _ => lines⟩
  | blockClose closed =>
    refine Conversion.notifyAll_settles.bind fun _ _ same => .pure ⟨same ▸ emits.refl _, ?_⟩
    obtain ⟨lines, rest⟩ := Frame.close_output joins emits.indent lastCode closed each
    exact ⟨rest, fun _ => lines⟩
  | read target =>
    refine .pure ⟨emits.refl _, each, fun _ => single ?_⟩
    unfold Context.readLine
    simp only
    split <;>
      exact joins.fit (.inr (by decide)) (emits.names parts) (emits.calls _ (by simp [emittedCalls]))
  | functionHeader =>
    refine (emits.headerLine here).bind fun _ _ ⟨grown, header⟩ =>
      .pure ⟨grown, forall_mem_cons.mpr ⟨?_, each⟩, fun _ => single header⟩
    cases found : context.headerSignature? line with
    | none => trivial
    | some signature => exact emits.headerSignature? here found
  | forEach item collection place =>
    refine (emits.expression _ parts.2).bind fun _ _ ⟨grown, holds⟩ =>
      .pure ⟨grown, control _, fun items => single ?_⟩
    exact joins.trail (joins.between (joins.lead (by decide) (items _ _ _ rfl)) (by decide) holds)
      (by decide)
  | counted =>
    exact (emits.countedLine here).bind fun _ _ ⟨grown, header⟩ =>
      .pure ⟨grown, control _, fun _ => single header⟩
  | whileLoop condition | ifThen condition =>
    exact (emits.conditionLine (by decide) parts).bind fun _ _ ⟨grown, header⟩ =>
      .pure ⟨grown, control _, fun _ => single header⟩
  | elseIf condition =>
    exact (emits.conditionLine (by decide) parts).bind fun _ _ ⟨grown, header⟩ =>
      .pure ⟨grown, each, fun _ => single header⟩
  | elseBranch => exact .pure ⟨emits.refl _, each, fun _ => single (joins.fixed (by decide))⟩
  | giveBack value =>
    exact (emits.returnLine (fun _ current => Frame.currentFunction?_each each current) parts).bind
      fun _ _ ⟨grown, code⟩ => .pure ⟨grown, each, fun _ => single code⟩
  | write =>
    exact (emits.writeLine here).bind fun _ _ ⟨grown, code⟩ =>
      .pure ⟨grown, each, fun _ => single code⟩
  | assignment =>
    exact (emits.assignmentLine here).bind fun _ _ ⟨grown, code⟩ =>
      .pure ⟨grown, each, fun _ => single code⟩
  | expression =>
    exact (emits.expressionLine here).bind fun _ _ ⟨grown, code⟩ =>
      .pure ⟨grown, each, fun _ => single code⟩

theorem convertCode {code : Text}
    (masked : Settles strict (Conversion.mask code) desk fun out reached => input reached.store out)
    (number : Nat) {progress : Progress} (each : ∀ frame ∈ progress.frames, frame.Each output) :
    Settles strict (context.convertCode number progress code) desk fun result _ =>
      ∀ effect ∈ result.2, (∀ frame ∈ effect.frames, frame.Each output) ∧
        ((∀ item collection place, result.1 = .forEach item collection place → output item) →
          ∀ line ∈ effect.lines, output line) := by
  refine masked.bind fun line reached here => ?_
  refine Conversion.notify_settles.bind fun _ noticed same => ?_
  rw [← same] at here
  split
  · exact .pure (by simp)
  · have parts := Statement.ofLine_each context.language (emits.parts here).toSeverable here
    refine (emits.effect parts here each progress.lastCode).bind fun effect final ⟨_, kept⟩ =>
      .pure fun other (found : some effect = some other) => ?_
    obtain rfl := Option.some.inj found
    exact kept

end Context.Emits

/-- Lines that are laid out have every property of their parts that survives joining. -/
theorem layLines_each {output : Text → Prop} (joins : Joinable output) {indent : Text} {comment : Option Text}
    {code : List Text} (indented : ∀ {text}, output text → output (indent ++ text))
    (commented : ∀ body ∈ comment, output body) (each : ∀ line ∈ code, output line) :
    ∀ line ∈ layLines indent comment code, output line := by
  fun_induction layLines indent comment code with
  | case1 c body given => simpa using indented (commented _ given)
  | case2 => simp
  | case3 code c body given =>
    have first := indented (each code (.head _))
    have both : output (indent ++ code ++ [' '] ++ c :: body) :=
      joins.between first (by decide) (commented _ given)
    simpa using both
  | case4 code => simpa using indented (each code (.head _))
  | case5 code rest _ ih =>
    obtain ⟨first, others⟩ := forall_mem_cons.mp each
    exact forall_mem_cons.mpr ⟨indented first, ih others⟩

end Pseudocode
