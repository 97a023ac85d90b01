import Pseudocode.Program.Statement
import Pseudocode.Proofs.Pass

namespace Pseudocode

open List Option Placeholder

theorem Index.convertFrom_plain {text : Text} (plain : '[' ∉ text) (written : Text) :
    Index.convertFrom written text = pure text := by
  induction text generalizing written with
  | nil => rw [Index.convertFrom]
  | cons c rest ih =>
    simp only [mem_cons, not_or] at plain
    rw [Index.convertFrom_cons (Ne.symm plain.1), ih plain.2, pure_bind]

theorem Context.finish_plain {text : Text} (unindexed : '[' ∉ text) (plain : opening ∉ text) :
    Context.finish text = pure text := by
  refine outcome_ext fun desk => ?_
  rw [Context.finish, Index.convert, Index.convertFrom_plain unindexed, pure_bind, outcome_restore,
    desk.store.restore_plain plain, outcome_pure]

theorem mem_joinWith {separator : String} {texts : List Text} {c : Char}
    (member : c ∈ joinWith separator texts) : c ∈ separator.toList ∨ ∃ text ∈ texts, c ∈ text := by
  induction texts with
  | nil => simp [joinWith] at member
  | cons text texts ih =>
    cases texts with
    | nil =>
      rw [joinWith, intercalate_singleton] at member
      exact .inr ⟨text, .head _, member⟩
    | cons next texts =>
      rw [joinWith, intercalate_cons_cons, mem_append, mem_append] at member
      rcases member with (here | between) | later
      · exact .inr ⟨text, .head _, here⟩
      · exact .inl between
      · rcases ih later with between | ⟨other, inside, here⟩
        · exact .inl between
        · exact .inr ⟨other, .tail _ inside, here⟩

theorem assign_mem {κ α : Type} [DecidableEq κ] {key : κ} {value : α} {bound : List (κ × α)}
    {pair : κ × α} (member : pair ∈ assign key value bound) : pair = (key, value) ∨ pair ∈ bound := by
  induction bound with
  | nil => exact .inl (mem_singleton.mp member)
  | cons other rest ih =>
    simp only [assign] at member
    split at member
    · rcases mem_cons.mp member with rfl | later
      · exact .inl rfl
      · exact .inr (.tail _ later)
    · rcases mem_cons.mp member with rfl | later
      · exact .inr (.head _)
      · exact (ih later).imp_right (.tail _)

/-- What is listed after several entries was listed before or is one of them, by its own key. -/
theorem mem_foldl_assign {κ α : Type} [DecidableEq κ] {key : α → κ} {items : List α}
    {bound : List (κ × α)} {pair : κ × α}
    (member : pair ∈ items.foldl (fun bound item => assign (key item) item bound) bound) :
    pair ∈ bound ∨ pair.1 = key pair.2 ∧ pair.2 ∈ items := by
  induction items generalizing bound with
  | nil => exact .inl member
  | cons item items ih =>
    rcases ih member with listed | ⟨same, later⟩
    · rcases assign_mem listed with rfl | old
      · exact .inr ⟨rfl, .head _⟩
      · exact .inl old
    · exact .inr ⟨same, .tail _ later⟩

theorem Signature.ofLine?_name {line : Text} {signature : Signature}
    (read : Signature.ofLine? line = some signature) :
    identifier? signature.name = some (signature.name, []) := by
  obtain ⟨⟨name, text⟩, header, rfl⟩ := map_eq_some_iff.mp read
  obtain ⟨⟨_, inside⟩, opened, header⟩ := bind_eq_some_iff.mp header
  obtain ⟨captured, -, same⟩ := bind_eq_some_iff.mp header
  cases same
  obtain ⟨afterKeyword, -, opened⟩ := bind_eq_some_iff.mp opened
  obtain ⟨rest, -, opened⟩ := bind_eq_some_iff.mp opened
  obtain ⟨⟨word, after⟩, found, opened⟩ := bind_eq_some_iff.mp opened
  simp only at opened
  split at opened
  · cases opened
    exact (identifier?_eq_some found).2
  · simp at opened

/-- Every signature collected from a source stands on a line of it and is listed by its name. -/
theorem Signatures.mem_collect {source : Text} {pair : Text × Signature}
    (member : pair ∈ Signatures.collect source) :
    pair.1 = pair.2.name ∧ ∃ line ∈ lines source, Signature.ofLine? line = some pair.2 := by
  rcases mem_foldl_assign member with old | ⟨same, listed⟩
  · simp at old
  · obtain ⟨line, inside, ofLine⟩ := mem_filterMap.mp listed
    exact ⟨same, line, inside, ofLine⟩

/-- A declared function is known by its own name, which is an identifier. -/
theorem Signatures.collect_name {source name : Text} {signature : Signature}
    (declared : (Signatures.collect source).get? name = some signature) :
    signature.name = name ∧ identifier? name = some (name, []) := by
  obtain ⟨same, line, -, read⟩ := mem_collect (mem_of_lookup declared)
  have identifier := Signature.ofLine?_name read
  rw [← same] at identifier
  exact ⟨same.symm, identifier⟩

namespace Signature

/-- The arguments of a call for the parameters that are handed back, in order. -/
def inOutActuals (signature : Signature) (arguments : List Text) : List Text :=
  ((signature.parameters.zip arguments).filter (·.1.inOut)).map fun (_, argument) => trim argument

theorem inOutActuals_length {signature : Signature} {arguments : List Text}
    (complete : arguments.length = signature.parameters.length) :
    (signature.inOutActuals arguments).length = signature.inOutNames.length := by
  unfold inOutActuals inOutNames
  generalize signature.parameters = parameters at complete
  induction parameters generalizing arguments with
  | nil => simp
  | cons parameter parameters ih =>
    cases arguments with
    | nil => simp at complete
    | cons argument arguments =>
      have fewer : arguments.length = parameters.length := by simpa using complete
      have rest := ih fewer
      simp only [length_map] at rest ⊢
      by_cases inOut : parameter.inOut = true
      · simp [inOut, rest]
      · simp [inOut, rest]

/-- The values of a return in the body of a function: one that is written out, or none, where the
return is bare or comes at the end by itself. -/
def returnedValues (signature : Signature) : (written : Option Text) → List Text
  | some value => value :: signature.inOutNames
  | none => Frame.implicitValues signature

/-- A return with or without a written value hands a value of the function back. -/
def carries (signature : Signature) (written : Option Text) : Bool :=
  written.isSome || signature.returnsValue

theorem returnedValues_eq (signature : Signature) (written : Option Text) :
    ∃ own : List Text, own.length = (signature.carries written).toNat ∧
      signature.returnedValues written = own ++ signature.inOutNames := by
  cases written with
  | some value => exact ⟨[value], rfl, rfl⟩
  | none =>
    cases returns : signature.returnsValue with
    | true => exact ⟨["nil".toList], by simp [carries, returns], by
        simp [returnedValues, Frame.implicitValues, returns]⟩
    | false => exact ⟨[], by simp [carries, returns], by
        simp [returnedValues, Frame.implicitValues, returns]⟩

end Signature

/-- The target for a parameter that is handed back: the variable that was passed, or nothing. -/
def slot (actual : Text) : Text :=
  if isIdentifier actual then actual else ['_']

/-- The targets take the values of a return one for one: the function's own value goes to
`result`, and each parameter that is handed back to the variable passed for it. -/
def LinesUp (signature : Signature) (result : Text) (actuals values targets : List Text) : Prop :=
  ∃ own : List Text, values = own ++ signature.inOutNames ∧
    targets = own.map (fun _ => result) ++ actuals.map slot

/-- The targets of a call that is a statement of its own. -/
def Signature.callTargets (signature : Signature) (actuals : List Text) : List Text :=
  let written := actuals.filter isIdentifier
  if signature.returnsValue then ['_'] :: written else written

/-- The targets of a call whose value is assigned. -/
def assignTargets (target : Text) (actuals : List Text) : List Text :=
  target :: (actuals.filter isIdentifier).filter (· ≠ target)

theorem linesUp_returned_iff (signature : Signature) (result : Text) (actuals targets : List Text)
    (written : Option Text) :
    LinesUp signature result actuals (signature.returnedValues written) targets ↔
      targets = List.replicate (signature.carries written).toNat result ++ actuals.map slot := by
  obtain ⟨own, length, values⟩ := signature.returnedValues_eq written
  rw [LinesUp, values]
  constructor
  · rintro ⟨other, same, rfl⟩
    obtain rfl := append_cancel_right same
    rw [map_const', length]
  · rintro rfl
    exact ⟨own, rfl, by rw [map_const', length]⟩

/-- Choosing some of the arguments gives their slots only if all are chosen and are variables. -/
theorem filter_eq_map_slot_iff {chosen : Text → Bool}
    (named : ∀ actual, chosen actual = true → isIdentifier actual = true) (actuals : List Text) :
    actuals.filter chosen = actuals.map slot ↔ ∀ actual ∈ actuals, chosen actual = true := by
  constructor
  · intro same
    have length := congrArg List.length same
    rw [length_map] at length
    exact length_filter_eq_length_iff.mp length
  · intro all
    rw [filter_eq_self.mpr all]
    refine (map_id actuals).symm.trans (map_congr_left fun actual member => ?_)
    simp [slot, named actual (all actual member)]

theorem Signature.linesUp_callTargets_iff (signature : Signature) (actuals : List Text)
    (written : Option Text) :
    LinesUp signature ['_'] actuals (signature.returnedValues written)
        (signature.callTargets actuals) ↔
      (∀ actual ∈ actuals, isIdentifier actual = true) ∧
        (written.isSome = true → signature.returnsValue = true) := by
  rw [linesUp_returned_iff, callTargets, ← filter_eq_map_slot_iff (fun _ => id)]
  have fewer := length_filter_le isIdentifier actuals
  cases returns : signature.returnsValue with
  | true => simp [carries, returns]
  | false =>
    cases written with
    | none => simp [carries, returns]
    | some value =>
      simp only [carries, isSome_some, Bool.true_or, Bool.toNat_true, replicate_one,
        List.singleton_append, imp_false, not_true_eq_false, and_false, iff_false,
        Bool.false_eq_true, if_false]
      intro same
      have length := congrArg List.length same
      simp only [length_cons, length_map] at length
      omega

theorem others_eq_map_slot_iff (target : Text) (actuals : List Text) :
    (actuals.filter isIdentifier).filter (· ≠ target) = actuals.map slot ↔
      ∀ actual ∈ actuals, isIdentifier actual = true ∧ actual ≠ target := by
  rw [List.filter_filter, filter_eq_map_slot_iff (by simp +contextual)]
  simp [and_comm]

/-- A value that a call does not have is taken from the first parameter that is handed back. -/
theorem assignTargets_eq_map_slot_iff (target : Text) (actuals : List Text) :
    assignTargets target actuals = actuals.map slot ↔
      ∃ first others, actuals = first :: others ∧ slot first = target ∧
        ∀ actual ∈ others, isIdentifier actual = true ∧ actual ≠ target := by
  have passed {first : Text} (same : slot first = target) (others : List Text) :
      ((first :: others).filter isIdentifier).filter (· ≠ target) =
        (others.filter isIdentifier).filter (· ≠ target) := by
    by_cases plain : isIdentifier first = true
    · have equal : first = target := by simpa [slot, plain] using same
      simp [equal]
    · simp [plain]
  rw [assignTargets]
  constructor
  · intro same
    cases actuals with
    | nil => simp at same
    | cons first others =>
      rw [map_cons, List.cons.injEq] at same
      obtain ⟨taken, rest⟩ := same
      rw [passed taken.symm, others_eq_map_slot_iff] at rest
      exact ⟨first, others, rfl, taken.symm, rest⟩
  · rintro ⟨first, others, rfl, taken, rest⟩
    rw [passed taken, (others_eq_map_slot_iff target others).mpr rest, map_cons, taken]

theorem Signature.linesUp_assignTargets_iff (signature : Signature) (target : Text)
    (actuals : List Text) (written : Option Text) :
    LinesUp signature target actuals (signature.returnedValues written)
        (assignTargets target actuals) ↔
      if signature.carries written then
        ∀ actual ∈ actuals, isIdentifier actual = true ∧ actual ≠ target
      else ∃ first others, actuals = first :: others ∧ slot first = target ∧
        ∀ actual ∈ others, isIdentifier actual = true ∧ actual ≠ target := by
  rw [linesUp_returned_iff]
  cases signature.carries written with
  | true => simpa [assignTargets] using others_eq_map_slot_iff target actuals
  | false => simpa using assignTargets_eq_map_slot_iff target actuals

/-- A call of a declared function, with an argument for each parameter, that hands something
back to a variable. -/
structure InOutCall (signatures : Signatures) (signature : Signature) (head : CallHead)
    (inside : Text) : Prop where
  declared : signatures.get? head.name = some signature
  gap : ∀ c ∈ head.gap, isBlank c = true
  closed : splitParen? (inside ++ [')']) = some (inside, [])
  complete : (splitArguments inside).length = signature.parameters.length
  writes : ∃ actual ∈ signature.inOutActuals (splitArguments inside), isIdentifier actual = true

theorem callAt?_apply {head : CallHead} (named : identifier? head.name = some (head.name, []))
    (gap : ∀ c ∈ head.gap, isBlank c = true) (inside : Text) :
    callAt? anyCallee none (head.apply inside) = some head := by
  have ends : atWordEnd (head.gap ++ '(' :: (inside ++ [')'])) = true := by
    cases blanks : head.gap with
    | nil => rfl
    | cons c rest => simp [atWordEnd, isBlank_not_wordChar (gap c (by simp [blanks]))]
  have shape : head.apply inside = head.name ++ (head.gap ++ '(' :: (inside ++ [')'])) := by
    simp [CallHead.apply, CallHead.written]
  have drop : trimLeft (head.gap ++ '(' :: (inside ++ [')'])) = '(' :: (inside ++ [')']) := by
    rw [trimLeft, dropWhile_append_of_pos gap]
    rfl
  have take : indentation (head.gap ++ '(' :: (inside ++ [')'])) = head.gap := by
    rw [indentation, takeWhile_append_of_pos gap]
    simp [show isBlank '(' = false from rfl]
  rw [callAt?, if_pos (by rfl), anyCallee, shape, identifier?_append named ends]
  simp only [bind_some, headAt?, drop_left, take_left, drop, take]

namespace InOutCall

variable {signatures : Signatures} {signature : Signature} {head : CallHead} {inside : Text}

theorem writtenBack_eq (call : InOutCall signatures signature head inside) :
    signatures.writtenBack head.name (splitArguments inside) =
      (signature.inOutActuals (splitArguments inside)).filter isIdentifier := by
  rw [Signatures.writtenBack, call.declared, Signature.inOutActuals]
  simp only
  generalize signature.parameters.zip (splitArguments inside) = pairs
  induction pairs with
  | nil => rfl
  | cons pair pairs ih =>
    by_cases inOut : pair.1.inOut = true
    · by_cases plain : isIdentifier (trim pair.2) = true
      · simp only [filterMap_cons, filter_cons, map_cons, inOut, plain, Bool.and_self,
          if_true, ih]
      · simp only [filterMap_cons, filter_cons, map_cons, inOut, plain, Bool.and_false,
          Bool.false_eq_true, if_true, if_false, ih]
    · simp only [filterMap_cons, filter_cons, inOut, Bool.false_and, Bool.false_eq_true,
        if_false, ih]

theorem written_ne_nil (call : InOutCall signatures signature head inside) :
    (signature.inOutActuals (splitArguments inside)).filter isIdentifier ≠ [] := by
  obtain ⟨actual, member, plain⟩ := call.writes
  exact ne_nil_of_mem (mem_filter.mpr ⟨member, plain⟩)

theorem inOutNames_ne_nil (call : InOutCall signatures signature head inside) :
    signature.inOutNames ≠ [] := by
  intro none
  have length := Signature.inOutActuals_length call.complete
  obtain ⟨actual, member, -⟩ := call.writes
  have some := length_pos_of_mem member
  simp [none] at length
  simp [length] at some

/-- The call is found, with the variables it writes back. -/
theorem inOutCall? (context : Context) (call : InOutCall context.signatures signature head inside)
    (named : signature.name = head.name) (whole : identifier? head.name = some (head.name, [])) :
    context.inOutCall? (Context.calls (head.apply inside)) =
      pure (some (signature, (signature.inOutActuals (splitArguments inside)).filter isIdentifier)) := by
  have found := callAt?_apply whole call.gap inside
  have after : (head.apply inside).drop head.length = inside ++ [')'] := by
    rw [CallHead.apply, append_assoc]
    exact drop_left' (by simp [CallHead.written, CallHead.length]; omega)
  obtain ⟨c, rest, shape⟩ : ∃ c rest, head.apply inside = c :: rest := by
    refine exists_cons_of_ne_nil ?_
    simp [CallHead.apply, CallHead.written]
  rw [shape] at found after
  have some := call.inOutNames_ne_nil
  have writes := call.written_ne_nil
  rw [Context.calls, shape, callsFrom, found]
  simp only [after, Context.inOutCall?, call.declared, call.closed, named, call.writtenBack_eq,
    List.isEmpty_iff, some, if_false]

end InOutCall

/-- A statement assigns what a call gives to these targets. -/
def Context.Assigns (context : Context) (statement : Statement) (line : Text) (targets : List Text)
    (call : Text) : Prop :=
  ∀ frames lastCode, context.effect statement line frames lastCode = do
    let code ← context.assignment targets call
    return { lines := [code], frames }

/-- The returns in the body of a function: its header makes its signature the current one, and
every return, written or not, gives the values that belong to it. -/
structure Context.HandsBack (context : Context) (signature : Signature) : Prop where
  opened : ∀ line, Context.headerName? line = some signature.name →
    context.headerSignature? line = some signature
  written : ∀ value, value ≠ [] → context.returnLine (some signature) value = do
    let converted ← context.expression {} value
    return "return ".toList ++ commaSeparated (signature.returnedValues (some converted))
  bare : context.returnLine (some signature) [] =
    pure ("return ".toList ++ commaSeparated (signature.returnedValues none))
  injected : ∀ lastCode opened, Frame.isReturn lastCode = false →
    Frame.closing context.layout lastCode (.function (some signature) opened) =
      [context.layout.indent ++ "return ".toList ++ commaSeparated (signature.returnedValues none),
        "end".toList]

theorem Context.handsBack {context : Context} {signature : Signature}
    (declared : context.signatures.get? signature.name = some signature)
    (some : signature.inOutNames ≠ []) : context.HandsBack signature where
  opened line header := by rw [headerSignature?, header, map_some, declared, getD_some]
  written value nonempty := by
    simp only [returnLine, List.isEmpty_iff, nonempty, some, if_false, pure_bind, reduceCtorEq,
      List.singleton_append, Signature.returnedValues]
  bare := by
    have values : Frame.implicitValues signature ≠ [] := by
      unfold Frame.implicitValues
      split
      · simp
      · exact some
    simp only [returnLine, List.isEmpty_nil, List.isEmpty_iff, some, values, if_true, if_false,
      pure_bind, Signature.returnedValues]
  injected lastCode opened last := by
    rw [Frame.closing, if_neg (by simp [some, last])]
    rfl

theorem Context.finish_targets {targets : List Text}
    (plain : ∀ target ∈ targets, isIdentifier target = true) :
    Context.finish (commaSeparated targets) = pure (commaSeparated targets) := by
  have absent {c : Char} (mark : c ∉ ", ".toList) (word : isWordChar c = false) (line : c ≠ '\n') :
      c ∉ commaSeparated targets := by
    intro member
    rcases mem_joinWith member with between | ⟨target, inside, here⟩
    · exact mark between
    · rcases isIdentifier_mem (plain target inside) here with isWord | isLine
      · simp [word] at isWord
      · exact line isLine
  exact Context.finish_plain (absent (by decide) (by decide) (by decide))
    (absent (by decide) (isMark_not_wordChar rfl) (by decide))

/-- The targets of a call line up with the values of every return of its function exactly if each
argument for a parameter that is handed back is a variable, and a value is returned only where one
is declared. Where the value is assigned, none of those variables may be its target; and a call
without a value fills its target with the first parameter that is handed back. -/
theorem Context.inOut_linesUp_iff (language : Language) (layout : Layout) {source : Text}
    {signature : Signature} {head : CallHead} {inside line left right : Text}
    (call : InOutCall (Signatures.collect source) signature head inside)
    (cut : cutAt? '←' line = some (left, right)) (called : trim right = head.apply inside) :
    (Context.ofSource language layout source).HandsBack signature ∧
    ((Context.ofSource language layout source).Assigns .expression (head.apply inside)
        (signature.callTargets (signature.inOutActuals (splitArguments inside)))
        (head.apply inside) ∧
      ∀ written, LinesUp signature ['_'] (signature.inOutActuals (splitArguments inside))
          (signature.returnedValues written)
          (signature.callTargets (signature.inOutActuals (splitArguments inside))) ↔
        (∀ actual ∈ signature.inOutActuals (splitArguments inside), isIdentifier actual = true) ∧
          (written.isSome = true → signature.returnsValue = true)) ∧
    ((Context.ofSource language layout source).Assigns .assignment line
        (assignTargets (trim left) (signature.inOutActuals (splitArguments inside)))
        (head.apply inside) ∧
      ∀ written, LinesUp signature (trim left) (signature.inOutActuals (splitArguments inside))
          (signature.returnedValues written)
          (assignTargets (trim left) (signature.inOutActuals (splitArguments inside))) ↔
        if signature.carries written then
          ∀ actual ∈ signature.inOutActuals (splitArguments inside),
            isIdentifier actual = true ∧ actual ≠ trim left
        else ∃ first others,
          signature.inOutActuals (splitArguments inside) = first :: others ∧
            slot first = trim left ∧
            ∀ actual ∈ others, isIdentifier actual = true ∧ actual ≠ trim left) ∧
    ∀ targets : List Text, (∀ target ∈ targets, isIdentifier target = true) →
      Context.finish (commaSeparated targets) = pure (commaSeparated targets) := by
  obtain ⟨named, whole⟩ := Signatures.collect_name call.declared
  have found := InOutCall.inOutCall? (Context.ofSource language layout source) call named whole
  refine ⟨Context.handsBack (named ▸ call.declared) call.inOutNames_ne_nil, ⟨?_, ?_⟩, ⟨?_, ?_⟩,
    fun _ => Context.finish_targets⟩
  · intro frames lastCode
    simp [effect, expressionLine, found, Signature.callTargets]
  · exact signature.linesUp_callTargets_iff _
  · intro frames lastCode
    simp [effect, assignmentLine, cut, called, found, assignTargets]
  · exact signature.linesUp_assignTargets_iff _ _

theorem Context.inOut_linesUp_iff_pair :
    ∃ signature, InOutCall (Signatures.collect "Fonction f(InOut a, InOut b)".toList) signature
        { name := ['f'], gap := [' '] } "n, m".toList ∧
      cutAt? '←' "x ← f (n, m)".toList = some ("x ".toList, " f (n, m)".toList) ∧
      trim " f (n, m)".toList = CallHead.apply { name := ['f'], gap := [' '] } "n, m".toList ∧
      LinesUp signature ['_'] (signature.inOutActuals (splitArguments "n, m".toList))
        (signature.returnedValues none)
        (signature.callTargets (signature.inOutActuals (splitArguments "n, m".toList))) := by
  have call : InOutCall (Signatures.collect "Fonction f(InOut a, InOut b)".toList)
      { name := ['f'], parameters := [⟨['a'], true⟩, ⟨['b'], true⟩] }
      { name := ['f'], gap := [' '] } "n, m".toList :=
    ⟨by decide +kernel, forall_mem_singleton.mpr rfl, by decide +kernel, by decide +kernel,
      ['n'], by decide, by decide⟩
  have cut : cutAt? '←' "x ← f (n, m)".toList = some ("x ".toList, " f (n, m)".toList) := by
    decide
  have called : trim " f (n, m)".toList =
      CallHead.apply { name := ['f'], gap := [' '] } "n, m".toList := by
    decide
  have aligned := (inOut_linesUp_iff standardLanguage {} call cut called).2.1.2 none
  exact ⟨_, call, cut, called, aligned.mpr ⟨by decide, by decide⟩⟩

/-- An element of an array in the place of the first variable moves the second to its slot. -/
theorem not_linesUp_element :
    ∃ signature, InOutCall (Signatures.collect "Fonction f(InOut a, InOut b)".toList) signature
        { name := ['f'], gap := [] } "t[0], n".toList ∧
      ¬LinesUp signature ['_'] (signature.inOutActuals (splitArguments "t[0], n".toList))
        (signature.returnedValues none)
        (signature.callTargets (signature.inOutActuals (splitArguments "t[0], n".toList))) := by
  refine ⟨{ name := ['f'], parameters := [⟨['a'], true⟩, ⟨['b'], true⟩] }, ⟨by decide +kernel,
    by simp, by decide, by decide, ['n'], by decide, by decide⟩, ?_⟩
  rw [Signature.linesUp_callTargets_iff]
  rintro ⟨all, -⟩
  exact absurd all (by decide)

end Pseudocode
