import Mathlib
import Pseudocode.Conversion

namespace Pseudocode

variable {ε σ α β : Type}

/-- How a piece of work ends that starts in a state, and the state it leaves. -/
def outcome (work : ExceptT ε (StateM σ) α) (state : σ) : Except ε α × σ :=
  work.run.run state

theorem outcome_ext {left right : ExceptT ε (StateM σ) α}
    (same : ∀ state, outcome left state = outcome right state) : left = right :=
  funext same

@[simp] theorem outcome_pure (value : α) (state : σ) :
    outcome (pure value : ExceptT ε (StateM σ) α) state = (.ok value, state) :=
  rfl

@[simp] theorem outcome_throw (fault : ε) (state : σ) :
    outcome (throw fault : ExceptT ε (StateM σ) α) state = (.error fault, state) :=
  rfl

@[simp] theorem outcome_get (state : σ) :
    outcome (get : ExceptT ε (StateM σ) σ) state = (.ok state, state) :=
  rfl

@[simp] theorem outcome_set (next state : σ) :
    outcome (set next : ExceptT ε (StateM σ) PUnit) state = (.ok ⟨⟩, next) :=
  rfl

@[simp] theorem outcome_modify (change : σ → σ) (state : σ) :
    outcome (modify change : ExceptT ε (StateM σ) PUnit) state = (.ok ⟨⟩, change state) :=
  rfl

@[simp] theorem outcome_modifyGet (change : σ → α × σ) (state : σ) :
    outcome (modifyGet change : ExceptT ε (StateM σ) α) state =
      (.ok (change state).1, (change state).2) :=
  rfl

theorem outcome_bind (work : ExceptT ε (StateM σ) α) (next : α → ExceptT ε (StateM σ) β) (state : σ) :
    outcome (work >>= next) state =
      match outcome work state with
      | (.ok value, reached) => outcome (next value) reached
      | (.error fault, reached) => (.error fault, reached) := by
  show (ExceptT.bindCont next (outcome work state).1).run (outcome work state).2 = _
  rcases outcome work state with ⟨_ | _, reached⟩ <;> rfl

@[simp] theorem outcome_map (change : α → β) (work : ExceptT ε (StateM σ) α) (state : σ) :
    outcome (change <$> work) state =
      match outcome work state with
      | (.ok value, reached) => (.ok (change value), reached)
      | (.error fault, reached) => (.error fault, reached) := by
  rw [← bind_pure_comp, outcome_bind]
  rfl

/-- The work ends well, with this value and in this state. -/
def Gives (work : ExceptT ε (StateM σ) α) (state : σ) (value : α) (reached : σ) : Prop :=
  outcome work state = (.ok value, reached)

theorem Gives.pure (value : α) (state : σ) :
    Gives (Pure.pure value : ExceptT ε (StateM σ) α) state value state :=
  rfl

theorem Gives.bind {work : ExceptT ε (StateM σ) α} {next : α → ExceptT ε (StateM σ) β}
    {state reached final : σ} {value : α} {result : β}
    (first : Gives work state value reached) (second : Gives (next value) reached result final) :
    Gives (work >>= next) state result final := by
  unfold Gives at first second ⊢
  rw [outcome_bind, first]
  exact second

theorem Gives.of_bind {work : ExceptT ε (StateM σ) α} {next : α → ExceptT ε (StateM σ) β}
    {state final : σ} {result : β} (run : Gives (work >>= next) state result final) :
    ∃ value reached, Gives work state value reached ∧ Gives (next value) reached result final := by
  unfold Gives at run ⊢
  rw [outcome_bind] at run
  rcases first : outcome work state with ⟨fault | value, reached⟩
  · simp [first] at run
  · rw [first] at run
    exact ⟨value, reached, rfl, run⟩

theorem Gives.of_pure {value result : α} {state final : σ}
    (run : Gives (Pure.pure value : ExceptT ε (StateM σ) α) state result final) :
    result = value ∧ final = state := by
  cases run
  exact ⟨rfl, rfl⟩

/-- The work ends well, with a value and in a state of which `holds` is true. -/
def Yields (work : ExceptT ε (StateM σ) α) (state : σ) (holds : α → σ → Prop) : Prop :=
  ∃ value reached, Gives work state value reached ∧ holds value reached

/-- The work ends well, with a value and in a state of which `holds` is true, or in one of the `allowed`
faults. -/
def Ends (allowed : ε → Prop) (work : ExceptT ε (StateM σ) α) (state : σ) (holds : α → σ → Prop) : Prop :=
  match outcome work state with
  | (.ok value, reached) => holds value reached
  | (.error fault, _) => allowed fault

theorem Gives.ends {allowed : ε → Prop} {work : ExceptT ε (StateM σ) α} {state reached : σ} {value : α}
    {holds : α → σ → Prop} (run : Gives work state value reached) (here : holds value reached) :
    Ends allowed work state holds := by
  unfold Gives at run
  unfold Ends
  rw [run]
  exact here

namespace Ends

variable {allowed : ε → Prop} {work : ExceptT ε (StateM σ) α} {state : σ} {holds : α → σ → Prop}

/-- What work gives that ends well. -/
theorem of_gives {value : α} {reached : σ} (ended : Ends allowed work state holds)
    (run : Gives work state value reached) : holds value reached := by
  unfold Gives at run
  unfold Ends at ended
  rwa [run] at ended

theorem gives_or_fault (ended : Ends allowed work state holds) :
    Yields work state holds ∨ ∃ fault reached, outcome work state = (.error fault, reached) ∧ allowed fault := by
  unfold Ends at ended
  rcases run : outcome work state with ⟨fault | value, reached⟩
  · rw [run] at ended
    exact .inr ⟨fault, reached, rfl, ended⟩
  · rw [run] at ended
    exact .inl ⟨value, reached, run, ended⟩

theorem congr {other : ExceptT ε (StateM σ) α} (same : outcome work state = outcome other state)
    (ended : Ends allowed other state holds) : Ends allowed work state holds := by
  unfold Ends at ended ⊢
  rwa [same]

theorem pure {value : α} (here : holds value state) :
    Ends allowed (Pure.pure value : ExceptT ε (StateM σ) α) state holds :=
  (Gives.pure value state).ends here

theorem throw {fault : ε} (excused : allowed fault) :
    Ends allowed (throw fault : ExceptT ε (StateM σ) α) state holds :=
  excused

theorem bind {next : α → ExceptT ε (StateM σ) β} {ends : β → σ → Prop}
    (first : Ends allowed work state holds)
    (second : ∀ value reached, holds value reached → Ends allowed (next value) reached ends) :
    Ends allowed (work >>= next) state ends := by
  unfold Ends at first ⊢
  rw [outcome_bind]
  rcases run : outcome work state with ⟨fault | value, reached⟩
  · rw [run] at first
    exact first
  · rw [run] at first
    exact second value reached first

theorem mono {weaker : α → σ → Prop} (first : Ends allowed work state holds)
    (implies : ∀ value reached, holds value reached → weaker value reached) :
    Ends allowed work state weaker := by
  unfold Ends at first ⊢
  rcases run : outcome work state with ⟨fault | value, reached⟩
  · rw [run] at first
    exact first
  · rw [run] at first
    exact implies value reached first

theorem get_bind {next : σ → ExceptT ε (StateM σ) α} (second : Ends allowed (next state) state holds) :
    Ends allowed (MonadState.get >>= next) state holds :=
  congr (by rw [outcome_bind, outcome_get]) second

theorem excuse {excused : ε → Prop} (ended : Ends allowed work state holds)
    (more : ∀ fault, allowed fault → excused fault) : Ends excused work state holds := by
  unfold Ends at ended ⊢
  rcases run : outcome work state with ⟨fault | value, reached⟩
  · rw [run] at ended
    exact more fault ended
  · rwa [run] at ended

theorem with_gives (ended : Ends allowed work state holds) :
    Ends allowed work state fun value reached => Gives work state value reached ∧ holds value reached := by
  unfold Ends Gives at *
  rcases run : outcome work state with ⟨fault | value, reached⟩
  · rwa [run] at ended
  · rw [run] at ended
    exact ⟨rfl, ended⟩

/-- Where two facts are known of the end of some work, so are both, and the faults that both allow. -/
theorem and {also : α → σ → Prop} {excused : ε → Prop} (first : Ends allowed work state holds)
    (second : Ends excused work state also) :
    Ends (fun fault => allowed fault ∧ excused fault) work state
      fun value reached => holds value reached ∧ also value reached := by
  unfold Ends at first second ⊢
  rcases run : outcome work state with ⟨fault | value, reached⟩
  all_goals
    rw [run] at first second
    exact ⟨first, second⟩

/-- Work on one item after the other, while the state `grows` and keeps what was given before. -/
theorem mapM_growing {items : List α} {work : α → ExceptT ε (StateM σ) β} (grows : σ → σ → Prop)
    (gives : σ → β → Prop) (refl : ∀ state, grows state state)
    (trans : ∀ {first second third}, grows first second → grows second third → grows first third)
    (mono : ∀ {state reached out}, grows state reached → gives state out → gives reached out) {start state : σ}
    (each : ∀ item ∈ items, ∀ state, grows start state →
      Ends allowed (work item) state fun out reached => grows state reached ∧ gives reached out)
    (started : grows start state) :
    Ends allowed (items.mapM work) state fun outs reached =>
      grows state reached ∧ ∀ out ∈ outs, gives reached out := by
  induction items generalizing state with
  | nil => exact .pure ⟨refl state, by simp⟩
  | cons item items ih =>
    rw [List.mapM_cons]
    refine (each item (.head _) state started).bind fun out reached ⟨grown, given⟩ => ?_
    refine (ih (fun other member => each other (.tail _ member)) (trans started grown)).bind
      fun outs final ⟨later, others⟩ => .pure ⟨trans grown later, ?_⟩
    exact List.forall_mem_cons.mpr ⟨mono later given, others⟩

end Ends

/-- The work ends well, with a value and in a state of which `holds` is true. Work that is not
strict may also end in a fault. -/
def Settles (strict : Bool) (work : ExceptT ε (StateM σ) α) (state : σ) (holds : α → σ → Prop) :
    Prop :=
  Ends (fun _ => strict = false) work state holds

theorem Gives.settles {strict : Bool} {work : ExceptT ε (StateM σ) α} {state reached : σ} {value : α}
    {holds : α → σ → Prop} (run : Gives work state value reached) (here : holds value reached) :
    Settles strict work state holds :=
  run.ends here

namespace Settles

variable {strict : Bool} {work : ExceptT ε (StateM σ) α} {state : σ} {holds : α → σ → Prop}

theorem yields (settled : Settles true work state holds) : Yields work state holds :=
  (Ends.gives_or_fault settled).resolve_right fun ⟨_, _, _, never⟩ => absurd never (by decide)

/-- What work gives that ends well. -/
theorem of_gives {value : α} {reached : σ} (settled : Settles strict work state holds)
    (run : Gives work state value reached) : holds value reached :=
  Ends.of_gives settled run

theorem pure {value : α} (here : holds value state) :
    Settles strict (Pure.pure value : ExceptT ε (StateM σ) α) state holds :=
  Ends.pure here

theorem throw {fault : ε} (lenient : strict = false) :
    Settles strict (throw fault : ExceptT ε (StateM σ) α) state holds :=
  lenient

theorem bind {next : α → ExceptT ε (StateM σ) β} {ends : β → σ → Prop}
    (first : Settles strict work state holds)
    (second : ∀ value reached, holds value reached → Settles strict (next value) reached ends) :
    Settles strict (work >>= next) state ends :=
  Ends.bind first second

theorem mono {weaker : α → σ → Prop} (first : Settles strict work state holds)
    (implies : ∀ value reached, holds value reached → weaker value reached) :
    Settles strict work state weaker :=
  Ends.mono first implies

theorem get_bind {next : σ → ExceptT ε (StateM σ) α} (second : Settles strict (next state) state holds) :
    Settles strict (MonadState.get >>= next) state holds :=
  Ends.get_bind second

theorem and {also : α → σ → Prop} (first : Settles strict work state holds)
    (second : Settles strict work state also) :
    Settles strict work state fun value reached => holds value reached ∧ also value reached := by
  rcases Ends.gives_or_fault (Ends.and first second) with ⟨_, _, run, both⟩ | ⟨_, _, run, lenient, -⟩
  · exact run.settles both
  · simpa only [Settles, Ends, run] using lenient

theorem mapM {items : List α} {work : α → ExceptT ε (StateM σ) β} (holds : σ → Prop) (gives : β → Prop)
    {state : σ} (here : holds state)
    (each : ∀ item ∈ items, ∀ state, holds state →
      Settles strict (work item) state fun out reached => holds reached ∧ gives out) :
    Settles strict (items.mapM work) state fun outs reached =>
      holds reached ∧ ∀ out ∈ outs, gives out := by
  have growing : Ends (fun _ => strict = false) (items.mapM work) state fun outs reached =>
      (holds state → holds reached) ∧ ∀ out ∈ outs, gives out :=
    Ends.mapM_growing (fun state reached => holds state → holds reached) (fun _ => gives) (fun _ => id)
      (fun first second start => second (first start)) (fun _ => id) (fun item member there started =>
        Ends.mono (each item member there (started here)) fun _ _ ⟨kept, given⟩ => ⟨fun _ => kept, given⟩) id
  exact growing.mono fun _ _ ⟨kept, given⟩ => ⟨kept here, given⟩

end Settles

end Pseudocode
