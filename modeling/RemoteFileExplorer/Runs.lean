import Mathlib.Data.List.Basic
import Mathlib.Tactic.Linarith

namespace RemoteFileExplorer.Runs

variable {State Event : Type}

-- A system is one partial step function. `none` says that the event cannot
-- happen in that state, so a run is a finite list of events all of which could.
def run (step : State → Event → Option State) : State → List Event → Option State
  | s,[] => some s
  | s,event::rest => (step s event).bind (run step · rest)

@[simp] theorem run_nil (step : State → Event → Option State) (s : State) : run step s [] = some s := rfl

theorem run_step (step : State → Event → Option State) (s : State) (event : Event) (rest : List Event) :
    run step s (event::rest) = (step s event).bind (run step · rest) := rfl

theorem run_cons :
    run step s (event::rest) = some last ↔ ∃ next, step s event = some next ∧ run step next rest = some last := by
  rw [run_step,Option.bind_eq_some_iff]

theorem run_append :
    run step s (first ++ second) = some last ↔
      ∃ middle, run step s first = some middle ∧ run step middle second = some last := by
  induction first generalizing s with
  | nil => simp
  | cons event rest ih =>
    simp only [List.cons_append,run_cons,ih]
    constructor
    · rintro ⟨next,stepped,middle,one,two⟩
      exact ⟨middle,⟨next,stepped,one⟩,two⟩
    · rintro ⟨middle,⟨next,stepped,one⟩,two⟩
      exact ⟨next,stepped,middle,one,two⟩

-- The condition is judged in the state before each step of the run.
def Every (step : State → Event → Option State) (ok : State → Event → Prop) : State → List Event → Prop
  | _,[] => True
  | s,event::rest => ok s event ∧ ∀ next, step s event = some next → Every step ok next rest

instance decidableEvery (step : State → Event → Option State) (ok : State → Event → Prop) [∀ s event, Decidable (ok s event)] :
    (s : State) → (events : List Event) → Decidable (Every step ok s events)
  | _,[] => .isTrue trivial
  | s,event::rest =>
    match stepped : step s event with
    | none => decidable_of_iff (ok s event) ⟨fun meets => ⟨meets,fun next moved => by rw [stepped] at moved; cases moved⟩,And.left⟩
    | some next =>
      have := decidableEvery step ok next rest
      decidable_of_iff (ok s event ∧ Every step ok next rest)
        ⟨fun meets => ⟨meets.1,fun _ moved => by rw [stepped] at moved; cases moved; exact meets.2⟩,
          fun meets => ⟨meets.1,meets.2 next stepped⟩⟩

theorem run_preserves_when
    (invariant : State → Prop)
    (preserved : ∀ s event next, invariant s → ok s event → step s event = some next → invariant next)
    (start : invariant s) (meets : Every step ok s events) (ran : run step s events = some last) :
    invariant last := by
  induction events generalizing s with
  | nil => cases ran; exact start
  | cons event rest ih =>
    obtain ⟨next,stepped,tail⟩ := run_cons.mp ran
    exact ih (preserved s event next start meets.1 stepped) (meets.2 next stepped) tail

theorem run_preserves {invariant : State → Prop}
    (preserved : ∀ s event next, invariant s → step s event = some next → invariant next)
    (start : invariant s) (ran : run step s events = some last) : invariant last := by
  induction events generalizing s with
  | nil => cases ran; exact start
  | cons event rest ih =>
    obtain ⟨next,stepped,tail⟩ := run_cons.mp ran
    exact ih (preserved s event next start stepped) tail

theorem run_relates {step : State → Event → Option State} {invariant : State → Prop}
    {related : State → State → Prop} {s last : State} {events : List Event} (refl : ∀ s, related s s)
    (trans : ∀ a b c, related a b → related b c → related a c)
    (preserved : ∀ s event next, invariant s → step s event = some next → invariant next)
    (relates : ∀ s event next, invariant s → step s event = some next → related s next)
    (start : invariant s) (ran : run step s events = some last) : related s last := by
  induction events generalizing s with
  | nil => cases ran; exact refl _
  | cons event rest ih =>
    obtain ⟨next,stepped,tail⟩ := run_cons.mp ran
    exact trans s next last (relates s event next start stepped)
      (ih (preserved s event next start stepped) tail)

theorem run_begins (holds : State → Prop)
    (before : ¬ holds s)
    (ran : run step s events = some last) (after : holds last) :
    ∃ past event rest middle next, events = past ++ event::rest ∧ run step s past = some middle ∧
      step middle event = some next ∧ run step next rest = some last ∧ ¬ holds middle ∧ holds next := by
  induction events generalizing s with
  | nil => cases ran; exact absurd after before
  | cons event rest ih =>
    obtain ⟨next,stepped,tail⟩ := run_cons.mp ran
    by_cases begun : holds next
    · exact ⟨[],event,rest,s,next,rfl,rfl,stepped,tail,before,begun⟩
    · obtain ⟨past,later,remaining,middle,reached,split,ranPast,moved,ranRest,notYet,now⟩ := ih begun tail
      exact ⟨event::past,later,remaining,middle,reached,by rw [split]; rfl,
        run_cons.mpr ⟨next,stepped,ranPast⟩,moved,ranRest,notYet,now⟩

-- An invariant that also speaks of the events so far.
theorem run_history
    (invariant : List Event → State → Prop)
    (preserved : ∀ past s event next, run step begin past = some s → invariant past s → step s event = some next →
      (past ++ [event]) <+: events → invariant (past ++ [event]) next)
    (start : invariant [] begin) (ran : run step begin events = some last) : invariant events last := by
  have all : ∀ rest past s, events = past ++ rest → run step begin past = some s → run step s rest = some last →
      invariant past s → invariant events last := by
    intro rest
    induction rest with
    | nil =>
      intro past s whole _ tail now
      cases tail
      rwa [whole,List.append_nil]
    | cons event rest ih =>
      intro past s whole before tail now
      obtain ⟨next,stepped,after⟩ := run_cons.mp tail
      have longer : events = (past ++ [event]) ++ rest := by rw [whole,List.append_assoc]; rfl
      refine ih (past ++ [event]) next longer ?_ after ?_
      · exact run_append.mpr ⟨s,before,run_cons.mpr ⟨next,stepped,rfl⟩⟩
      · exact preserved past s event next before now stepped ⟨rest,longer.symm⟩
  exact all events [] begin rfl rfl ran start

theorem every_fails
    (ran : run step s events = some last) (fails : ¬ Every step ok s events) :
    ∃ past event rest middle next, events = past ++ event::rest ∧ run step s past = some middle ∧
      step middle event = some next ∧ run step next rest = some last ∧ ¬ ok middle event := by
  induction events generalizing s with
  | nil => exact absurd trivial fails
  | cons event rest ih =>
    obtain ⟨next,stepped,tail⟩ := run_cons.mp ran
    by_cases meets : ok s event
    · have later : ¬ Every step ok next rest := by
        intro every
        apply fails
        refine ⟨meets,?_⟩
        intro other moved
        rw [stepped] at moved
        cases moved
        exact every
      obtain ⟨past,breaking,remaining,middle,reached,split,ranPast,moved,ranRest,broken⟩ := ih tail later
      exact ⟨event::past,breaking,remaining,middle,reached,by rw [split]; rfl,
        run_cons.mpr ⟨next,stepped,ranPast⟩,moved,ranRest,broken⟩
    · exact ⟨[],event,rest,s,next,rfl,rfl,stepped,tail,meets⟩

theorem every_weakens (invariant : State → Prop)
    (preserved : ∀ s event next, invariant s → strong s event → step s event = some next → invariant next)
    (weaker : ∀ s event, invariant s → strong s event → weak s event)
    (start : invariant s) (meets : Every step strong s events) : Every step weak s events := by
  induction events generalizing s with
  | nil => exact trivial
  | cons event rest ih =>
    refine ⟨weaker s event start meets.1,?_⟩
    intro next stepped
    exact ih (preserved s event next start meets.1 stepped) (meets.2 next stepped)

theorem every_all {ok : Event → Prop}
    (all : ∀ event ∈ events, ok event) : Every step (fun _ event => ok event) s events := by
  induction events generalizing s with
  | nil => exact trivial
  | cons event rest ih =>
    have tail : ∀ later ∈ rest, ok later := fun later member => all later (List.mem_cons_of_mem _ member)
    exact ⟨all event (List.mem_cons_self ..),fun next _ => ih tail⟩

theorem every_front
    (whole : Every step ok s (first ++ second)) : Every step ok s first := by
  induction first generalizing s with
  | nil => exact trivial
  | cons event rest ih => exact ⟨whole.1,fun next stepped => ih (whole.2 next stepped)⟩

theorem every_back
    (whole : Every step ok s (first ++ second)) (ran : run step s first = some middle) : Every step ok middle second := by
  induction first generalizing s with
  | nil =>
    cases ran
    exact whole
  | cons event rest ih =>
    obtain ⟨next,stepped,tail⟩ := run_cons.mp ran
    exact ih (whole.2 next stepped) tail

theorem every_snoc
    (ran : run step s events = some last) (before : Every step ok s events) (now : ok last event) : Every step ok s (events ++ [event]) := by
  induction events generalizing s with
  | nil =>
    cases ran
    exact ⟨now,fun _ _ => trivial⟩
  | cons first rest ih =>
    obtain ⟨next,stepped,tail⟩ := run_cons.mp ran
    refine ⟨before.1,?_⟩
    intro other moved
    rw [stepped] at moved
    cases moved
    exact ih tail (before.2 next stepped)

-- A system whose events are read as those of another.
theorem run_map {Other : Type} {step : State → Event → Option State} {read : Other → Event} {s : State} {events : List Other} :
    run (fun s event => step s (read event)) s events = run step s (events.map read) := by
  induction events generalizing s with
  | nil => rfl
  | cons event rest ih => simp only [run,List.map_cons,ih]

theorem every_map {Other : Type} {step : State → Event → Option State} {ok : State → Event → Prop} {read : Other → Event} {s : State} {events : List Other} :
    Every (fun s event => step s (read event)) (fun s event => ok s (read event)) s events ↔ Every step ok s (events.map read) := by
  induction events generalizing s with
  | nil => exact Iff.rfl
  | cons event rest ih => simp only [Every,List.map_cons,ih]

end RemoteFileExplorer.Runs
