import RemoteFileExplorer.Runs
import Mathlib.Logic.Function.Basic

namespace RemoteFileExplorer.KeystoreGate
open Runs

-- How far the blocking thread of a call is: it waits for the gate, it has the
-- gate, it has seen that its caller still waits, its closure runs, it is over.
inductive Stage where
  | queued
  | turn
  | cleared
  | running
  | over
  deriving DecidableEq,Repr

inductive Reply where
  | answered
  | timedOut
  deriving DecidableEq,Repr

structure Call where
  stage : Stage
  abandoned : Bool
  reply : Option Reply
  deriving DecidableEq,Repr

-- Calls are numbered in the order they are made; `begun` lists the closures in
-- the order they begin.
structure State where
  calls : Nat → Call
  made : Nat
  gate : Option Nat
  begun : List Nat

def State.start : State := ⟨fun _ => ⟨.queued,false,none⟩,0,none,[]⟩

inductive Event where
  | run
  | take (i : Nat)
  | check (i : Nat)
  | begin (i : Nat)
  | finish (i : Nat)
  | abandon (i : Nat)
  | tell (i : Nat)
  | answer (i : Nat)
  deriving DecidableEq,Repr

def State.set (s : State) (i : Nat) (call : Call) : State := {s with calls := Function.update s.calls i call}

@[simp] theorem set_calls (s : State) (i : Nat) (call : Call) : (s.set i call).calls = Function.update s.calls i call := rfl

def step (s : State) : Event → Option State
  | .run => some {s with made := s.made + 1}
  -- Whichever waiting thread the mutex lets in.
  | .take i => if i < s.made ∧ (s.calls i).stage = .queued ∧ s.gate = none then some {s.set i {s.calls i with stage := .turn} with gate := some i} else none
  | .check i =>
    if (s.calls i).stage = .turn then
      if (s.calls i).abandoned then some {s.set i {s.calls i with stage := .over} with gate := none}
      else some (s.set i {s.calls i with stage := .cleared})
    else none
  | .begin i => if (s.calls i).stage = .cleared then some {s.set i {s.calls i with stage := .running} with begun := s.begun ++ [i]} else none
  | .finish i => if (s.calls i).stage = .running then some {s.set i {s.calls i with stage := .over} with gate := none} else none
  -- The time is up before the thread is over.
  | .abandon i => if i < s.made ∧ (s.calls i).stage ≠ .over ∧ (s.calls i).reply = none then some (s.set i {s.calls i with abandoned := true}) else none
  | .tell i => if (s.calls i).abandoned ∧ (s.calls i).reply = none then some (s.set i {s.calls i with reply := some .timedOut}) else none
  | .answer i =>
    if (s.calls i).stage = .over ∧ (s.calls i).abandoned = false ∧ (s.calls i).reply = none then some (s.set i {s.calls i with reply := some .answered}) else none

-- The gate goes to the earliest call that still has a caller, and no caller is
-- told of a time-out between the look at its flag and the start of its closure.
def Orderly (s : State) : Event → Prop
  | .take i => ∀ j < i, (s.calls j).stage = .queued → (s.calls j).abandoned = true
  | .tell i => (s.calls i).stage ≠ .cleared
  | _ => True

instance (s : State) : (event : Event) → Decidable (Orderly s event)
  | .take i => inferInstanceAs (Decidable (∀ j < i, (s.calls j).stage = .queued → (s.calls j).abandoned = true))
  | .tell i => inferInstanceAs (Decidable ((s.calls i).stage ≠ .cleared))
  | .run | .check _ | .begin _ | .finish _ | .abandon _ | .answer _ => .isTrue trivial

def Call.Open (call : Call) : Prop := call.stage = .cleared ∨ ((call.stage = .queued ∨ call.stage = .turn) ∧ call.abandoned = false)

def Call.Inside (call : Call) : Prop := call.stage = .turn ∨ call.stage = .cleared ∨ call.stage = .running

structure Kept (s : State) : Prop where
  held : ∀ i, (s.calls i).Inside → s.gate = some i
  told : ∀ i, (s.calls i).reply = some .timedOut → (s.calls i).abandoned = true ∧ (s.calls i).stage ≠ .cleared
  turns : ∀ i, (s.calls i).stage = .turn ∨ (s.calls i).stage = .cleared → ∀ j < i, ¬ (s.calls j).Open
  ordered : s.begun.Pairwise (· < ·)
  ahead : ∀ i ∈ s.begun, ∀ j, (s.calls j).Open → i < j

structure Quiet (s next : State) (i : Nat) (call : Call) : Prop where
  calls : next.calls = Function.update s.calls i call
  begun : next.begun = s.begun
  shut : call.Open → (s.calls i).Open

theorem Quiet.opens (quiet : Quiet s next i call) (open_ : (next.calls j).Open) : (s.calls j).Open := by
  rw [quiet.calls] at open_
  by_cases same : j = i
  · subst same
    rw [Function.update_self] at open_
    exact quiet.shut open_
  · rwa [Function.update_of_ne same] at open_

theorem Kept.quiet (kept : Kept s) (quiet : Quiet s next i call) (held : ∀ j, (next.calls j).Inside → next.gate = some j)
    (told : call.reply = some .timedOut → call.abandoned = true ∧ call.stage ≠ .cleared)
    (turns : call.stage = .turn ∨ call.stage = .cleared → ∀ j < i, ¬ (s.calls j).Open) : Kept next := by
  refine ⟨held,?_,?_,quiet.begun ▸ kept.ordered,?_⟩
  · intro j heard
    rw [quiet.calls] at heard ⊢
    by_cases same : j = i
    · subst same
      rw [Function.update_self] at heard ⊢
      exact told heard
    · rw [Function.update_of_ne same] at heard ⊢
      exact kept.told j heard
  · intro j inside k before open_
    refine absurd (quiet.opens open_) ?_
    rw [quiet.calls] at inside
    by_cases same : j = i
    · subst same
      rw [Function.update_self] at inside
      exact turns inside k before
    · rw [Function.update_of_ne same] at inside
      exact kept.turns j inside k before
  · intro j begun k open_
    rw [quiet.begun] at begun
    exact kept.ahead j begun k (quiet.opens open_)

theorem start_kept : Kept State.start := by
  refine ⟨?_,?_,?_,.nil,?_⟩
  · rintro i (impossible | impossible | impossible) <;> cases impossible
  · intro i impossible
    cases impossible
  · rintro i (impossible | impossible) <;> cases impossible
  · intro i impossible
    cases impossible

section Steps
variable {s next : State}

theorem held_set (kept : Kept s) (call : Call) (same : call.Inside → (s.calls i).Inside) :
    ∀ j, ((s.set i call).calls j).Inside → (s.set i call).gate = some j := by
  intro j inside
  by_cases here : j = i
  · subst here
    rw [set_calls,Function.update_self] at inside
    exact kept.held j (same inside)
  · rw [set_calls,Function.update_of_ne here] at inside
    exact kept.held j inside

theorem held_leaves (kept : Kept s) (inside : (s.calls i).Inside) (call : Call) (out : ¬ call.Inside) (gate : Option Nat) :
    ∀ j, ((s.set i call).calls j).Inside → gate = some j := by
  intro j other
  exfalso
  by_cases here : j = i
  · subst here
    rw [set_calls,Function.update_self] at other
    exact out other
  · rw [set_calls,Function.update_of_ne here] at other
    exact here (Option.some.inj ((kept.held j other).symm.trans (kept.held i inside)))

theorem step_kept (kept : Kept s) (orderly : Orderly s event) (moved : step s event = some next) : Kept next := by
  cases event with
  | run =>
    cases moved
    exact ⟨kept.held,kept.told,kept.turns,kept.ordered,kept.ahead⟩
  | take i =>
    obtain ⟨⟨_,queued,free⟩,⟨⟩⟩ := Option.ite_none_right_eq_some.mp moved
    refine kept.quiet ⟨rfl,rfl,?_⟩ ?_ ?_ ?_
    · rintro (impossible | ⟨_,waits⟩)
      · cases impossible
      · exact .inr ⟨.inl queued,waits⟩
    · intro j inside
      by_cases here : j = i
      · rw [here]
      · rw [set_calls,Function.update_of_ne here] at inside
        rw [kept.held j inside] at free
        cases free
    · intro heard
      exact ⟨(kept.told i heard).1,nofun⟩
    · rintro _ j before (cleared | ⟨waits | turn,alone⟩)
      · exact absurd (free.symm.trans (kept.held j (.inr (.inl cleared)))) (by simp)
      · exact absurd (orderly j before waits) (by rw [alone]; decide)
      · exact absurd (free.symm.trans (kept.held j (.inl turn))) (by simp)
  | check i =>
    simp only [step] at moved
    split at moved
    case isFalse => cases moved
    rename_i turn
    split at moved
    · cases moved
      refine kept.quiet ⟨rfl,rfl,?_⟩ (held_leaves kept (.inl turn) _ ?_ none) ?_ ?_
      · rintro (impossible | ⟨impossible | impossible,_⟩) <;> cases impossible
      · rintro (impossible | impossible | impossible) <;> cases impossible
      · intro heard
        exact ⟨(kept.told i heard).1,nofun⟩
      · rintro (impossible | impossible) <;> cases impossible
    · rename_i waits
      cases moved
      refine kept.quiet ⟨rfl,rfl,?_⟩ (held_set kept _ fun _ => .inl turn) ?_ ?_
      · exact fun _ => .inr ⟨.inr turn,by simpa using waits⟩
      · intro heard
        exact absurd (kept.told i heard).1 waits
      · exact fun _ => kept.turns i (.inl turn)
  | begin i =>
    obtain ⟨cleared,⟨⟩⟩ := Option.ite_none_right_eq_some.mp moved
    have now : (s.calls i).Open := .inl cleared
    have opens {j : Nat} (open_ : (Function.update s.calls i {s.calls i with stage := .running} j).Open) : j ≠ i ∧ (s.calls j).Open := by
      by_cases here : j = i
      · subst here
        rw [Function.update_self] at open_
        rcases open_ with impossible | ⟨impossible | impossible,_⟩ <;> cases impossible
      · rw [Function.update_of_ne here] at open_
        exact ⟨here,open_⟩
    have quiet : Kept (s.set i {s.calls i with stage := .running}) := by
      refine kept.quiet ⟨rfl,rfl,fun _ => now⟩ (held_set kept _ fun _ => .inr (.inl cleared)) ?_ ?_
      · intro heard
        exact absurd cleared (kept.told i heard).2
      · rintro (impossible | impossible) <;> cases impossible
    refine ⟨quiet.held,quiet.told,quiet.turns,?_,?_⟩
    · refine List.pairwise_append.mpr ⟨kept.ordered,List.pairwise_singleton _ _,?_⟩
      intro j begun k one
      rw [List.mem_singleton.mp one]
      exact kept.ahead j begun i now
    · intro j begun k open_
      obtain ⟨other,before⟩ := opens open_
      rcases List.mem_append.mp begun with old | one
      · exact kept.ahead j old k before
      · rw [List.mem_singleton.mp one]
        have late : ¬ k < i := fun early => kept.turns i (.inr cleared) k early before
        omega
  | finish i =>
    obtain ⟨running,⟨⟩⟩ := Option.ite_none_right_eq_some.mp moved
    refine kept.quiet ⟨rfl,rfl,?_⟩ (held_leaves kept (.inr (.inr running)) _ ?_ none) ?_ ?_
    · rintro (impossible | ⟨impossible | impossible,_⟩) <;> cases impossible
    · rintro (impossible | impossible | impossible) <;> cases impossible
    · intro heard
      exact ⟨(kept.told i heard).1,nofun⟩
    · rintro (impossible | impossible) <;> cases impossible
  | abandon i =>
    obtain ⟨⟨_,_,waits⟩,⟨⟩⟩ := Option.ite_none_right_eq_some.mp moved
    refine kept.quiet ⟨rfl,rfl,?_⟩ (held_set kept _ id) ?_ (kept.turns i)
    · rintro (cleared | ⟨_,impossible⟩)
      · exact .inl cleared
      · cases impossible
    · intro heard
      exact absurd (waits.symm.trans heard) (by simp)
  | tell i =>
    obtain ⟨⟨gone,_⟩,⟨⟩⟩ := Option.ite_none_right_eq_some.mp moved
    exact kept.quiet ⟨rfl,rfl,id⟩ (held_set kept _ id) (fun _ => ⟨gone,orderly⟩) (kept.turns i)
  | answer i =>
    obtain ⟨_,⟨⟩⟩ := Option.ite_none_right_eq_some.mp moved
    exact kept.quiet ⟨rfl,rfl,id⟩ (held_set kept _ id) nofun (kept.turns i)

end Steps

def Dropped (i : Nat) (s : State) : Prop := (s.calls i).reply = some .timedOut ∧ i ∉ s.begun

theorem step_dropped (kept : Kept s) (moved : step s event = some next) (dropped : Dropped i s) : Dropped i next := by
  obtain ⟨heard,unbegun⟩ := dropped
  have still {j : Nat} {call : Call} (same : call.reply = (s.calls j).reply ∨ (s.calls j).reply = none) :
      (Function.update s.calls j call i).reply = some .timedOut := by
    by_cases here : i = j
    · subst here
      rw [Function.update_self]
      rcases same with same | none_
      · rw [same,heard]
      · rw [heard] at none_
        cases none_
    · rw [Function.update_of_ne here,heard]
  cases event with
  | run =>
    cases moved
    exact ⟨heard,unbegun⟩
  | check j =>
    simp only [step] at moved
    split at moved
    · split at moved <;> cases moved <;> exact ⟨still (.inl rfl),unbegun⟩
    · cases moved
  | begin j =>
    obtain ⟨cleared,⟨⟩⟩ := Option.ite_none_right_eq_some.mp moved
    refine ⟨still (.inl rfl),?_⟩
    rw [List.mem_append,List.mem_singleton]
    rintro (old | rfl)
    · exact unbegun old
    · exact (kept.told i heard).2 cleared
  | take j | finish j | abandon j =>
    obtain ⟨_,⟨⟩⟩ := Option.ite_none_right_eq_some.mp moved
    exact ⟨still (.inl rfl),unbegun⟩
  | tell j =>
    obtain ⟨⟨_,none_⟩,⟨⟩⟩ := Option.ite_none_right_eq_some.mp moved
    exact ⟨still (.inr none_),unbegun⟩
  | answer j =>
    obtain ⟨⟨_,_,none_⟩,⟨⟩⟩ := Option.ite_none_right_eq_some.mp moved
    exact ⟨still (.inr none_),unbegun⟩

-- One closure at a time, in the order of the calls, and none whose caller had
-- already been told that it timed out.
def Serial (middle last : State) : Prop :=
  (∀ i j, (last.calls i).stage = .running → (last.calls j).stage = .running → i = j) ∧
    last.begun.Pairwise (· < ·) ∧ ∀ i, Dropped i middle → i ∉ last.begun

theorem orderly_serial (meets : Every step Orderly State.start (first ++ second))
    (ran : run step State.start first = some middle) (later : run step middle second = some last) : Serial middle last := by
  have preserved : ∀ s event next, Kept s → Orderly s event → step s event = some next → Kept next :=
    fun _ _ _ kept orderly moved => step_kept kept orderly moved
  have early := run_preserves_when Kept preserved start_kept (every_front meets) ran
  have tail := every_back meets ran
  have final := run_preserves_when Kept preserved early tail later
  refine ⟨?_,final.ordered,?_⟩
  · intro i j one two
    exact Option.some.inj ((final.held i (.inr (.inr one))).symm.trans (final.held j (.inr (.inr two))))
  · intro i dropped
    refine (run_preserves_when (fun s => Kept s ∧ Dropped i s) ?_ ⟨early,dropped⟩ tail later).2.2
    exact fun _ _ _ now orderly moved => ⟨step_kept now.1 orderly moved,step_dropped now.1 moved now.2⟩

theorem orderly_serial_two : ∃ middle last,
    run step State.start ([.run,.run,.abandon 0,.tell 0] ++ [.take 1,.check 1,.begin 1]) = some last ∧ Dropped 0 middle ∧ Serial middle last := by
  have meets : Every step Orderly State.start ([.run,.run,.abandon 0,.tell 0] ++ [.take 1,.check 1,.begin 1]) := by decide
  refine ⟨_,_,rfl,?_,orderly_serial meets rfl rfl⟩
  exact ⟨rfl,List.not_mem_nil⟩

-- The mutex lets the second call in first, and the second of these runs starts
-- a closure whose caller gave up after the look at its flag.
theorem calls_disordered : ∃ last, run step State.start [.run,.run,.take 1,.check 1,.begin 1,.finish 1,.take 0,.check 0,.begin 0] = some last ∧
    last.begun = [1,0] ∧ ∃ middle after, run step State.start [.run,.take 0,.check 0,.abandon 0,.tell 0] = some middle ∧
      run step middle [.begin 0] = some after ∧ Dropped 0 middle ∧ ¬ Serial middle after := by
  refine ⟨_,rfl,rfl,_,_,rfl,rfl,⟨rfl,List.not_mem_nil⟩,?_⟩
  rintro ⟨_,_,silent⟩
  exact silent 0 ⟨rfl,List.not_mem_nil⟩ (List.mem_singleton_self 0)

end RemoteFileExplorer.KeystoreGate
