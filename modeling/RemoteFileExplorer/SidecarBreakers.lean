import RemoteFileExplorer.Runs

namespace RemoteFileExplorer.SidecarBreakers
open Runs

def second : Nat := 1000000000
def minBackoff : Nat := second
def maxBackoff : Nat := 60 * second
def healthyAfter : Nat := 30 * second
def breakerFailures : Nat := 5

inductive Cause where
  | startFailed
  | crashed
  deriving DecidableEq, Repr

-- Where the supervisor's loop is: before its check of the stop channel, in
-- Start, in watch (with a client that may have died already), in sleep, or
-- returned.
inductive Phase where
  | top
  | starting
  | watching (dead : Bool)
  | waiting (cause : Cause) (wait : Nat)
  | returned
  deriving DecidableEq, Repr

structure Stats where
  starts : Nat
  startFailures : Nat
  crashes : Nat
  breakerOpens : Nat
  breakerOpen : Bool
  deriving DecidableEq, Repr

structure Supervisor where
  phase : Phase
  stopping : Bool
  backoff : Nat
  failures : Nat
  stats : Stats
  deriving DecidableEq, Repr

def newSupervisor : Supervisor := ⟨.top,false,minBackoff,0,⟨0,0,0,0,false⟩⟩

inductive Unavailable where
  | plain
  | breakerOpen
  deriving DecidableEq, Repr

def unavailable (s : Supervisor) : Unavailable := if s.stats.breakerOpen then .breakerOpen else .plain

def client (s : Supervisor) : Except Unavailable Unit :=
  if s.phase = .watching false then .ok () else .error (unavailable s)

def doubled (backoff : Nat) : Nat := min (backoff * 2) maxBackoff

def failed (s : Supervisor) : Supervisor :=
  let failures := s.failures + 1
  let opens := failures = breakerFailures
  { s with
    phase := .waiting .startFailed (if breakerFailures ≤ failures then maxBackoff else s.backoff)
    failures := failures
    stats := { s.stats with
      startFailures := s.stats.startFailures + 1
      breakerOpens := if opens then s.stats.breakerOpens + 1 else s.stats.breakerOpens
      breakerOpen := if opens then true else s.stats.breakerOpen } }

def started (s : Supervisor) : Supervisor :=
  { s with phase := .watching false,stats := { s.stats with starts := s.stats.starts + 1,breakerOpen := false } }

-- `since` is the time since just before the start.
def crashed (s : Supervisor) (since : Nat) : Supervisor :=
  let backoff := if healthyAfter ≤ since then minBackoff else s.backoff
  { s with
    phase := .waiting .crashed backoff
    backoff := backoff
    failures := if healthyAfter ≤ since then 0 else s.failures
    stats := { s.stats with crashes := s.stats.crashes + 1 } }

inductive Event where
  | loops
  | startFails
  | starts
  | dies
  | ends (since : Nat)
  | wakes
  | stop
  | returns
  deriving DecidableEq, Repr

-- A stop is noticed at the top of the loop, after watch and in sleep, where the
-- timer may still come first.
def step (s : Supervisor) : Event → Option Supervisor
  | .loops => if s.phase = .top then some { s with phase := if s.stopping then .returned else .starting } else none
  | .startFails => if s.phase = .starting then some (failed s) else none
  | .starts => if s.phase = .starting then some (started s) else none
  | .dies => if s.phase = .watching false then some { s with phase := .watching true } else none
  | .ends since =>
    match s.phase with
    | .watching _ => if s.stopping then none else some (crashed s since)
    | _ => none
  | .wakes =>
    match s.phase with
    | .waiting _ _ => some { s with phase := .top,backoff := doubled s.backoff }
    | _ => none
  | .stop => some { s with stopping := true }
  | .returns =>
    match s.phase with
    | .watching _ | .waiting _ _ => if s.stopping then some { s with phase := .returned } else none
    | _ => none

def tally (n : Nat) : Event → Nat
  | .startFails => n + 1
  | .ends since => if healthyAfter ≤ since then 0 else n
  | _ => n

def failuresSince (past : List Event) : Nat := past.foldl tally 0

structure Truthful (past : List Event) (s : Supervisor) : Prop where
  opened : ∀ wait, s.phase = .waiting .startFailed wait → breakerFailures ≤ failuresSince past →
    s.stats.breakerOpen = true ∧ client s = .error .breakerOpen
  closed : (∃ dead, s.phase = .watching dead) ∨ failuresSince past < breakerFailures →
    s.stats.breakerOpen = false ∧ client s ≠ .error .breakerOpen
  bounded : ∀ cause wait, s.phase = .waiting cause wait → minBackoff ≤ wait ∧ wait ≤ maxBackoff

def Guarded (s : Supervisor) : Event → Prop
  | .startFails => s.failures < breakerFailures ∨ s.stats.breakerOpen = true
  | _ => True

instance (s : Supervisor) (event : Event) : Decidable (Guarded s event) :=
  match event with
  | .startFails => inferInstanceAs (Decidable (_ ∨ _))
  | .loops | .starts | .dies | .ends _ | .wakes | .stop | .returns => .isTrue trivial

structure Kept (s : Supervisor) : Prop where
  low : minBackoff ≤ s.backoff
  high : s.backoff ≤ maxBackoff
  bounded : ∀ cause wait, s.phase = .waiting cause wait → minBackoff ≤ wait ∧ wait ≤ maxBackoff
  reached : s.stats.breakerOpen = true → breakerFailures ≤ s.failures
  running : ∀ dead, s.phase = .watching dead → s.stats.breakerOpen = false

def Opened (s : Supervisor) : Prop :=
  ∀ wait, s.phase = .waiting .startFailed wait → breakerFailures ≤ s.failures → s.stats.breakerOpen = true

variable {s next last : Supervisor} {event : Event} {past events : List Event}

theorem doubled_bounds (low : minBackoff ≤ backoff) : minBackoff ≤ doubled backoff ∧ doubled backoff ≤ maxBackoff := by
  have order : minBackoff ≤ maxBackoff := by decide
  unfold doubled
  omega

inductive Moves (s : Supervisor) : Event → Supervisor → Prop where
  | loops : Moves s .loops { s with phase := if s.stopping then .returned else .starting }
  | startFails : Moves s .startFails (failed s)
  | starts : Moves s .starts (started s)
  | dies (was : s.phase = .watching false) : Moves s .dies { s with phase := .watching true }
  | ends (since : Nat) (was : s.phase = .watching dead) : Moves s (.ends since) (crashed s since)
  | wakes : Moves s .wakes { s with phase := .top,backoff := doubled s.backoff }
  | stop : Moves s .stop { s with stopping := true }
  | returns : Moves s .returns { s with phase := .returned }

theorem step_moves (stepped : step s event = some next) : Moves s event next := by
  cases event with
  | loops =>
    obtain ⟨_,same⟩ := Option.ite_none_right_eq_some.mp stepped
    cases same
    exact .loops
  | startFails =>
    obtain ⟨_,same⟩ := Option.ite_none_right_eq_some.mp stepped
    cases same
    exact .startFails
  | starts =>
    obtain ⟨_,same⟩ := Option.ite_none_right_eq_some.mp stepped
    cases same
    exact .starts
  | dies =>
    obtain ⟨was,same⟩ := Option.ite_none_right_eq_some.mp stepped
    cases same
    exact .dies was
  | ends since =>
    simp only [step] at stepped
    split at stepped
    · rename_i dead was
      obtain ⟨_,same⟩ := Option.ite_none_left_eq_some.mp stepped
      cases same
      exact .ends since was
    · cases stepped
  | wakes =>
    simp only [step] at stepped
    split at stepped
    · cases stepped
      exact .wakes
    · cases stepped
  | stop =>
    cases stepped
    exact .stop
  | returns =>
    simp only [step] at stepped
    split at stepped
    · obtain ⟨_,same⟩ := Option.ite_none_right_eq_some.mp stepped
      cases same
      exact .returns
    · obtain ⟨_,same⟩ := Option.ite_none_right_eq_some.mp stepped
      cases same
      exact .returns
    · cases stepped

theorem moves_failures (moved : Moves s event next) : next.failures = tally s.failures event := by
  cases moved <;> rfl

theorem run_failures (ran : run step newSupervisor events = some last) : last.failures = failuresSince events := by
  refine run_history (fun past s => s.failures = failuresSince past) ?_ rfl ran
  intro past s event next _ same stepped _
  rw [moves_failures (step_moves stepped),same,failuresSince,failuresSince,List.foldl_append]
  rfl

theorem failed_kept (kept : Kept s) : Kept (failed s) := by
  refine ⟨kept.low,kept.high,?_,?_,?_⟩
  · intro cause wait same
    cases same
    split
    · exact ⟨by decide,Nat.le_refl _⟩
    · exact ⟨kept.low,kept.high⟩
  · intro opened
    change breakerFailures ≤ s.failures + 1
    simp only [failed] at opened
    split at opened
    · omega
    · have before := kept.reached opened
      omega
  · intro dead same
    cases same

theorem crashed_kept (kept : Kept s) (was : s.phase = .watching dead) (since : Nat) : Kept (crashed s since) := by
  have closed := kept.running dead was
  have bounds : minBackoff ≤ (crashed s since).backoff ∧ (crashed s since).backoff ≤ maxBackoff := by
    simp only [crashed]
    split
    · exact ⟨Nat.le_refl _,by decide⟩
    · exact ⟨kept.low,kept.high⟩
  refine ⟨bounds.1,bounds.2,?_,?_,?_⟩
  · intro cause wait same
    cases same
    exact bounds
  · intro opened
    rw [show (crashed s since).stats.breakerOpen = s.stats.breakerOpen from rfl,closed] at opened
    cases opened
  · intro _ same
    cases same

theorem moves_kept (kept : Kept s) (moved : Moves s event next) : Kept next := by
  cases moved with
  | loops =>
    refine ⟨kept.low,kept.high,?_,kept.reached,?_⟩
    · intro cause wait same
      split at same <;> cases same
    · intro dead same
      split at same <;> cases same
  | startFails => exact failed_kept kept
  | starts => exact ⟨kept.low,kept.high,nofun,nofun,fun _ _ => rfl⟩
  | dies was => exact ⟨kept.low,kept.high,nofun,kept.reached,fun _ _ => kept.running false was⟩
  | ends since was => exact crashed_kept kept was since
  | wakes =>
    have bounds := doubled_bounds kept.low
    exact ⟨bounds.1,bounds.2,nofun,kept.reached,nofun⟩
  | stop => exact ⟨kept.low,kept.high,kept.bounded,kept.reached,kept.running⟩
  | returns => exact ⟨kept.low,kept.high,nofun,kept.reached,nofun⟩

theorem new_kept : Kept newSupervisor := by
  refine ⟨Nat.le_refl _,by decide,nofun,nofun,nofun⟩

theorem run_kept (ran : run step newSupervisor events = some last) : Kept last :=
  run_preserves (fun _ _ _ kept stepped => moves_kept kept (step_moves stepped)) new_kept ran

theorem failed_opened (guarded : Guarded s .startFails) : Opened (failed s) := by
  intro wait _ reached
  change breakerFailures ≤ s.failures + 1 at reached
  simp only [failed]
  split
  · rfl
  · rcases guarded with few | opened
    · omega
    · exact opened

theorem moves_opened (opened : Opened s) (guarded : Guarded s event) (moved : Moves s event next) : Opened next := by
  cases moved with
  | loops =>
    intro wait same
    split at same <;> cases same
  | startFails => exact failed_opened guarded
  | starts | dies _ | ends _ _ | wakes | returns => exact nofun
  | stop => exact opened

theorem new_opened : Opened newSupervisor := by
  intro wait same
  cases same

theorem run_opened (guarded : Every step Guarded newSupervisor events) (ran : run step newSupervisor events = some last) : Opened last :=
  run_preserves_when Opened (fun _ _ _ opened guarded stepped => moves_opened opened guarded (step_moves stepped)) new_opened guarded ran

theorem client_closed (closed : s.stats.breakerOpen = false) : client s ≠ .error .breakerOpen := by
  unfold client unavailable
  rw [closed]
  split <;> simp

theorem kept_truthful (kept : Kept s) (same : s.failures = failuresSince past) (opened : Opened s) : Truthful past s := by
  refine ⟨?_,?_,kept.bounded⟩
  · intro wait waits reached
    have reports := opened wait waits (same ▸ reached)
    refine ⟨reports,?_⟩
    rw [client,waits,if_neg (by simp),unavailable,reports,if_pos rfl]
  · intro quiet
    have closed : s.stats.breakerOpen = false := by
      rcases quiet with ⟨dead,watches⟩ | few
      · exact kept.running dead watches
      · cases reports : s.stats.breakerOpen with
        | false => rfl
        | true =>
          have reached := kept.reached reports
          omega
    exact ⟨closed,client_closed closed⟩

theorem breaker_truthful (ran : run step newSupervisor events = some last) :
    (∀ past s, past <+: events → run step newSupervisor past = some s → Truthful past s) ↔ Every step Guarded newSupervisor events := by
  constructor
  · intro truthful
    by_contra fails
    obtain ⟨past,event,rest,middle,next,split,before,stepped,_,broken⟩ := every_fails ran fails
    cases event with
    | startFails =>
      obtain ⟨reached,closed⟩ := not_or.mp broken
      have reported : run step newSupervisor (past ++ [.startFails]) = some next :=
        run_append.mpr ⟨middle,before,run_cons.mpr ⟨next,stepped,rfl⟩⟩
      have longer : past ++ [.startFails] <+: events := ⟨rest,by rw [split,List.append_assoc]; rfl⟩
      have count := run_failures reported
      cases step_moves stepped
      have opened := (truthful _ _ longer reported).opened _ rfl (by rw [← count]; simp only [failed]; omega)
      have differs : middle.failures + 1 ≠ breakerFailures := by omega
      simp only [failed,if_neg differs] at opened
      exact closed opened.1
    | loops | starts | dies | ends | wakes | stop | returns => exact broken trivial
  · intro guarded past s ⟨rest,split⟩ reached
    have front : Every step Guarded newSupervisor past := every_front (split ▸ guarded)
    exact kept_truthful (run_kept reached) (run_failures reached) (run_opened front reached)

def mixed : List Event :=
  [.loops,.startFails,.wakes,.loops,.startFails,.wakes,.loops,.startFails,.wakes,.loops,.startFails,.wakes,.loops,.startFails,.wakes,
    .loops,.starts,.dies,.ends second,.wakes,.loops,.startFails]

theorem early_crash_closes_breaker : ¬ ∀ events s, run step newSupervisor events = some s → Truthful events s := by
  intro always
  obtain ⟨s,reached,closed⟩ : ∃ s, run step newSupervisor mixed = some s ∧ (s.stats.breakerOpen = false ∧ s.phase = .waiting .startFailed maxBackoff) := by
    refine ⟨_,rfl,?_⟩
    decide
  have opened := (always mixed s reached).opened maxBackoff closed.2 (by decide)
  rw [closed.1] at opened
  cases opened.1

def settled : List Event := [.loops,.startFails,.wakes,.loops,.starts,.ends healthyAfter]

theorem breaker_truthful_healthy : ∃ last, run step newSupervisor settled = some last ∧ Truthful settled last := by
  obtain ⟨last,reached⟩ : ∃ last, run step newSupervisor settled = some last := ⟨_,rfl⟩
  exact ⟨last,reached,(breaker_truthful reached).mpr (by decide) settled last (List.prefix_refl _) reached⟩

end RemoteFileExplorer.SidecarBreakers
