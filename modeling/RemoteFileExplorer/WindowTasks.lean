import RemoteFileExplorer.Runs

namespace RemoteFileExplorer.WindowTasks

inductive TaskState where
  | queued
  | running
  | paused
  | waiting
  | conflict
  | done
  | failed
  | cancelled
  deriving DecidableEq, Repr

-- What became of a call of transfer_upload_tree or transfer_download_tree.
inductive Start where
  | outstanding
  | failed
  | returned (ids : List Nat)
  deriving DecidableEq, Repr

-- A task of the window. `shown` says that it is in the list of tasks, `starts`
-- are the start calls made for it and `cancels` the ids that transfer_cancel was
-- called for.
structure Task where
  host : String
  state : TaskState
  rids : List Nat
  starting : Bool
  held : Bool
  shown : Bool
  starts : List Start
  cancels : List Nat
  deriving DecidableEq, Repr

inductive Event where
  | enqueue (host : String)
  | pause (i : Nat)
  | pauseAll
  | resumeTask (i : Nat)
  | resumeAll
  | retry (i : Nat)
  | retryFailed
  | resolve (i : Nat)
  | suspendHost (host : String)
  | resumeHost (host : String)
  | cancel (i : Nat)
  | dismiss (i : Nat)
  | clearDone
  | polled (i : Nat) (state : TaskState) (released : Bool)
  | skipped (i : Nat)
  | answer (i call : Nat) (result : Option (List Nat))
  deriving DecidableEq, Repr

def startTask (t : Task) : Task := {t with starting := true,starts := t.starts ++ [.outstanding]}

def retryRust (t : Task) : Task := {t with held := false,state := .queued}

def retry (t : Task) : Task :=
  if t.state = .failed ∨ t.state = .paused then
    if t.rids = [] then startTask {t with state := .queued} else retryRust t
  else t

def pause (t : Task) : Task :=
  if (t.state = .running ∨ t.state = .queued) ∧ t.rids ≠ [] then {t with state := .paused} else t

def pauseAll (t : Task) : Task :=
  if t.state = .running ∨ t.state = .queued then
    if t.rids = [] then {t with held := true,state := .paused} else pause t
  else t

def suspend (t : Task) : Task :=
  if t.state = .running ∨ t.state = .queued then {t with held := true,state := .waiting} else
  if t.state = .conflict then {t with held := true} else t

def resume (t : Task) : Task :=
  if t.state = .waiting ∨ t.held = true then
    if t.rids ≠ [] then retryRust t else
    if t.state = .waiting then
      if t.starting then {t with held := false,state := .queued} else startTask {t with held := false,state := .queued}
    else {t with held := false}
  else t

def cancel (t : Task) : Task := {t with state := .cancelled,shown := false,cancels := t.cancels ++ t.rids}

def active (state : TaskState) : Bool := state != .done && state != .failed && state != .cancelled

-- What an event does to a task of the list. The window offers Resume where a
-- task is paused. A poll of the core reaches the tasks it knows ids of: it gives
-- them any state and may release one that it retries.
def act (event : Event) (i : Nat) (t : Task) : Task :=
  match event with
  | .pause j => if j = i then pause t else t
  | .pauseAll => pauseAll t
  | .resumeTask j => if j = i ∧ t.state = .paused then retryRust t else t
  | .resumeAll => if t.state = .paused then retry t else t
  | .retry j => if j = i then retry t else t
  | .retryFailed => if t.state = .failed then retry t else t
  | .resolve j => if j = i ∧ t.state = .conflict then {t with state := .queued} else t
  | .suspendHost host => if host = t.host then suspend t else t
  | .resumeHost host => if host = t.host then resume t else t
  | .cancel j => if j = i then cancel t else t
  | .dismiss j => if j = i ∧ active t.state = false then {t with shown := false} else t
  | .clearDone => if t.state = .done ∨ t.state = .cancelled then {t with shown := false} else t
  | .polled j state released =>
    if j = i ∧ t.rids ≠ [] ∧ t.state ≠ .cancelled then {t with state := state,held := t.held && !released} else t
  | .skipped j => if j = i ∧ t.rids ≠ [] ∧ t.state ≠ .cancelled then {t with shown := false} else t
  | _ => t

def acted (event : Event) (i : Nat) (t : Task) : Task := if t.shown then act event i t else t

def answered (t : Task) (call : Nat) : Option (List Nat) → Task
  | none =>
    let t := {t with starting := false,starts := t.starts.set call .failed}
    if t.held = true ∧ t.state = .waiting then t else {t with state := .failed}
  | some ids =>
    let t := {t with starting := false,starts := t.starts.set call (.returned ids)}
    if t.state = .cancelled then {t with cancels := t.cancels ++ ids} else
    if ids = [] then {t with state := .done} else {t with rids := ids}

def newTask (host : String) : Task := startTask ⟨host,.queued,[],false,false,true,[],[]⟩

def step (tasks : List Task) : Event → Option (List Task)
  | .enqueue host => some (tasks ++ [newTask host])
  | .answer i call result =>
    match tasks[i]? with
    | none => none
    | some t => if t.starts[call]? = some .outstanding then some (tasks.set i (answered t call result)) else none
  | event => some (tasks.mapIdx (acted event))

def live (t : Task) : Start → Bool
  | .outstanding => true
  | .failed => false
  | .returned ids => ids.isEmpty || ids.any (fun id => !t.cancels.contains id)

def Ready (tasks : List Task) (event : Event) : Prop :=
  ∀ i t, tasks[i]? = some t → (acted event i t).starts ≠ t.starts → t.starting = false

def settingUp (t : Task) : Prop :=
  t.state = .queued ∨ t.state = .waiting ∨ t.state = .paused ∨ (t.state = .cancelled ∧ t.shown = false)

structure Steady (t : Task) : Prop where
  single : (t.starts.filter (· != .failed)).length ≤ 1
  outstanding : .outstanding ∈ t.starts → t.starting = true
  fresh : t.starting = true → t.rids = [] ∧ settingUp t
  settled : ∀ ids, .returned ids ∈ t.starts → t.rids ≠ [] ∨ t.state = .done ∨ t.shown = false
  known : ∀ ids, .returned ids ∈ t.starts → t.shown = true → ∀ id ∈ ids, id ∈ t.rids

section Tasks
variable {t new : Task}

theorem steady_moved (steady : Steady t) (starts : new.starts = t.starts) (rids : new.rids = t.rids) (starting : new.starting = t.starting)
    (shown : new.shown = true → t.shown = true) (setUp : t.rids = [] → settingUp t → settingUp new)
    (done : t.rids = [] → t.state = .done → new.state = .done ∨ new.shown = false) : Steady new := by
  refine ⟨?_,?_,?_,?_,?_⟩
  · rw [starts]
    exact steady.single
  · rw [starts,starting]
    exact steady.outstanding
  · rw [starting,rids]
    intro begun
    obtain ⟨none,was⟩ := steady.fresh begun
    exact ⟨none,setUp none was⟩
  · rw [starts,rids]
    intro ids returned
    by_cases none : t.rids = []
    · rcases steady.settled ids returned with some | finished | hidden
      · exact .inl some
      · exact .inr (done none finished)
      · refine .inr (.inr ?_)
        cases visible : new.shown with
        | false => rfl
        | true =>
          rw [shown visible] at hidden
          cases hidden
    · exact .inl none
  · rw [starts,rids]
    intro ids returned visible
    exact steady.known ids returned (shown visible)

theorem all_failed (steady : Steady t) (idle : t.starting = false) (none : t.rids = []) (open_ : t.state ≠ .done) (shown : t.shown = true) :
    ∀ start ∈ t.starts, start = .failed := by
  intro start member
  cases start with
  | failed => rfl
  | outstanding =>
    have begun := steady.outstanding member
    rw [idle] at begun
    cases begun
  | returned ids =>
    rcases steady.settled ids member with some | finished | hidden
    · exact absurd none some
    · exact absurd finished open_
    · rw [shown] at hidden
      cases hidden

theorem started_steady (failed : ∀ start ∈ t.starts, start = .failed) (none : t.rids = []) (queued : t.state = .queued) : Steady (startTask t) := by
  have others : ∀ start ∈ (startTask t).starts, start = .failed ∨ start = .outstanding := by
    intro start member
    rcases List.mem_append.mp member with old | new
    · exact .inl (failed start old)
    · exact .inr (List.mem_singleton.mp new)
  refine ⟨?_,fun _ => rfl,fun _ => ⟨none,.inl queued⟩,?_,?_⟩
  · have dropped : t.starts.filter (· != .failed) = [] := List.filter_eq_nil_iff.mpr (by
      intro start member
      rw [failed start member]
      decide)
    rw [startTask,List.filter_append,dropped]
    decide
  all_goals
    intro ids returned
    rcases others _ returned with impossible | impossible
    · cases impossible
    · cases impossible

section
variable (steady : Steady t)
include steady

theorem retry_steady (shown : t.shown = true) (ready : (retry t).starts ≠ t.starts → t.starting = false) : Steady (retry t) := by
  unfold retry at ready ⊢
  split
  · rename_i stopped
    rw [if_pos stopped] at ready
    split
    · rename_i none
      rw [if_pos none] at ready
      have idle := ready (by simp [startTask])
      have open_ : t.state ≠ .done := by rcases stopped with same | same <;> simp [same]
      have failed := all_failed steady idle none open_ shown
      exact started_steady failed none rfl
    · rename_i some
      exact steady_moved steady rfl rfl rfl id (fun none _ => absurd none some) (fun none _ => absurd none some)
  · exact steady

theorem resume_steady (shown : t.shown = true) : Steady (resume t) := by
  unfold resume
  split
  · split
    · rename_i some
      exact steady_moved steady rfl rfl rfl id (fun none _ => absurd none some) (fun none _ => absurd none some)
    · rename_i none
      split
      · rename_i waits
        split
        · refine steady_moved steady rfl rfl rfl id (fun _ _ => .inl rfl) ?_
          intro _ finished
          rw [waits] at finished
          cases finished
        · rename_i idle
          have open_ : t.state ≠ .done := by rw [waits]; decide
          have failed := all_failed steady (Bool.eq_false_iff.mpr idle) (not_not.mp none) open_ shown
          exact started_steady failed (not_not.mp none) rfl
      · exact steady_moved steady rfl rfl rfl id (fun _ was => was) (fun _ finished => .inl finished)
  · exact steady

theorem pause_steady : Steady (pause t) := by
  unfold pause
  split
  · rename_i going
    exact steady_moved steady rfl rfl rfl id (fun none _ => absurd none going.2) (fun none _ => absurd none going.2)
  · exact steady

theorem pauseAll_steady : Steady (pauseAll t) := by
  unfold pauseAll
  split
  · rename_i going
    split
    · refine steady_moved steady rfl rfl rfl id (fun _ _ => .inr (.inr (.inl rfl))) ?_
      intro _ finished
      rw [finished] at going
      rcases going with same | same <;> cases same
    · exact pause_steady steady
  · exact steady

theorem suspend_steady : Steady (suspend t) := by
  unfold suspend
  split
  · rename_i going
    refine steady_moved steady rfl rfl rfl id (fun _ _ => .inr (.inl rfl)) ?_
    intro _ finished
    rw [finished] at going
    rcases going with same | same <;> cases same
  · split
    · exact steady_moved steady rfl rfl rfl id (fun _ was => was) (fun _ finished => .inl finished)
    · exact steady

theorem hidden_steady (idle : active t.state = false ∨ t.rids ≠ []) : Steady {t with shown := false} := by
  refine steady_moved steady rfl rfl rfl nofun ?_ (fun _ finished => .inl finished)
  intro none was
  rcases idle with atEnd | some
  · rcases was with same | same | same | ⟨same,_⟩
    · rw [same] at atEnd; cases atEnd
    · rw [same] at atEnd; cases atEnd
    · rw [same] at atEnd; cases atEnd
    · exact .inr (.inr (.inr ⟨same,rfl⟩))
  · exact absurd none some

theorem act_steady (shown : t.shown = true) (ready : (act event i t).starts ≠ t.starts → t.starting = false) :
    Steady (act event i t) := by
  cases event with
  | enqueue host | answer j call result => exact steady
  | pause j =>
    dsimp only [act]
    split
    · exact pause_steady steady
    · exact steady
  | pauseAll => exact pauseAll_steady steady
  | resumeTask j | resolve j =>
    dsimp only [act]
    split
    · rename_i mine
      refine steady_moved steady rfl rfl rfl id (fun _ _ => .inl rfl) ?_
      intro _ finished
      rw [mine.2] at finished
      cases finished
    · exact steady
  | resumeAll =>
    dsimp only [act] at ready ⊢
    split
    · rename_i paused
      rw [if_pos paused] at ready
      exact retry_steady steady shown ready
    · exact steady
  | retry j =>
    dsimp only [act] at ready ⊢
    split
    · rename_i mine
      rw [if_pos mine] at ready
      exact retry_steady steady shown ready
    · exact steady
  | retryFailed =>
    dsimp only [act] at ready ⊢
    split
    · rename_i failed
      rw [if_pos failed] at ready
      exact retry_steady steady shown ready
    · exact steady
  | suspendHost host =>
    dsimp only [act]
    split
    · exact suspend_steady steady
    · exact steady
  | resumeHost host =>
    dsimp only [act]
    split
    · exact resume_steady steady shown
    · exact steady
  | cancel j =>
    dsimp only [act]
    split
    · exact steady_moved steady rfl rfl rfl nofun (fun _ _ => .inr (.inr (.inr ⟨rfl,rfl⟩))) (fun _ _ => .inr rfl)
    · exact steady
  | dismiss j =>
    dsimp only [act]
    split
    · rename_i mine
      exact hidden_steady steady (.inl mine.2)
    · exact steady
  | clearDone =>
    dsimp only [act]
    split
    · rename_i atEnd
      refine hidden_steady steady (.inl ?_)
      rcases atEnd with same | same
      · rw [same]; rfl
      · rw [same]; rfl
    · exact steady
  | polled j state released =>
    dsimp only [act]
    split
    · rename_i mine
      exact steady_moved steady rfl rfl rfl id (fun none _ => absurd none mine.2.1) (fun none _ => absurd none mine.2.1)
    · exact steady
  | skipped j =>
    dsimp only [act]
    split
    · rename_i mine
      exact hidden_steady steady (.inr mine.2.1)
    · exact steady

end

theorem answered_split (steady : Steady t) (pending : t.starts[call]? = some .outstanding) (outcome : Start) :
    ∃ front back, t.starts.set call outcome = front ++ outcome::back ∧ (∀ start ∈ front, start = .failed) ∧ ∀ start ∈ back, start = .failed := by
  obtain ⟨inside,found⟩ := List.getElem?_eq_some_iff.mp pending
  have split : t.starts = t.starts.take call ++ .outstanding::t.starts.drop (call + 1) := by
    rw [← found,List.getElem_cons_drop,List.take_append_drop]
  have bound := steady.single
  rw [split,List.filter_append,List.filter_cons_of_pos (by decide),List.length_append,List.length_cons] at bound
  have front : (t.starts.take call).filter (· != .failed) = [] := List.length_eq_zero_iff.mp (by omega)
  have back : (t.starts.drop (call + 1)).filter (· != .failed) = [] := List.length_eq_zero_iff.mp (by omega)
  refine ⟨t.starts.take call,t.starts.drop (call + 1),?_,?_,?_⟩
  · rw [List.set_eq_take_append_cons_drop,if_pos inside]
  · intro start member
    simpa using List.filter_eq_nil_iff.mp front start member
  · intro start member
    simpa using List.filter_eq_nil_iff.mp back start member

theorem answered_starts (steady : Steady t) (pending : t.starts[call]? = some .outstanding) (outcome : Start) :
    ∀ start ∈ t.starts.set call outcome, start = outcome ∨ start = .failed := by
  obtain ⟨front,back,split,before,after⟩ := answered_split steady pending outcome
  intro start member
  rw [split] at member
  rcases List.mem_append.mp member with early | late
  · exact .inr (before start early)
  · rcases List.mem_cons.mp late with same | later
    · exact .inl same
    · exact .inr (after start later)

theorem answered_single (steady : Steady t) (pending : t.starts[call]? = some .outstanding) (outcome : Start) :
    ((t.starts.set call outcome).filter (· != .failed)).length ≤ 1 := by
  obtain ⟨front,back,split,before,after⟩ := answered_split steady pending outcome
  have none : ∀ list : List Start, (∀ start ∈ list, start = .failed) → list.filter (· != .failed) = [] := by
    intro list failed
    apply List.filter_eq_nil_iff.mpr
    intro start member
    rw [failed start member]
    decide
  rw [split,List.filter_append,none front before,List.nil_append,List.filter_cons,none back after]
  split
  · exact Nat.le_refl _
  · exact Nat.zero_le _

theorem failed_steady (steady : Steady t) (pending : t.starts[call]? = some .outstanding) (state : TaskState) :
    Steady {t with state := state,starting := false,starts := t.starts.set call .failed} := by
  have atEnd : ∀ start ∈ t.starts.set call .failed, start = .failed := by
    intro start member
    rcases answered_starts steady pending .failed start member with same | same
    · exact same
    · exact same
  refine ⟨answered_single steady pending .failed,?_,nofun,?_,?_⟩
  · intro member
    cases atEnd _ member
  all_goals
    intro ids member
    cases atEnd _ member

theorem returned_steady (steady : Steady t) (pending : t.starts[call]? = some .outstanding) (starts : new.starts = t.starts.set call (.returned ids))
    (starting : new.starting = false) (settled : new.rids ≠ [] ∨ new.state = .done ∨ new.shown = false)
    (known : new.shown = true → ∀ id ∈ ids, id ∈ new.rids) : Steady new := by
  have mine : ∀ start ∈ new.starts, start = .returned ids ∨ start = .failed := by
    rw [starts]
    exact answered_starts steady pending (.returned ids)
  refine ⟨?_,?_,?_,?_,?_⟩
  · rw [starts]
    exact answered_single steady pending (.returned ids)
  · intro member
    rcases mine _ member with impossible | impossible
    · cases impossible
    · cases impossible
  · rw [starting]
    nofun
  · intro others member
    exact settled
  · intro others member visible
    rcases mine _ member with same | impossible
    · cases same
      exact known visible
    · cases impossible

theorem answered_steady (steady : Steady t) (pending : t.starts[call]? = some .outstanding) (result : Option (List Nat)) :
    Steady (answered t call result) := by
  obtain ⟨none,was⟩ := steady.fresh (steady.outstanding (List.mem_of_getElem? pending))
  cases result with
  | none =>
    dsimp only [answered]
    split
    · exact failed_steady steady pending t.state
    · exact failed_steady steady pending .failed
  | some ids =>
    dsimp only [answered]
    split
    · rename_i cancelled
      have hidden : t.shown = false := by
        rcases was with same | same | same | ⟨_,hidden⟩
        · rw [same] at cancelled; cases cancelled
        · rw [same] at cancelled; cases cancelled
        · rw [same] at cancelled; cases cancelled
        · exact hidden
      refine returned_steady steady pending rfl rfl (.inr (.inr hidden)) ?_
      intro visible
      rw [hidden] at visible
      cases visible
    · split
      · rename_i empty
        refine returned_steady steady pending rfl rfl (.inr (.inl rfl)) ?_
        rw [empty]
        nofun
      · rename_i some
        exact returned_steady steady pending rfl rfl (.inl some) (fun _ _ member => member)

theorem newTask_steady (host : String) : Steady (newTask host) := started_steady nofun rfl rfl

-- A cancelled task: what was started for it is cancelled, and what is still
-- being set up will be.
structure Gone (t : Task) : Prop where
  hidden : t.shown = false
  cancelled : t.starting = true → t.state = .cancelled
  told : ∀ ids, .returned ids ∈ t.starts → ∀ id ∈ ids, id ∈ t.cancels

theorem cancel_gone (steady : Steady t) (shown : t.shown = true) : Gone (cancel t) := by
  refine ⟨rfl,fun _ => rfl,?_⟩
  intro ids returned id member
  exact List.mem_append_right _ (steady.known ids returned shown id member)

theorem answered_gone (steady : Steady t) (gone : Gone t) (pending : t.starts[call]? = some .outstanding) (result : Option (List Nat)) :
    Gone (answered t call result) := by
  have cancelled := gone.cancelled (steady.outstanding (List.mem_of_getElem? pending))
  cases result with
  | none =>
    dsimp only [answered]
    rw [if_neg (by simp [cancelled])]
    refine ⟨gone.hidden,nofun,?_⟩
    intro ids returned
    rcases answered_starts steady pending .failed _ returned with impossible | impossible
    · cases impossible
    · cases impossible
  | some ids =>
    dsimp only [answered]
    rw [if_pos cancelled]
    refine ⟨gone.hidden,nofun,?_⟩
    intro others returned id member
    rcases answered_starts steady pending (.returned ids) _ returned with same | impossible
    · cases same
      exact List.mem_append_right _ member
    · cases impossible

end Tasks

section Steps
variable {tasks next last : List Task} {event : Event} {events : List Event} {i : Nat} {t new : Task}

section
variable (stepped : step tasks event = some next)
include stepped

theorem step_cases : (∃ host, event = .enqueue host ∧ next = tasks ++ [newTask host]) ∨
    (∃ i call result t, event = .answer i call result ∧ tasks[i]? = some t ∧ t.starts[call]? = some .outstanding ∧
      next = tasks.set i (answered t call result)) ∨ next = tasks.mapIdx (acted event) := by
  have mapped : step tasks event = some (tasks.mapIdx (acted event)) → next = tasks.mapIdx (acted event) :=
    fun same => Option.some.inj (stepped.symm.trans same)
  cases event with
  | enqueue host =>
    cases stepped
    exact .inl ⟨host,rfl,rfl⟩
  | answer i call result =>
    simp only [step] at stepped
    split at stepped
    · cases stepped
    · rename_i t stood
      split at stepped
      · rename_i pending
        cases stepped
        exact .inr (.inl ⟨i,call,result,t,rfl,stood,pending,rfl⟩)
      · cases stepped
  | pause i | pauseAll | resumeTask i | resumeAll | retry i | retryFailed | resolve i | suspendHost host | resumeHost host | cancel i | dismiss i
  | clearDone | polled i state released | skipped i => exact .inr (.inr (mapped rfl))

theorem step_known (stood : tasks[i]? = some t) :
    next[i]? = some (acted event i t) ∨
    ∃ call result, t.starts[call]? = some .outstanding ∧ next[i]? = some (answered t call result) := by
  have inside : i < tasks.length := (List.getElem?_eq_some_iff.mp stood).1
  rcases step_cases stepped with ⟨host,rfl,rfl⟩ | ⟨j,call,result,other,rfl,found,pending,rfl⟩ | rfl
  · left
    rw [List.getElem?_append_left inside,stood]
    simp [acted,act]
  · by_cases same : j = i
    · subst same
      cases found.symm.trans stood
      exact .inr ⟨call,result,pending,List.getElem?_set_self inside⟩
    · left
      rw [List.getElem?_set_ne same,stood]
      simp [acted,act]
  · left
    rw [List.getElem?_mapIdx,stood]
    rfl

theorem step_new (found : next[i]? = some new) :
    (∃ t, tasks[i]? = some t) ∨ ∃ host, new = newTask host := by
  cases stood : tasks[i]? with
  | some t => exact .inl ⟨t,rfl⟩
  | none =>
    right
    have outside : tasks.length ≤ i := List.getElem?_eq_none_iff.mp stood
    rcases step_cases stepped with ⟨host,rfl,rfl⟩ | ⟨j,call,result,other,rfl,_,_,rfl⟩ | rfl
    · rw [List.getElem?_append_right outside] at found
      exact ⟨host,List.mem_singleton.mp (List.mem_of_getElem? found)⟩
    · rw [List.getElem?_eq_none (by rwa [List.length_set])] at found
      cases found
    · rw [List.getElem?_mapIdx,stood] at found
      cases found

end

def AllSteady (tasks : List Task) : Prop := ∀ (i : Nat) t, tasks[i]? = some t → Steady t

theorem acted_steady (steady : Steady t) (ready : (acted event i t).starts ≠ t.starts → t.starting = false) : Steady (acted event i t) := by
  unfold acted at ready ⊢
  split
  · rename_i shown
    rw [if_pos shown] at ready
    exact act_steady steady shown ready
  · exact steady

theorem step_steady (steady : AllSteady tasks) (ready : Ready tasks event) (stepped : step tasks event = some next) : AllSteady next := by
  intro i new found
  rcases step_new stepped found with ⟨t,stood⟩ | ⟨host,rfl⟩
  · rcases step_known stepped stood with same | ⟨call,result,pending,same⟩
    · cases found.symm.trans same
      exact acted_steady (steady i t stood) (ready i t stood)
    · cases found.symm.trans same
      exact answered_steady (steady i t stood) pending result
  · exact newTask_steady host

theorem run_steady (ready : Runs.Every step Ready [] events) (ran : Runs.run step [] events = some last) : AllSteady last := by
  refine Runs.run_preserves_when AllSteady (fun _ _ _ steady meets stepped => step_steady steady meets stepped) ?_ ready ran
  intro i t found
  cases found

theorem step_gone (steady : AllSteady tasks) (stood : tasks[i]? = some t) (gone : Gone t) (stepped : step tasks event = some next) :
    ∃ later, next[i]? = some later ∧ Gone later := by
  rcases step_known stepped stood with same | ⟨call,result,pending,same⟩
  · have untouched : acted event i t = t := by rw [acted,gone.hidden]; rfl
    rw [untouched] at same
    exact ⟨t,same,gone⟩
  · exact ⟨_,same,answered_gone (steady i t stood) gone pending result⟩

theorem run_gone (steady : AllSteady tasks) (stood : tasks[i]? = some t) (gone : Gone t) (ready : Runs.Every step Ready tasks events)
    (ran : Runs.run step tasks events = some last) : ∃ later, last[i]? = some later ∧ Gone later := by
  induction events generalizing tasks t with
  | nil =>
    cases ran
    exact ⟨t,stood,gone⟩
  | cons event rest ih =>
    obtain ⟨next,stepped,tail⟩ := Runs.run_cons.mp ran
    obtain ⟨later,found,still⟩ := step_gone steady stood gone stepped
    exact ih (step_steady steady ready.1 stepped) found still (ready.2 next stepped) tail

theorem live_bound (steady : Steady t) : (t.starts.filter (live t)).length ≤ 1 := by
  have fewer : List.Sublist (t.starts.filter (live t)) (t.starts.filter (· != .failed)) := by
    apply List.monotone_filter_right
    intro start lives
    cases start with
    | failed => cases lives
    | outstanding => rfl
    | returned ids => rfl
  exact Nat.le_trans fewer.length_le steady.single

theorem tasks_start_once (ready : Runs.Every step Ready [] events) (ran : Runs.run step [] events = some last) :
    (∀ t ∈ last, (t.starts.filter (live t)).length ≤ 1) ∧
    ∀ past i rest before t, events = past ++ .cancel i::rest → Runs.run step [] past = some before → before[i]? = some t → t.shown = true →
      ∃ later, last[i]? = some later ∧ ∀ ids, .returned ids ∈ later.starts → ∀ id ∈ ids, id ∈ later.cancels := by
  constructor
  · intro t member
    obtain ⟨i,found⟩ := List.getElem?_of_mem member
    exact live_bound (run_steady ready ran i t found)
  · rintro past i rest before t rfl ranPast stood shown
    have steady := run_steady (Runs.every_front ready) ranPast
    obtain ⟨middle,again,tail⟩ := Runs.run_append.mp ran
    cases ranPast.symm.trans again
    obtain ⟨next,stepped,later⟩ := Runs.run_cons.mp tail
    have readyHere : Runs.Every step Ready before (.cancel i::rest) := Runs.every_back ready ranPast
    have found : next[i]? = some (cancel t) := by
      cases stepped
      rw [List.getElem?_mapIdx,stood]
      simp [acted,shown,act]
    have gone := cancel_gone (steady i t stood) shown
    obtain ⟨after,there,atEnd⟩ := run_gone (step_steady steady readyHere.1 stepped) found gone (readyHere.2 next stepped) later
    exact ⟨after,there,atEnd.told⟩

def cancelledSetUp : List Event := [.enqueue "pc",.suspendHost "pc",.resumeHost "pc",.cancel 0,.answer 0 0 (some [7,8])]

theorem cancelled_set_up_cancels_all : ∃ last later, Runs.run step [] cancelledSetUp = some last ∧ last[0]? = some later ∧
    later.starts = [.returned [7,8]] ∧ ∀ id ∈ [7,8], id ∈ later.cancels := by
  have ready : Runs.Every step Ready [] cancelledSetUp := by
    simp [cancelledSetUp,Runs.Every,Ready,step,newTask,startTask,acted,act,suspend,resume,cancel,List.getElem?_singleton]
  obtain ⟨later,found,told⟩ := (tasks_start_once ready rfl).2 [.enqueue "pc",.suspendHost "pc",.resumeHost "pc"] 0 [.answer 0 0 (some [7,8])] _ _ rfl rfl rfl rfl
  have starts : later.starts = [.returned [7,8]] := by
    cases found
    rfl
  refine ⟨_,later,rfl,found,starts,told [7,8] ?_⟩
  rw [starts]
  exact List.mem_singleton.mpr rfl

def startedTwice : List Event := [.enqueue "pc",.pauseAll,.resumeAll]

theorem paused_set_up_starts_twice :
    (∃ last t, Runs.run step [] startedTwice = some last ∧ t ∈ last ∧ (t.starts.filter (live t)).length = 2) ∧
    ∃ last later, Runs.run step [] (startedTwice ++ [.answer 0 0 (some [1]),.answer 0 1 (some [2]),.cancel 0]) = some last ∧ last[0]? = some later ∧
      .outstanding ∉ later.starts ∧ .returned [1] ∈ later.starts ∧ 1 ∉ later.cancels := by
  refine ⟨⟨_,_,rfl,List.mem_singleton.mpr rfl,rfl⟩,⟨_,_,rfl,rfl,?_,?_,?_⟩⟩
  · decide
  · decide
  · decide

end Steps

end RemoteFileExplorer.WindowTasks
