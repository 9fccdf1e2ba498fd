import Mathlib.Logic.Function.Basic
import RemoteFileExplorer.Runs

namespace RemoteFileExplorer.LiveIndex

def maxDirtyDirs : Nat := 4096

-- The set of dirty directories; the debounce times only delay a batch, so
-- `first` is kept as whether anything waits.
structure Pending where
  paths : List String
  waiting : Bool
  overflow : Bool
  deriving DecidableEq, Repr

def Pending.empty : Pending := ⟨[],false,false⟩

structure Batch where
  dirs : List String
  overflow : Bool
  deriving DecidableEq, Repr

def Pending.mark (p : Pending) (dir : String) : Pending := ⟨p.paths.insert dir,true,p.overflow⟩
def Pending.markOverflow (p : Pending) : Pending := {p with waiting := true,overflow := true}
def Pending.restore (p : Pending) (batch : Batch) : Pending := ⟨p.paths ∪ batch.dirs,true,p.overflow || batch.overflow⟩
def Pending.batch (p : Pending) : Batch := ⟨p.paths,p.overflow⟩

-- What the published index is known to have read: everything from the time its
-- walk began, and each applied directory from the time that apply began.
structure Published where
  walkBegan : Nat
  applied : List (String × Nat)
  deriving DecidableEq, Repr

structure Watch where
  complete : Bool
  failed : Bool
  deriving DecidableEq, Repr

-- One call of `build`. From `cleared` on it remembers whether clearing the
-- events dropped any mark; the code keeps no such note.
inductive BuildStage where
  | idle
  | called
  | locked
  | claimed
  | cleared (dropped : Bool)
  | walking (began : Nat) (dropped : Bool)
  | completed (began : Nat) (dropped : Bool)
  | watched (began : Nat) (dropped : Bool)
  | published (began : Nat)
  | synced (began : Nat)
  | released
  | finished
  deriving DecidableEq, Repr

inductive ApplierStage where
  | unstarted
  | waiting
  | taken (batch : Batch)
  | locked (batch : Batch)
  | applying (batch : Batch) (began : Nat)
  | applied (batch : Batch) (began : Nat)
  | failed
  | rebuilding
  | stopped
  deriving DecidableEq, Repr

inductive Holder where
  | builder (k : Nat)
  | applier
  deriving DecidableEq, Repr

-- Build call 0 is the applier's own; every other number is one request.
structure State where
  now : Nat
  pending : Pending
  building : Bool
  resync : Bool
  mutate : Option Holder
  watch : Option Watch
  lastBuild : Bool
  index : Option Published
  builds : Nat → BuildStage
  applier : ApplierStage
  marked : List (String × Nat)

def initial : State := ⟨0,.empty,false,false,none,none,false,none,fun _ => .idle,.unstarted,[]⟩

def liveOk (s : State) : Bool :=
  !(s.building || s.resync || s.pending.overflow) && s.watch.any (fun w => w.complete && !w.failed)

inductive Event where
  | mark (dir : String)
  | markOverflow
  | registered
  | watchFailed
  | call (k : Nat)
  | lock (k : Nat)
  | claim (k : Nat)
  | clear (k : Nat)
  | walk (k : Nat)
  | cancel (k : Nat)
  | panicBuild (k : Nat)
  | complete (k : Nat)
  | watch (k : Nat) (installed : Bool)
  | publish (k : Nat)
  | sync (k : Nat)
  | release (k : Nat)
  | spawn (k : Nat)
  | take
  | applierLock
  | restore
  | applyBegins
  | applySome
  | applyNone
  | panicApply
  | publishApplied
  | rebuild
  | rebuilt
  | stop
  deriving DecidableEq, Repr

def atBuild (s : State) (k : Nat) (stage : BuildStage) : State := {s with builds := Function.update s.builds k stage}

-- Each lock, atomic and buffer access is one step, and time counts steps.
def stepBuild (s : State) (k : Nat) : Event → Option State
  | .call _ => if k ≠ 0 ∧ s.builds k = .idle then some (atBuild s k .called) else none
  | .lock _ => if s.builds k = .called ∧ s.mutate = none then some {atBuild s k .locked with mutate := some (.builder k)} else none
  -- building.swap(true): BUSY when it was already set.
  | .claim _ =>
    if s.builds k = .locked then
      if s.building then some {atBuild s k .finished with mutate := none} else some {atBuild s k .claimed with building := true}
    else none
  | .clear _ =>
    if s.builds k = .claimed then
      some {atBuild s k (.cleared (decide (s.pending.paths ≠ []))) with pending := .empty,mutate := none}
    else none
  | .walk _ =>
    match s.builds k with
    | .cleared dropped => some (atBuild s k (.walking s.now dropped))
    | _ => none
  -- The applier's own build passes a flag that nobody sets.
  | .cancel _ =>
    match s.builds k with
    | .walking _ _ => if k ≠ 0 then some {atBuild s k .finished with building := false} else none
    | _ => none
  | .panicBuild _ =>
    match s.builds k with
    | .walking _ _ =>
      some {atBuild s k .finished with building := false,applier := if k = 0 then .stopped else s.applier}
    | _ => none
  | .complete _ =>
    match s.builds k with
    | .walking began dropped => some (atBuild s k (.completed began dropped))
    | _ => none
  | .watch _ installed =>
    match s.builds k with
    | .completed began dropped =>
      some {atBuild s k (.watched began dropped) with watch := if installed then some ⟨false,false⟩ else s.watch}
    | _ => none
  | .publish _ =>
    match s.builds k with
    | .watched began _ => some {atBuild s k (.published began) with lastBuild := true,index := some ⟨began,[]⟩}
    | _ => none
  | .sync _ =>
    match s.builds k with
    | .published began => some {atBuild s k (.synced began) with resync := false}
    | _ => none
  | .release _ =>
    match s.builds k with
    | .synced _ => some {atBuild s k .released with building := false}
    | _ => none
  | .spawn _ =>
    if s.builds k = .released then
      some {atBuild s k .finished with applier := if s.applier = .unstarted then .waiting else s.applier}
    else none
  | _ => none

def stepApplier (s : State) : Event → Option State
  | .take =>
    if s.applier = .waiting ∧ s.pending.waiting then
      some {s with applier := .taken s.pending.batch,pending := .empty}
    else none
  | .applierLock =>
    match s.applier with
    | .taken batch => if s.mutate = none then some {s with applier := .locked batch,mutate := some .applier} else none
    | _ => none
  | .restore =>
    match s.applier with
    | .locked batch =>
      if s.building then some {s with applier := .waiting,mutate := none,pending := s.pending.restore batch} else none
    | _ => none
  -- With no index at all the batch is dropped.
  | .applyBegins =>
    match s.applier with
    | .locked batch =>
      if s.building then none else
      match s.index with
      | none => some {s with applier := .waiting,mutate := none}
      | some _ => some {s with applier := .applying batch s.now}
    | _ => none
  | .applySome =>
    match s.applier with
    | .applying batch began =>
      if batch.overflow ∨ maxDirtyDirs < batch.dirs.length then none else some {s with applier := .applied batch began}
    | _ => none
  | .applyNone =>
    match s.applier with
    | .applying _ _ => some {s with applier := .failed,resync := true}
    | _ => none
  -- The thread unwinds: the lock is freed and the batch is gone.
  | .panicApply =>
    match s.applier with
    | .applying _ _ => some {s with applier := .stopped,mutate := none}
    | _ => none
  | .publishApplied =>
    match s.applier with
    | .applied batch began =>
      some {s with
        applier := .waiting,mutate := none
        index := s.index.map (fun i => {i with applied := batch.dirs.map (fun dir => (dir,began)) ++ i.applied})}
    | _ => none
  | .rebuild =>
    if s.applier = .failed then
      if s.lastBuild then some {atBuild s 0 .called with applier := .rebuilding,mutate := none}
      else some {s with applier := .waiting,mutate := none}
    else none
  | .rebuilt => if s.applier = .rebuilding ∧ s.builds 0 = .finished then some {atBuild s 0 .idle with applier := .waiting} else none
  | .stop => if s.applier = .waiting then some {s with applier := .stopped} else none
  | _ => none

def stepWatcher (s : State) : Event → Option State
  | .mark dir => some {s with pending := s.pending.mark dir,marked := (dir,s.now)::s.marked}
  | .markOverflow => some {s with pending := s.pending.markOverflow}
  | .registered => some {s with watch := s.watch.map (fun w => {w with complete := true})}
  | .watchFailed => some {s with watch := s.watch.map (fun w => {w with failed := true})}
  | _ => none

def act (s : State) (event : Event) : Option State :=
  match event with
  | .mark _ | .markOverflow | .registered | .watchFailed => stepWatcher s event
  | .call k | .lock k | .claim k | .clear k | .walk k | .cancel k | .panicBuild k | .complete k | .watch k _ | .publish k
  | .sync k | .release k | .spawn k => stepBuild s k event
  | _ => stepApplier s event

def step (s : State) (event : Event) : Option State := (act s event).map (fun next => {next with now := s.now + 1})

@[grind] def BuildStage.active : BuildStage → Bool
  | .claimed | .cleared _ | .walking _ _ | .completed _ _ | .watched _ _ | .published _ | .synced _ => true
  | _ => false

@[grind] def BuildStage.holds : BuildStage → Bool
  | .locked | .claimed => true
  | _ => false

@[grind] def BuildStage.began : BuildStage → Option Nat
  | .walking began _ | .completed began _ | .watched began _ | .published began | .synced began => some began
  | _ => none

-- The build dropped marks when it cleared the buffer and has not published yet.
@[grind] def BuildStage.owes : BuildStage → Bool
  | .cleared dropped | .walking _ dropped | .completed _ dropped | .watched _ dropped => dropped
  | _ => false

@[grind] def ApplierStage.batch : ApplierStage → List String
  | .taken batch | .locked batch | .applying batch _ | .applied batch _ => batch.dirs
  | _ => []

@[grind] def ApplierStage.holds : ApplierStage → Bool
  | .locked _ | .applying _ _ | .applied _ _ | .failed => true
  | _ => false

@[grind] def ApplierStage.working : ApplierStage → Bool
  | .applying _ _ | .applied _ _ | .failed => true
  | _ => false

@[grind] def ApplierStage.began : ApplierStage → Option Nat
  | .applying _ began | .applied _ began => some began
  | _ => none

def Reflected (s : State) (dir : String) (t : Nat) : Prop :=
  ∃ index, s.index = some index ∧ (t < index.walkBegan ∨ ∃ began, (dir,began) ∈ index.applied ∧ t < began)

def Accounted (s : State) (dir : String) (t : Nat) : Prop :=
  dir ∈ s.pending.paths ∨ dir ∈ s.applier.batch ∨ Reflected s dir t

def Covers (stage : BuildStage) (t : Nat) : Prop := ∀ began, stage.began = some began → t < began

@[grind →] theorem began_active {stage : BuildStage} (walks : stage.began = some began) : stage.active = true := by
  cases stage <;> first | rfl | cases walks
@[grind →] theorem owes_active {stage : BuildStage} (owes : stage.owes = true) : stage.active = true := by
  cases stage <;> first | rfl | cases owes
@[grind →] theorem working_holds {stage : ApplierStage} (works : stage.working = true) : stage.holds = true := by
  cases stage <;> first | rfl | cases works
@[grind →] theorem began_working {stage : ApplierStage} (applies : stage.began = some began) : stage.working = true := by
  cases stage <;> first | rfl | cases applies

inductive Acted (s : State) : Event → State → Prop where
  | mark : Acted s (.mark dir) {s with pending := s.pending.mark dir,marked := (dir,s.now)::s.marked}
  | markOverflow : Acted s .markOverflow {s with pending := s.pending.markOverflow}
  | watcher (watch : Option Watch) : Acted s event {s with watch := watch}
  | call : k ≠ 0 → s.builds k = .idle → Acted s (.call k) (atBuild s k .called)
  | lock : s.builds k = .called → s.mutate = none →
      Acted s (.lock k) {atBuild s k .locked with mutate := some (.builder k)}
  | busy : s.builds k = .locked → s.building = true → Acted s (.claim k) {atBuild s k .finished with mutate := none}
  | claim : s.builds k = .locked → s.building = false → Acted s (.claim k) {atBuild s k .claimed with building := true}
  | clear : s.builds k = .claimed → Acted s (.clear k)
      {atBuild s k (.cleared (decide (s.pending.paths ≠ []))) with pending := .empty,mutate := none}
  | walk : s.builds k = .cleared dropped → Acted s (.walk k) (atBuild s k (.walking s.now dropped))
  | cancel : s.builds k = .walking began dropped → k ≠ 0 →
      Acted s (.cancel k) {atBuild s k .finished with building := false}
  | panicBuild : s.builds k = .walking began dropped → Acted s (.panicBuild k)
      {atBuild s k .finished with building := false,applier := if k = 0 then .stopped else s.applier}
  | complete : s.builds k = .walking began dropped → Acted s (.complete k) (atBuild s k (.completed began dropped))
  | watch (watch : Option Watch) : s.builds k = .completed began dropped →
      Acted s (.watch k installed) {atBuild s k (.watched began dropped) with watch := watch}
  | publish : s.builds k = .watched began dropped → Acted s (.publish k)
      {atBuild s k (.published began) with lastBuild := true,index := some ⟨began,[]⟩}
  | sync : s.builds k = .published began → Acted s (.sync k) {atBuild s k (.synced began) with resync := false}
  | release : s.builds k = .synced began → Acted s (.release k) {atBuild s k .released with building := false}
  | spawn : s.builds k = .released → Acted s (.spawn k)
      {atBuild s k .finished with applier := if s.applier = .unstarted then .waiting else s.applier}
  | take : s.applier = .waiting → Acted s .take {s with applier := .taken s.pending.batch,pending := .empty}
  | applierLock : s.applier = .taken batch → s.mutate = none →
      Acted s .applierLock {s with applier := .locked batch,mutate := some .applier}
  | restore : s.applier = .locked batch → s.building = true →
      Acted s .restore {s with applier := .waiting,mutate := none,pending := s.pending.restore batch}
  | unindexed : s.applier = .locked batch → s.index = none → Acted s .applyBegins {s with applier := .waiting,mutate := none}
  | applyBegins : s.applier = .locked batch → s.building = false →
      Acted s .applyBegins {s with applier := .applying batch s.now}
  | applySome : s.applier = .applying batch began → Acted s .applySome {s with applier := .applied batch began}
  | applyNone : s.applier = .applying batch began → Acted s .applyNone {s with applier := .failed,resync := true}
  | panicApply : s.applier = .applying batch began → Acted s .panicApply {s with applier := .stopped,mutate := none}
  | publishApplied : s.applier = .applied batch began → Acted s .publishApplied {s with
      applier := .waiting,mutate := none
      index := s.index.map (fun i => {i with applied := batch.dirs.map (fun dir => (dir,began)) ++ i.applied})}
  | rebuild : s.applier = .failed → Acted s .rebuild {atBuild s 0 .called with applier := .rebuilding,mutate := none}
  | noRebuild : s.applier = .failed → Acted s .rebuild {s with applier := .waiting,mutate := none}
  | rebuilt : s.applier = .rebuilding → s.builds 0 = .finished →
      Acted s .rebuilt {atBuild s 0 .idle with applier := .waiting}
  | stop : s.applier = .waiting → Acted s .stop {s with applier := .stopped}

theorem act_cases (acted : act s event = some next) : Acted s event next := by
  cases event with
  | mark _ => cases acted; exact .mark
  | markOverflow => cases acted; exact .markOverflow
  | registered | watchFailed => cases acted; exact .watcher _
  | call k =>
    simp only [act,stepBuild] at acted
    split at acted <;> cases acted
    rename_i free
    exact .call free.1 free.2
  | lock k =>
    simp only [act,stepBuild] at acted
    split at acted <;> cases acted
    rename_i free
    exact .lock free.1 free.2
  | claim k =>
    simp only [act,stepBuild] at acted
    split at acted
    · rename_i locked
      split at acted <;> cases acted
      · exact .busy locked ‹_›
      · exact .claim locked (eq_false_of_ne_true ‹_›)
    · cases acted
  | clear k =>
    simp only [act,stepBuild] at acted
    split at acted <;> cases acted
    exact .clear ‹_›
  | walk k =>
    simp only [act,stepBuild] at acted
    split at acted <;> cases acted
    exact .walk ‹_›
  | cancel k =>
    simp only [act,stepBuild] at acted
    split at acted
    · split at acted <;> cases acted
      exact .cancel ‹_› ‹_›
    · cases acted
  | panicBuild k =>
    simp only [act,stepBuild] at acted
    split at acted <;> cases acted
    exact .panicBuild ‹_›
  | complete k =>
    simp only [act,stepBuild] at acted
    split at acted <;> cases acted
    exact .complete ‹_›
  | watch k installed =>
    simp only [act,stepBuild] at acted
    split at acted <;> cases acted
    exact .watch _ ‹_›
  | publish k =>
    simp only [act,stepBuild] at acted
    split at acted <;> cases acted
    exact .publish ‹_›
  | sync k =>
    simp only [act,stepBuild] at acted
    split at acted <;> cases acted
    exact .sync ‹_›
  | release k =>
    simp only [act,stepBuild] at acted
    split at acted <;> cases acted
    exact .release ‹_›
  | spawn k =>
    simp only [act,stepBuild] at acted
    split at acted <;> cases acted
    exact .spawn ‹_›
  | take =>
    simp only [act,stepApplier] at acted
    split at acted <;> cases acted
    exact .take (And.left ‹_›)
  | applierLock =>
    simp only [act,stepApplier] at acted
    split at acted
    · split at acted <;> cases acted
      exact .applierLock ‹_› ‹_›
    · cases acted
  | restore =>
    simp only [act,stepApplier] at acted
    split at acted
    · split at acted <;> cases acted
      exact .restore ‹_› ‹_›
    · cases acted
  | applyBegins =>
    simp only [act,stepApplier] at acted
    split at acted
    · split at acted
      · cases acted
      · split at acted <;> cases acted
        · exact .unindexed ‹_› ‹_›
        · exact .applyBegins ‹_› (eq_false_of_ne_true ‹_›)
    · cases acted
  | applySome =>
    simp only [act,stepApplier] at acted
    split at acted
    · split at acted <;> cases acted
      exact .applySome ‹_›
    · cases acted
  | applyNone =>
    simp only [act,stepApplier] at acted
    split at acted <;> cases acted
    exact .applyNone ‹_›
  | panicApply =>
    simp only [act,stepApplier] at acted
    split at acted <;> cases acted
    exact .panicApply ‹_›
  | publishApplied =>
    simp only [act,stepApplier] at acted
    split at acted <;> cases acted
    exact .publishApplied ‹_›
  | rebuild =>
    obtain ⟨allowed,acted⟩ := Option.ite_none_right_eq_some.mp acted
    split at acted <;> cases acted
    · exact .rebuild allowed
    · exact .noRebuild allowed
  | rebuilt =>
    simp only [act,stepApplier] at acted
    split at acted <;> cases acted
    rename_i done
    exact .rebuilt done.1 done.2
  | stop =>
    simp only [act,stepApplier] at acted
    split at acted <;> cases acted
    exact .stop ‹_›

-- The mutex and the building flag, which together keep applies and builds apart.
structure Locks (s : State) : Prop where
  building : s.building = true ↔ ∃ k, (s.builds k).active = true
  single : ∀ j k, (s.builds j).active = true → (s.builds k).active = true → j = k
  lockBuilder : ∀ k, s.mutate = some (.builder k) ↔ (s.builds k).holds = true
  lockApplier : s.mutate = some .applier ↔ s.applier.holds = true
  exclusive : s.applier.working = true → s.building = false
  own : s.builds 0 ≠ .idle → s.applier = .rebuilding ∨ s.applier = .stopped

theorem initial_locks : Locks initial := by
  constructor <;> simp [initial,BuildStage.active,BuildStage.holds,ApplierStage.holds,ApplierStage.working]

theorem update_active {builds : Nat → BuildStage} :
    (Function.update builds k stage j).active = if j = k then stage.active else (builds j).active := by
  rw [Function.update_apply]
  split <;> rfl

theorem update_holds {builds : Nat → BuildStage} :
    (Function.update builds k stage j).holds = if j = k then stage.holds else (builds j).holds := by
  rw [Function.update_apply]
  split <;> rfl

theorem own_update (locks : Locks s) (started : s.builds k ≠ .idle ∨ k ≠ 0)
    (moved : Function.update s.builds k stage 0 ≠ .idle) : s.applier = .rebuilding ∨ s.applier = .stopped := by
  apply locks.own
  intro idle
  by_cases zero : 0 = k
  · subst zero
    rcases started with started | started
    · exact started idle
    · exact started rfl
  · rw [Function.update_of_ne zero] at moved
    exact moved idle

theorem locks_restage {s next : State} (locks : Locks s) (builds : next.builds = Function.update s.builds k stage)
    (active : stage.active = (s.builds k).active) (holds : stage.holds = (s.builds k).holds)
    (building : next.building = s.building) (mutate : next.mutate = s.mutate)
    (applierHolds : next.applier.holds = s.applier.holds) (working : next.applier.working = s.applier.working)
    (own : next.builds 0 ≠ .idle → next.applier = .rebuilding ∨ next.applier = .stopped) : Locks next := by
  have actives : ∀ j, (next.builds j).active = (s.builds j).active := by
    intro j
    rw [builds,update_active]
    split
    · subst j; exact active
    · rfl
  have held : ∀ j, (next.builds j).holds = (s.builds j).holds := by
    intro j
    rw [builds,update_holds]
    split
    · subst j; exact holds
    · rfl
  constructor
  · simpa only [building,actives] using locks.building
  · simpa only [actives] using locks.single
  · simpa only [mutate,held] using locks.lockBuilder
  · simpa only [mutate,applierHolds] using locks.lockApplier
  · simpa only [working,building] using locks.exclusive
  · exact own

theorem locks_mutex {s next : State} (locks : Locks s) (builds : next.builds = Function.update s.builds k stage)
    (active : stage.active = (s.builds k).active) (building : next.building = s.building) (applier : next.applier = s.applier)
    (started : s.builds k ≠ .idle)
    (mutex : s.mutate = none ∧ stage.holds = true ∧ next.mutate = some (.builder k) ∨
      (s.builds k).holds = true ∧ stage.holds = false ∧ next.mutate = none) : Locks next := by
  have actives : ∀ j, (next.builds j).active = (s.builds j).active := by
    intro j
    rw [builds,update_active]
    split
    · subst j; exact active
    · rfl
  constructor
  · simpa only [building,actives] using locks.building
  · simpa only [actives] using locks.single
  · intro j
    have before := locks.lockBuilder j
    have holder := locks.lockBuilder k
    rw [builds,update_holds]
    rcases mutex with ⟨free,taken,mutate⟩ | ⟨held,freed,mutate⟩ <;> grind
  · have before := locks.lockApplier
    have holder := locks.lockBuilder k
    rcases mutex with ⟨free,taken,mutate⟩ | ⟨held,freed,mutate⟩ <;> grind
  · simpa only [applier,building] using locks.exclusive
  · rw [builds,applier]
    exact own_update locks (.inl started)

theorem locks_ended {s next : State} (locks : Locks s) (builds : next.builds = Function.update s.builds k stage)
    (active : (s.builds k).active = true) (ended : stage.active = false) (holds : stage.holds = (s.builds k).holds)
    (building : next.building = false) (mutate : next.mutate = s.mutate) (applierHolds : next.applier.holds = s.applier.holds)
    (own : next.builds 0 ≠ .idle → next.applier = .rebuilding ∨ next.applier = .stopped) : Locks next := by
  have inactive : ∀ j, (next.builds j).active ≠ true := by
    intro j running
    rw [builds,update_active] at running
    split at running
    · rw [ended] at running
      cases running
    · exact absurd (locks.single _ _ running active) ‹_›
  have held : ∀ j, (next.builds j).holds = (s.builds j).holds := by
    intro j
    rw [builds,update_holds]
    split
    · subst j; exact holds
    · rfl
  constructor
  · rw [building]
    constructor
    · intro set
      cases set
    · rintro ⟨j,running⟩
      exact absurd running (inactive j)
  · intro j _ running
    exact absurd running (inactive j)
  · simpa only [mutate,held] using locks.lockBuilder
  · simpa only [mutate,applierHolds] using locks.lockApplier
  · exact fun _ => building
  · exact own

theorem locks_claim {s next : State} (locks : Locks s) (builds : next.builds = Function.update s.builds k stage)
    (free : s.building = false) (holder : (s.builds k).holds = true) (active : stage.active = true) (holds : stage.holds = true)
    (building : next.building = true) (mutate : next.mutate = s.mutate) (applier : next.applier = s.applier)
    (own : next.builds 0 ≠ .idle → next.applier = .rebuilding ∨ next.applier = .stopped) : Locks next := by
  have inactive : ∀ j, (s.builds j).active ≠ true := by
    intro j running
    have busy := locks.building.mpr ⟨j,running⟩
    rw [free] at busy
    cases busy
  have only : ∀ j, (next.builds j).active = true → j = k := by
    intro j running
    rw [builds,update_active] at running
    split at running
    · assumption
    · exact absurd running (inactive j)
  have held : ∀ j, (next.builds j).holds = (s.builds j).holds := by
    intro j
    rw [builds,update_holds]
    split
    · subst j; rw [holds,holder]
    · rfl
  constructor
  · rw [building,builds]
    exact ⟨fun _ => ⟨k,by rw [Function.update_self]; exact active⟩,fun _ => rfl⟩
  · intro i j first second
    rw [only i first,only j second]
  · simpa only [mutate,held] using locks.lockBuilder
  · simpa only [mutate,applier] using locks.lockApplier
  · intro works
    rw [applier] at works
    have mine := (locks.lockBuilder k).mpr holder
    have other := locks.lockApplier.mpr (working_holds works)
    rw [mine] at other
    cases other
  · exact own

theorem locks_applier (locks : Locks s) (builds : next.builds = s.builds) (building : next.building = s.building)
    (apart : s.applier ≠ .rebuilding ∧ s.applier ≠ .stopped) (works : next.applier.working = true → s.building = false)
    (mutex : next.mutate = s.mutate ∧ next.applier.holds = s.applier.holds ∨
      s.mutate = none ∧ next.applier.holds = true ∧ next.mutate = some .applier ∨
      s.applier.holds = true ∧ next.applier.holds = false ∧ next.mutate = none) : Locks next := by
  constructor
  · simpa only [building,builds] using locks.building
  · simpa only [builds] using locks.single
  · intro k
    have builder := locks.lockBuilder k
    have holder := locks.lockApplier
    rw [builds,← builder]
    rcases mutex with ⟨same,_⟩ | ⟨free,_,taken⟩ | ⟨held,_,freed⟩
    · rw [same]
    · simp [free,taken]
    · simp [holder.mpr held,freed]
  · have holder := locks.lockApplier
    rcases mutex with ⟨same,holds⟩ | ⟨_,holds,taken⟩ | ⟨_,holds,freed⟩
    · rwa [same,holds]
    · simp [holds,taken]
    · simp [holds,freed]
  · rwa [building]
  · intro moving
    rw [builds] at moving
    rcases locks.own moving with stage | stage
    · exact absurd stage apart.1
    · exact absurd stage apart.2

theorem act_locks {s next : State} (locks : Locks s) (acted : Acted s event next) : Locks next := by
  cases acted with
  | mark | markOverflow | watcher =>
    exact ⟨locks.building,locks.single,locks.lockBuilder,locks.lockApplier,locks.exclusive,locks.own⟩
  | call other idle =>
    exact locks_restage locks rfl (by rw [idle]; rfl) (by rw [idle]; rfl) rfl rfl rfl rfl (own_update locks (.inr other))
  | lock called free =>
    exact locks_mutex locks rfl (by rw [called]; rfl) rfl rfl (by simp [called]) (.inl ⟨free,rfl,rfl⟩)
  | busy locked _ =>
    exact locks_mutex locks rfl (by rw [locked]; rfl) rfl rfl (by simp [locked]) (.inr ⟨by rw [locked]; rfl,rfl,rfl⟩)
  | claim locked free =>
    exact locks_claim locks rfl free (by rw [locked]; rfl) rfl rfl rfl rfl rfl (own_update locks (.inl (by simp [locked])))
  | clear claimed =>
    exact locks_mutex locks rfl (by rw [claimed]; rfl) rfl rfl (by simp [claimed]) (.inr ⟨by rw [claimed]; rfl,rfl,rfl⟩)
  | walk stage | complete stage | watch _ stage | publish stage | sync stage =>
    exact locks_restage locks rfl (by rw [stage]; rfl) (by rw [stage]; rfl) rfl rfl rfl rfl
      (own_update locks (.inl (by simp [stage])))
  | cancel stage _ | release stage =>
    exact locks_ended locks rfl (by rw [stage]; rfl) rfl (by rw [stage]; rfl) rfl rfl rfl
      (own_update locks (.inl (by simp [stage])))
  | @panicBuild k _ _ stage =>
    have own := locks.own
    refine locks_ended locks rfl (by rw [stage]; rfl) rfl (by rw [stage]; rfl) rfl rfl ?_ ?_
    · by_cases zero : k = 0
      · subst zero
        rcases own (by simp [stage]) with rebuilding | stopped
        · rw [rebuilding]; rfl
        · rw [stopped]; rfl
      · simp only [zero,if_false]
    · intro moved
      by_cases zero : k = 0
      · exact .inr (if_pos zero)
      · simp only [zero,if_false]
        exact own_update locks (.inr zero) moved
  | @spawn k stage =>
    refine locks_restage locks rfl (by rw [stage]; rfl) (by rw [stage]; rfl) rfl rfl ?_ ?_ ?_
    · by_cases unstarted : s.applier = .unstarted
      · simp only [unstarted,if_true]; rfl
      · simp only [unstarted,if_false]
    · by_cases unstarted : s.applier = .unstarted
      · simp only [unstarted,if_true]; rfl
      · simp only [unstarted,if_false]
    · intro moved
      have own := own_update locks (.inl (by simp [stage])) moved
      have started : s.applier ≠ .unstarted := by
        rcases own with stage | stage <;> rw [stage] <;> simp
      simpa only [started,if_false] using own
  | rebuild failed =>
    obtain ⟨building,single,lockBuilder,lockApplier,exclusive,own⟩ := locks
    have idle : s.builds 0 = .idle := by
      by_contra moving
      rcases own moving with stage | stage <;> rw [failed] at stage <;> cases stage
    constructor <;> simp only [atBuild,update_active,update_holds]
    · grind
    · grind
    · grind
    · grind
    · exact fun _ => exclusive (by rw [failed]; rfl)
    · exact fun _ => .inl trivial
  | rebuilt rebuilding finished =>
    refine locks_restage locks rfl (by rw [finished]; rfl) (by rw [finished]; rfl) rfl rfl (by rw [rebuilding]; rfl)
      (by rw [rebuilding]; rfl) ?_
    intro moved
    exfalso
    apply moved
    exact Function.update_self (β := fun _ => BuildStage) 0 .idle s.builds
  | take stage | stop stage =>
    exact locks_applier locks rfl rfl (by simp [stage]) nofun (.inl ⟨rfl,by rw [stage]; rfl⟩)
  | applierLock stage free =>
    exact locks_applier locks rfl rfl (by simp [stage]) nofun (.inr (.inl ⟨free,rfl,rfl⟩))
  | restore stage _ | unindexed stage _ | panicApply stage | publishApplied stage | noRebuild stage =>
    exact locks_applier locks rfl rfl (by simp [stage]) nofun (.inr (.inr ⟨by rw [stage]; rfl,rfl,rfl⟩))
  | applyBegins stage free =>
    exact locks_applier locks rfl rfl (by simp [stage]) (fun _ => free) (.inl ⟨rfl,by rw [stage]; rfl⟩)
  | applySome stage | applyNone stage =>
    exact locks_applier locks rfl rfl (by simp [stage]) (fun _ => locks.exclusive (by rw [stage]; rfl))
      (.inl ⟨rfl,by rw [stage]; rfl⟩)

-- The index is published before anybody relies on it, and while a build that
-- has published it still runs no apply touches it.
structure Indexed (s : State) : Prop where
  started : s.applier ≠ .unstarted → s.index ≠ none
  released : ∀ k, s.builds k = .released → s.index ≠ none
  publishes : ∀ k began, s.builds k = .published began ∨ s.builds k = .synced began → s.index = some ⟨began,[]⟩

theorem initial_indexed : Indexed initial := by
  constructor <;> simp [initial]

theorem publishes_active {s : State} (wrote : s.builds k = .published began ∨ s.builds k = .synced began) :
    (s.builds k).active = true := by
  rcases wrote with stage | stage <;> rw [stage] <;> rfl

theorem act_indexed {s next : State} (locks : Locks s) (indexed : Indexed s) (acted : Acted s event next) : Indexed next := by
  obtain ⟨started,released,publishes⟩ := indexed
  cases acted with
  | mark | markOverflow | watcher | unindexed | applyBegins | applySome | applyNone | panicApply | noRebuild | stop | take
  | applierLock | restore =>
    exact ⟨by grind,released,publishes⟩
  | publishApplied applied =>
    have idle := locks.exclusive (by rw [applied]; rfl)
    have present := started (by rw [applied]; simp)
    refine ⟨fun _ => by simpa using present,fun k stage => by simpa using released k stage,fun k began wrote => ?_⟩
    have busy := locks.building.mpr ⟨k,publishes_active wrote⟩
    rw [idle] at busy
    cases busy
  | @publish k began dropped watched =>
    refine ⟨by simp,by simp,fun j other wrote => ?_⟩
    by_cases same : j = k
    · subst same
      simpa [atBuild] using wrote
    · simp only [atBuild,Function.update_apply,same,if_false] at wrote
      exact absurd (locks.single j k (publishes_active wrote) (by rw [watched]; rfl)) same
  | panicBuild walking =>
    have own := locks.own
    constructor <;> simp only [atBuild,Function.update_apply] <;> grind
  | @release k began synced =>
    have present := publishes k began (.inr synced)
    constructor <;> simp only [atBuild,Function.update_apply] <;> grind
  | call | lock | busy | claim | clear | walk | cancel | complete | watch | sync | spawn | rebuild | rebuilt =>
    constructor <;> simp only [atBuild,Function.update_apply] <;> grind

-- Where a mark can be. Besides the places the property names there are two
-- that only an unhealthy state has: a running build that dropped the mark will
-- cover it, or a resync is due that will.
structure Marks (s : State) : Prop where
  later : ∀ k began, (s.builds k).began = some began → ∀ m ∈ s.marked,
    m.2 < began ∨ m.1 ∈ s.pending.paths ∨ m.1 ∈ s.applier.batch
  remarked : ∀ began, s.applier.began = some began → ∀ m ∈ s.marked, m.2 < began ∨ m.1 ∈ s.pending.paths
  kept : ∀ m ∈ s.marked, Accounted s m.1 m.2 ∨ (∃ k, (s.builds k).owes = true ∧ Covers (s.builds k) m.2) ∨
    (s.resync = true ∧ ∀ k, Covers (s.builds k) m.2)

theorem initial_marks : Marks initial := by
  constructor <;> simp [initial]

-- A build that is given up must not have dropped marks, unless a resync is due
-- anyway; an apply must not panic.
def SafeEnd (s : State) : Event → Prop
  | .cancel k | .panicBuild k => (s.builds k).owes = true → s.resync = true
  | .panicApply => False
  | _ => True

theorem mem_mark (p : Pending) : dir ∈ (p.mark other).paths ↔ dir = other ∨ dir ∈ p.paths := by
  simp [Pending.mark]
theorem mem_restore (p : Pending) (batch : Batch) : dir ∈ (p.restore batch).paths ↔ dir ∈ p.paths ∨ dir ∈ batch.dirs := by
  simp [Pending.restore]

theorem atBuild_same (s : State) (k : Nat) (stage : BuildStage) : (atBuild s k stage).builds k = stage := by
  simp [atBuild]
theorem atBuild_other (s : State) (stage : BuildStage) (other : j ≠ k) : (atBuild s k stage).builds j = s.builds j := by
  simp [atBuild,other]

theorem covers_idle {stage : BuildStage} (idle : stage.active = false) (t : Nat) : Covers stage t := by
  intro began walks
  rw [began_active walks] at idle
  cases idle

-- The rule for a build that moves on: it starts no walk, and gives up nothing
-- it dropped unless a resync is due.
theorem atBuild_marks (locks : Locks s) (marks : Marks s) (k : Nat) (stage : BuildStage)
    (walks : ∀ began, stage.began = some began → (s.builds k).began = some began)
    (owed : (s.builds k).owes = true → stage.owes = true ∨ s.resync = true) : Marks (atBuild s k stage) := by
  have covers : ∀ j t, Covers (s.builds j) t → Covers ((atBuild s k stage).builds j) t := by
    intro j t covered began began'
    by_cases same : j = k
    · subst same
      rw [atBuild_same] at began'
      exact covered began (walks began began')
    · rw [atBuild_other _ _ same] at began'
      exact covered began began'
  refine ⟨?_,marks.remarked,?_⟩
  · intro j began walking
    by_cases same : j = k
    · subst same
      rw [atBuild_same] at walking
      exact marks.later j began (walks began walking)
    · rw [atBuild_other _ _ same] at walking
      exact marks.later j began walking
  · intro m listed
    rcases marks.kept m listed with found | ⟨j,owes,covered⟩ | ⟨due,covered⟩
    · exact .inl found
    · by_cases same : j = k
      · subst same
        rcases owed owes with still | due
        · exact .inr (.inl ⟨j,by rw [atBuild_same]; exact still,covers j m.2 covered⟩)
        · refine .inr (.inr ⟨due,fun i => covers i m.2 ?_⟩)
          by_cases mine : i = j
          · subst mine
            exact covered
          · cases running : (s.builds i).active with
            | false => exact covers_idle running m.2
            | true => exact absurd (locks.single i j running (owes_active owes)) mine
      · exact .inr (.inl ⟨j,by rw [atBuild_other _ _ same]; exact owes,covers j m.2 covered⟩)
    · exact .inr (.inr ⟨due,fun i => covers i m.2 (covered i)⟩)

-- The rule for the applier: it begins no apply and lets no directory of its
-- batch go.
theorem atApplier_marks (marks : Marks s) (stage : ApplierStage) (holds : ∀ dir ∈ s.applier.batch, dir ∈ stage.batch)
    (applies : ∀ began, stage.began = some began → s.applier.began = some began) : Marks {s with applier := stage} := by
  refine ⟨?_,fun began applying => marks.remarked began (applies began applying),?_⟩
  · intro k began walking m listed
    rcases marks.later k began walking m listed with before | pending | held
    · exact .inl before
    · exact .inr (.inl pending)
    · exact .inr (.inr (holds _ held))
  · intro m listed
    rcases marks.kept m listed with (pending | held | reflected) | rest
    · exact .inl (.inl pending)
    · exact .inl (.inr (.inl (holds _ held)))
    · exact .inl (.inr (.inr reflected))
    · exact .inr rest

theorem mark_marks (marks : Marks s) :
    Marks {s with pending := s.pending.mark dir,marked := (dir,s.now)::s.marked} := by
  have pending : ∀ m ∈ (dir,s.now)::s.marked, m ∈ s.marked ∨ m.1 ∈ (s.pending.mark dir).paths := by
    intro m listed
    rcases List.mem_cons.mp listed with rfl | older
    · exact .inr ((mem_mark _).mpr (.inl rfl))
    · exact .inl older
  have stays : ∀ {d}, d ∈ s.pending.paths → d ∈ (s.pending.mark dir).paths := fun member => (mem_mark _).mpr (.inr member)
  refine ⟨?_,?_,?_⟩
  · intro k began walking m listed
    rcases pending m listed with older | fresh
    · rcases marks.later k began walking m older with before | waits | held
      · exact .inl before
      · exact .inr (.inl (stays waits))
      · exact .inr (.inr held)
    · exact .inr (.inl fresh)
  · intro began applying m listed
    rcases pending m listed with older | fresh
    · exact (marks.remarked began applying m older).imp id stays
    · exact .inr fresh
  · intro m listed
    rcases pending m listed with older | fresh
    · rcases marks.kept m older with (waits | held | reflected) | rest
      · exact .inl (.inl (stays waits))
      · exact .inl (.inr (.inl held))
      · exact .inl (.inr (.inr reflected))
      · exact .inr rest
    · exact .inl (.inl fresh)

theorem no_walk (locks : Locks s) (idle : s.building = false) (k : Nat) : (s.builds k).active = false := by
  cases running : (s.builds k).active with
  | false => rfl
  | true =>
    rw [locks.building.mpr ⟨k,running⟩] at idle
    cases idle

theorem clear_marks (locks : Locks s) (marks : Marks s) (claimed : s.builds k = .claimed) :
    Marks {atBuild s k (.cleared (decide (s.pending.paths ≠ []))) with pending := .empty,mutate := none} := by
  have active : (s.builds k).active = true := by rw [claimed]; rfl
  have busy : s.building = true := locks.building.mpr ⟨k,active⟩
  refine ⟨?_,?_,?_⟩
  · intro j began walking
    by_cases same : j = k
    · subst same
      rw [show ({atBuild s j (.cleared (decide (s.pending.paths ≠ []))) with pending := .empty,mutate := none} : State).builds j = _
        from atBuild_same s j _] at walking
      cases walking
    · have other : (s.builds j).began = some began := by simpa [atBuild,same] using walking
      exact absurd (locks.single j k (began_active other) active) same
  · intro began applying
    have idle := locks.exclusive (began_working applying)
    rw [busy] at idle
    cases idle
  · intro m listed
    rcases marks.kept m listed with (pending | held | reflected) | ⟨j,owes,_⟩ | ⟨due,covered⟩
    · refine .inr (.inl ⟨k,?_,?_⟩)
      · have some : s.pending.paths ≠ [] := List.ne_nil_of_mem pending
        simp [atBuild,BuildStage.owes,some]
      · intro began walking
        simp [atBuild,BuildStage.began] at walking
    · exact .inl (.inr (.inl held))
    · exact .inl (.inr (.inr reflected))
    · cases locks.single j k (owes_active owes) active
      rw [claimed] at owes
      cases owes
    · refine .inr (.inr ⟨due,fun j began walking => ?_⟩)
      by_cases same : j = k
      · subst same
        simp [atBuild,BuildStage.began] at walking
      · exact covered j began (by simpa [atBuild,same] using walking)

theorem walk_marks (marks : Marks s) (past : ∀ m ∈ s.marked, m.2 < s.now) (cleared : s.builds k = .cleared dropped) :
    Marks (atBuild s k (.walking s.now dropped)) := by
  have covers : ∀ m ∈ s.marked, ∀ j, Covers (s.builds j) m.2 → Covers ((atBuild s k (.walking s.now dropped)).builds j) m.2 := by
    intro m listed j covered began walking
    by_cases same : j = k
    · subst same
      rw [atBuild_same] at walking
      cases walking
      exact past m listed
    · rw [atBuild_other _ _ same] at walking
      exact covered began walking
  refine ⟨?_,marks.remarked,?_⟩
  · intro j began walking m listed
    by_cases same : j = k
    · subst same
      rw [atBuild_same] at walking
      cases walking
      exact .inl (past m listed)
    · rw [atBuild_other _ _ same] at walking
      exact marks.later j began walking m listed
  · intro m listed
    rcases marks.kept m listed with found | ⟨j,owes,covered⟩ | ⟨due,covered⟩
    · exact .inl found
    · refine .inr (.inl ⟨j,?_,covers m listed j covered⟩)
      by_cases same : j = k
      · subst same
        rw [cleared] at owes
        rw [atBuild_same]
        exact owes
      · rw [atBuild_other _ _ same]
        exact owes
    · exact .inr (.inr ⟨due,fun j => covers m listed j (covered j)⟩)

theorem published_kept (marks : Marks s) (walks : (s.builds k).began = some began) (listed : m ∈ s.marked)
    (index : s.index = some ⟨began,applied⟩) : Accounted s m.1 m.2 := by
  rcases marks.later k began walks m listed with before | pending | held
  · exact .inr (.inr ⟨_,index,.inl before⟩)
  · exact .inl pending
  · exact .inr (.inl held)

theorem publish_marks (marks : Marks s) (watched : s.builds k = .watched began dropped) :
    Marks {atBuild s k (.published began) with lastBuild := true,index := some ⟨began,[]⟩} := by
  have later : ∀ j b, ((atBuild s k (.published began)).builds j).began = some b → (s.builds j).began = some b := by
    intro j b walking
    by_cases same : j = k
    · subst same
      rw [atBuild_same] at walking
      rw [watched]
      exact walking
    · rwa [atBuild_other _ _ same] at walking
  refine ⟨fun j b walking => marks.later j b (later j b walking),marks.remarked,?_⟩
  intro m listed
  rcases marks.later k began (by rw [watched]; rfl) m listed with before | pending | held
  · exact .inl (.inr (.inr ⟨_,rfl,.inl before⟩))
  · exact .inl (.inl pending)
  · exact .inl (.inr (.inl held))

theorem sync_marks (locks : Locks s) (indexed : Indexed s) (marks : Marks s) (published : s.builds k = .published began) :
    Marks {atBuild s k (.synced began) with resync := false} := by
  have moved : Marks (atBuild s k (.synced began)) := atBuild_marks locks marks k (.synced began)
    (fun b walking => by rw [published]; exact walking) (fun owes => by rw [published] at owes; cases owes)
  refine ⟨moved.later,moved.remarked,fun m listed => .inl ?_⟩
  have found : Accounted (atBuild s k (.synced began)) m.1 m.2 :=
    published_kept moved (by rw [atBuild_same]; rfl) listed (indexed.publishes k began (.inl published))
  exact found

theorem take_marks (marks : Marks s) (waiting : s.applier = .waiting) :
    Marks {s with applier := .taken s.pending.batch,pending := .empty} := by
  refine ⟨?_,fun began applying => (by cases applying),?_⟩
  · intro k began walking m listed
    rcases marks.later k began walking m listed with before | pending | held
    · exact .inl before
    · exact .inr (.inr pending)
    · rw [waiting] at held
      cases held
  · intro m listed
    rcases marks.kept m listed with (pending | held | reflected) | rest
    · exact .inl (.inr (.inl pending))
    · rw [waiting] at held
      cases held
    · exact .inl (.inr (.inr reflected))
    · exact .inr rest

theorem restore_marks (marks : Marks s) (locked : s.applier = .locked batch) :
    Marks {s with applier := .waiting,mutate := none,pending := s.pending.restore batch} := by
  have back : ∀ {dir}, dir ∈ s.applier.batch → dir ∈ (s.pending.restore batch).paths := by
    intro dir held
    rw [locked] at held
    exact (mem_restore _ _).mpr (.inr held)
  have stays : ∀ {dir}, dir ∈ s.pending.paths → dir ∈ (s.pending.restore batch).paths :=
    fun member => (mem_restore _ _).mpr (.inl member)
  refine ⟨?_,fun began applying => (by cases applying),?_⟩
  · intro k began walking m listed
    rcases marks.later k began walking m listed with before | pending | held
    · exact .inl before
    · exact .inr (.inl (stays pending))
    · exact .inr (.inl (back held))
  · intro m listed
    rcases marks.kept m listed with (pending | held | reflected) | rest
    · exact .inl (.inl (stays pending))
    · exact .inl (.inl (back held))
    · exact .inl (.inr (.inr reflected))
    · exact .inr rest

theorem applyBegins_marks (marks : Marks s) (past : ∀ m ∈ s.marked, m.2 < s.now) (locked : s.applier = .locked batch) :
    Marks {s with applier := .applying batch s.now} := by
  have same : s.applier.batch = (ApplierStage.applying batch s.now).batch := by rw [locked]; rfl
  refine ⟨?_,?_,?_⟩
  · intro k began walking m listed
    rcases marks.later k began walking m listed with before | pending | held
    · exact .inl before
    · exact .inr (.inl pending)
    · exact .inr (.inr (same ▸ held))
  · intro began applying m listed
    cases applying
    exact .inl (past m listed)
  · intro m listed
    rcases marks.kept m listed with (pending | held | reflected) | rest
    · exact .inl (.inl pending)
    · exact .inl (.inr (.inl (same ▸ held)))
    · exact .inl (.inr (.inr reflected))
    · exact .inr rest

theorem applyNone_marks {s : State} (locks : Locks s) (applying : s.applier = .applying batch began) :
    Marks {s with applier := .failed,resync := true} := by
  have idle := no_walk locks (locks.exclusive (by rw [applying]; rfl))
  refine ⟨?_,fun began applying => (by cases applying),?_⟩
  · intro k began walking
    have active := began_active walking
    rw [idle k] at active
    cases active
  · intro m _
    exact .inr (.inr ⟨rfl,fun k => covers_idle (idle k) m.2⟩)

theorem publishApplied_marks {s : State} (locks : Locks s) (indexed : Indexed s) (marks : Marks s)
    (applied : s.applier = .applied batch began) :
    Marks {s with
      applier := .waiting,mutate := none
      index := s.index.map (fun i => {i with applied := batch.dirs.map (fun dir => (dir,began)) ++ i.applied})} := by
  have idle := no_walk locks (locks.exclusive (by rw [applied]; rfl))
  obtain ⟨index,present⟩ := Option.ne_none_iff_exists'.mp (indexed.started (by rw [applied]; simp))
  have grown : s.index.map (fun i => {i with applied := batch.dirs.map (fun dir => (dir,began)) ++ i.applied}) =
      some {index with applied := batch.dirs.map (fun dir => (dir,began)) ++ index.applied} := by
    rw [present]; rfl
  refine ⟨?_,fun began applying => (by cases applying),?_⟩
  · intro k began walking
    have active := began_active walking
    rw [idle k] at active
    cases active
  · intro m listed
    rcases marks.kept m listed with (pending | held | ⟨_,same,reflected⟩) | ⟨k,owes,_⟩ | rest
    · exact .inl (.inl pending)
    · rcases marks.remarked began (by rw [applied]; rfl) m listed with before | pending
      · rw [applied] at held
        refine .inl (.inr (.inr ⟨_,grown,.inr ⟨began,?_,before⟩⟩))
        exact List.mem_append_left _ (List.mem_map.mpr ⟨m.1,held,rfl⟩)
      · exact .inl (.inl pending)
    · cases present.symm.trans same
      refine .inl (.inr (.inr ⟨_,grown,?_⟩))
      exact reflected.imp id (fun ⟨b,member,before⟩ => ⟨b,List.mem_append_right _ member,before⟩)
    · have active := owes_active owes
      rw [idle k] at active
      cases active
    · exact .inr (.inr rest)

theorem act_marks (locks : Locks s) (indexed : Indexed s) (past : ∀ m ∈ s.marked, m.2 < s.now)
    (marks : Marks s) (safe : SafeEnd s event) (acted : Acted s event next) : Marks next := by
  -- A build that neither walks nor owes afterwards, and owed nothing before.
  have quiet : ∀ k stage, stage.began = none → (s.builds k).owes = false → Marks (atBuild s k stage) := by
    intro k stage unwalked unowed
    refine atBuild_marks locks marks k stage (fun b walking => ?_) (fun owes => ?_)
    · rw [unwalked] at walking
      cases walking
    · rw [unowed] at owes
      cases owes
  cases acted with
  | mark => exact mark_marks marks
  | markOverflow | watcher => exact ⟨marks.later,marks.remarked,marks.kept⟩
  | @call k _ stage =>
    exact quiet k .called rfl (by rw [stage]; rfl)
  | @lock k stage =>
    have moved := quiet k .locked rfl (by rw [stage]; rfl)
    exact ⟨moved.later,moved.remarked,moved.kept⟩
  | @busy k stage =>
    have moved := quiet k .finished rfl (by rw [stage]; rfl)
    exact ⟨moved.later,moved.remarked,moved.kept⟩
  | @claim k stage =>
    have moved := quiet k .claimed rfl (by rw [stage]; rfl)
    exact ⟨moved.later,moved.remarked,moved.kept⟩
  | @release k _ stage =>
    have moved := quiet k .released rfl (by rw [stage]; rfl)
    exact ⟨moved.later,moved.remarked,moved.kept⟩
  | clear claimed => exact clear_marks locks marks claimed
  | walk cleared => exact walk_marks marks past cleared
  | @cancel k _ _ walking =>
    have moved := atBuild_marks locks marks k .finished (by simp [BuildStage.began]) (fun owes => .inr (safe owes))
    exact ⟨moved.later,moved.remarked,moved.kept⟩
  | @panicBuild k began dropped walking =>
    have moved := atBuild_marks locks marks k .finished (by simp [BuildStage.began]) (fun owes => .inr (safe owes))
    have ended := atApplier_marks moved (if k = 0 then .stopped else s.applier) (by
      split
      · have own := locks.own
        grind [atBuild]
      · exact fun _ held => held) (by
      split
      · simp [ApplierStage.began]
      · exact fun _ held => held)
    exact ⟨ended.later,ended.remarked,ended.kept⟩
  | @complete k began dropped walking =>
    exact atBuild_marks locks marks k (.completed began dropped) (fun b walks => by rw [walking]; exact walks)
      (fun owes => .inl (by rwa [walking] at owes))
  | @watch k began dropped _ _ completed =>
    have moved := atBuild_marks locks marks k (.watched began dropped) (fun b walks => by rw [completed]; exact walks)
      (fun owes => .inl (by rwa [completed] at owes))
    exact ⟨moved.later,moved.remarked,moved.kept⟩
  | publish watched => exact publish_marks marks watched
  | sync published => exact sync_marks locks indexed marks published
  | @spawn k released =>
    have moved := quiet k .finished rfl (by rw [released]; rfl)
    refine atApplier_marks moved _ ?_ ?_
    · intro dir held
      split
      · rename_i unstarted
        rw [show (atBuild s k .finished).applier = .unstarted from unstarted] at held
        cases held
      · exact held
    · split
      · simp [ApplierStage.began]
      · exact fun _ held => held
  | take waiting => exact take_marks marks waiting
  | @applierLock batch taken _ =>
    have moved := atApplier_marks marks (.locked batch) (fun dir held => by rw [taken] at held; exact held) (by simp [ApplierStage.began])
    exact ⟨moved.later,moved.remarked,moved.kept⟩
  | restore locked _ => exact restore_marks marks locked
  | unindexed locked missing => exact absurd missing (indexed.started (by rw [locked]; simp))
  | applyBegins locked _ => exact applyBegins_marks marks past locked
  | applySome applying =>
    exact atApplier_marks marks _ (fun dir held => by rw [applying] at held; exact held) (fun b applies => by rw [applying]; exact applies)
  | applyNone applying => exact applyNone_marks locks applying
  | panicApply _ => exact absurd safe id
  | publishApplied applied => exact publishApplied_marks locks indexed marks applied
  | rebuild failed =>
    have moved := quiet 0 .called rfl (by have own := locks.own; grind)
    have ended := atApplier_marks moved .rebuilding (fun dir held => by
      rw [show (atBuild s 0 .called).applier = .failed from failed] at held; exact held) (by simp [ApplierStage.began])
    exact ⟨ended.later,ended.remarked,ended.kept⟩
  | noRebuild failed =>
    have moved := atApplier_marks marks .waiting (fun dir held => by rw [failed] at held; exact held) (by simp [ApplierStage.began])
    exact ⟨moved.later,moved.remarked,moved.kept⟩
  | rebuilt rebuilding finished =>
    have moved := quiet 0 .idle rfl (by rw [finished]; rfl)
    exact atApplier_marks moved _ (fun dir held => by
      rw [show (atBuild s 0 .idle).applier = .rebuilding from rebuilding] at held; exact held) (by simp [ApplierStage.began])
  | stop waiting => exact atApplier_marks marks _ (fun dir held => by rw [waiting] at held; exact held) (by simp [ApplierStage.began])

structure Valid (s : State) : Prop where
  locks : Locks s
  indexed : Indexed s
  past : ∀ m ∈ s.marked, m.2 < s.now
  marks : Marks s

theorem act_past (past : ∀ m ∈ s.marked, m.2 < s.now) (acted : Acted s event next) :
    ∀ m ∈ next.marked, m.2 < s.now + 1 := by
  have older : ∀ m ∈ s.marked, m.2 < s.now + 1 := fun m listed => Nat.lt_succ_of_lt (past m listed)
  cases acted with
  | mark =>
    intro m listed
    rcases List.mem_cons.mp listed with rfl | before
    · exact Nat.lt_succ_self _
    · exact older m before
  | _ => exact older

theorem step_valid (valid : Valid s) (safe : SafeEnd s event) (stepped : step s event = some next) : Valid next := by
  obtain ⟨moved,acted,rfl⟩ := Option.map_eq_some_iff.mp stepped
  have acted := act_cases acted
  obtain ⟨locks,indexed,past,marks⟩ := valid
  have locks' := act_locks locks acted
  have indexed' := act_indexed locks indexed acted
  have marks' := act_marks locks indexed past marks safe acted
  have past' := act_past past acted
  exact ⟨⟨locks'.building,locks'.single,locks'.lockBuilder,locks'.lockApplier,locks'.exclusive,locks'.own⟩,
    ⟨indexed'.started,indexed'.released,indexed'.publishes⟩,past',⟨marks'.later,marks'.remarked,marks'.kept⟩⟩

theorem healthy_accounted (valid : Valid s) (healthy : liveOk s = true) (listed : m ∈ s.marked) :
    Accounted s m.1 m.2 := by
  have idle : s.building = false ∧ s.resync = false := by
    cases building : s.building <;> cases resync : s.resync <;> simp_all [liveOk]
  rcases valid.marks.kept m listed with found | ⟨k,owes,_⟩ | ⟨due,_⟩
  · exact found
  · have active := owes_active owes
    rw [no_walk valid.locks idle.1 k] at active
    cases active
  · rw [idle.2] at due
    cases due

theorem live_marks_accounted (events : List Event) (last : State) (safe : Runs.Every step SafeEnd initial events)
    (ran : Runs.run step initial events = some last) (healthy : liveOk last = true) :
    ∀ m ∈ last.marked, Accounted last m.1 m.2 := by
  have valid : Valid last := Runs.run_preserves_when Valid (fun _ _ _ valid safe stepped => step_valid valid safe stepped)
    ⟨initial_locks,initial_indexed,by simp [initial],initial_marks⟩ safe ran
  exact fun m listed => healthy_accounted valid healthy listed

instance (s : State) (event : Event) : Decidable (SafeEnd s event) :=
  match event with
  | .cancel k | .panicBuild k => inferInstanceAs (Decidable ((s.builds k).owes = true → s.resync = true))
  | .panicApply => .isFalse id
  | .mark _ | .markOverflow | .registered | .watchFailed | .call _ | .lock _ | .claim _ | .clear _ | .walk _ | .complete _
  | .watch _ _ | .publish _ | .sync _ | .release _ | .spawn _ | .take | .applierLock | .restore | .applyBegins | .applySome
  | .applyNone | .publishApplied | .rebuild | .rebuilt | .stop => .isTrue trivial

def buildOnce (k : Nat) : List Event :=
  [.call k,.lock k,.claim k,.clear k,.walk k,.complete k,.watch k true,.publish k,.sync k,.release k,.spawn k]

def cancelledRebuild : List Event :=
  buildOnce 1 ++ [.registered,.mark "/home",.call 2,.lock 2,.claim 2,.clear 2,.walk 2,.cancel 2]

instance (s : State) (dir : String) (t : Nat) : Decidable (Accounted s dir t) :=
  match present : s.index with
  | none => decidable_of_iff (dir ∈ s.pending.paths ∨ dir ∈ s.applier.batch) (by simp [Accounted,Reflected,present])
  | some index => decidable_of_iff (dir ∈ s.pending.paths ∨ dir ∈ s.applier.batch ∨
      (t < index.walkBegan ∨ ∃ entry ∈ index.applied, entry.1 = dir ∧ t < entry.2)) (by
    simp [Accounted,Reflected,present])

def cancelledQuietRebuild : List Event :=
  buildOnce 1 ++ [.registered,.mark "/home",.take,.applierLock,.applyBegins,.applySome,.publishApplied,
    .call 2,.lock 2,.claim 2,.clear 2,.walk 2,.mark "/srv",.cancel 2]

theorem marks_survive_quiet_cancel : ∃ last, Runs.run step initial cancelledQuietRebuild = some last ∧ liveOk last = true ∧
    last.marked.length = 2 ∧ ∀ m ∈ last.marked, Accounted last m.1 m.2 :=
  ⟨_,rfl,rfl,rfl,live_marks_accounted cancelledQuietRebuild _ (by decide) rfl rfl⟩

theorem cancelled_build_loses_mark :
    ¬ ∀ events last, Runs.run step initial events = some last → liveOk last = true → ∀ m ∈ last.marked, Accounted last m.1 m.2 := by
  intro every
  have kept := every cancelledRebuild _ rfl rfl ("/home",12) (by decide)
  revert kept
  decide

-- One party at a time changes the index: the holder of the lock, one build, and
-- no update while a build has claimed it.
theorem index_changes_exclusive (ran : Runs.run step initial events = some last) : Locks last ∧ Indexed last := by
  have kept : ∀ s event next, Locks s ∧ Indexed s → step s event = some next → Locks next ∧ Indexed next := by
    rintro s event next ⟨locks,indexed⟩ stepped
    obtain ⟨moved,acted,rfl⟩ := Option.map_eq_some_iff.mp stepped
    have locks' := act_locks locks (act_cases acted)
    have indexed' := act_indexed locks indexed (act_cases acted)
    exact ⟨⟨locks'.building,locks'.single,locks'.lockBuilder,locks'.lockApplier,locks'.exclusive,locks'.own⟩,
      ⟨indexed'.started,indexed'.released,indexed'.publishes⟩⟩
  exact @Runs.run_preserves _ _ _ _ _ _ (fun s => Locks s ∧ Indexed s) kept ⟨initial_locks,initial_indexed⟩ ran

theorem cancelled_rebuild_exclusive : ∃ last, Runs.run step initial cancelledRebuild = some last ∧ Locks last ∧ Indexed last :=
  ⟨_,rfl,index_changes_exclusive (show Runs.run step initial cancelledRebuild = some _ from rfl)⟩

end RemoteFileExplorer.LiveIndex
