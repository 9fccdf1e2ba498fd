import RemoteFileExplorer.Runs

namespace RemoteFileExplorer.DesktopTransfers

inductive State where
  | queued
  | running
  | paused
  | conflict
  | done
  | failed
  | cancelled
  deriving DecidableEq, Repr

inductive Resolution where
  | replace
  | both
  | skip
  deriving DecidableEq, Repr

inductive Policy where
  | ask
  | act (how : Resolution)
  deriving DecidableEq, Repr

def Policy.code : Policy → Nat
  | .ask => 0
  | .act .replace => 1
  | .act .both => 2
  | .act .skip => 3

def Policy.fromCode : Nat → Policy
  | 0 => .ask
  | 1 => .act .replace
  | 3 => .act .skip
  | _ => .act .both

def skipped : String := "Skipped: a file with this name already exists"

def maxParallel : Nat := 8

abbrev Outcome := Option (Except String Unit)

-- Where the one attempt of a transfer stands between two effects that another
-- thread can see. Only `waiting`, `working`, `asking` and `rewaiting` are awaits
-- at which the stop signal can win the race.
inductive Stage where
  | ended
  | waiting
  | permitted
  | placed
  | working
  | settling
  | choosing
  | parking
  | parked
  | asking
  | heard
  | answered (how : Resolution)
  | rewaiting (how : Resolution)
  | repermitted (how : Resolution)
  | replaced (how : Resolution)
  | storing (how : Resolution)
  | leaving (outcome : Outcome)
  | releasing (outcome : Outcome)
  | ending (outcome : Outcome)
  | deciding
  | swapped (wasPausing : Bool)
  | cleaning

-- Who holds the item's `decide` lock, and the next effect of that holder.
inductive Decider where
  | cancelLocked
  | cancelMarking
  | cancelClearing
  | cancelSignalling
  | cancelDiscarding
  | retryLocked
  | retryUnpausing
  | retryUncancelling
  | retryOpening
  | attempt
  deriving DecidableEq, Repr

-- `stop` is the value in the watch channel, `decided` the stored wake-up. A pause
-- and an answer take no lock, so several can be under way: the four counters hold
-- those that read the state and those that made their first store. The last three
-- fields only observe: no step reads them.
structure Item where
  state : State
  error : String
  stop : Bool
  pausing : Bool
  cancelling : Bool
  decide : Option Decider
  resolution : Option Resolution
  decided : Bool
  slot : Bool
  stage : Stage
  pausesSeen : Nat
  pausesMarked : Nat
  answersSeen : Nat
  answersStored : Nat
  accepted : Bool
  taken : Nat
  returned : Nat

def Item.fresh : Item := {
  state := .queued
  error := ""
  stop := false
  pausing := false
  cancelling := false
  decide := none
  resolution := none
  decided := false
  slot := false
  stage := .waiting
  pausesSeen := 0
  pausesMarked := 0
  answersSeen := 0
  answersStored := 0
  accepted := false
  taken := 0
  returned := 0
}

inductive Demand where
  | nothing
  | acquire
  | release
  deriving DecidableEq, Repr

inductive Choice where
  | goes
  | takes
  | stops
  | meets
  | hears
  | returns (result : Except String Unit)

def Item.settled (item : Item) : Resolution → Item
  | .skip => {item with stage := .leaving (some (.error skipped))}
  | _ => {item with stage := .working}

def Item.goes (policy : Policy) (item : Item) : Option (Item × Demand) :=
  match item.stage with
  | .permitted => some ({item with slot := true,stage := .placed},.nothing)
  | .placed => some ({item with state := .running,error := "",stage := .working},.nothing)
  | .settling =>
    match item.resolution with
    | some how => some (item.settled how,.nothing)
    | none => some ({item with stage := .choosing},.nothing)
  | .choosing =>
    match policy with
    | .act how => some ({item with stage := .storing how},.nothing)
    | .ask => some ({item with slot := false,stage := if item.slot then .parking else .parked},.nothing)
  | .parking => some ({item with stage := .parked,returned := item.returned+1},.release)
  | .parked => some ({item with state := .conflict,error := "",stage := .asking},.nothing)
  | .heard =>
    match item.resolution with
    | some how => some ({item with stage := .answered how},.nothing)
    | none => some ({item with stage := .asking},.nothing)
  | .answered how => some ({item with state := .queued,stage := .rewaiting how},.nothing)
  | .repermitted how => some ({item with slot := true,stage := .replaced how},.nothing)
  | .replaced how => some ({item with state := .running,stage := .storing how},.nothing)
  | .storing how => some ({item with resolution := some how}.settled how,.nothing)
  | .leaving outcome =>
    some ({item with slot := false,stage := if item.slot then .releasing outcome else .ending outcome},.nothing)
  | .releasing outcome => some ({item with stage := .ending outcome,returned := item.returned+1},.release)
  | .ending (some (.ok _)) => some ({item with state := .done,stage := .ended},.nothing)
  | .ending (some (.error message)) =>
    if message = skipped then some ({item with state := .cancelled,error := skipped,stage := .ended},.nothing)
    else some ({item with state := .failed,error := message,stage := .ended},.nothing)
  | .ending none =>
    if item.decide = none then some ({item with decide := some .attempt,stage := .deciding},.nothing) else none
  | .deciding => some ({item with pausing := false,stage := .swapped item.pausing},.nothing)
  | .swapped wasPausing =>
    if wasPausing && !item.cancelling then
      some ({item with state := .paused,error := "",decide := none,stage := .ended},.nothing)
    else some ({item with decide := none,stage := .cleaning},.nothing)
  | .cleaning => some ({item with state := .cancelled,error := "",stage := .ended},.nothing)
  | _ => none

-- `take_place`, `run`, `settle_conflict`, `stop` and `cleanup_cancelled`, one
-- effect at a time. What `work` does besides is only its result.
def Item.attempt (policy : Policy) (item : Item) : Choice → Option (Item × Demand)
  | .goes => item.goes policy
  | .takes =>
    match item.stage with
    | .waiting => some ({item with stage := .permitted,taken := item.taken+1},.acquire)
    | .rewaiting how => some ({item with stage := .repermitted how,taken := item.taken+1},.acquire)
    | _ => none
  | .stops =>
    if item.stop then
      match item.stage with
      | .waiting => some ({item with stage := .ending none},.nothing)
      | .working => some ({item with stage := .leaving none},.nothing)
      | .asking => some ({item with stage := .leaving none},.nothing)
      | .rewaiting _ => some ({item with stage := .leaving none},.nothing)
      | _ => none
    else none
  | .meets =>
    match item.stage with
    | .working => some ({item with stage := .settling},.nothing)
    | _ => none
  | .hears =>
    match item.stage,item.decided with
    | .asking,true => some ({item with decided := false,stage := .heard},.nothing)
    | _,_ => none
  | .returns result =>
    match item.stage with
    | .working => some ({item with stage := .leaving (some result)},.nothing)
    | _ => none

inductive Command where
  | cancel
  | retry
  | decides
  | pause
  | pauseMarks
  | pauseSignals
  | resolve
  | resolveStores (how : Resolution)
  | resolveWakes
  deriving DecidableEq, Repr

def Item.cancelSees (item : Item) : Item :=
  match item.state with
  | .queued => {item with decide := some .cancelMarking,accepted := true}
  | .running => {item with decide := some .cancelMarking,accepted := true}
  | .conflict => {item with decide := some .cancelMarking,accepted := true}
  | .failed => {item with decide := some .cancelDiscarding}
  | .paused => {item with decide := some .cancelDiscarding}
  | .done => {item with decide := none}
  | .cancelled => {item with decide := none}

-- `retry` queues a new attempt, for which no cancel has been accepted yet.
def Item.retryChecks (item : Item) : Item :=
  match item.state with
  | .failed => {item with state := .queued,error := "",decide := some .retryUnpausing,accepted := false}
  | .paused => {item with state := .queued,error := "",decide := some .retryUnpausing,accepted := false}
  | .cancelled => {item with state := .queued,error := "",decide := some .retryUnpausing,accepted := false}
  | _ => {item with decide := none}

def Item.decides (item : Item) : Option Item :=
  match item.decide with
  | some .cancelLocked => some item.cancelSees
  | some .cancelMarking => some {item with cancelling := true,decide := some .cancelClearing}
  | some .cancelClearing => some {item with pausing := false,decide := some .cancelSignalling}
  | some .cancelSignalling => some {item with stop := true,decide := none}
  | some .cancelDiscarding => some {item with state := .cancelled,error := "",decide := none}
  | some .retryLocked => some item.retryChecks
  | some .retryUnpausing => some {item with pausing := false,decide := some .retryUncancelling}
  | some .retryUncancelling => some {item with cancelling := false,decide := some .retryOpening}
  | some .retryOpening => some {item with stop := false,decide := none,stage := .waiting}
  | _ => none

def Item.command (item : Item) : Command → Option Item
  | .cancel => if item.decide = none then some {item with decide := some .cancelLocked} else none
  | .retry => if item.decide = none then some {item with decide := some .retryLocked} else none
  | .decides => item.decides
  | .pause =>
    if item.state = .queued ∨ item.state = .running then some {item with pausesSeen := item.pausesSeen+1} else some item
  | .pauseMarks =>
    if 0 < item.pausesSeen then
      some {item with pausing := true,pausesSeen := item.pausesSeen-1,pausesMarked := item.pausesMarked+1}
    else none
  | .pauseSignals =>
    if 0 < item.pausesMarked then some {item with stop := true,pausesMarked := item.pausesMarked-1} else none
  | .resolve => if item.state = .conflict then some {item with answersSeen := item.answersSeen+1} else some item
  | .resolveStores how =>
    if 0 < item.answersSeen then
      some {item with resolution := some how,answersSeen := item.answersSeen-1,answersStored := item.answersStored+1}
    else none
  | .resolveWakes =>
    if 0 < item.answersStored then some {item with decided := true,answersStored := item.answersStored-1} else none

-- The thread in `set_prefs` that holds the `places` lock; at `forgot` it holds
-- the `debt` lock too. `add` and `rest` are what it has yet to add or to owe.
inductive Change where
  | idle
  | locked (want : Int)
  | adding (want add : Int)
  | forgot (want rest : Int)
  | changed (want : Int)
  deriving DecidableEq, Repr

structure Transfers where
  free : Nat
  places : Int
  debt : Int
  change : Change
  policy : Nat
  items : List Item

def clamp (parallel : Nat) : Nat := max 1 (min parallel maxParallel)

def withOptions (parallel : Nat) : Transfers := {
  free := clamp parallel
  places := clamp parallel
  debt := 0
  change := .idle
  policy := (Policy.act .both).code
  items := []
}

-- The semaphore counts: a permit is taken only while one is free. A place given
-- back pays the debt first, under the lock that a cut holds.
def Transfers.serve (s : Transfers) : Demand → Option Transfers
  | .nothing => some s
  | .acquire => if 0 < s.free then some {s with free := s.free-1} else none
  | .release =>
    match s.change with
    | .forgot _ _ => none
    | _ => if 0 < s.debt then some {s with debt := s.debt-1} else some {s with free := s.free+1}

def Transfers.changing (s : Transfers) : Option Transfers :=
  match s.change with
  | .idle => none
  | .locked want =>
    if want > s.places then
      let add := want-s.places
      let pay := min s.debt add
      some {s with debt := s.debt-pay,change := .adding want (add-pay)}
    else if want < s.places then
      let cut := s.places-want
      let forgotten := min cut.toNat s.free
      some {s with free := s.free-forgotten,change := .forgot want (cut-forgotten)}
    else some {s with change := .changed want}
  | .adding want add =>
    if add > 0 then some {s with free := s.free+add.toNat,change := .changed want}
    else some {s with change := .changed want}
  | .forgot want rest => some {s with debt := s.debt+rest,change := .changed want}
  | .changed want => some {s with places := want,change := .idle}

inductive Event where
  | added
  | attempts (i : Nat) (choice : Choice)
  | commands (i : Nat) (command : Command)
  | storesPolicy (policy : Policy)
  | changes (parallel : Nat)
  | changing

def step (s : Transfers) : Event → Option Transfers
  | .added => some {s with items := s.items ++ [Item.fresh]}
  | .attempts i choice =>
    match s.items[i]? with
    | none => none
    | some item =>
      match item.attempt (Policy.fromCode s.policy) choice with
      | none => none
      | some (next,demand) => {s with items := s.items.set i next}.serve demand
  | .commands i command =>
    match s.items[i]? with
    | none => none
    | some item =>
      match item.command command with
      | none => none
      | some next => some {s with items := s.items.set i next}
  | .storesPolicy policy => some {s with policy := policy.code}
  | .changes parallel => if s.change = .idle then some {s with change := .locked (clamp parallel)} else none
  | .changing => s.changing

inductive Stepped (s : Transfers) : Event → Transfers → Prop where
  | added : Stepped s .added {s with items := s.items ++ [Item.fresh]}
  | attempted : s.items[i]? = some item → item.attempt (Policy.fromCode s.policy) choice = some (after,demand) →
      {s with items := s.items.set i after}.serve demand = some next → Stepped s (.attempts i choice) next
  | commanded : s.items[i]? = some item → item.command command = some after →
      Stepped s (.commands i command) {s with items := s.items.set i after}
  | storedPolicy : Stepped s (.storesPolicy policy) {s with policy := policy.code}
  | changes : s.change = .idle → Stepped s (.changes parallel) {s with change := .locked (clamp parallel)}
  | changing : s.changing = some next → Stepped s .changing next

theorem step_cases (moved : step s event = some next) : Stepped s event next := by
  cases event with
  | added =>
    cases Option.some.inj moved
    exact .added
  | attempts i choice =>
    simp only [step] at moved
    split at moved
    · cases moved
    · rename_i item found
      split at moved
      · cases moved
      · rename_i after demand attempted
        exact .attempted found attempted moved
  | commands i command =>
    simp only [step] at moved
    split at moved
    · cases moved
    · rename_i item found
      split at moved
      · cases moved
      · rename_i after commanded
        cases Option.some.inj moved
        exact .commanded found commanded
  | storesPolicy policy =>
    cases Option.some.inj moved
    exact .storedPolicy
  | changes parallel =>
    obtain ⟨idle,⟨⟩⟩ := Option.ite_none_right_eq_some.mp moved
    exact .changes idle
  | changing => exact .changing moved

theorem serve_items {s next : Transfers} (served : s.serve demand = some next) : next.items = s.items := by
  cases demand with
  | nothing => cases Option.some.inj served; rfl
  | acquire =>
    obtain ⟨_,served⟩ := Option.ite_none_right_eq_some.mp served
    cases Option.some.inj served; rfl
  | release =>
    simp only [Transfers.serve] at served
    split at served
    · cases served
    · split at served <;> (cases Option.some.inj served; rfl)

theorem changing_items {s next : Transfers} (changed : s.changing = some next) : next.items = s.items := by
  simp only [Transfers.changing] at changed
  split at changed
  · cases changed
  · split at changed
    · cases Option.some.inj changed; rfl
    · split at changed <;> (cases Option.some.inj changed; rfl)
  · split at changed <;> (cases Option.some.inj changed; rfl)
  all_goals cases Option.some.inj changed; rfl

structure Rules where
  attempts : Item → Choice → Bool
  commands : Item → Command → Bool

def Rules.allow (rules : Rules) (s : Transfers) : Event → Bool
  | .attempts i choice =>
    match s.items[i]? with
    | some item => rules.attempts item choice
    | none => true
  | .commands i command =>
    match s.items[i]? with
    | some item => rules.commands item command
    | none => true
  | _ => true

theorem items_preserved_when {holds : Item → Prop} {rules : Rules} (fresh : holds Item.fresh)
    (attempted : ∀ policy item choice after demand, holds item → rules.attempts item choice = true →
      item.attempt policy choice = some (after,demand) → holds after)
    (commanded : ∀ item command after, holds item → rules.commands item command = true →
      item.command command = some after → holds after)
    (before : ∀ item ∈ s.items, holds item) (allowed : rules.allow s event = true) (moved : step s event = some next) :
    ∀ item ∈ next.items, holds item := by
  cases step_cases moved with
  | added =>
    intro item listed
    rcases List.mem_append.mp listed with old | new
    · exact before item old
    · cases List.mem_singleton.mp new; exact fresh
  | attempted found moves served =>
    simp only [Rules.allow,found] at allowed
    rw [serve_items served]
    intro item listed
    rcases List.mem_or_eq_of_mem_set listed with old | rfl
    · exact before item old
    · exact attempted _ _ _ _ _ (before _ (List.mem_of_getElem? found)) allowed moves
  | commanded found moves =>
    simp only [Rules.allow,found] at allowed
    intro item listed
    rcases List.mem_or_eq_of_mem_set listed with old | rfl
    · exact before item old
    · exact commanded _ _ _ (before _ (List.mem_of_getElem? found)) allowed moves
  | storedPolicy | changes => exact before
  | changing changed => rw [changing_items changed]; exact before

def Rules.any : Rules := ⟨fun _ _ => true,fun _ _ => true⟩

theorem any_allows (s : Transfers) (event : Event) : Rules.any.allow s event = true := by
  cases event with
  | attempts i choice | commands i command => simp only [Rules.allow,Rules.any]; split <;> rfl
  | _ => rfl

theorem items_preserved {holds : Item → Prop} (fresh : holds Item.fresh)
    (attempted : ∀ policy item choice after demand, holds item → item.attempt policy choice = some (after,demand) → holds after)
    (commanded : ∀ item command after, holds item → item.command command = some after → holds after)
    (before : ∀ item ∈ s.items, holds item) (moved : step s event = some next) : ∀ item ∈ next.items, holds item := by
  refine items_preserved_when fresh ?_ ?_ before (any_allows s event) moved
  · intro policy item choice after demand held _
    exact attempted policy item choice after demand held
  · intro item command after held _
    exact commanded item command after held

-- The place an attempt must have stored in the item at each stage; at `leaving`
-- it depends on where the stop signal found the attempt.
def Stage.keeps : Stage → Option Bool
  | .placed | .working | .settling | .choosing | .replaced _ | .storing _ => some true
  | .leaving _ => none
  | _ => some false

def State.final : State → Bool
  | .paused | .done | .failed | .cancelled => true
  | .queued | .running | .conflict => false

def Stage.locked : Stage → Bool
  | .deciding | .swapped _ => true
  | _ => false

def Decider.restarting : Decider → Bool
  | .retryUnpausing | .retryUncancelling | .retryOpening => true
  | _ => false

-- No attempt runs exactly while the state is final or a retry is replacing it,
-- so a retry never starts a second attempt beside one that still runs.
structure Coherent (item : Item) : Prop where
  slot : ∀ kept, item.stage.keeps = some kept → item.slot = kept
  final : item.state.final = true → item.stage = .ended
  restarting : ∀ decider, item.decide = some decider → decider.restarting = true → item.stage = .ended ∧ item.state = .queued
  ended : item.stage = .ended → item.state.final = true ∨ ∃ decider, item.decide = some decider ∧ decider.restarting = true
  discarding : item.decide = some .cancelDiscarding → item.stage = .ended ∧ item.state.final = true
  locked : item.decide = some .attempt ↔ item.stage.locked = true

theorem fresh_coherent : Coherent Item.fresh where
  slot := by simp [Item.fresh,Stage.keeps]
  final := by simp [Item.fresh,State.final]
  restarting := by simp [Item.fresh]
  ended := by simp [Item.fresh]
  discarding := by simp [Item.fresh]
  locked := by simp [Item.fresh,Stage.locked]

theorem live_parts (ok : Coherent item) (live : item.stage ≠ .ended) :
    item.state.final = false ∧ ∀ decider, item.decide = some decider → decider.restarting = false ∧ decider ≠ .cancelDiscarding := by
  refine ⟨?_,?_⟩
  · cases final : item.state.final with
    | false => rfl
    | true => exact absurd (ok.final final) live
  · intro decider holds
    refine ⟨?_,?_⟩
    · cases restarting : decider.restarting with
      | false => rfl
      | true => exact absurd (ok.restarting decider holds restarting).1 live
    · rintro rfl
      exact absurd (ok.discarding holds).1 live

theorem live_coherent (live : item.stage ≠ .ended) (slot : ∀ kept, item.stage.keeps = some kept → item.slot = kept)
    (state : item.state.final = false)
    (holder : ∀ decider, item.decide = some decider → decider.restarting = false ∧ decider ≠ .cancelDiscarding)
    (locked : item.decide = some .attempt ↔ item.stage.locked = true) : Coherent item where
  slot := slot
  final final := by rw [state] at final; cases final
  restarting decider holds restarting := by rw [(holder decider holds).1] at restarting; cases restarting
  ended atEnd := absurd atEnd live
  discarding holds := absurd rfl (holder _ holds).2
  locked := locked

theorem over_coherent (atEnd : item.stage = .ended) (slot : item.slot = false) (state : item.state.final = true)
    (holder : ∀ decider, item.decide = some decider → decider.restarting = false ∧ decider ≠ .attempt) : Coherent item where
  slot kept keeps := by rw [atEnd] at keeps; cases keeps; exact slot
  final _ := atEnd
  restarting decider holds restarting := by rw [(holder decider holds).1] at restarting; cases restarting
  ended _ := .inl state
  discarding _ := ⟨atEnd,state⟩
  locked := by
    rw [atEnd]
    constructor
    · intro holds
      exact absurd rfl (holder _ holds).2
    · intro locked
      cases locked

section
variable (ok : Coherent item) (live : item.stage ≠ .ended)
include ok live

theorem advance_coherent (stage : item.stage = now) (unlocked : now.locked = false) (same : after.decide = item.decide) (goes : after.stage ≠ .ended)
    (still : after.stage.locked = false) (slot : ∀ kept, after.stage.keeps = some kept → after.slot = kept)
    (state : after.state.final = false) : Coherent after := by
  refine live_coherent goes slot state ?_ ?_
  · rw [same]; exact (live_parts ok live).2
  · rw [same,still,ok.locked,stage,unlocked]

theorem kept_coherent (stage : item.stage = now) (unlocked : now.locked = false) (keeps : now.keeps = some kept) (same : after.decide = item.decide)
    (goes : after.stage ≠ .ended) (still : after.stage.locked = false) (again : after.stage.keeps = some kept) (slot : after.slot = item.slot)
    (state : after.state.final = false) : Coherent after := by
  refine advance_coherent ok live stage unlocked same goes still ?_ state
  intro other holds
  cases again.symm.trans holds
  exact slot.trans (ok.slot _ (by rw [stage]; exact keeps))

theorem publish_coherent (stage : item.stage = now) (unlocked : now.locked = false) (bare : item.stage.keeps = some false) (same : after.decide = item.decide)
    (slot : after.slot = item.slot) (atEnd : after.stage = .ended) (state : after.state.final = true) : Coherent after := by
  refine over_coherent atEnd (slot.trans (ok.slot _ bare)) state ?_
  rw [same]
  intro decider holds
  refine ⟨((live_parts ok live).2 decider holds).1,?_⟩
  rintro rfl
  rw [← stage,ok.locked.mp holds] at unlocked
  cases unlocked

theorem settled_coherent (keeps : item.stage.keeps = some true)
    (stage : item.stage = now) (unlocked : now.locked = false) (answer : Option Resolution) (how : Resolution) :
    Coherent ({item with resolution := answer}.settled how) := by
  obtain ⟨state,_⟩ := live_parts ok live
  have placed := ok.slot _ keeps
  cases how with
  | skip => exact advance_coherent ok live stage unlocked rfl (by simp [Item.settled]) rfl (by simp [Item.settled,Stage.keeps]) state
  | replace | both => exact advance_coherent ok live stage unlocked rfl (by simp [Item.settled]) rfl (by simpa [Item.settled,Stage.keeps] using placed) state

end

theorem goes_coherent (ok : Coherent item) (moved : item.goes policy = some (after,demand)) : Coherent after := by
  have live : item.stage ≠ .ended := by
    intro atEnd
    simp [Item.goes,atEnd] at moved
  obtain ⟨state,holder⟩ := live_parts ok live
  have locked := ok.locked
  have slot := ok.slot
  cases stage : item.stage with
  | ended => exact absurd stage live
  | waiting | working | asking | rewaiting how => simp [Item.goes,stage] at moved
  | permitted | repermitted how =>
    simp only [Item.goes,stage] at moved
    cases Option.some.inj moved
    exact advance_coherent ok live stage rfl rfl (by simp) rfl (by simp [Stage.keeps]) state
  | placed | replaced how =>
    simp only [Item.goes,stage] at moved
    cases Option.some.inj moved
    exact kept_coherent ok live stage rfl rfl rfl (by simp) rfl rfl rfl rfl
  | settling =>
    simp only [Item.goes,stage] at moved
    split at moved
    · cases Option.some.inj moved
      exact settled_coherent ok live (by rw [stage]; rfl) stage rfl item.resolution _
    · cases Option.some.inj moved
      exact kept_coherent ok live stage rfl rfl rfl (by simp) rfl rfl rfl state
  | choosing =>
    have placed := slot true (by rw [stage]; rfl)
    simp only [Item.goes,stage] at moved
    split at moved
    · cases Option.some.inj moved
      exact kept_coherent ok live stage rfl rfl rfl (by simp) rfl rfl rfl state
    · rw [if_pos placed] at moved
      cases Option.some.inj moved
      exact advance_coherent ok live stage rfl rfl (by simp) rfl (by simp [Stage.keeps]) state
  | parking | releasing outcome =>
    simp only [Item.goes,stage] at moved
    cases Option.some.inj moved
    exact kept_coherent ok live stage rfl rfl rfl (by simp) rfl rfl rfl state
  | parked | answered how =>
    simp only [Item.goes,stage] at moved
    cases Option.some.inj moved
    exact kept_coherent ok live stage rfl rfl rfl (by simp) rfl rfl rfl rfl
  | heard =>
    simp only [Item.goes,stage] at moved
    split at moved <;> cases Option.some.inj moved
    all_goals exact kept_coherent ok live stage rfl rfl rfl (by simp) rfl rfl rfl state
  | storing how =>
    simp only [Item.goes,stage] at moved
    cases Option.some.inj moved
    exact settled_coherent ok live (by rw [stage]; rfl) stage rfl (some how) how
  | leaving outcome =>
    simp only [Item.goes,stage] at moved
    cases Option.some.inj moved
    refine advance_coherent ok live stage rfl rfl ?_ ?_ ?_ state
    · split <;> simp
    · split <;> rfl
    · split <;> simp [Stage.keeps]
  | ending outcome =>
    have bare : item.stage.keeps = some false := by rw [stage]; rfl
    match outcome with
    | none =>
      simp only [Item.goes,stage] at moved
      split at moved
      · cases Option.some.inj moved
        refine live_coherent (by simp) (by simpa [Stage.keeps] using slot false bare) state ?_ (by simp [Stage.locked])
        intro decider holds
        cases Option.some.inj holds
        exact ⟨rfl,by simp⟩
      · cases moved
    | some (.ok _) =>
      simp only [Item.goes,stage] at moved
      cases Option.some.inj moved
      exact publish_coherent ok live stage rfl bare rfl rfl rfl rfl
    | some (.error message) =>
      simp only [Item.goes,stage] at moved
      split at moved <;> cases Option.some.inj moved
      all_goals exact publish_coherent ok live stage rfl bare rfl rfl rfl rfl
  | deciding =>
    simp only [Item.goes,stage] at moved
    cases Option.some.inj moved
    have bare := slot false (by rw [stage]; rfl)
    have holds := locked.mpr (by rw [stage]; rfl)
    exact live_coherent (by simp) (by simpa [Stage.keeps] using bare) state holder (by simpa [Stage.locked] using holds)
  | swapped wasPausing =>
    have bare := slot false (by rw [stage]; rfl)
    simp only [Item.goes,stage] at moved
    split at moved <;> cases Option.some.inj moved
    · exact over_coherent rfl bare rfl (by simp)
    · exact live_coherent (by simp) (by simpa [Stage.keeps] using bare) state (by simp) (by simp [Stage.locked])
  | cleaning =>
    simp only [Item.goes,stage] at moved
    cases Option.some.inj moved
    exact publish_coherent ok live stage rfl (by rw [stage]; rfl) rfl rfl rfl rfl

theorem attempt_coherent {item after : Item} (ok : Coherent item)
    (moved : item.attempt policy choice = some (after,demand)) : Coherent after := by
  have live : item.stage ≠ .ended := by
    intro atEnd
    cases choice <;> simp [Item.attempt,Item.goes,atEnd] at moved
  obtain ⟨state,_⟩ := live_parts ok live
  cases choice with
  | goes => exact goes_coherent ok moved
  | takes =>
    simp only [Item.attempt] at moved
    split at moved
    · rename_i stage
      cases Option.some.inj moved
      exact kept_coherent ok live stage rfl rfl rfl (by simp) rfl rfl rfl state
    · rename_i how stage
      cases Option.some.inj moved
      exact kept_coherent ok live stage rfl rfl rfl (by simp) rfl rfl rfl state
    · cases moved
  | stops =>
    obtain ⟨_,moved⟩ := Option.ite_none_right_eq_some.mp moved
    split at moved
    · rename_i stage
      cases Option.some.inj moved
      exact kept_coherent ok live stage rfl rfl rfl (by simp) rfl rfl rfl state
    · rename_i stage
      cases Option.some.inj moved
      exact advance_coherent ok live stage rfl rfl (by simp) rfl (by simp [Stage.keeps]) state
    · rename_i stage
      cases Option.some.inj moved
      exact advance_coherent ok live stage rfl rfl (by simp) rfl (by simp [Stage.keeps]) state
    · rename_i how stage
      cases Option.some.inj moved
      exact advance_coherent ok live stage rfl rfl (by simp) rfl (by simp [Stage.keeps]) state
    · cases moved
  | meets =>
    simp only [Item.attempt] at moved
    split at moved
    · rename_i stage
      cases Option.some.inj moved
      exact kept_coherent ok live stage rfl rfl rfl (by simp) rfl rfl rfl state
    · cases moved
  | hears =>
    simp only [Item.attempt] at moved
    split at moved
    · rename_i stage _
      cases Option.some.inj moved
      exact kept_coherent ok live stage rfl rfl rfl (by simp) rfl rfl rfl state
    · cases moved
  | returns result =>
    simp only [Item.attempt] at moved
    split at moved
    · rename_i stage
      cases Option.some.inj moved
      exact advance_coherent ok live stage rfl rfl (by simp) rfl (by simp [Stage.keeps]) state
    · cases moved

-- A command's thread that neither restarts nor discards only changes flags.
theorem flags_coherent (ok : Coherent item) (state : after.state = item.state) (stage : after.stage = item.stage)
    (slot : after.slot = item.slot) (same : after.decide = item.decide) : Coherent after where
  slot := by rw [stage,slot]; exact ok.slot
  final := by rw [state,stage]; exact ok.final
  restarting := by rw [same,stage,state]; exact ok.restarting
  ended := by rw [stage,state,same]; exact ok.ended
  discarding := by rw [same,stage,state]; exact ok.discarding
  locked := by rw [same,stage]; exact ok.locked

theorem holder_coherent (ok : Coherent item) (state : after.state = item.state) (stage : after.stage = item.stage)
    (slot : after.slot = item.slot) (other : item.decide ≠ some .attempt)
    (calm : ∀ decider, item.decide = some decider → decider.restarting = false)
    (next : ∀ decider, after.decide = some decider → decider.restarting = false ∧ decider ≠ .cancelDiscarding ∧ decider ≠ .attempt) :
    Coherent after where
  slot := by rw [stage,slot]; exact ok.slot
  final := by rw [state,stage]; exact ok.final
  restarting decider holds restarting := by rw [(next decider holds).1] at restarting; cases restarting
  ended := by
    rw [stage,state]
    intro atEnd
    rcases ok.ended atEnd with final | ⟨decider,holds,restarting⟩
    · exact .inl final
    · rw [calm decider holds] at restarting; cases restarting
  discarding holds := absurd rfl (next _ holds).2.1
  locked := by
    rw [stage]
    constructor
    · intro holds
      exact absurd rfl (next _ holds).2.2
    · intro locked
      exact absurd (ok.locked.mpr locked) other

theorem ended_bare (ok : Coherent item) (atEnd : item.stage = .ended) : item.slot = false := by
  apply ok.slot
  rw [atEnd]
  rfl

theorem cancelSees_coherent (ok : Coherent item) (holds : item.decide = some .cancelLocked) :
    Coherent item.cancelSees := by
  have marks : ∀ accepted decide, (decide = some .cancelMarking ∨ decide = none) →
      Coherent {item with decide := decide,accepted := accepted} := by
    intro accepted decide calm
    refine holder_coherent ok rfl rfl rfl (by simp [holds]) ?_ ?_
    · intro decider same
      rw [holds] at same
      cases same
      rfl
    · intro decider same
      rcases calm with rfl | rfl
      · cases same
        exact ⟨rfl,by simp,by simp⟩
      · cases same
  have discards : item.state.final = true → Coherent {item with decide := some .cancelDiscarding} := by
    intro final
    have atEnd := ok.final final
    have bare := ended_bare ok atEnd
    refine over_coherent atEnd bare final ?_
    intro decider same
    cases Option.some.inj same
    exact ⟨rfl,by simp⟩
  cases state : item.state with
  | queued | running | conflict => simpa only [Item.cancelSees,state] using marks true _ (.inl rfl)
  | failed | paused => simpa only [Item.cancelSees,state] using discards (by rw [state]; rfl)
  | done | cancelled => simpa only [Item.cancelSees,state] using marks item.accepted _ (.inr rfl)

theorem restart_coherent (atEnd : after.stage = .ended) (slot : after.slot = false) (state : after.state = .queued)
    (holds : after.decide = some holder) (restarting : holder.restarting = true) : Coherent after where
  slot kept keeps := by rw [atEnd] at keeps; cases keeps; exact slot
  final _ := atEnd
  restarting _ _ _ := ⟨atEnd,state⟩
  ended _ := .inr ⟨holder,holds,restarting⟩
  discarding same := by rw [holds] at same; cases same; cases restarting
  locked := by
    rw [atEnd,holds]
    constructor
    · intro same
      cases same
      cases restarting
    · intro locked
      cases locked

theorem retryChecks_coherent (ok : Coherent item) (holds : item.decide = some .retryLocked) :
    Coherent item.retryChecks := by
  have restarts : item.state.final = true →
      Coherent {item with state := .queued,error := "",decide := some .retryUnpausing,accepted := false} := by
    intro final
    have atEnd := ok.final final
    have bare := ended_bare ok atEnd
    exact restart_coherent atEnd bare rfl rfl rfl
  have refuses : Coherent {item with decide := none} := by
    refine holder_coherent ok rfl rfl rfl (by simp [holds]) ?_ (by simp)
    intro decider same
    rw [holds] at same
    cases same
    rfl
  cases state : item.state with
  | failed | paused | cancelled => simpa only [Item.retryChecks,state] using restarts (by rw [state]; rfl)
  | queued | running | conflict | done => simpa only [Item.retryChecks,state] using refuses

theorem decides_coherent (ok : Coherent item) (moved : item.decides = some after) : Coherent after := by
  -- The three stores of a cancel only hand the lock on.
  have hands : ∀ holder, item.decide = some holder → holder.restarting = false → holder ≠ .attempt →
      ∀ next, (∀ decider, next.decide = some decider → decider.restarting = false ∧ decider ≠ .cancelDiscarding ∧ decider ≠ .attempt) →
      next.state = item.state → next.stage = item.stage → next.slot = item.slot → Coherent next := by
    intro holder holds calm other next quiet state stage slot
    refine holder_coherent ok state stage slot ?_ ?_ quiet
    · rw [holds]
      intro same
      exact other (Option.some.inj same)
    · intro decider same
      rw [holds] at same
      cases same
      exact calm
  have restarts : ∀ holder, item.decide = some holder → holder.restarting = true →
      item.stage = .ended ∧ item.slot = false ∧ item.state = .queued := by
    intro holder holds restarting
    obtain ⟨atEnd,queued⟩ := ok.restarting holder holds restarting
    exact ⟨atEnd,ended_bare ok atEnd,queued⟩
  cases holds : item.decide with
  | none => simp [Item.decides,holds] at moved
  | some holder =>
    simp only [Item.decides,holds] at moved
    cases holder with
    | cancelLocked => cases Option.some.inj moved; exact cancelSees_coherent ok holds
    | cancelMarking | cancelClearing =>
      cases Option.some.inj moved
      exact hands _ holds rfl (by simp) _ (by simp [Decider.restarting]) rfl rfl rfl
    | cancelSignalling =>
      cases Option.some.inj moved
      exact hands _ holds rfl (by simp) _ (by simp) rfl rfl rfl
    | cancelDiscarding =>
      cases Option.some.inj moved
      obtain ⟨atEnd,_⟩ := ok.discarding holds
      have bare := ended_bare ok atEnd
      exact over_coherent atEnd bare rfl (by simp)
    | retryLocked => cases Option.some.inj moved; exact retryChecks_coherent ok holds
    | retryUnpausing | retryUncancelling =>
      cases Option.some.inj moved
      obtain ⟨atEnd,bare,queued⟩ := restarts _ holds rfl
      exact restart_coherent atEnd bare queued rfl rfl
    | retryOpening =>
      cases Option.some.inj moved
      obtain ⟨atEnd,bare,queued⟩ := restarts _ holds rfl
      exact live_coherent (by simp) (by simpa [Stage.keeps] using bare) (by simp [queued,State.final]) (by simp) (by simp [Stage.locked])
    | attempt => cases moved

theorem command_coherent {item after : Item} (ok : Coherent item) (moved : item.command command = some after) : Coherent after := by
  have locks : ∀ holder : Decider, holder.restarting = false → holder ≠ .cancelDiscarding → holder ≠ .attempt → item.decide = none →
      Coherent {item with decide := some holder} := by
    intro holder calm keeps other free
    refine holder_coherent ok rfl rfl rfl (by simp [free]) (by simp [free]) ?_
    intro decider same
    cases Option.some.inj same
    exact ⟨calm,keeps,other⟩
  cases command with
  | cancel =>
    obtain ⟨free,⟨⟩⟩ := Option.ite_none_right_eq_some.mp moved
    exact locks .cancelLocked rfl (by simp) (by simp) free
  | retry =>
    obtain ⟨free,⟨⟩⟩ := Option.ite_none_right_eq_some.mp moved
    exact locks .retryLocked rfl (by simp) (by simp) free
  | decides => exact decides_coherent ok moved
  | pause | resolve =>
    simp only [Item.command] at moved
    split at moved <;> cases Option.some.inj moved
    · exact flags_coherent ok rfl rfl rfl rfl
    · exact ok
  | pauseMarks | pauseSignals | resolveStores how | resolveWakes =>
    simp only [Item.command] at moved
    split at moved <;> cases moved
    exact flags_coherent ok rfl rfl rfl rfl

def AllCoherent (s : Transfers) : Prop := ∀ item ∈ s.items, Coherent item

theorem step_coherent (ok : AllCoherent s) (moved : step s event = some next) : AllCoherent next := by
  refine items_preserved fresh_coherent ?_ ?_ ok moved
  · intro policy item choice after demand before attempted
    exact attempt_coherent before attempted
  · intro item command after before commanded
    exact command_coherent before commanded

theorem run_coherent (ran : Runs.run step (withOptions parallel) events = some s) : AllCoherent s := by
  refine Runs.run_preserves ?_ ?_ ran
  · intro before event next ok moved
    exact step_coherent ok moved
  · intro item listed
    cases listed

theorem added_coherent : ∃ s, Runs.run step (withOptions 1) [.added,.attempts 0 .takes] = some s ∧ AllCoherent s :=
  ⟨_,rfl,run_coherent (show Runs.run step (withOptions 1) [.added,.attempts 0 .takes] = some _ from rfl)⟩

end RemoteFileExplorer.DesktopTransfers
