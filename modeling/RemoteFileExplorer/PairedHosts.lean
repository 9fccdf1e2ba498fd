import Mathlib.Data.List.Perm.Basic
import Mathlib.Logic.Function.Basic
import RemoteFileExplorer.CertPins
import RemoteFileExplorer.Runs

namespace RemoteFileExplorer.PairedHosts
open PathTexts CertPins
open Function (update)

structure Host where
  id : String
  label : String
  address : String
  certFingerprint : Option Text
  tailscaleName : Option String
  tailscaleAddress : Option String
  internetAddress : Option String
  macAddress : Option String
  note : Option String
  deriving DecidableEq, Repr

structure Patch where
  set : Host → Host
  id : ∀ host, (set host).id = host.id

inductive Op where
  | addHost (host : Host)
  | updateHost (host : Host)
  | patchHost (id : String) (patch : Patch)
  | touchHost (id : String)
  | removeHost (id : String)
  | setLastSeen (id : String) (time : Int)

def indexOf (hosts : List Host) (id : String) : Option Nat := hosts.findIdx? (fun h => h.id == id)
def listed (hosts : List Host) (id : String) : Bool := hosts.any (fun h => h.id == id)

def apply (hosts : List Host) : Op → List Host
  | .addHost host => hosts.filter (fun h => h.id != host.id) ++ [host]
  | .updateHost host => (indexOf hosts host.id).elim hosts (hosts.set · host)
  | .patchHost id patch => (indexOf hosts id).elim hosts (hosts.modify · patch.set)
  | .touchHost id => (indexOf hosts id).elim hosts (fun i => (hosts[i]?).toList ++ hosts.eraseIdx i)
  | .removeHost id => hosts.filter (fun h => h.id != id)
  | .setLastSeen _ _ => hosts

def skips (hosts : List Host) : Op → Bool
  | .updateHost host => !listed hosts host.id
  | .patchHost id _ | .setLastSeen id _ => !listed hosts id
  | .touchHost id => (indexOf hosts id).elim true (· == 0)
  | .addHost _ | .removeHost _ => false

structure Task where
  op : Op
  pairing : Option Nat

inductive Stage where
  | ready
  | tokenDeleted
  | pinDeleted
  | read (hosts : List Host)
  | written
  | cleared

inductive PairStage where
  | started
  | pinRead
  | tokenRead
  | pinWritten
  | tokenWritten
  | queued
  | done
  deriving DecidableEq, Repr

structure Pairing where
  host : Host
  token : String
  pin : Pin
  stage : PairStage

inductive Secret where
  | pin
  | token
  deriving DecidableEq, Repr

def Pairing.wrote (p : Pairing) : Secret → Bool
  | .pin => p.stage == .pinWritten || p.stage == .tokenWritten || p.stage == .queued
  | .token => p.stage == .tokenWritten || p.stage == .queued

-- `order` lists the operations as they entered the queue; nothing reads it.
structure State where
  hosts : List Host
  pins : String → Option Text
  tokens : String → Option String
  lastSeen : String → Option Int
  queue : List Task
  stage : Stage
  pairings : List Pairing
  order : List Op

def initial : State := ⟨[],fun _ => none,fun _ => none,fun _ => none,[],.ready,[],[]⟩

inductive Event where
  | call (op : Op)
  | commitPairing (host : Host) (token : String) (fingerprint : Text)
  | pairing (k : Nat)
  | work

def enqueue (s : State) (op : Op) (pairing : Option Nat) : State :=
  {s with queue := s.queue ++ [⟨op,pairing⟩],order := s.order ++ [op]}

def atPairing (s : State) (k : Nat) (stage : PairStage) : State :=
  {s with pairings := s.pairings.modify k (fun p => {p with stage := stage})}

-- The secrets are written outside the queue, the pin first. No storage call
-- fails, so what was read for the way back is never used.
def pairOn (s : State) (k : Nat) (p : Pairing) : Option State :=
  match p.stage with
  | .started => some (atPairing s k .pinRead)
  | .pinRead => some (atPairing s k .tokenRead)
  | .tokenRead => some {atPairing s k .pinWritten with pins := update s.pins p.host.id (some p.pin.hex)}
  | .pinWritten => some {atPairing s k .tokenWritten with tokens := update s.tokens p.host.id (some p.token)}
  | .tokenWritten => some (enqueue (atPairing s k .queued) (.addHost {p.host with certFingerprint := some p.pin.hex}) (some k))
  | .queued | .done => none

def finish (s : State) (rest : List Task) (pairing : Option Nat) : State :=
  {pairing.elim s (atPairing s · .done) with queue := rest,stage := .ready}

def write (s : State) (hosts : List Host) : Op → State
  | .setLastSeen id time => {s with lastSeen := update s.lastSeen id (some time)}
  | op => {s with hosts := apply hosts op}

-- One storage call of the first task of the queue.
def work (s : State) : Option State :=
  match s.queue,s.stage with
  | [],_ => none
  | ⟨.removeHost id,_⟩::_,.ready => some {s with tokens := update s.tokens id none,stage := .tokenDeleted}
  | ⟨.removeHost id,_⟩::_,.tokenDeleted => some {s with pins := update s.pins id none,stage := .pinDeleted}
  | ⟨.removeHost _,_⟩::_,.pinDeleted => some {s with stage := .read s.hosts}
  | ⟨.removeHost id,_⟩::_,.read hosts => some {s with hosts := apply hosts (.removeHost id),stage := .written}
  | ⟨.removeHost id,_⟩::_,.written => some {s with lastSeen := update s.lastSeen id none,stage := .cleared}
  | ⟨.removeHost _,pairing⟩::rest,.cleared => some (finish s rest pairing)
  | task::rest,.ready => if skips s.hosts task.op then some (finish s rest task.pairing) else some {s with stage := .read s.hosts}
  | task::rest,.read hosts => some (finish (write s hosts task.op) rest task.pairing)
  | _,_ => none

def step (s : State) : Event → Option State
  | .call op => some (enqueue s op none)
  | .commitPairing host token fingerprint =>
    match normalizeFingerprint fingerprint with
    | none => some s
    | some pin => some {s with pairings := s.pairings ++ [⟨host,token,pin,.started⟩]}
  | .pairing k => (s.pairings[k]?).bind (pairOn s k)
  | .work => work s

section Lists
variable {hosts : List Host} {op : Op} {own : String}

theorem listed_iff : listed hosts own = true ↔ own ∈ hosts.map Host.id := by
  simp [listed]

theorem indexOf_some (found : indexOf hosts own = some i) : ∃ h, hosts[i]? = some h ∧ h.id = own := by
  obtain ⟨inside,same,_⟩ := List.findIdx?_eq_some_iff_getElem.mp found
  exact ⟨hosts[i],List.getElem?_eq_getElem inside,by simpa using same⟩

theorem unlisted_index (unlisted : listed hosts own = false) : indexOf hosts own = none := by
  cases found : indexOf hosts own with
  | none => rfl
  | some i =>
    obtain ⟨h,stands,same⟩ := indexOf_some found
    have member : listed hosts own = true := listed_iff.mpr (List.mem_map.mpr ⟨h,List.mem_of_getElem? stands,same⟩)
    rw [unlisted] at member
    cases member

theorem rewritten_ids (stands : hosts[i]? = some h) (same : (change h).id = h.id) : (hosts.modify i change).map Host.id = hosts.map Host.id := by
  apply List.ext_getElem?
  intro j
  by_cases here : i = j
  · subst here
    simp [stands,same]
  · simp [here]

theorem kept_ids (added : ∀ host, op ≠ .addHost host) (removed : ∀ own, op ≠ .removeHost own) :
    List.Perm ((apply hosts op).map Host.id) (hosts.map Host.id) := by
  cases op with
  | addHost host => exact absurd rfl (added host)
  | removeHost id => exact absurd rfl (removed id)
  | setLastSeen id time => exact .refl _
  | updateHost host =>
    simp only [apply]
    cases found : indexOf hosts host.id with
    | none => exact .refl _
    | some i =>
      obtain ⟨h,stands,same⟩ := indexOf_some found
      have changed : hosts.set i host = hosts.modify i (fun _ => host) := by
        apply List.ext_getElem?
        intro j
        by_cases here : i = j
        · subst here
          simp [(List.getElem?_eq_some_iff.mp stands).1]
        · simp [here]
      simp only [Option.elim,changed]
      rw [rewritten_ids stands same.symm]
  | patchHost id patch =>
    simp only [apply]
    cases found : indexOf hosts id with
    | none => exact .refl _
    | some i =>
      obtain ⟨h,stands,_⟩ := indexOf_some found
      simp only [Option.elim]
      rw [rewritten_ids stands (patch.id h)]
  | touchHost id =>
    simp only [apply]
    cases found : indexOf hosts id with
    | none => exact .refl _
    | some i =>
      obtain ⟨h,stands,_⟩ := indexOf_some found
      obtain ⟨inside,same⟩ := List.getElem?_eq_some_iff.mp stands
      have whole := (List.getElem_cons_eraseIdx_perm inside).map Host.id
      simpa [stands,same] using whole

theorem apply_distinct (distinct : (hosts.map Host.id).Nodup) : ((apply hosts op).map Host.id).Nodup := by
  have filtered : ∀ own, ((hosts.filter (fun h => h.id != own)).map Host.id).Nodup :=
    fun own => distinct.sublist (List.filter_sublist.map Host.id)
  cases op with
  | addHost host =>
    simp only [apply,List.map_append,List.map_cons,List.map_nil]
    rw [List.nodup_append]
    refine ⟨filtered host.id,by simp,?_⟩
    intro own member other single same
    obtain ⟨h,within,rfl⟩ := List.mem_map.mp member
    have different := (List.mem_filter.mp within).2
    rw [List.mem_singleton.mp single] at same
    simp [same] at different
  | removeHost id => exact filtered id
  | updateHost | patchHost | touchHost | setLastSeen =>
    exact (kept_ids (by simp) (by simp)).nodup_iff.mpr distinct

theorem apply_listed : listed (apply hosts op) own = true ↔
    (∃ host, op = .addHost host ∧ host.id = own) ∨ listed hosts own = true ∧ op ≠ .removeHost own := by
  cases op with
  | addHost host =>
    simp only [listed_iff,apply,List.map_append,List.map_cons,List.map_nil,List.mem_append,List.mem_singleton,List.mem_map,List.mem_filter]
    by_cases same : host.id = own
    · subst same
      simp
    · have other : ¬ own = host.id := fun equal => same equal.symm
      simp only [other,or_false,Op.addHost.injEq,exists_eq_left',same,false_or,ne_eq,reduceCtorEq,not_false_eq_true,and_true]
      constructor
      · rintro ⟨h,⟨within,_⟩,named⟩
        exact ⟨h,within,named⟩
      · rintro ⟨h,within,named⟩
        exact ⟨h,⟨within,by simpa [named] using other⟩,named⟩
  | removeHost id =>
    simp only [listed_iff,apply,List.mem_map,List.mem_filter,reduceCtorEq,false_and,exists_false,false_or,ne_eq,Op.removeHost.injEq]
    constructor
    · rintro ⟨h,⟨within,different⟩,rfl⟩
      exact ⟨⟨h,within,rfl⟩,fun same => by simp [same] at different⟩
    · rintro ⟨⟨h,within,rfl⟩,different⟩
      exact ⟨h,⟨within,by simpa using fun same => different same.symm⟩,rfl⟩
  | updateHost | patchHost | touchHost | setLastSeen =>
    rw [listed_iff,listed_iff,(kept_ids (by simp) (by simp)).mem_iff]
    simp

theorem skips_same (skipped : skips hosts op = true) : apply hosts op = hosts := by
  cases op with
  | addHost host | removeHost id => cases skipped
  | setLastSeen id time => rfl
  | updateHost host => simp [apply,unlisted_index (show listed hosts host.id = false by simpa [skips] using skipped)]
  | patchHost id patch => simp [apply,unlisted_index (show listed hosts id = false by simpa [skips] using skipped)]
  | touchHost id =>
    simp only [skips] at skipped
    cases found : indexOf hosts id with
    | none => simp [apply,found]
    | some i =>
      rw [found] at skipped
      obtain rfl : i = 0 := by simpa using skipped
      cases hosts with
      | nil | cons first rest => simp [apply,found]

end Lists

section Queue
variable {s next : State} {event : Event}

inductive Works (s : State) (task : Task) (rest : List Task) : State → Prop where
  | deleteToken : task.op = .removeHost own → s.stage = .ready →
      Works s task rest {s with tokens := update s.tokens own none,stage := .tokenDeleted}
  | deletePin : task.op = .removeHost own → s.stage = .tokenDeleted →
      Works s task rest {s with pins := update s.pins own none,stage := .pinDeleted}
  | readRemoved : task.op = .removeHost own → s.stage = .pinDeleted → Works s task rest {s with stage := .read s.hosts}
  | writeRemoved : task.op = .removeHost own → s.stage = .read hosts →
      Works s task rest {s with hosts := apply hosts (.removeHost own),stage := .written}
  | clear : task.op = .removeHost own → s.stage = .written → Works s task rest {s with lastSeen := update s.lastSeen own none,stage := .cleared}
  | finishRemoved : task.op = .removeHost own → s.stage = .cleared → Works s task rest (finish s rest task.pairing)
  | skip : (∀ own, task.op ≠ .removeHost own) → s.stage = .ready → skips s.hosts task.op = true → Works s task rest (finish s rest task.pairing)
  | read : (∀ own, task.op ≠ .removeHost own) → s.stage = .ready → Works s task rest {s with stage := .read s.hosts}
  | write : (∀ own, task.op ≠ .removeHost own) → s.stage = .read hosts → Works s task rest (finish (write s hosts task.op) rest task.pairing)

theorem work_parts (worked : work s = some next) : ∃ task rest, s.queue = task::rest ∧ Works s task rest next := by
  unfold work at worked
  split at worked
  · cases worked
  · rename_i own pairing rest queue stage
    cases worked
    exact ⟨_,_,queue,.deleteToken rfl stage⟩
  · rename_i own pairing rest queue stage
    cases worked
    exact ⟨_,_,queue,.deletePin rfl stage⟩
  · rename_i own pairing rest queue stage
    cases worked
    exact ⟨_,_,queue,.readRemoved rfl stage⟩
  · rename_i own pairing rest hosts queue stage
    cases worked
    exact ⟨_,_,queue,.writeRemoved rfl stage⟩
  · rename_i own pairing rest queue stage
    cases worked
    exact ⟨_,_,queue,.clear rfl stage⟩
  · rename_i own pairing rest queue stage
    cases worked
    exact ⟨_,_,queue,.finishRemoved rfl stage⟩
  · rename_i task rest other queue stage
    have kept : ∀ own, task.op ≠ .removeHost own := by
      intro own same
      exact other own task.pairing (by cases task; cases same; rfl)
    split at worked
    · rename_i skipped
      cases worked
      exact ⟨_,_,queue,.skip kept stage skipped⟩
    · cases worked
      exact ⟨_,_,queue,.read kept stage⟩
  · rename_i task rest hosts other queue stage
    have kept : ∀ own, task.op ≠ .removeHost own := by
      intro own same
      exact other own task.pairing (by cases task; cases same; rfl)
    cases worked
    exact ⟨_,_,queue,.write kept stage⟩
  · cases worked

def Staged (s : State) : Prop :=
  match s.stage with
  | .ready => True
  | .read hosts => s.queue ≠ [] ∧ hosts = s.hosts
  | _ => ∃ own pairing rest, s.queue = ⟨.removeHost own,pairing⟩::rest

def pending (s : State) : List Task :=
  match s.stage with
  | .written | .cleared => s.queue.tail
  | _ => s.queue

structure Serial (s : State) : Prop where
  staged : Staged s
  order : ∃ done, s.order = done ++ (pending s).map Task.op ∧ s.hosts = done.foldl apply []

@[simp] theorem finish_hosts (s : State) (rest : List Task) (pairing : Option Nat) : (finish s rest pairing).hosts = s.hosts := by
  cases pairing <;> rfl
@[simp] theorem finish_order (s : State) (rest : List Task) (pairing : Option Nat) : (finish s rest pairing).order = s.order := by
  cases pairing <;> rfl
@[simp] theorem finish_stage (s : State) (rest : List Task) (pairing : Option Nat) : (finish s rest pairing).stage = .ready := rfl
@[simp] theorem finish_queue (s : State) (rest : List Task) (pairing : Option Nat) : (finish s rest pairing).queue = rest := rfl
@[simp] theorem write_order (s : State) (hosts : List Host) (op : Op) : (write s hosts op).order = s.order := by
  cases op <;> rfl

theorem write_hosts (s : State) (op : Op) : (write s s.hosts op).hosts = apply s.hosts op := by
  cases op <;> rfl

theorem serial_finish (queue : s.queue = task::rest)
    (order : s.order = done ++ s.queue.map Task.op) (hosts : apply (done.foldl apply []) task.op = next.hosts)
    (kept : next.order = s.order) (ready : next.stage = .ready) (popped : next.queue = rest) : Serial next := by
  refine ⟨by rw [Staged,ready]; trivial,done ++ [task.op],?_,?_⟩
  · rw [kept,order,queue,pending,ready,popped]
    simp
  · rw [← hosts]
    simp

theorem work_serial (serial : Serial s) (worked : work s = some next) : Serial next := by
  obtain ⟨staged,done,order,hosts⟩ := serial
  obtain ⟨task,rest,queue,works⟩ := work_parts worked
  have first : s.stage ≠ .written → s.stage ≠ .cleared → s.order = done ++ s.queue.map Task.op := by
    intro early late
    rw [order,pending]
    split
    · exact absurd ‹_› early
    · exact absurd ‹_› late
    · rfl
  have head : ∀ own, task.op = .removeHost own → ∃ own pairing rest, s.queue = ⟨.removeHost own,pairing⟩::rest := by
    intro own same
    exact ⟨own,task.pairing,rest,by rw [queue]; cases task; cases same; rfl⟩
  cases works with
  | deleteToken named stage | deletePin named stage => exact ⟨head _ named,done,by simpa [pending] using first (by simp [stage]) (by simp [stage]),hosts⟩
  | readRemoved named stage | read kept stage =>
    exact ⟨⟨by simp [queue],rfl⟩,done,by simpa [pending] using first (by simp [stage]) (by simp [stage]),hosts⟩
  | writeRemoved named stage =>
    rw [Staged,stage] at staged
    refine ⟨head _ named,done ++ [task.op],?_,?_⟩
    · have whole := first (by simp [stage]) (by simp [stage])
      simpa [pending,queue] using whole
    · simp [named,staged.2,hosts]
  | clear named stage =>
    refine ⟨head _ named,done,?_,hosts⟩
    rw [order,pending,stage]
    rfl
  | finishRemoved named stage =>
    refine ⟨trivial,done,?_,by simpa using hosts⟩
    rw [finish_order,order,pending,stage,queue]
    rfl
  | skip kept stage skipped =>
    refine serial_finish queue (first (by simp [stage]) (by simp [stage])) ?_ (by simp) rfl rfl
    rw [← hosts,skips_same skipped,finish_hosts]
  | write kept stage =>
    rw [Staged,stage] at staged
    refine serial_finish queue (first (by simp [stage]) (by simp [stage])) ?_ (by simp) rfl rfl
    rw [finish_hosts,staged.2,write_hosts,hosts]

theorem enqueue_staged (staged : Staged s) (op : Op) (pairing : Option Nat) : Staged (enqueue s op pairing) := by
  rw [Staged] at staged ⊢
  change match s.stage with
    | .ready => True
    | .read hosts => s.queue ++ [⟨op,pairing⟩] ≠ [] ∧ hosts = s.hosts
    | _ => ∃ own other rest, s.queue ++ [⟨op,pairing⟩] = ⟨.removeHost own,other⟩::rest
  cases stage : s.stage with
  | ready => trivial
  | read hosts =>
    rw [stage] at staged
    exact ⟨by simp,staged.2⟩
  | tokenDeleted | pinDeleted | written | cleared =>
    rw [stage] at staged
    obtain ⟨own,other,rest,queue⟩ := staged
    exact ⟨own,other,rest ++ [⟨op,pairing⟩],by rw [queue]; rfl⟩

theorem enqueue_serial (serial : Serial s) (op : Op) (pairing : Option Nat) : Serial (enqueue s op pairing) := by
  obtain ⟨staged,done,order,hosts⟩ := serial
  refine ⟨enqueue_staged staged op pairing,done,?_,hosts⟩
  have later : pending (enqueue s op pairing) = pending s ++ [⟨op,pairing⟩] := by
    unfold pending
    change (match s.stage with
      | .written | .cleared => (s.queue ++ [(⟨op,pairing⟩ : Task)]).tail
      | _ => s.queue ++ [(⟨op,pairing⟩ : Task)]) = _
    cases stage : s.stage with
    | written | cleared =>
      rw [Staged,stage] at staged
      obtain ⟨own,other,rest,queue⟩ := staged
      rw [queue]
      rfl
    | ready | read | tokenDeleted | pinDeleted => rfl
  rw [later]
  simp only [enqueue,order,List.map_append,List.map_cons,List.map_nil,List.append_assoc]

theorem pairing_serial (serial : Serial s) (moved : pairOn s k p = some next) : Serial next := by
  have aside : ∀ stage, Serial (atPairing s k stage) := fun stage => ⟨serial.staged,serial.order⟩
  unfold pairOn at moved
  split at moved <;> cases moved
  · exact aside _
  · exact aside _
  · exact ⟨serial.staged,serial.order⟩
  · exact ⟨serial.staged,serial.order⟩
  · exact enqueue_serial (aside _) _ _

theorem step_serial (serial : Serial s) (stepped : step s event = some next) : Serial next := by
  cases event with
  | call op =>
    cases stepped
    exact enqueue_serial serial op none
  | commitPairing host token fingerprint =>
    simp only [step] at stepped
    split at stepped <;> cases stepped
    · exact serial
    · exact ⟨serial.staged,serial.order⟩
  | pairing k =>
    obtain ⟨p,_,moved⟩ := Option.bind_eq_some_iff.mp stepped
    exact pairing_serial serial moved
  | work => exact work_serial serial stepped

end Queue

def has (s : State) : Secret → String → Bool
  | .pin,own => (s.pins own).isSome
  | .token,own => (s.tokens own).isSome

def gone : Secret → Stage → Bool
  | .token,.tokenDeleted => true
  | _,.pinDeleted | _,.read _ => true
  | _,_ => false

def drops (s : State) (which : Secret) (own : String) : Bool :=
  match s.queue with
  | ⟨.removeHost id,_⟩::_ => id == own && gone which s.stage
  | _ => false

def WroteIn (pairings : List Pairing) (which : Secret) (own : String) : Prop :=
  ∃ (j : Nat) (q : Pairing), pairings[j]? = some q ∧ q.host.id = own ∧ q.wrote which = true

-- A secret is stored for the listed hosts, and for those about to be listed.
def Secrets (s : State) : Prop :=
  ∀ which own, has s which own = true ↔ (listed s.hosts own = true ∧ drops s which own = false) ∨ WroteIn s.pairings which own

structure Linked (s : State) : Prop where
  tasks : ∀ task ∈ s.queue, ∀ k, task.pairing = some k → ∃ p host, s.pairings[k]? = some p ∧ p.stage = .queued ∧ task.op = .addHost host ∧ host.id = p.host.id
  once : (s.queue.filterMap Task.pairing).Nodup
  owned : ∀ task ∈ s.queue, ∀ host, task.op = .addHost host → task.pairing ≠ none

-- addHost is called by a pairing only, and no removal deletes a secret that a
-- pairing of the same host has stored and not yet listed.
def apart (s : State) : Event → Bool
  | .call (.addHost _) => false
  | .work =>
    match s.queue,s.stage with
    | ⟨.removeHost own,_⟩::_,.ready => s.pairings.all (fun p => !(p.host.id == own && p.wrote .token))
    | ⟨.removeHost own,_⟩::_,.tokenDeleted => s.pairings.all (fun p => !(p.host.id == own && p.wrote .pin))
    | _,_ => true
  | _ => true

section Pairings
variable {s next : State} {event : Event} {p : Pairing} {which : Secret} {own : String}

def Others (pairings : List Pairing) (k : Nat) (which : Secret) (own : String) : Prop :=
  ∃ (j : Nat) (q : Pairing), j ≠ k ∧ pairings[j]? = some q ∧ q.host.id = own ∧ q.wrote which = true

theorem wrote_split (known : s.pairings[k]? = some p) :
    WroteIn s.pairings which own ↔ (p.host.id = own ∧ p.wrote which = true) ∨ Others s.pairings k which own := by
  constructor
  · rintro ⟨j,q,stands,named,wrote⟩
    by_cases here : j = k
    · subst here
      cases known.symm.trans stands
      exact .inl ⟨named,wrote⟩
    · exact .inr ⟨j,q,here,stands,named,wrote⟩
  · rintro (⟨named,wrote⟩ | ⟨j,q,_,stands,named,wrote⟩)
    · exact ⟨k,p,known,named,wrote⟩
    · exact ⟨j,q,stands,named,wrote⟩

theorem atPairing_here (known : s.pairings[k]? = some p) (stage : PairStage) :
    (atPairing s k stage).pairings[k]? = some {p with stage := stage} := by
  simp [atPairing,known]

theorem atPairing_other (stage : PairStage) (other : j ≠ k) : (atPairing s k stage).pairings[j]? = s.pairings[j]? := by
  simp [atPairing,Ne.symm other]

theorem wrote_moved (known : s.pairings[k]? = some p) (stage : PairStage) :
    WroteIn (atPairing s k stage).pairings which own ↔
      (p.host.id = own ∧ ({p with stage := stage} : Pairing).wrote which = true) ∨ Others s.pairings k which own := by
  rw [wrote_split (atPairing_here known stage)]
  have same : Others (atPairing s k stage).pairings k which own ↔ Others s.pairings k which own := by
    constructor
    · rintro ⟨j,q,other,stands,rest⟩
      rw [atPairing_other stage other] at stands
      exact ⟨j,q,other,stands,rest⟩
    · rintro ⟨j,q,other,stands,rest⟩
      exact ⟨j,q,other,(atPairing_other stage other).trans stands,rest⟩
  rw [same]

theorem wrote_same (known : s.pairings[k]? = some p) (stage : PairStage) (same : ({p with stage := stage} : Pairing).wrote which = p.wrote which) :
    WroteIn (atPairing s k stage).pairings which own ↔ WroteIn s.pairings which own := by
  rw [wrote_moved known,wrote_split known,same]

theorem linked_aside (linked : Linked s) (aside : ∀ task ∈ s.queue, task.pairing ≠ some k) (stage : PairStage) : Linked (atPairing s k stage) := by
  refine ⟨?_,linked.once,linked.owned⟩
  intro task member j named
  obtain ⟨q,host,stands,rest⟩ := linked.tasks task member j named
  have other : j ≠ k := by
    intro same
    subst same
    exact aside task member named
  exact ⟨q,host,(atPairing_other stage other).trans stands,rest⟩

-- Only a pairing whose task is queued is named in the queue.
theorem linked_unnamed (linked : Linked s) (known : s.pairings[k]? = some p) (early : p.stage ≠ .queued) : ∀ task ∈ s.queue, task.pairing ≠ some k := by
  intro task member named
  obtain ⟨q,host,stands,late,_⟩ := linked.tasks task member k named
  cases known.symm.trans stands
  exact early late

theorem drops_enqueue (staged : Staged s) (op : Op) (pairing : Option Nat) : drops (enqueue s op pairing) which own = drops s which own := by
  cases queue : s.queue with
  | cons task rest =>
    obtain ⟨first,named⟩ := task
    cases first <;> simp [drops,enqueue,queue]
  | nil =>
    have idle : s.stage = .ready := by
      rw [Staged] at staged
      cases stage : s.stage with
      | ready => rfl
      | read hosts =>
        rw [stage] at staged
        exact absurd queue staged.1
      | tokenDeleted | pinDeleted | written | cleared =>
        rw [stage] at staged
        obtain ⟨own,pairing,rest,some⟩ := staged
        rw [queue] at some
        cases some
    cases op <;> simp [drops,enqueue,queue,idle,gone]

theorem enqueue_secrets (staged : Staged s) (secrets : Secrets s) (op : Op) (pairing : Option Nat) : Secrets (enqueue s op pairing) := by
  intro which own
  rw [drops_enqueue staged]
  have before := secrets which own
  cases which <;> exact before

theorem enqueue_linked (linked : Linked s) (direct : ∀ host, op ≠ .addHost host) : Linked (enqueue s op none) := by
  refine ⟨?_,?_,?_⟩
  · intro task member k named
    rcases List.mem_append.mp member with old | new
    · exact linked.tasks task old k named
    · rw [List.mem_singleton.mp new] at named
      cases named
  · simpa [enqueue] using linked.once
  · intro task member host added
    rcases List.mem_append.mp member with old | new
    · exact linked.owned task old host added
    · rw [List.mem_singleton.mp new] at added
      exact absurd added (direct host)

theorem queued_linked (linked : Linked s) (known : s.pairings[k]? = some p) (early : p.stage ≠ .queued) (host : Host) (same : host.id = p.host.id) :
    Linked (enqueue (atPairing s k .queued) (.addHost host) (some k)) := by
  have unnamed := linked_unnamed linked known early
  have kept := linked_aside linked unnamed .queued
  refine ⟨?_,?_,?_⟩
  · intro task member j named
    rcases List.mem_append.mp member with old | new
    · exact kept.tasks task old j named
    · rw [List.mem_singleton.mp new] at named ⊢
      cases named
      exact ⟨_,host,atPairing_here known .queued,rfl,rfl,same⟩
  · have fresh : k ∉ s.queue.filterMap Task.pairing := by
      intro member
      obtain ⟨task,within,named⟩ := List.mem_filterMap.mp member
      exact unnamed task within named
    simp only [enqueue,atPairing,List.filterMap_append,List.filterMap_cons,List.filterMap_nil]
    rw [List.nodup_append]
    refine ⟨linked.once,by simp,?_⟩
    intro a member b single equal
    rw [List.mem_singleton.mp single] at equal
    exact fresh (equal ▸ member)
  · intro task member other added
    rcases List.mem_append.mp member with old | new
    · exact linked.owned task old other added
    · rw [List.mem_singleton.mp new]
      simp

theorem drops_kept (queue : s.queue = task::rest) (kept : ∀ own, task.op ≠ .removeHost own) : drops s which own = false := by
  obtain ⟨op,named⟩ := task
  cases op with
  | removeHost id => exact absurd rfl (kept id)
  | addHost | updateHost | patchHost | touchHost | setLastSeen => simp [drops,queue]

theorem drops_still (early : gone which s.stage = false) : drops s which own = false := by
  unfold drops
  split
  · rw [early,Bool.and_false]
  · rfl

theorem drops_removing (queue : s.queue = task::rest) (named : task.op = .removeHost removed) :
    drops s which own = (removed == own && gone which s.stage) := by
  obtain ⟨op,pairing⟩ := task
  cases named
  simp [drops,queue]

theorem linked_alone (linked : Linked s) (queue : s.queue = task::rest) (other : ∀ host, task.op ≠ .addHost host) :
    task.pairing = none := by
  cases named : task.pairing with
  | none => rfl
  | some k =>
    obtain ⟨p,host,_,_,added,_⟩ := linked.tasks task (by rw [queue]; exact List.mem_cons_self) k named
    exact absurd added (other host)

theorem linked_rest (linked : Linked s) (queue : s.queue = task::rest) (alone : task.pairing = none)
    (popped : next.queue = rest) (kept : next.pairings = s.pairings) : Linked next := by
  have within : ∀ other ∈ next.queue, other ∈ s.queue := by
    intro other member
    rw [queue]
    exact List.mem_cons_of_mem _ (popped ▸ member)
  refine ⟨?_,?_,fun other member => linked.owned other (within other member)⟩
  · intro other member k named
    rw [kept]
    exact linked.tasks other (within other member) k named
  · have once := linked.once
    rw [queue,List.filterMap_cons,alone] at once
    rw [popped]
    exact once

section
variable (secrets : Secrets s) (stored : ∀ which own, has next which own = has s which own)
include secrets stored

theorem secrets_frame (same : ∀ which own, (listed next.hosts own = true ∧ drops next which own = false) ↔ (listed s.hosts own = true ∧ drops s which own = false))
    (pairings : next.pairings = s.pairings) : Secrets next := by
  intro which own
  rw [stored,same,pairings]
  exact secrets which own

theorem secrets_stage (hosts : next.hosts = s.hosts)
    (same : ∀ which own, drops next which own = drops s which own) (pairings : next.pairings = s.pairings) : Secrets next := by
  apply secrets_frame secrets stored _ pairings
  intro which own
  rw [hosts,same]

end

theorem unwritten (clear : s.pairings.all (fun p => !(p.host.id == own && p.wrote which)) = true) : ¬ WroteIn s.pairings which own := by
  rintro ⟨j,q,stands,named,wrote⟩
  have spared := List.all_eq_true.mp clear q (List.mem_of_getElem? stands)
  simp [named,wrote] at spared

theorem stored_token (removed : String) (which : Secret) (own : String) (stage : Stage) :
    has {s with tokens := update s.tokens removed none,stage := stage} which own = (has s which own && !(which == .token && removed == own)) := by
  cases which with
  | pin => simp [has]
  | token =>
    by_cases same : own = removed
    · simp [has,same]
    · simp [has,same,Ne.symm same]

theorem stored_pin (removed : String) (which : Secret) (own : String) (stage : Stage) :
    has {s with pins := update s.pins removed none,stage := stage} which own = (has s which own && !(which == .pin && removed == own)) := by
  cases which with
  | token => simp [has]
  | pin =>
    by_cases same : own = removed
    · simp [has,same]
    · simp [has,same,Ne.symm same]

theorem deleted_secrets (secrets : Secrets s) (queue : s.queue = task::rest) (named : task.op = .removeHost removed)
    (kept : next.queue = s.queue) (hosts : next.hosts = s.hosts) (pairings : next.pairings = s.pairings)
    (stored : ∀ which own, has next which own = (has s which own && !(which == lost && removed == own)))
    (before : gone lost s.stage = false) (moved : ∀ which, gone which next.stage = (gone which s.stage || which == lost))
    (clear : ¬ WroteIn s.pairings lost removed) : Secrets next := by
  intro which own
  rw [stored,hosts,pairings,drops_removing (kept.trans queue) named,moved]
  have held := secrets which own
  rw [drops_removing queue named] at held
  by_cases here : which = lost ∧ removed = own
  · obtain ⟨rfl,rfl⟩ := here
    simp [clear]
  · have spared : (which == lost && removed == own) = false := by
      rw [Bool.and_eq_false_iff]
      by_cases same : which = lost
      · exact .inr (by simpa using fun equal => here ⟨same,equal⟩)
      · exact .inl (by simpa using same)
    rw [spared,Bool.not_false,Bool.and_true,held]
    by_cases same : removed = own
    · have other : (which == lost) = false := by simpa [same] using spared
      simp [same,other]
    · simp [same]

theorem finish_none (s : State) (rest : List Task) : finish s rest none = {s with queue := rest,stage := .ready} := rfl

theorem removed_secrets (secrets : Secrets s) (queue : s.queue = task::rest)
    (named : task.op = .removeHost removed) (stage : s.stage = .read s.hosts) :
    Secrets {s with hosts := apply s.hosts (.removeHost removed),stage := .written} := by
  intro which own
  have held := secrets which own
  have still : drops {s with hosts := apply s.hosts (.removeHost removed),stage := .written} which own = false :=
    drops_still (by cases which <;> rfl)
  rw [drops_removing queue named,stage] at held
  rw [still]
  change has s which own = true ↔ _
  rw [held]
  rw [apply_listed]
  have deleted : gone which (.read s.hosts) = true := by cases which <;> rfl
  by_cases same : removed = own
  · simp [same,deleted]
  · simp [same]

theorem listed_secrets (secrets : Secrets s) (linked : Linked s) (queue : s.queue = task::rest)
    (added : task.op = .addHost host) : Secrets (finish {s with hosts := apply s.hosts task.op} rest task.pairing) := by
  have first : task ∈ s.queue := by rw [queue]; exact List.mem_cons_self
  cases named : task.pairing with
  | none => exact absurd named (linked.owned task first host added)
  | some k =>
    obtain ⟨p,other,known,stage,same,ids⟩ := linked.tasks task first k named
    cases added.symm.trans same
    intro which own
    have held := secrets which own
    have still : drops (finish {s with hosts := apply s.hosts task.op} rest (some k)) which own = false := drops_still (by cases which <;> rfl)
    have quiet : drops s which own = false := drops_kept queue (by rw [added]; simp)
    have wrote : p.wrote which = true := by cases which <;> simp [Pairing.wrote,stage]
    have atEnd : ({p with stage := .done} : Pairing).wrote which = false := by cases which <;> rfl
    have stored : has (finish {s with hosts := apply s.hosts task.op} rest (some k)) which own = has s which own := by cases which <;> rfl
    rw [stored,held,still,quiet,wrote_split known]
    change _ ↔ (listed (apply s.hosts task.op) own = true ∧ _) ∨ WroteIn (atPairing s k .done).pairings which own
    rw [wrote_moved known,apply_listed,added,wrote,atEnd]
    by_cases here : host.id = own
    · simp [here,← ids]
    · have apart : ¬ p.host.id = own := by rw [← ids]; exact here
      simp [here,apart]

theorem listed_linked (linked : Linked s) (queue : s.queue = task::rest) (hosts : List Host) :
    Linked (finish {s with hosts := hosts} rest task.pairing) := by
  cases named : task.pairing with
  | none => exact linked_rest linked queue named rfl rfl
  | some k =>
    have once := linked.once
    rw [queue,List.filterMap_cons,named] at once
    have aside : ∀ other ∈ rest, other.pairing ≠ some k := by
      intro other member also
      exact (List.nodup_cons.mp once).1 (List.mem_filterMap.mpr ⟨other,member,also⟩)
    have tail : Linked {s with hosts := hosts,queue := rest,stage := .ready} := by
      refine ⟨?_,(List.nodup_cons.mp once).2,?_⟩
      · intro other member
        exact linked.tasks other (by rw [queue]; exact List.mem_cons_of_mem _ member)
      · intro other member
        exact linked.owned other (by rw [queue]; exact List.mem_cons_of_mem _ member)
    exact linked_aside tail aside .done

theorem linked_frame (linked : Linked s) (queue : next.queue = s.queue) (pairings : next.pairings = s.pairings) : Linked next := by
  refine ⟨?_,by rw [queue]; exact linked.once,by rw [queue]; exact linked.owned⟩
  rw [queue,pairings]
  exact linked.tasks

@[simp] theorem write_pairings (s : State) (hosts : List Host) (op : Op) : (write s hosts op).pairings = s.pairings := by
  cases op <;> rfl

theorem write_stored (s : State) (hosts : List Host) (op : Op) (which : Secret) (own : String) : has (write s hosts op) which own = has s which own := by
  cases which <;> cases op <;> rfl

structure Kept (s : State) : Prop where
  serial : Serial s
  secrets : Secrets s
  linked : Linked s

theorem work_kept (kept : Kept s) (meets : apart s .work = true) (worked : work s = some next) : Secrets next ∧ Linked next := by
  obtain ⟨serial,secrets,linked⟩ := kept
  obtain ⟨task,rest,queue,works⟩ := work_parts worked
  have staged := serial.staged
  have removing : ∀ removed, task.op = .removeHost removed → ∀ host, task.op ≠ .addHost host := by
    intro removed named host added
    rw [named] at added
    cases added
  cases works with
  | deleteToken named stage =>
    refine ⟨deleted_secrets secrets queue named rfl rfl rfl (fun which own => stored_token _ which own _) (by rw [stage]; rfl) ?_ ?_,linked_frame linked rfl rfl⟩
    · intro which
      cases which <;> simp [gone,stage]
    · apply unwritten
      obtain ⟨op,pairing⟩ := task
      cases named
      simpa [apart,queue,stage] using meets
  | deletePin named stage =>
    refine ⟨deleted_secrets secrets queue named rfl rfl rfl (fun which own => stored_pin _ which own _) (by rw [stage]; rfl) ?_ ?_,linked_frame linked rfl rfl⟩
    · intro which
      cases which <;> simp [gone,stage]
    · apply unwritten
      obtain ⟨op,pairing⟩ := task
      cases named
      simpa [apart,queue,stage] using meets
  | readRemoved named stage =>
    refine ⟨secrets_stage secrets (fun which own => by cases which <;> rfl) rfl ?_ rfl,linked_frame linked rfl rfl⟩
    intro which own
    rw [drops_removing queue named,drops_removing (show ({s with stage := .read s.hosts} : State).queue = _ from queue) named,stage]
    cases which <;> rfl
  | writeRemoved named stage =>
    rw [Staged,stage] at staged
    rw [staged.2] at stage ⊢
    exact ⟨removed_secrets secrets queue named stage,linked_frame linked rfl rfl⟩
  | clear named stage =>
    refine ⟨secrets_stage secrets (fun which own => by cases which <;> rfl) rfl ?_ rfl,linked_frame linked rfl rfl⟩
    intro which own
    have before : drops s which own = false := drops_still (by rw [stage]; cases which <;> rfl)
    rw [before]
    exact drops_still (by cases which <;> rfl)
  | finishRemoved named stage =>
    rw [linked_alone linked queue (removing _ named),finish_none]
    refine ⟨secrets_stage secrets (fun which own => by cases which <;> rfl) rfl ?_ rfl,linked_rest linked queue (linked_alone linked queue (removing _ named)) rfl rfl⟩
    intro which own
    have before : drops s which own = false := drops_still (by rw [stage]; cases which <;> rfl)
    rw [before]
    exact drops_still (by cases which <;> rfl)
  | skip others stage skipped =>
    have alone := linked_alone linked queue (by
      intro host added
      rw [added] at skipped
      cases skipped)
    rw [alone,finish_none]
    refine ⟨secrets_stage secrets (fun which own => by cases which <;> rfl) rfl ?_ rfl,linked_rest linked queue alone rfl rfl⟩
    intro which own
    rw [drops_kept queue others]
    exact drops_still (by cases which <;> rfl)
  | read others stage =>
    refine ⟨secrets_stage secrets (fun which own => by cases which <;> rfl) rfl ?_ rfl,linked_frame linked rfl rfl⟩
    intro which own
    rw [drops_kept queue others]
    exact drops_kept (show ({s with stage := .read s.hosts} : State).queue = _ from queue) others
  | write others stage =>
    rw [Staged,stage] at staged
    rw [staged.2]
    by_cases adds : ∃ host, task.op = .addHost host
    · obtain ⟨host,added⟩ := adds
      have written : write s s.hosts task.op = {s with hosts := apply s.hosts task.op} := by rw [added]; rfl
      rw [written]
      exact ⟨listed_secrets secrets linked queue added,listed_linked linked queue _⟩
    · have plain : ∀ host, task.op ≠ .addHost host := fun host added => adds ⟨host,added⟩
      have alone := linked_alone linked queue plain
      rw [alone,finish_none]
      refine ⟨secrets_frame secrets (fun which own => ?_) ?_ (write_pairings s s.hosts task.op),linked_rest linked queue alone rfl (write_pairings s s.hosts task.op)⟩
      · have stored := write_stored s s.hosts task.op which own
        cases which <;> exact stored
      · intro which own
        have still : drops {write s s.hosts task.op with queue := rest,stage := .ready} which own = false := drops_still (by cases which <;> rfl)
        rw [still,drops_kept queue others]
        rw [write_hosts,apply_listed]
        simp [plain,others]

theorem moved_secrets (secrets : Secrets s) (known : s.pairings[k]? = some p) (stage : PairStage)
    (same : ∀ which, ({p with stage := stage} : Pairing).wrote which = p.wrote which) : Secrets (atPairing s k stage) := by
  intro which own
  rw [wrote_same known stage (same which)]
  have held := secrets which own
  cases which <;> exact held

theorem written_secrets (secrets : Secrets s) (known : s.pairings[k]? = some p) (made : Secret) (stage : PairStage)
    (wrote : ∀ which, ({p with stage := stage} : Pairing).wrote which = (p.wrote which || which == made))
    (pairings : next.pairings = (atPairing s k stage).pairings) (hosts : next.hosts = s.hosts) (dropped : drops next = drops s)
    (stored : ∀ which own, has next which own = (has s which own || (which == made && own == p.host.id))) : Secrets next := by
  intro which own
  have held := secrets which own
  rw [wrote_split known] at held
  rw [stored,hosts,dropped,pairings,wrote_moved known,wrote]
  simp only [Bool.or_eq_true,Bool.and_eq_true,beq_iff_eq,held,eq_comm (a := own)]
  tauto

theorem pairing_kept (kept : Kept s) (known : s.pairings[k]? = some p) (moved : pairOn s k p = some next) : Secrets next ∧ Linked next := by
  obtain ⟨serial,secrets,linked⟩ := kept
  unfold pairOn at moved
  split at moved <;> cases moved
  · rename_i stage
    refine ⟨moved_secrets secrets known .pinRead ?_,linked_aside linked (linked_unnamed linked known (by simp [stage])) _⟩
    intro which
    cases which <;> simp only [Pairing.wrote,stage] <;> rfl
  · rename_i stage
    refine ⟨moved_secrets secrets known .tokenRead ?_,linked_aside linked (linked_unnamed linked known (by simp [stage])) _⟩
    intro which
    cases which <;> simp only [Pairing.wrote,stage] <;> rfl
  · rename_i stage
    refine ⟨written_secrets secrets known .pin .pinWritten ?_ rfl rfl rfl ?_,
      linked_frame (linked_aside linked (linked_unnamed linked known (by simp [stage])) .pinWritten) rfl rfl⟩
    · intro which
      cases which <;> simp only [Pairing.wrote,stage] <;> rfl
    · intro which own
      cases which with
      | token => exact (Bool.or_false _).symm
      | pin => by_cases here : own = p.host.id <;> simp [has,here]
  · rename_i stage
    refine ⟨written_secrets secrets known .token .tokenWritten ?_ rfl rfl rfl ?_,
      linked_frame (linked_aside linked (linked_unnamed linked known (by simp [stage])) .tokenWritten) rfl rfl⟩
    · intro which
      cases which <;> simp only [Pairing.wrote,stage] <;> rfl
    · intro which own
      cases which with
      | pin => exact (Bool.or_false _).symm
      | token => by_cases here : own = p.host.id <;> simp [has,here]
  · rename_i stage
    have staged : Staged (atPairing s k .queued) := serial.staged
    refine ⟨enqueue_secrets staged (moved_secrets secrets known .queued ?_) _ _,queued_linked linked known (by simp [stage]) _ rfl⟩
    intro which
    cases which <;> simp only [Pairing.wrote,stage] <;> rfl

theorem wrote_started (pairings : List Pairing) (host : Host) (token : String) (pin : Pin) :
    WroteIn (pairings ++ [⟨host,token,pin,.started⟩]) which own ↔ WroteIn pairings which own := by
  constructor
  · rintro ⟨j,q,stands,named,wrote⟩
    rcases List.mem_append.mp (List.mem_of_getElem? stands) with old | new
    · obtain ⟨i,found⟩ := List.mem_iff_getElem?.mp old
      exact ⟨i,q,found,named,wrote⟩
    · rw [List.mem_singleton.mp new] at wrote
      cases which <;> cases wrote
  · rintro ⟨j,q,stands,named,wrote⟩
    exact ⟨j,q,by rw [List.getElem?_append_left (List.getElem?_eq_some_iff.mp stands).1]; exact stands,named,wrote⟩

theorem step_kept (kept : Kept s) (meets : apart s event = true) (stepped : step s event = some next) : Kept next := by
  have serial := step_serial kept.serial stepped
  cases event with
  | call op =>
    cases stepped
    refine ⟨serial,enqueue_secrets kept.serial.staged kept.secrets op none,enqueue_linked kept.linked ?_⟩
    intro host added
    subst added
    cases meets
  | commitPairing host token fingerprint =>
    simp only [step] at stepped
    split at stepped <;> cases stepped
    · exact kept
    · refine ⟨serial,?_,?_⟩
      · intro which own
        rw [wrote_started s.pairings]
        have held := kept.secrets which own
        cases which <;> exact held
      · refine ⟨?_,kept.linked.once,kept.linked.owned⟩
        intro task member k named
        obtain ⟨q,other,stands,rest⟩ := kept.linked.tasks task member k named
        exact ⟨q,other,by rw [List.getElem?_append_left (List.getElem?_eq_some_iff.mp stands).1]; exact stands,rest⟩
  | pairing k =>
    obtain ⟨p,known,moved⟩ := Option.bind_eq_some_iff.mp stepped
    obtain ⟨secrets,linked⟩ := pairing_kept kept known moved
    exact ⟨serial,secrets,linked⟩
  | work =>
    obtain ⟨secrets,linked⟩ := work_kept kept meets stepped
    exact ⟨serial,secrets,linked⟩

end Pairings

section Results
variable {last : State} {events : List Event}

def idle (s : State) : Bool := s.queue.isEmpty && s.pairings.all (fun p => p.stage == .done)

theorem initial_kept : Kept initial := by
  refine ⟨⟨trivial,[],rfl,rfl⟩,?_,⟨by simp [initial],by simp [initial],by simp [initial]⟩⟩
  intro which own
  cases which <;> simp [initial,has,listed,WroteIn]

theorem idle_unwritten (quiet : idle s = true) : ¬ WroteIn s.pairings which own := by
  rintro ⟨j,q,stands,_,wrote⟩
  have done := List.all_eq_true.mp (Bool.and_eq_true_iff.mp quiet).2 q (List.mem_of_getElem? stands)
  cases which <;> simp_all [Pairing.wrote]

theorem step_listed (serial : Serial s) (stepped : step s event = some next) (now : listed next.hosts own = true) (before : listed s.hosts own = false) :
    event = .work ∧ ∃ host pairing rest, s.queue = ⟨.addHost host,pairing⟩::rest ∧ host.id = own := by
  have absent : ∀ hosts, hosts = s.hosts → ¬ listed hosts own = true := by
    intro hosts same present
    rw [same,before] at present
    cases present
  cases event with
  | call op => cases stepped; exact absurd now (absent _ rfl)
  | commitPairing host token fingerprint =>
    simp only [step] at stepped
    split at stepped <;> cases stepped <;> exact absurd now (absent _ rfl)
  | pairing k =>
    obtain ⟨p,known,moved⟩ := Option.bind_eq_some_iff.mp stepped
    unfold pairOn at moved
    split at moved <;> cases moved <;> exact absurd now (absent _ rfl)
  | work =>
    refine ⟨rfl,?_⟩
    obtain ⟨task,rest,queue,works⟩ := work_parts stepped
    have staged := serial.staged
    cases works with
    | deleteToken | deletePin | readRemoved | clear | read => exact absurd now (absent _ rfl)
    | finishRemoved | skip => exact absurd now (absent _ (finish_hosts _ _ _))
    | writeRemoved named stage =>
      rw [Staged,stage] at staged
      rw [staged.2] at now
      have written : listed (apply s.hosts (.removeHost _)) own = true := now
      rcases apply_listed.mp written with ⟨host,added,_⟩ | ⟨kept,_⟩
      · cases added
      · exact absurd kept (absent _ rfl)
    | write others stage =>
      rw [Staged,stage] at staged
      rw [staged.2,finish_hosts,write_hosts] at now
      rcases apply_listed.mp now with ⟨host,added,same⟩ | ⟨kept,_⟩
      · exact ⟨host,task.pairing,rest,by rw [queue]; cases task; cases added; rfl,same⟩
      · exact absurd kept (absent _ rfl)

theorem run_serial (ran : Runs.run step initial events = some last) : Serial last :=
  Runs.run_preserves (fun _ _ _ serial stepped => step_serial serial stepped) initial_kept.serial ran

theorem serial_distinct (serial : Serial s) : (s.hosts.map Host.id).Nodup := by
  obtain ⟨_,done,_,hosts⟩ := serial
  rw [hosts]
  have all : ∀ (ops : List Op) (start : List Host), (start.map Host.id).Nodup → ((ops.foldl apply start).map Host.id).Nodup := by
    intro ops
    induction ops with
    | nil => exact fun start distinct => distinct
    | cons op rest ih => exact fun start distinct => ih (apply start op) (apply_distinct distinct)
  exact all done [] List.nodup_nil

theorem host_store_consistent (ran : Runs.run step initial events = some last) :
    (last.hosts.map Host.id).Nodup ∧
    (last.queue = [] → last.hosts = last.order.foldl apply []) ∧
    (∀ past event rest s next own, events = past ++ event::rest → Runs.run step initial past = some s → step s event = some next →
      listed next.hosts own = true → listed s.hosts own = false →
      event = .work ∧ ∃ host pairing others, s.queue = ⟨.addHost host,pairing⟩::others ∧ host.id = own ∧
        (Runs.Every step (fun s event => apart s event = true) initial events → pairing ≠ none)) ∧
    (Runs.Every step (fun s event => apart s event = true) initial events → idle last = true →
      ∀ own, ((last.pins own).isSome ↔ listed last.hosts own = true) ∧ ((last.tokens own).isSome ↔ listed last.hosts own = true)) := by
  refine ⟨serial_distinct (run_serial ran),?_,?_,?_⟩
  · intro empty
    obtain ⟨staged,done,order,hosts⟩ := run_serial ran
    have none : pending last = [] := by
      unfold pending
      split <;> simp [empty]
    rw [hosts,order,none]
    simp
  · intro past event rest s next own whole ranPast stepped now before
    obtain ⟨same,host,pairing,others,queue,named⟩ := step_listed (run_serial ranPast) stepped now before
    refine ⟨same,host,pairing,others,queue,named,?_⟩
    intro meets
    rw [whole] at meets
    have kept : Kept s :=
      Runs.run_preserves_when Kept (fun s event next valid ok stepped => step_kept valid ok stepped) initial_kept (Runs.every_front meets) ranPast
    exact kept.linked.owned ⟨.addHost host,pairing⟩ (by rw [queue]; exact List.mem_cons_self) host rfl
  · intro meets quiet own
    have kept : Kept last := Runs.run_preserves_when Kept (fun s event next valid ok stepped => step_kept valid ok stepped) initial_kept meets ran
    have empty : last.queue = [] := by
      have queue := (Bool.and_eq_true_iff.mp quiet).1
      simpa using queue
    have still : ∀ which, drops last which own = false := by
      intro which
      simp [drops,empty]
    have pin := kept.secrets .pin own
    have token := kept.secrets .token own
    simp only [still,idle_unwritten quiet,and_true,or_false] at pin token
    exact ⟨pin,token⟩

def pc : Host := ⟨"pc","PC","192.168.1.5:8443",none,none,none,none,none,none⟩
def paired : List Event :=
  [.commitPairing pc "first" (List.replicate 64 'a'),.pairing 0,.pairing 0,.pairing 0,.pairing 0,.pairing 0,.work,.work]

theorem paired_host_kept : ∃ last, Runs.run step initial paired = some last ∧ idle last = true ∧ listed last.hosts "pc" = true ∧
    ((last.pins "pc").isSome ↔ listed last.hosts "pc" = true) ∧ ((last.tokens "pc").isSome ↔ listed last.hosts "pc" = true) := by
  have meets : Runs.Every step (fun s event => apart s event = true) initial paired := by decide
  refine ⟨_,rfl,rfl,rfl,?_⟩
  exact (host_store_consistent (show Runs.run step initial paired = some _ from rfl)).2.2.2 meets rfl "pc"

theorem forgotten_while_paired : ∃ last,
    Runs.run step initial (paired ++
      [.call (.removeHost "pc"),.commitPairing pc "second" (List.replicate 64 'b'),.pairing 1,.pairing 1,.pairing 1,.pairing 1,
        .work,.work,.work,.work,.work,.work,.pairing 1,.work,.work]) = some last ∧
    idle last = true ∧ listed last.hosts "pc" = true ∧ last.pins "pc" = none ∧ last.tokens "pc" = none := by
  refine ⟨_,rfl,rfl,rfl,rfl,rfl⟩

end Results

end RemoteFileExplorer.PairedHosts
