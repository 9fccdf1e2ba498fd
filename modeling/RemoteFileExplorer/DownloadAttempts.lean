import RemoteFileExplorer.DownloadResumes

namespace RemoteFileExplorer.DownloadAttempts
open DownloadResumes (Bytes TransferState Reason TransferRecord queued)

-- A body still to be read, the stated total, the bytes received so far and
-- whether they are appended to what the file holds.
structure Body where
  rest : Bytes
  total : Option Nat
  received : Nat
  appends : Bool
  deriving DecidableEq, Repr

inductive Place where
  | created
  | submitted
  | checkStop (r : TransferRecord)
  | updateRunning (r : TransferRecord)
  | measure (r : TransferRecord)
  | dropStale (r : TransferRecord)
  | register (r : TransferRecord) (offset : Nat)
  | execute (r : TransferRecord) (offset : Nat)
  | dropOversized
  | checkRestart
  | submitRestart
  | poolRestart (next : Nat)
  | futureRestart (next : Nat)
  | updateValidator (r : TransferRecord) (validator : Option String) (body : Body)
  | openPart (r : TransferRecord) (body : Body)
  | checkLoop (r : TransferRecord) (file : Nat) (body : Body)
  | write (r : TransferRecord) (file : Nat) (body : Body)
  | checkProgress (r : TransferRecord) (file : Nat) (body : Body)
  | updateProgress (r : TransferRecord) (file : Nat) (body : Body)
  | checkLength (r : TransferRecord) (total : Option Nat)
  | checkEnd (r : TransferRecord)
  | checkCurrent (r : TransferRecord)
  | dropDest (r : TransferRecord)
  | renamePart (r : TransferRecord)
  | publish (r : TransferRecord)
  | dropPublished (r : TransferRecord) (size : Nat) (uri : String)
  | updateDone (r : TransferRecord) (size : Nat) (uri : Option String)
  | checkFailed (interrupted : Bool) (message : String)
  | readStop (interrupted : Bool) (message : String)
  | readRecord (reason : Option TransferState) (message : String)
  | updateFailed (r : TransferRecord) (reason : Option TransferState) (message : String)
  | leave
  | dropCall
  | ended

structure Worker where
  stop : Option Reason
  interrupted : Bool
  cancelledCall : Bool
  place : Place

-- `<dest>.part`: a file that was deleted and made again is another file.
structure Part where
  file : Nat
  bytes : Bytes
  deriving DecidableEq, Repr

inductive UserCall where
  | putRecord
  | putAttempt
  | pool (a : Nat)
  | putFuture (a : Nat)
  | updateQueued (r : TransferRecord)
  | setStop (r : TransferRecord) (reason : Reason)
  | cancelCall (r : TransferRecord) (reason : Reason)
  | cancelFuture (r : TransferRecord) (reason : Reason)
  | updateStopped (r : TransferRecord) (reason : Reason)
  | findPartial
  | dropPartial
  | removeRecord (r : TransferRecord)
  | removeAttempt (r : TransferRecord)
  | removeFuture (r : TransferRecord)
  | deleteJournal (r : TransferRecord)
  | deletePartial (r : TransferRecord)

-- One transfer id. The workers are numbered in the order their attempts were
-- put; `retired` counts those that were there when cancel or remove last
-- returned.
structure State where
  record : Option TransferRecord
  journal : Option TransferRecord
  part : Option Part
  dest : Option Bytes
  attempt : Option Nat
  future : Option Nat
  call : Option Nat
  workers : List Worker
  user : Option UserCall
  files : Nat
  retired : Nat

-- A 206 or a 200 with its validator, its body and whether the length is stated,
-- or a 416.
inductive Response where
  | content (partly : Bool) (validator : Option String) (body : Bytes) (stated : Bool)
  | unsatisfiable
  deriving DecidableEq, Repr

inductive Act where
  | goes
  | fails (interrupted : Bool) (message : String)
  | answered (response : Response)
  | reads (n : Nat) (shows : Bool)
  | published (uri : Option String)

inductive Event where
  | enqueue
  | resume
  | pause
  | cancel
  | remove
  | user
  | worker (a : Nat) (act : Act)

-- A transfer found running or queued in the journal becomes paused.
def fixed (r : TransferRecord) : TransferRecord :=
  if r.state = .running ∨ r.state = .queued then {r with state := .paused} else r

def initial (journal : Option TransferRecord) (part : Option Part) (dest : Option Bytes) : State :=
  ⟨journal.map fixed,journal.map fixed,part,dest,none,none,none,[],none,(part.elim 0 fun p => p.file + 1),0⟩

section Effects
variable (s : State)

def State.update (r : TransferRecord) : State := {s with record := some r,journal := some r}

def Worker.goes (place : Place) (w : Worker) : Worker := {w with place := place}

def State.goes (a : Nat) (place : Place) : State := {s with workers := s.workers.modify a (Worker.goes place)}

def State.drops : State := {s with part := none}

-- A new attempt: the map entry first, then the pool and the future.
def State.puts : State := {s with attempt := some s.workers.length,workers := s.workers ++ [⟨none,false,false,.created⟩]}

end Effects

def pooled (w : Worker) : Worker :=
  match w.place with
  | .created => {w with place := .submitted}
  | _ => w

def State.each (s : State) (which : Option Nat) (change : Worker → Worker) : State :=
  {s with workers := which.elim s.workers fun a => s.workers.modify a change}

def written (bytes : Bytes) (appends : Bool) (position : Nat) (chunk : Bytes) : Bytes :=
  if appends then bytes ++ chunk
  else bytes.take position ++ List.replicate (position - bytes.length) 0 ++ chunk ++ bytes.drop (position + chunk.length)

def length (part : Option Part) : Nat := part.elim 0 fun p => p.bytes.length

def stated (offset : Nat) (body : Bytes) (known : Bool) : Option Nat := if known then some (offset + body.length) else none

def answered (r : TransferRecord) (offset : Nat) : Response → Place
  | .content partly validator body known =>
    if partly = true ∧ 0 < offset then .openPart r ⟨body,stated offset body known,offset,true⟩
    else .updateValidator r validator ⟨body,stated 0 body known,0,false⟩
  | .unsatisfiable => if 0 < offset then .dropOversized else .checkFailed false "HTTP 416"

-- The exceptions of `run` are caught from the RUNNING update on.
def Place.tries : Place → Bool
  | .measure _ => true
  | .dropStale _ => true
  | .register _ _ => true
  | .execute _ _ => true
  | .dropOversized => true
  | .updateValidator _ _ _ => true
  | .openPart _ _ => true
  | .checkLoop _ _ _ => true
  | .write _ _ _ => true
  | .checkProgress _ _ _ => true
  | .updateProgress _ _ _ => true
  | .checkLength _ _ => true
  | .checkEnd _ => true
  | .checkCurrent _ => true
  | .dropDest _ => true
  | .renamePart _ => true
  | .publish _ => true
  | .dropPublished _ _ _ => true
  | .updateDone _ _ _ => true
  | _ => false

def Worker.stopped (w : Worker) : Bool := w.interrupted || w.stop.isSome

def cancelled (w : Worker) : Worker := {w with cancelledCall := true}

-- A task that has not begun never runs; one that runs is interrupted.
def hit (w : Worker) : Worker :=
  match w.place with
  | .submitted => {w with place := .ended}
  | _ => {w with interrupted := true}

section Run
variable (s : State) (a : Nat) (w : Worker)

def goes : Option State :=
  match w.place with
  | .submitted => some (s.goes a (s.record.elim .ended .checkStop))
  | .checkStop r => some (s.goes a (if w.stop.isSome then .ended else .updateRunning r))
  | .updateRunning r =>
    let r := {r with state := .running,error := none}
    some ((s.update r).goes a (.measure r))
  | .measure r => some (s.goes a (if 0 < length s.part ∧ r.validator = none then .dropStale r else .register r (length s.part)))
  | .dropStale r => some (s.drops.goes a (.register r 0))
  | .register r offset => some ({s with call := some a}.goes a (.execute r offset))
  | .dropOversized => some (s.drops.goes a .checkRestart)
  | .checkRestart => some (s.goes a (if s.attempt = some a then .submitRestart else .leave))
  | .submitRestart => some (s.puts.goes a (.poolRestart s.workers.length))
  | .poolRestart next => some ((s.each (some next) pooled).goes a (.futureRestart next))
  | .futureRestart next => some ({s with future := some next}.goes a .leave)
  | .updateValidator r validator body =>
    let r := {r with validator := validator}
    some ((s.update r).goes a (.openPart r body))
  | .openPart r body =>
    match s.part with
    | some p => some ({s with part := some {p with bytes := if body.appends then p.bytes else []}}.goes a (.checkLoop r p.file body))
    | none => some ({s with part := some ⟨s.files,[]⟩,files := s.files + 1}.goes a (.checkLoop r s.files body))
  | .checkLoop r file body => some (s.goes a (if w.stopped then .checkFailed true "" else .write r file body))
  | .checkProgress r file body => some (s.goes a (if s.attempt = some a then .updateProgress r file body else .checkLoop r file body))
  | .updateProgress r file body =>
    let r := {r with received := body.received,total := (body.total.map Int.ofNat).getD (-1)}
    some ((s.update r).goes a (.checkLoop r file body))
  | .checkLength r total =>
    some (s.goes a (if total.all (· = length s.part) then .checkEnd r else .checkFailed false "size mismatch"))
  | .checkEnd r => some (s.goes a (if w.stop.isSome then .checkFailed true "" else .checkCurrent r))
  | .checkCurrent r => some (s.goes a (if s.attempt = some a then .dropDest r else .checkFailed true ""))
  | .dropDest r => some ({s with dest := none}.goes a (.renamePart r))
  | .renamePart r =>
    match s.part with
    | some p => some ({s with part := none,dest := some p.bytes}.goes a (.publish r))
    | none => some (s.goes a (.checkFailed false "could not finalize download"))
  | .dropPublished r size uri => some ({s with dest := none}.goes a (.updateDone r size (some uri)))
  | .updateDone r size uri =>
    some ((s.update {r with state := .done,received := size,total := size,error := none,publicUri := uri}).goes a .leave)
  | .checkFailed interrupted message => some (s.goes a (if s.attempt = some a then .readStop interrupted message else .leave))
  | .readStop interrupted message =>
    some (s.goes a (.readRecord ((w.stop.map Reason.state).or (if interrupted || w.interrupted then some .paused else none)) message))
  | .readRecord reason message => some (s.goes a (s.record.elim .leave fun r => .updateFailed r reason message))
  | .updateFailed r reason message =>
    some ((s.update (reason.elim {r with state := .failed,error := some message} fun state => {r with state := state})).goes a .leave)
  | .leave => some (s.goes a (if s.attempt = some a then .dropCall else .ended))
  | .dropCall => some ({s with call := none}.goes a .ended)
  | _ => none

def acts : Act → Option State
  | .goes => goes s a w
  | .fails interrupted message => if w.place.tries then some (s.goes a (.checkFailed interrupted message)) else none
  | .answered response =>
    match w.place with
    | .execute r offset => if w.cancelledCall then none else some (s.goes a (answered r offset response))
    | _ => none
  | .reads n shows =>
    match w.place with
    | .write r file body =>
      if body.rest = [] then some (s.goes a (.checkLength r body.total)) else
      let chunk := body.rest.take (n + 1)
      let next := {body with rest := body.rest.drop (n + 1),received := body.received + chunk.length}
      let part := s.part.map fun p => if p.file = file then {p with bytes := written p.bytes body.appends body.received chunk} else p
      some ({s with part := part}.goes a (if shows then .checkProgress r file next else .checkLoop r file next))
    | _ => none
  | .published uri =>
    match w.place with
    | .publish r =>
      let size := (s.dest.getD []).length
      some (s.goes a (uri.elim (.updateDone r size none) fun uri => .dropPublished r size uri))
    | _ => none

end Run

section Calls
variable (s : State)

def State.next (call : UserCall) : State := {s with user := some call}
def State.returns : State := {s with user := none}
def State.retires : State := {s with user := none,retired := s.workers.length}

def begins : Event → Option State
  | .enqueue =>
    match s.record with
    | some r => if r.state = .running ∨ r.state = .queued then some s else some (s.next .putRecord)
    | none => some (s.next .putRecord)
  | .resume =>
    match s.record with
    | some r => if r.state = .paused ∨ r.state = .failed then some (s.next (.updateQueued r)) else some s
    | none => some s
  | .pause =>
    match s.record with
    | some r => if r.state = .done then some s else some (s.next (.setStop r .paused))
    | none => some s
  | .cancel =>
    match s.record with
    | some r => if r.state = .done then some (s.next .findPartial) else some (s.next (.setStop r .cancelled))
    | none => some (s.next .findPartial)
  | .remove =>
    match s.record with
    | some r => if r.state = .running ∨ r.state = .queued then some s else some (s.next (.removeRecord r))
    | none => some s
  | _ => none

def proceeds : UserCall → State
  | .putRecord => (s.update queued).next .putAttempt
  | .updateQueued r => (s.update {r with state := .queued,error := none}).next .putAttempt
  | .putAttempt => s.puts.next (.pool s.workers.length)
  | .pool a => (s.each (some a) pooled).next (.putFuture a)
  | .putFuture a => {s with future := some a}.returns
  | .setStop r reason => (s.each s.attempt fun w => {w with stop := some reason}).next (.cancelCall r reason)
  | .cancelCall r reason => (s.each s.call cancelled).next (.cancelFuture r reason)
  | .cancelFuture r reason =>
    let s := s.each s.future hit
    if r.state = .running then if reason = .cancelled then s.next .findPartial else s.returns
    else s.next (.updateStopped r reason)
  | .updateStopped r reason =>
    let s := s.update {r with state := reason.state}
    if reason = .cancelled then s.next .findPartial else s.returns
  | .findPartial => if s.record.isSome then s.next .dropPartial else s.retires
  | .dropPartial => s.drops.retires
  | .removeRecord r => {s with record := none}.next (.removeAttempt r)
  | .removeAttempt r => {s with attempt := none}.next (.removeFuture r)
  | .removeFuture r => {s with future := none}.next (.deleteJournal r)
  | .deleteJournal r =>
    let s := {s with journal := none}
    if r.state = .done then s.retires else s.next (.deletePartial r)
  | .deletePartial _ => s.drops.retires

end Calls

def step (s : State) : Event → Option State
  | .worker a act => s.workers[a]?.bind fun w => acts s a w act
  | .user => s.user.map (proceeds s)
  | event => if s.user.isSome then none else begins s event

def Idle (w : Worker) : Prop :=
  match w.place with
  | .submitted => w.stop.isSome = true
  | .checkStop _ => w.stop.isSome = true
  | .execute _ _ => w.cancelledCall = true
  | .dropOversized => True
  | .checkRestart => True
  | .checkLoop _ _ _ => w.stop.isSome = true
  | .checkEnd _ => w.stop.isSome = true
  | .checkFailed _ _ => True
  | .poolRestart _ => True
  | .futureRestart _ => True
  | .leave => True
  | .dropCall => True
  | .ended => True
  | _ => False

def Away (w : Worker) : Prop :=
  match w.place with
  | .created => False
  | .submitted => w.stop.isSome = true
  | .checkStop _ => w.stop.isSome = true
  | .updateRunning _ => False
  | .measure _ => False
  | .dropStale _ => False
  | .register _ _ => False
  | .execute _ _ => w.cancelledCall = true
  | .dropOversized => False
  | .checkRestart => False
  | .submitRestart => False
  | .updateValidator _ _ _ => False
  | .openPart _ _ => False
  | _ => True

-- A new attempt is put while every other worker is idle, a cancel returns while
-- every worker is away, and a record is removed while both holds.
def Calm (s : State) : Event → Prop
  | .user =>
    match s.user with
    | some .putAttempt => ∀ w ∈ s.workers, Idle w
    | some (.removeRecord _) => ∀ w ∈ s.workers, Idle w ∧ Away w
    | some .findPartial => s.record = none → ∀ w ∈ s.workers, Away w
    | some .dropPartial => ∀ w ∈ s.workers, Away w
    | _ => True
  | .worker a .goes =>
    match s.workers[a]? with
    | some ⟨_,_,_,.submitRestart⟩ => ∀ w ∈ s.workers.eraseIdx a, Idle w
    | _ => True
  | _ => True

instance decidableIdle : DecidablePred Idle := fun ⟨_,_,_,place⟩ => by
  cases place <;> first | exact instDecidableTrue | exact instDecidableFalse | exact instDecidableEqBool _ _

instance decidableAway : DecidablePred Away := fun ⟨_,_,_,place⟩ => by
  cases place <;> first | exact instDecidableTrue | exact instDecidableFalse | exact instDecidableEqBool _ _

instance decidableCalm (s : State) (event : Event) : Decidable (Calm s event) := by
  unfold Calm
  repeat' split
  all_goals infer_instance

section Steps
variable {s next : State} {a : Nat} {w : Worker} {act : Act}

def Recorded (s next : State) : Prop :=
  (next.record = s.record ∧ next.journal = s.journal) ∨ ∃ r, next.record = some r ∧ next.journal = some r

-- What a step of one worker does to the others: nothing, but for putting an
-- attempt and handing one to the pool.
theorem acts_shape (acted : acts s a w act = some next) : next.user = s.user ∧ next.retired = s.retired ∧ Recorded s next ∧
    ((∃ place which, next.workers = (s.each which pooled).workers.modify a (Worker.goes place) ∧ next.attempt = s.attempt) ∨
      (w.place = .submitRestart ∧ act = .goes ∧ next = s.puts.goes a (.poolRestart s.workers.length))) := by
  cases act with
  | goes =>
    change goes s a w = some next at acted
    unfold goes at acted
    split at acted
    -- the restart puts an attempt, the step after it fills the pool, and the
    -- partial file may be there or not; all others only move on
    all_goals first
      | (cases acted; exact ⟨rfl,rfl,.inl ⟨rfl,rfl⟩,.inl ⟨_,none,rfl,rfl⟩⟩)
      | (cases acted; exact ⟨rfl,rfl,.inr ⟨_,rfl,rfl⟩,.inl ⟨_,none,rfl,rfl⟩⟩)
      | (cases acted; exact ⟨rfl,rfl,.inl ⟨rfl,rfl⟩,.inl ⟨_,some _,rfl,rfl⟩⟩)
      | (cases acted; exact ⟨rfl,rfl,.inl ⟨rfl,rfl⟩,.inr ⟨by assumption,rfl,rfl⟩⟩)
      | (split at acted <;> (cases acted; exact ⟨rfl,rfl,.inl ⟨rfl,rfl⟩,.inl ⟨_,none,rfl,rfl⟩⟩))
      | cases acted
  | fails interrupted message =>
    obtain ⟨_,⟨⟩⟩ := Option.ite_none_right_eq_some.mp acted
    exact ⟨rfl,rfl,.inl ⟨rfl,rfl⟩,.inl ⟨_,none,rfl,rfl⟩⟩
  | answered response =>
    simp only [acts] at acted
    split at acted
    · obtain ⟨_,⟨⟩⟩ := Option.ite_none_left_eq_some.mp acted
      exact ⟨rfl,rfl,.inl ⟨rfl,rfl⟩,.inl ⟨_,none,rfl,rfl⟩⟩
    · cases acted
  | reads n shows =>
    simp only [acts] at acted
    split at acted
    · split at acted
      all_goals
        cases acted
        exact ⟨rfl,rfl,.inl ⟨rfl,rfl⟩,.inl ⟨_,none,rfl,rfl⟩⟩
    · cases acted
  | published uri =>
    simp only [acts] at acted
    split at acted
    · cases acted
      exact ⟨rfl,rfl,.inl ⟨rfl,rfl⟩,.inl ⟨_,none,rfl,rfl⟩⟩
    · cases acted

structure Still (s next : State) (a : Nat) (place : Place) : Prop where
  record : next.record = s.record
  journal : next.journal = s.journal
  part : next.part = s.part ∨ next.part = none
  attempt : next.attempt = s.attempt
  workers : ∃ which, next.workers = (s.each which pooled).workers.modify a (Worker.goes place)

theorem still_goes (s : State) (a : Nat) (place : Place) : Still s (s.goes a place) a place := ⟨rfl,rfl,.inl rfl,rfl,none,rfl⟩

-- Workers that are left when the record is gone: the handler may have found its
-- attempt current and finds no record then.
def Bystander (w : Worker) : Prop :=
  match w.place with
  | .readStop _ _ => True
  | .readRecord _ _ => True
  | _ => Idle w ∧ Away w

theorem idle_bystander (idle : Idle w) (away : Away w) : Bystander w := by
  unfold Bystander
  split
  · trivial
  · trivial
  · exact ⟨idle,away⟩

theorem idle_goes (idle : Idle w) (acted : goes s a w = some next) :
    ∃ place, Still s next a place ∧ (s.attempt ≠ some a → Idle (w.goes place)) ∧ (Away w → Bystander (w.goes place)) := by
  unfold Idle at idle
  unfold goes at acted
  cases place : w.place with
  | submitted =>
    rw [place] at idle acted
    cases acted
    refine ⟨_,still_goes s a _,?_⟩
    cases s.record with
    | none => exact ⟨fun _ => trivial,fun _ => ⟨trivial,trivial⟩⟩
    | some r => exact ⟨fun _ => idle,fun _ => ⟨idle,idle⟩⟩
  | checkStop r | checkEnd r =>
    simp only [place] at idle acted
    rw [if_pos idle] at acted
    cases acted
    exact ⟨_,still_goes s a _,fun _ => trivial,fun _ => ⟨trivial,trivial⟩⟩
  | checkLoop r file body =>
    simp only [place] at idle acted
    have stopped : w.stopped = true := by simp [Worker.stopped,idle]
    rw [if_pos stopped] at acted
    cases acted
    exact ⟨_,still_goes s a _,fun _ => trivial,fun _ => ⟨trivial,trivial⟩⟩
  | checkFailed interrupted message =>
    rw [place] at acted
    cases acted
    refine ⟨_,still_goes s a _,?_⟩
    by_cases current : s.attempt = some a
    · rw [if_pos current]
      exact ⟨absurd current,fun _ => trivial⟩
    · rw [if_neg current]
      exact ⟨fun _ => trivial,fun _ => ⟨trivial,trivial⟩⟩
  | dropOversized =>
    rw [place] at acted
    cases acted
    refine ⟨_,⟨rfl,rfl,.inr rfl,rfl,none,rfl⟩,fun _ => trivial,?_⟩
    intro away
    simp only [Away,place] at away
  | checkRestart =>
    rw [place] at acted
    cases acted
    refine ⟨_,still_goes s a _,?_,?_⟩
    · intro superseded
      rw [if_neg superseded]
      trivial
    · intro away
      simp only [Away,place] at away
  | poolRestart later =>
    rw [place] at acted
    cases acted
    exact ⟨_,⟨rfl,rfl,.inl rfl,rfl,some later,rfl⟩,fun _ => trivial,fun _ => ⟨trivial,trivial⟩⟩
  | futureRestart later | dropCall =>
    rw [place] at acted
    cases acted
    exact ⟨_,⟨rfl,rfl,.inl rfl,rfl,none,rfl⟩,fun _ => trivial,fun _ => ⟨trivial,trivial⟩⟩
  | leave =>
    rw [place] at acted
    cases acted
    refine ⟨_,still_goes s a _,?_⟩
    split
    all_goals exact ⟨fun _ => trivial,fun _ => ⟨trivial,trivial⟩⟩
  | execute r offset | ended =>
    rw [place] at acted
    cases acted
  | _ => simp only [place] at idle

theorem idle_acts (idle : Idle w) (acted : acts s a w act = some next) :
    ∃ place, Still s next a place ∧ (s.attempt ≠ some a → Idle (w.goes place)) ∧ (Away w → Bystander (w.goes place)) := by
  cases act with
  | goes => exact idle_goes idle acted
  | fails interrupted message =>
    obtain ⟨_,⟨⟩⟩ := Option.ite_none_right_eq_some.mp acted
    exact ⟨_,still_goes s a _,fun _ => trivial,fun _ => ⟨trivial,trivial⟩⟩
  | answered response =>
    simp only [acts] at acted
    split at acted
    · rename_i place
      simp only [Idle,place] at idle
      rw [if_pos idle] at acted
      cases acted
    · cases acted
  | reads n shows | published uri =>
    simp only [acts] at acted
    split at acted
    · rename_i place
      simp only [Idle,place] at idle
    · cases acted

theorem handler_acts (handles : w.place.tries = false) (acted : acts s a w act = some next) : goes s a w = some next := by
  cases act with
  | goes => exact acted
  | fails interrupted message =>
    simp only [acts,handles] at acted
    cases acted
  | answered response | reads n shows | published uri =>
    simp only [acts] at acted
    split at acted
    · rename_i place
      rw [place] at handles
      cases handles
    · cases acted

theorem bystander_acts (bystander : Bystander w) (gone : s.record = none) (acted : acts s a w act = some next) :
    ∃ place, Still s next a place ∧ Bystander (w.goes place) := by
  unfold Bystander at bystander
  split at bystander
  · rename_i interrupted message place
    have went := handler_acts (by rw [place]; rfl) acted
    simp only [goes,place] at went
    cases went
    exact ⟨_,still_goes s a _,trivial⟩
  · rename_i reason message place
    have went := handler_acts (by rw [place]; rfl) acted
    simp only [goes,place,gone] at went
    cases went
    exact ⟨_,still_goes s a _,trivial,trivial⟩
  · obtain ⟨place,still,_,stays⟩ := idle_acts bystander.1 acted
    exact ⟨place,still,stays bystander.2⟩

theorem away_acts (away : Away w) (acted : acts s a w act = some next) :
    (∃ place which, next.workers = (s.each which pooled).workers.modify a (Worker.goes place) ∧ Away (w.goes place)) ∧
    (s.part = none → next.part = none) := by
  unfold Away at away
  cases act with
  | goes =>
    change goes s a w = some next at acted
    unfold goes at acted
    cases place : w.place with
    | submitted =>
      simp only [place] at away
      rw [place] at acted
      cases acted
      refine ⟨⟨_,none,rfl,?_⟩,id⟩
      cases s.record with
      | none => trivial
      | some r => exact away
    | checkStop r =>
      simp only [place] at away acted
      rw [if_pos away] at acted
      cases acted
      exact ⟨⟨_,none,rfl,trivial⟩,id⟩
    | checkLoop r file body | checkProgress r file body | checkLength r total | checkEnd r | checkCurrent r | checkFailed interrupted message | leave =>
      rw [place] at acted
      cases acted
      refine ⟨⟨_,none,rfl,?_⟩,id⟩
      split
      · trivial
      · trivial
    | readRecord reason message =>
      rw [place] at acted
      cases acted
      refine ⟨⟨_,none,rfl,?_⟩,id⟩
      cases s.record with
      | none | some r => trivial
    | renamePart r =>
      simp only [place] at acted
      split at acted
      · cases acted
        exact ⟨⟨_,none,rfl,trivial⟩,fun _ => rfl⟩
      · cases acted
        exact ⟨⟨_,none,rfl,trivial⟩,id⟩
    | poolRestart later =>
      rw [place] at acted
      cases acted
      exact ⟨⟨_,some later,rfl,trivial⟩,id⟩
    | execute r offset | write r file body | publish r | ended =>
      rw [place] at acted
      cases acted
    | futureRestart later | updateProgress r file body | dropDest r | dropPublished r size uri | updateDone r size uri | readStop interrupted message
    | updateFailed r reason message | dropCall =>
      rw [place] at acted
      cases acted
      exact ⟨⟨_,none,rfl,trivial⟩,id⟩
    | _ => simp only [place] at away
  | fails interrupted message =>
    obtain ⟨_,⟨⟩⟩ := Option.ite_none_right_eq_some.mp acted
    exact ⟨⟨_,none,rfl,trivial⟩,id⟩
  | answered response =>
    simp only [acts] at acted
    split at acted
    · rename_i place
      simp only [place] at away
      rw [if_pos away] at acted
      cases acted
    · cases acted
  | reads n shows =>
    simp only [acts] at acted
    split at acted
    · split at acted
      · cases acted
        exact ⟨⟨_,none,rfl,trivial⟩,id⟩
      · cases acted
        refine ⟨⟨_,none,rfl,?_⟩,fun none => by rw [State.goes]; simp [none]⟩
        cases shows with
        | true | false => trivial
    · cases acted
  | published uri =>
    simp only [acts] at acted
    split at acted
    · cases acted
      refine ⟨⟨_,none,rfl,?_⟩,id⟩
      cases uri with
      | none | some uri => trivial
    · cases acted

end Steps

section Lists
variable {s next : State} {a j : Nat} {w v : Worker} {which : Option Nat} {place : Place}

theorem pooled_same (begun : w.place ≠ .created) : pooled w = w := by
  unfold pooled
  split
  · rename_i created
    exact absurd created begun
  · rfl

theorem away_begun (away : Away w) : w.place ≠ .created := by
  intro created
  unfold Away at away
  rw [created] at away
  exact away

theorem idle_begun (idle : Idle w) : w.place ≠ .created := by
  intro created
  unfold Idle at idle
  rw [created] at idle
  exact idle

theorem bystander_begun (bystander : Bystander w) : w.place ≠ .created := by
  intro created
  unfold Bystander at bystander
  rw [created] at bystander
  exact away_begun bystander.2 created

theorem each_length (change : Worker → Worker) : (s.each which change).workers.length = s.workers.length := by
  cases which with
  | none => rfl
  | some b => exact List.length_modify ..

theorem each_at (change : Worker → Worker) (found : (s.each which change).workers[j]? = some v) :
    ∃ u, s.workers[j]? = some u ∧ (v = u ∨ v = change u) := by
  cases which with
  | none => exact ⟨v,found,.inl rfl⟩
  | some b =>
    change (s.workers.modify b change)[j]? = some v at found
    rw [List.getElem?_modify] at found
    obtain ⟨u,stood,same⟩ := Option.map_eq_some_iff.mp found
    refine ⟨u,stood,?_⟩
    split at same
    · exact .inr same.symm
    · exact .inl same.symm

section
variable (workers : next.workers = (s.each which pooled).workers.modify a (Worker.goes place))
include workers

theorem moved_length : next.workers.length = s.workers.length := by
  rw [workers,List.length_modify,each_length]

theorem moved_self (found : s.workers[a]? = some w)
    (there : next.workers[a]? = some v) : v = w.goes place := by
  rw [workers,List.getElem?_modify_eq] at there
  obtain ⟨u,stood,rfl⟩ := Option.map_eq_some_iff.mp there
  obtain ⟨old,before,same⟩ := each_at pooled stood
  cases found.symm.trans before
  rcases same with rfl | rfl
  · rfl
  · unfold pooled
    split
    · rfl
    · rfl

theorem moved_other (differs : j ≠ a)
    (there : next.workers[j]? = some v) : ∃ u, s.workers[j]? = some u ∧ (v = u ∨ v = pooled u) := by
  rw [workers,List.getElem?_modify_ne _ _ (Ne.symm differs)] at there
  exact each_at pooled there

end

end Lists

def UserOk (s : State) : Prop :=
  match s.user with
  | some .putAttempt => s.record.isSome = true
  | some (.removeAttempt _) => s.record = none ∧ ∀ w ∈ s.workers, Away w
  | some (.removeFuture _) => s.record = none ∧ ∀ w ∈ s.workers, Away w
  | some (.deleteJournal _) => s.record = none ∧ ∀ w ∈ s.workers, Away w
  | some (.deletePartial _) => s.record = none ∧ ∀ w ∈ s.workers, Away w
  | _ => True

theorem user_keeps (known : s.record.isSome = true → next.record.isSome = true)
    (removing : (s.record = none ∧ ∀ w ∈ s.workers, Away w) → next.record = none ∧ ∀ w ∈ next.workers, Away w)
    (same : next.user = s.user) (user : UserOk s) : UserOk next := by
  unfold UserOk at user ⊢
  rw [same]
  cases call : s.user with
  | none => trivial
  | some call' =>
    rw [call] at user
    cases call' with
    | putAttempt => exact known user
    | removeAttempt r | removeFuture r | deleteJournal r | deletePartial r => exact removing user
    | _ => trivial

structure Inert (s : State) : Prop where
  current : ∀ a, s.attempt = some a → a + 1 = s.workers.length
  older : ∀ (a : Nat) w, s.workers[a]? = some w → a + 1 < s.workers.length → Idle w
  missing : s.record = none → ∀ (a : Nat) w, s.workers[a]? = some w → Bystander w
  journal : s.journal = none → s.record = none
  known : s.retired ≤ s.workers.length
  retired : ∀ (a : Nat) w, s.workers[a]? = some w → a < s.retired → Away w

section Workers
variable {s next : State} {a j : Nat} {w v : Worker} {act : Act} {which : Option Nat} {place : Place}

theorem moved_keeps (P : Worker → Prop) (begun : ∀ u, P u → u.place ≠ .created)
    (workers : next.workers = (s.each which pooled).workers.modify a (Worker.goes place)) (found : s.workers[a]? = some w)
    (own : P w → P (w.goes place)) (before : ∀ u, s.workers[j]? = some u → P u) (there : next.workers[j]? = some v) : P v := by
  by_cases self : j = a
  · subst self
    rw [moved_self workers found there]
    exact own (before w found)
  · obtain ⟨u,stood,same⟩ := moved_other workers self there
    have holds := before u stood
    rcases same with rfl | rfl
    · exact holds
    · rwa [pooled_same (begun u holds)]

theorem recorded_none (recorded : Recorded s next) (gone : next.record = none) : s.record = none := by
  rcases recorded with ⟨same,_⟩ | ⟨r,written,_⟩
  · rwa [same] at gone
  · rw [written] at gone
    cases gone

theorem recorded_some (recorded : Recorded s next) (known : s.record.isSome = true) : next.record.isSome = true := by
  rcases recorded with ⟨same,_⟩ | ⟨r,written,_⟩
  · rwa [same]
  · rw [written]
    rfl

theorem moves_inert (inert : Inert s) (found : s.workers[a]? = some w) (acted : acts s a w act = some next)
    (recorded : Recorded s next) (kept : next.retired = s.retired) (attempt : next.attempt = s.attempt)
    (workers : next.workers = (s.each which pooled).workers.modify a (Worker.goes place)) : Inert next where
  current := by
    intro b put
    rw [attempt] at put
    rw [moved_length workers]
    exact inert.current b put
  older := by
    intro j v there earlier
    rw [moved_length workers] at earlier
    by_cases self : j = a
    · subst self
      have idle := inert.older j w found earlier
      have superseded : s.attempt ≠ some j := fun current => absurd (inert.current j current) (Nat.ne_of_lt earlier)
      obtain ⟨_,still,stays,_⟩ := idle_acts idle acted
      obtain ⟨_,moved⟩ := still.workers
      rw [moved_self moved found there]
      exact stays superseded
    · obtain ⟨u,stood,same⟩ := moved_other workers self there
      have idle := inert.older j u stood earlier
      rcases same with rfl | rfl
      · exact idle
      · rwa [pooled_same (idle_begun idle)]
  missing := by
    intro none j v there
    have gone := recorded_none recorded none
    obtain ⟨_,still,stays⟩ := bystander_acts (inert.missing gone a w found) gone acted
    obtain ⟨_,moved⟩ := still.workers
    exact moved_keeps Bystander (fun _ => bystander_begun) moved found (fun _ => stays) (inert.missing gone j) there
  journal := by
    intro none
    rcases recorded with ⟨record,journal⟩ | ⟨r,_,journal⟩
    · rw [journal] at none
      rw [record]
      exact inert.journal none
    · rw [journal] at none
      cases none
  known := by
    rw [kept,moved_length workers]
    exact inert.known
  retired := by
    intro j v there early
    rw [kept] at early
    by_cases self : j = a
    · subst self
      obtain ⟨⟨_,_,moved,stays⟩,_⟩ := away_acts (inert.retired j w found early) acted
      rwa [moved_self moved found there]
    · obtain ⟨u,stood,same⟩ := moved_other workers self there
      have away := inert.retired j u stood early
      rcases same with rfl | rfl
      · exact away
      · rwa [pooled_same (away_begun away)]

-- The restart of a download puts the next attempt from within the worker.
theorem restart_inert (inert : Inert s) (found : s.workers[a]? = some w) (restarts : w.place = .submitRestart)
    (calm : ∀ v ∈ s.workers.eraseIdx a, Idle v) : Inert (s.puts.goes a (.poolRestart s.workers.length)) := by
  have long : (s.puts.goes a (.poolRestart s.workers.length)).workers.length = s.workers.length + 1 := by
    simp [State.puts,State.goes]
  have before : ∀ (j : Nat) v, j < s.workers.length → (s.puts.goes a (.poolRestart s.workers.length)).workers[j]? = some v →
      (j = a ∧ v = w.goes (.poolRestart s.workers.length)) ∨ (j ≠ a ∧ s.workers[j]? = some v) := by
    intro j v early there
    change ((s.workers ++ [_]).modify a _)[j]? = some v at there
    rw [List.getElem?_modify,List.getElem?_append_left early] at there
    obtain ⟨u,stood,same⟩ := Option.map_eq_some_iff.mp there
    split at same
    · rename_i self
      subst self
      cases found.symm.trans stood
      exact .inl ⟨rfl,same.symm⟩
    · rename_i differs
      subst same
      exact .inr ⟨Ne.symm differs,stood⟩
  constructor
  case current =>
    rintro b ⟨⟩
    exact long.symm
  case older =>
    intro j v there earlier
    rcases before j v (by omega) there with ⟨_,rfl⟩ | ⟨differs,stood⟩
    · trivial
    · exact calm v (List.mem_eraseIdx_iff_getElem?.mpr ⟨j,differs,stood⟩)
  case missing =>
    intro gone
    have bystander := inert.missing gone a w found
    simp only [Bystander,Idle,restarts,false_and] at bystander
  case journal => exact inert.journal
  case known =>
    rw [long]
    exact Nat.le_succ_of_le inert.known
  case retired =>
    intro j v there early
    rcases before j v (Nat.lt_of_lt_of_le early inert.known) there with ⟨_,rfl⟩ | ⟨_,stood⟩
    · trivial
    · exact inert.retired j v stood early

theorem restart_user (user : UserOk s) (found : s.workers[a]? = some w) (restarts : w.place = .submitRestart) :
    UserOk (s.puts.goes a (.poolRestart s.workers.length)) := by
  have awake : ¬ ∀ v ∈ s.workers, Away v := by
    intro away
    have left := away w (List.mem_of_getElem? found)
    simp only [Away,restarts] at left
  exact user_keeps (s := s) id (fun removing => absurd removing.2 awake) rfl user

theorem moves_user (inert : Inert s) (user : UserOk s) (found : s.workers[a]? = some w) (acted : acts s a w act = some next)
    (recorded : Recorded s next) (same : next.user = s.user) : UserOk next := by
  have removing : (s.record = none ∧ ∀ w ∈ s.workers, Away w) → next.record = none ∧ ∀ w ∈ next.workers, Away w := by
    rintro ⟨gone,away⟩
    obtain ⟨_,still,_⟩ := bystander_acts (inert.missing gone a w found) gone acted
    obtain ⟨⟨_,_,moved,stays⟩,_⟩ := away_acts (away w (List.mem_of_getElem? found)) acted
    refine ⟨still.record.trans gone,?_⟩
    intro v member
    obtain ⟨j,there⟩ := List.mem_iff_getElem?.mp member
    exact moved_keeps Away (fun _ => away_begun) moved found (fun _ => stays)
      (fun u stood => away u (List.mem_of_getElem? stood)) there
  exact user_keeps (recorded_some recorded) removing same user

end Workers

section Calls
variable {s next : State} {which : Option Nat} {change : Worker → Worker} {r : TransferRecord}

structure Kept (change : Worker → Worker) : Prop where
  idle : ∀ w, Idle w → Idle (change w)
  bystander : ∀ w, Bystander w → Bystander (change w)
  away : ∀ w, Away w → Away (change w)

theorem pooled_kept : Kept pooled where
  idle w idle := by rwa [pooled_same (idle_begun idle)]
  bystander w bystander := by rwa [pooled_same (bystander_begun bystander)]
  away w away := by rwa [pooled_same (away_begun away)]

theorem stop_kept (reason : Reason) : Kept fun w => {w with stop := some reason} where
  idle w idle := by
    unfold Idle at idle ⊢
    cases place : w.place <;> rw [place] at idle <;> first | exact idle | rfl
  bystander w bystander := by
    unfold Bystander Idle Away at bystander ⊢
    cases place : w.place <;> simp only [place] at bystander ⊢ <;> first | exact bystander | exact ⟨rfl,rfl⟩ | exact ⟨rfl,trivial⟩
  away w away := by
    unfold Away at away ⊢
    cases place : w.place <;> rw [place] at away <;> first | exact away | rfl

theorem cancelled_kept : Kept cancelled where
  idle w idle := by
    unfold Idle cancelled at *
    cases place : w.place <;> rw [place] at idle <;> exact idle
  bystander w bystander := by
    unfold Bystander Idle Away cancelled at *
    cases place : w.place <;> simp only [place] at bystander ⊢ <;> first | exact bystander | exact ⟨trivial,trivial⟩
  away w away := by
    unfold Away cancelled at *
    cases place : w.place <;> rw [place] at away <;> exact away

theorem hit_kept : Kept hit where
  idle w idle := by
    unfold hit
    split
    · trivial
    · exact idle
  bystander w bystander := by
    unfold hit
    split
    · exact ⟨trivial,trivial⟩
    · exact bystander
  away w away := by
    unfold hit
    split
    · trivial
    · exact away

section
variable (inert : Inert s)
include inert

theorem inert_each (kept : Kept change) : Inert (s.each which change) where
  current := by
    rw [each_length]
    exact inert.current
  older := by
    intro a w there earlier
    rw [each_length] at earlier
    obtain ⟨u,stood,rfl | rfl⟩ := each_at change there
    · exact inert.older a _ stood earlier
    · exact kept.idle u (inert.older a u stood earlier)
  missing := by
    intro gone a w there
    obtain ⟨u,stood,rfl | rfl⟩ := each_at change there
    · exact inert.missing gone a _ stood
    · exact kept.bystander u (inert.missing gone a u stood)
  journal := inert.journal
  known := by
    rw [each_length]
    exact inert.known
  retired := by
    intro a w there early
    obtain ⟨u,stood,rfl | rfl⟩ := each_at change there
    · exact inert.retired a _ stood early
    · exact kept.away u (inert.retired a u stood early)

theorem inert_update : Inert (s.update r) where
  current := inert.current
  older := inert.older
  missing := nofun
  journal := nofun
  known := inert.known
  retired := inert.retired

theorem inert_next (call : UserCall) : Inert (s.next call) :=
  ⟨inert.current,inert.older,inert.missing,inert.journal,inert.known,inert.retired⟩

theorem inert_returns : Inert s.returns :=
  ⟨inert.current,inert.older,inert.missing,inert.journal,inert.known,inert.retired⟩

theorem inert_drops : Inert s.drops :=
  ⟨inert.current,inert.older,inert.missing,inert.journal,inert.known,inert.retired⟩

theorem inert_retires (away : ∀ w ∈ s.workers, Away w) : Inert s.retires where
  current := inert.current
  older := inert.older
  missing := inert.missing
  journal := inert.journal
  known := Nat.le_refl _
  retired := fun _ w there _ => away w (List.mem_of_getElem? there)

theorem inert_puts (known : s.record.isSome = true) (idle : ∀ w ∈ s.workers, Idle w) : Inert s.puts where
  current := by
    rintro a ⟨⟩
    simp [State.puts]
  older := by
    intro a w there earlier
    simp only [State.puts,List.length_append,List.length_singleton] at there earlier
    rw [List.getElem?_append_left (by omega)] at there
    exact idle w (List.mem_of_getElem? there)
  missing := by
    intro gone
    change s.record = none at gone
    rw [gone] at known
    cases known
  journal := inert.journal
  known := by
    simp only [State.puts,List.length_append,List.length_singleton]
    exact Nat.le_succ_of_le inert.known
  retired := by
    intro a w there early
    simp only [State.puts] at there early
    rw [List.getElem?_append_left (Nat.lt_of_lt_of_le early inert.known)] at there
    exact inert.retired a w there early

theorem inert_removed (calm : ∀ w ∈ s.workers, Idle w ∧ Away w) : Inert {s with record := none} where
  current := inert.current
  older := inert.older
  missing := by
    intro _ a w there
    obtain ⟨idle,away⟩ := calm w (List.mem_of_getElem? there)
    exact idle_bystander idle away
  journal := fun _ => rfl
  known := inert.known
  retired := inert.retired

theorem proceeds_inert (user : UserOk s) (call : UserCall) (calling : s.user = some call) (calm : Calm s .user) :
    Inert (proceeds s call) ∧ UserOk (proceeds s call) := by
  simp only [UserOk,calling] at user
  simp only [Calm,calling] at calm
  cases call with
  | putRecord | updateQueued r => exact ⟨inert_next (inert_update inert) _,rfl⟩
  | putAttempt => exact ⟨inert_next (inert_puts inert user calm) _,trivial⟩
  | pool a => exact ⟨inert_next (inert_each inert pooled_kept) _,trivial⟩
  | putFuture a => exact ⟨⟨inert.current,inert.older,inert.missing,inert.journal,inert.known,inert.retired⟩,trivial⟩
  | setStop r reason => exact ⟨inert_next (inert_each inert (stop_kept reason)) _,trivial⟩
  | cancelCall r reason => exact ⟨inert_next (inert_each inert cancelled_kept) _,trivial⟩
  | cancelFuture r reason =>
    have after : Inert (s.each s.future hit) := inert_each inert hit_kept
    simp only [proceeds]
    split
    · split
      · exact ⟨inert_next after _,trivial⟩
      · exact ⟨inert_returns after,trivial⟩
    · exact ⟨inert_next after _,trivial⟩
  | updateStopped r reason =>
    simp only [proceeds]
    split
    · exact ⟨inert_next (inert_update inert) _,trivial⟩
    · exact ⟨inert_returns (inert_update inert),trivial⟩
  | findPartial =>
    simp only [proceeds]
    split
    · exact ⟨inert_next inert _,trivial⟩
    · rename_i unknown
      exact ⟨inert_retires inert (calm (by simpa using unknown)),trivial⟩
  | dropPartial => exact ⟨inert_retires (inert_drops inert) calm,trivial⟩
  | removeRecord r => exact ⟨inert_next (inert_removed inert calm) _,rfl,fun w member => (calm w member).2⟩
  | removeAttempt r => exact ⟨⟨nofun,inert.older,inert.missing,inert.journal,inert.known,inert.retired⟩,user⟩
  | removeFuture r => exact ⟨⟨inert.current,inert.older,inert.missing,inert.journal,inert.known,inert.retired⟩,user⟩
  | deleteJournal r =>
    have after : Inert {s with journal := none} :=
      ⟨inert.current,inert.older,inert.missing,fun _ => user.1,inert.known,inert.retired⟩
    simp only [proceeds]
    split
    · exact ⟨inert_retires after user.2,trivial⟩
    · exact ⟨inert_next after _,user⟩
  | deletePartial r => exact ⟨inert_retires (inert_drops inert) user.2,trivial⟩

end

end Calls

section Runs
variable {s next : State} {event : Event} {a : Nat} {act : Act}

section
variable (inert : Inert s) (user : UserOk s)
include inert user

theorem begins_inert (begun : begins s event = some next) : Inert next ∧ UserOk next := by
  have called : ∀ call, UserOk (s.next call) → Inert (s.next call) ∧ UserOk (s.next call) :=
    fun call ok => ⟨inert_next inert call,ok⟩
  cases event with
  | enqueue =>
    simp only [begins] at begun
    split at begun
    · split at begun <;> cases begun
      · exact ⟨inert,user⟩
      · exact called _ trivial
    · cases begun
      exact called _ trivial
  | resume =>
    simp only [begins] at begun
    split at begun
    · split at begun <;> cases begun
      · exact called _ trivial
      · exact ⟨inert,user⟩
    · cases begun
      exact ⟨inert,user⟩
  | pause | remove =>
    simp only [begins] at begun
    split at begun
    · split at begun <;> cases begun
      · exact ⟨inert,user⟩
      · exact called _ trivial
    · cases begun
      exact ⟨inert,user⟩
  | cancel =>
    simp only [begins] at begun
    split at begun
    · split at begun <;> cases begun
      · exact called _ trivial
      · exact called _ trivial
    · cases begun
      exact called _ trivial
  | user | worker a act => cases begun

theorem worker_inert (calm : Calm s (.worker a act)) (found : s.workers[a]? = some w)
    (acted : acts s a w act = some next) : Inert next ∧ UserOk next := by
  obtain ⟨calling,kept,recorded,⟨_,_,workers,attempt⟩ | ⟨restarts,rfl,rfl⟩⟩ := acts_shape acted
  · exact ⟨moves_inert inert found acted recorded kept attempt workers,moves_user inert user found acted recorded calling⟩
  · have idle : ∀ v ∈ s.workers.eraseIdx a, Idle v := by
      simp only [Calm,found] at calm
      split at calm
      · exact calm
      · rename_i other
        obtain ⟨stop,interrupted,cancelledCall,place⟩ := w
        cases restarts
        exact absurd rfl (other stop interrupted cancelledCall)
    exact ⟨restart_inert inert found restarts idle,restart_user user found restarts⟩

theorem step_inert (calm : Calm s event) (stepped : step s event = some next) :
    Inert next ∧ UserOk next := by
  cases event with
  | worker a act =>
    obtain ⟨w,found,acted⟩ := Option.bind_eq_some_iff.mp stepped
    exact worker_inert inert user calm found acted
  | user =>
    obtain ⟨call,calling,rfl⟩ := Option.map_eq_some_iff.mp stepped
    exact proceeds_inert inert user call calling calm
  | _ =>
    obtain ⟨_,stepped⟩ := Option.ite_none_left_eq_some.mp stepped
    exact begins_inert inert user stepped

end

theorem initial_inert (journal : Option TransferRecord) (part : Option Part) (dest : Option Bytes) : Inert (initial journal part dest) where
  current := by
    intro a put
    cases put
  older := by
    intro a w there
    cases there
  missing := by
    intro _ a w there
    cases there
  journal := id
  known := Nat.le_refl 0
  retired := by
    intro a w there
    cases there

theorem run_inert
    (calm : Runs.Every step Calm (initial journal part dest) events) (ran : Runs.run step (initial journal part dest) events = some last) :
    Inert last := by
  have both := Runs.run_preserves_when (fun s => Inert s ∧ UserOk s)
    (fun s event next kept calm stepped => step_inert kept.1 kept.2 calm stepped) ⟨initial_inert journal part dest,trivial⟩ calm ran
  exact both.1

def Harmless (before after : State) (a : Nat) : Prop :=
  (a + 1 < before.workers.length →
    after.record = before.record ∧ after.journal = before.journal ∧ (after.part = before.part ∨ after.part = none)) ∧
  (a < before.retired → (before.record = none → after.record = none) ∧ (before.journal = none → after.journal = none) ∧
    (before.part = none → after.part = none))

theorem attempts_inert {journal : Option TransferRecord} {part : Option Part} {dest : Option Bytes} {events : List Event}
    (calm : Runs.Every step Calm (initial journal part dest) events) :
    ∀ past a act rest before after, events = past ++ .worker a act :: rest →
      Runs.run step (initial journal part dest) past = some before → step before (.worker a act) = some after →
      Harmless before after a := by
  intro past a act rest before after split ran stepped
  subst split
  have inert := run_inert (Runs.every_front calm) ran
  obtain ⟨w,found,acted⟩ := Option.bind_eq_some_iff.mp stepped
  constructor
  · intro older
    have idle := inert.older a w found older
    obtain ⟨_,still,_⟩ := idle_acts idle acted
    exact ⟨still.record,still.journal,still.part⟩
  · intro early
    have leaves : before.record = none → after.record = none ∧ after.journal = before.journal := by
      intro gone
      obtain ⟨_,still,_⟩ := bystander_acts (inert.missing gone a w found) gone acted
      exact ⟨still.record.trans gone,still.journal⟩
    refine ⟨fun gone => (leaves gone).1,?_,(away_acts (inert.retired a w found early) acted).2⟩
    intro gone
    exact (leaves (inert.journal gone)).2.trans gone

def pausedRun : List Event :=
  [.enqueue,.user,.user,.user,.user,.worker 0 .goes,.worker 0 .goes,.worker 0 .goes,.worker 0 .goes,.worker 0 .goes,
    .pause,.user,.user,.user,.worker 0 (.fails true ""),.worker 0 .goes,.worker 0 .goes,.worker 0 .goes,.worker 0 .goes,
    .resume,.user,.user,.user,.user,.cancel,.user,.user,.user,.user,.user,.user]

theorem paused_attempt_inert : ∃ before after, Runs.run step (initial none none none) pausedRun = some before ∧
    step before (.worker 0 .goes) = some after ∧ 0 + 1 < before.workers.length ∧ 0 < before.retired ∧ Harmless before after 0 := by
  have calm : Runs.Every step Calm (initial none none none) (pausedRun ++ [.worker 0 .goes]) := by decide
  exact ⟨_,_,rfl,rfl,by decide,by decide,attempts_inert calm pausedRun 0 .goes [] _ _ rfl rfl rfl⟩

def removedRun : List Event :=
  [.enqueue,.user,.user,.user,.user,.worker 0 .goes,.worker 0 .goes,.cancel,.user,.user,.user,.user,.user,.user,
    .remove,.user,.user,.user,.user,.user]

def resumedRun : List Event :=
  [.enqueue,.user,.user,.user,.user,.worker 0 .goes,.worker 0 .goes,.pause,.user,.user,.user,.user,.resume,.user,.user,.user,.user]

theorem late_worker_writes_record :
    (∃ before after, Runs.run step (initial none none none) removedRun = some before ∧ step before (.worker 0 .goes) = some after ∧
      0 < before.retired ∧ before.user.isNone = true ∧ before.record = none ∧ before.journal = none ∧
      after.record.isSome = true ∧ after.journal.isSome = true ∧ ¬ Harmless before after 0) ∧
    ∃ before after, Runs.run step (initial none none none) resumedRun = some before ∧ step before (.worker 0 .goes) = some after ∧
      0 + 1 < before.workers.length ∧ after.record ≠ before.record ∧ ¬ Harmless before after 0 := by
  refine ⟨⟨_,_,rfl,rfl,by decide,rfl,rfl,rfl,rfl,rfl,?_⟩,⟨_,_,rfl,rfl,by decide,?_,?_⟩⟩
  · intro harmless
    have gone := (harmless.2 (by decide)).1 rfl
    cases gone
  · intro same
    cases same
  · intro harmless
    have same := (harmless.1 (by decide)).1
    cases same

end Runs

end RemoteFileExplorer.DownloadAttempts
