import RemoteFileExplorer.Runs

namespace RemoteFileExplorer.ServerStates

inductive Link where
  | connecting
  | online
  | disconnected
  | offline
  | lost
  | refused
  | login
  | trust
  deriving DecidableEq, Repr

-- One server of the window. Fingerprints are in the form `rawFp` gives them,
-- empty where there is none.
structure Server where
  state : Link
  userOff : Bool
  signedIn : Bool
  pinned : Bool
  fp : String
  pendingFp : String
  oldFp : String
  newFp : String
  checking : Bool
  attempts : Nat
  retryIn : Int
  reachable : Bool
  deriving DecidableEq, Repr

-- A function that waits: `check` for the health or, inside `flagCert`, for the
-- certificate, `connect` for the certificate or for its own check, and a
-- sign-in for the core or for the saved hosts. `awaited` says that a connect
-- waits for this check.
inductive Waiting where
  | health (awaited : Bool)
  | certificate (awaited : Bool)
  | probe
  | checked
  | signIn
  | saved
  deriving DecidableEq, Repr

structure State where
  server : Server
  waiting : List Waiting
  accHealth : Nat
  deriving DecidableEq, Repr

inductive HealthError where
  | unauthorized
  | cert
  | other
  deriving DecidableEq, Repr

structure Probe where
  changed : Bool
  fingerprint : String
  deriving DecidableEq, Repr

inductive Event where
  | connect
  | trust
  | cancelConnect
  | disconnect
  | retryNow
  | reverify
  | signIn
  | check
  | tick (dt : Nat) (autoReconnect : Bool)
  | loadServers (fingerprint : String) (signedIn : Bool)
  | health (i : Nat) (answer : Except HealthError Unit)
  | certificate (i : Nat) (answer : Option Probe)
  | probe (i : Nat) (answer : Option Probe)
  | checked (i : Nat)
  | signedIn (i : Nat) (answer : Option String)
  | saved (i : Nat)
  deriving DecidableEq

def setState (s : Server) (st : Link) : Server :=
  if s.state = st then s else {s with state := st,attempts := if st = .online then 0 else s.attempts}

def State.set (s : State) (server : Server) : State := {s with server := server}
def State.wait (s : State) (waiting : Waiting) : State := {s with waiting := s.waiting ++ [waiting]}
def State.answered (s : State) (i : Nat) : State := {s with waiting := s.waiting.eraseIdx i}

def check (s : State) (awaited : Bool) : State :=
  if s.server.checking then if awaited then s.wait .checked else s
  else (s.set {s.server with checking := true}).wait (.health awaited)

def endCheck (s : State) (awaited : Bool) : State :=
  let s := s.set {s.server with checking := false}
  if awaited then s.wait .checked else s

def healthOk (s : Server) : Server := setState {s with reachable := true,signedIn := true} .online

def healthFailed (s : Server) : Server :=
  match s.state with
  | .online => setState {s with attempts := 0,retryIn := 8} .lost
  | .lost => s
  | _ => setState {s with reachable := false} .offline

def flagCert (s : Server) (p : Probe) : Server :=
  if p.changed then setState {s with oldFp := s.fp,newFp := p.fingerprint} .refused else setState s .lost

def connect (s : State) : State :=
  if s.server.state = .connecting ∨ s.server.state = .online ∨ s.server.state = .trust then s else
  let s := s.set (setState {s.server with userOff := false,attempts := 0} .connecting)
  if s.server.signedIn && s.server.pinned then check s true else s.wait .probe

def probed (s : Server) : Option Probe → Server
  | none => setState {s with reachable := false} .offline
  | some p =>
    if p.changed then setState {s with reachable := true,oldFp := s.fp,newFp := p.fingerprint} .refused else
    if s.pinned = true ∧ s.fp = p.fingerprint then setState {s with reachable := true,pendingFp := p.fingerprint} .login else
    setState {s with reachable := true,pendingFp := p.fingerprint,fp := p.fingerprint} .trust

def retryNow (s : State) : State :=
  let s := s.set {s.server with userOff := false}
  if s.server.state = .lost then check (s.set (setState {s.server with attempts := s.server.attempts + 1} .connecting)) false else
  if s.server.state = .offline ∨ s.server.state = .disconnected then connect s else s

def tickServer (s : State) (autoReconnect : Bool) : State :=
  if s.server.userOff || !s.server.signedIn then s else
  match s.server.state with
  | .online => check s false
  | .connecting => check s false
  | .lost =>
    if autoReconnect then
      if s.server.retryIn - 6 ≤ 0 then check (s.set {s.server with attempts := s.server.attempts + 1,retryIn := 8}) false
      else s.set {s.server with retryIn := s.server.retryIn - 6}
    else s
  | .offline => if autoReconnect then check s false else s
  | _ => s

def step (s : State) : Event → Option State
  | .connect => some (connect s)
  | .trust => some (if s.server.state = .trust then s.set (setState {s.server with pendingFp := s.server.fp} .login) else s)
  | .cancelConnect =>
    some (if s.server.state = .connecting ∨ s.server.state = .trust ∨ s.server.state = .login then
      s.set (setState {s.server with userOff := true} .disconnected) else s)
  | .disconnect => some (if s.server.state = .disconnected then s else s.set (setState {s.server with userOff := true} .disconnected))
  | .retryNow => some (retryNow s)
  | .reverify =>
    some (if s.server.state = .refused then
      s.set (setState {s.server with fp := s.server.newFp,pendingFp := s.server.newFp,oldFp := "",newFp := "",signedIn := false} .login) else s)
  | .signIn => some (s.wait .signIn)
  | .check => some (check s false)
  | .tick dt autoReconnect =>
    some (if s.accHealth + dt < 6000 then {s with accHealth := s.accHealth + dt} else tickServer {s with accHealth := 0} autoReconnect)
  | .loadServers fingerprint signedIn =>
    let server := {s.server with pinned := fingerprint != "",fp := if fingerprint = "" then s.server.fp else fingerprint,signedIn := signedIn}
    some (s.set (if signedIn = false ∧ server.state = .online then setState server .disconnected else server))
  | .health i answer =>
    match s.waiting[i]? with
    | some (.health awaited) =>
      let s := s.answered i
      if s.server.userOff then some (endCheck s awaited) else
      match answer with
      | .ok () => some (endCheck (s.set (healthOk s.server)) awaited)
      | .error .unauthorized => some (endCheck (s.set (setState {s.server with signedIn := false} .login)) awaited)
      | .error .cert => some (s.wait (.certificate awaited))
      | .error .other => some (endCheck (s.set (healthFailed s.server)) awaited)
    | _ => none
  | .certificate i answer =>
    match s.waiting[i]? with
    | some (.certificate awaited) => some (endCheck ((s.answered i).set (answer.elim s.server (flagCert s.server))) awaited)
    | _ => none
  | .probe i answer =>
    match s.waiting[i]? with
    | some .probe => some ((s.answered i).set (probed s.server answer))
    | _ => none
  | .checked i =>
    match s.waiting[i]? with
    | some .checked => some ((s.answered i).set (if s.server.state = .connecting then setState s.server .offline else s.server))
    | _ => none
  | .signedIn i answer =>
    match s.waiting[i]? with
    | some .signIn =>
      match answer with
      | none => some (s.answered i)
      | some fingerprint =>
        let fp := if fingerprint = "" then s.server.fp else fingerprint
        some (((s.answered i).set (setState {s.server with signedIn := true,pinned := true,fp := fp,pendingFp := ""} .connecting)).wait .saved)
    | _ => none
  | .saved i =>
    match s.waiting[i]? with
    | some .saved => some (check (s.answered i) false)
    | _ => none

def Event.turnsOn : Event → Bool
  | .connect => true
  | .retryNow => true
  | .signIn => true
  | _ => false

-- While the user has turned the server off, no certificate is answered and no
-- sign-in that was under way succeeds.
def Quiet (s : State) : Event → Prop
  | .probe _ _ => s.server.userOff = false
  | .certificate _ (some _) => s.server.userOff = false
  | .signedIn _ (some _) => s.server.userOff = false
  | _ => True

section Fields
variable (s : State) (server : Server)

@[simp] theorem setState_state (st : Link) : (setState server st).state = st := by
  unfold setState
  split
  · assumption
  · rfl

@[simp] theorem setState_userOff (st : Link) : (setState server st).userOff = server.userOff := by
  unfold setState
  split
  · rfl
  · rfl

@[simp] theorem set_server : (s.set server).server = server := rfl
@[simp] theorem wait_server (waiting : Waiting) : (s.wait waiting).server = s.server := rfl
@[simp] theorem answered_server (i : Nat) : (s.answered i).server = s.server := rfl

@[simp] theorem check_state (awaited : Bool) : (check s awaited).server.state = s.server.state := by
  unfold check
  split
  · split
    · rfl
    · rfl
  · rfl

@[simp] theorem check_userOff (awaited : Bool) : (check s awaited).server.userOff = s.server.userOff := by
  unfold check
  split
  · split
    · rfl
    · rfl
  · rfl

@[simp] theorem endCheck_state (awaited : Bool) : (endCheck s awaited).server.state = s.server.state := by
  cases awaited with
  | false => rfl
  | true => rfl

@[simp] theorem endCheck_userOff (awaited : Bool) : (endCheck s awaited).server.userOff = s.server.userOff := by
  cases awaited with
  | false => rfl
  | true => rfl

@[simp] theorem flagCert_userOff (p : Probe) : (flagCert server p).userOff = server.userOff := by
  unfold flagCert
  split
  · simp
  · simp

theorem flagCert_state (p : Probe) : (flagCert server p).state ≠ .disconnected := by
  unfold flagCert
  split
  · simp
  · simp

@[simp] theorem probed_userOff (answer : Option Probe) : (probed server answer).userOff = server.userOff := by
  unfold probed
  split
  · simp
  · split
    · simp
    · split
      · simp
      · simp

theorem probed_state (answer : Option Probe) : (probed server answer).state ≠ .disconnected := by
  unfold probed
  split
  · simp
  · split
    · simp
    · split
      · simp
      · simp

end Fields

section Steps
variable {s next : State} {event : Event}

-- Of the events the user has no part in, those that are not quiet are the ones
-- that change the state.
theorem step_off (off : s.server.userOff = true) (rests : event.turnsOn = false) (stepped : step s event = some next) :
    next.server.userOff = true ∧ (s.server.state = .disconnected → (next.server.state = .disconnected ↔ Quiet s event)) := by
  cases event with
  | connect | retryNow | signIn => cases rests
  | trust | reverify | loadServers =>
    cases stepped
    refine ⟨?_,fun disconnected => by simp [disconnected,Quiet]⟩
    dsimp only
    split
    · simpa using off
    · exact off
  | cancelConnect =>
    cases stepped
    refine ⟨?_,fun disconnected => by simp [disconnected,Quiet]⟩
    split
    · simp
    · exact off
  | disconnect =>
    cases stepped
    refine ⟨?_,fun disconnected => by simp [disconnected,Quiet]⟩
    split
    · exact off
    · exact setState_userOff _ _
  | check =>
    cases stepped
    exact ⟨by simpa using off,fun disconnected => by simp [disconnected,Quiet]⟩
  | tick dt autoReconnect =>
    cases stepped
    split
    · exact ⟨off,fun disconnected => by simp [disconnected,Quiet]⟩
    · exact ⟨by simp [tickServer,off],fun disconnected => by simp [tickServer,off,disconnected,Quiet]⟩
  | health i answer =>
    simp only [step] at stepped
    split at stepped
    · rw [if_pos (by simpa using off)] at stepped
      cases stepped
      exact ⟨by simpa using off,fun disconnected => by simp [disconnected,Quiet]⟩
    · cases stepped
  | certificate i answer =>
    simp only [step] at stepped
    split at stepped
    · cases stepped
      cases answer with
      | none => exact ⟨by simpa using off,fun disconnected => by simp [disconnected,Quiet]⟩
      | some p => exact ⟨by simpa using off,fun _ => by simp [flagCert_state,off,Quiet]⟩
    · cases stepped
  | probe i answer =>
    simp only [step] at stepped
    split at stepped
    · cases stepped
      exact ⟨by simpa using off,fun _ => by simp [probed_state,off,Quiet]⟩
    · cases stepped
  | checked i =>
    simp only [step] at stepped
    split at stepped
    · cases stepped
      refine ⟨?_,fun disconnected => by simp [disconnected,Quiet]⟩
      split
      · simpa using off
      · exact off
    · cases stepped
  | signedIn i answer =>
    simp only [step] at stepped
    split at stepped
    · cases answer with
      | none =>
        cases stepped
        exact ⟨off,fun disconnected => by simp [disconnected,Quiet]⟩
      | some fingerprint =>
        cases stepped
        exact ⟨by simpa using off,fun _ => by simp [off,Quiet]⟩
    · cases stepped
  | saved i =>
    simp only [step] at stepped
    split at stepped
    · cases stepped
      exact ⟨by simpa using off,fun disconnected => by simp [disconnected,Quiet]⟩
    · cases stepped

theorem turned_off (turns : event = .cancelConnect ∨ event = .disconnect) (stepped : step s event = some next)
    (before : s.server.state ≠ .disconnected) (after : next.server.state = .disconnected) : next.server.userOff = true := by
  rcases turns with rfl | rfl
  · cases stepped
    split at after
    · split
      · simp
      · contradiction
    · exact absurd after before
  · cases stepped
    rw [if_neg before]
    simp

end Steps

section Runs
variable {s off last : State} {event : Event} {rest : List Event}

theorem run_userOff (off : s.server.userOff = true) (rests : ∀ later ∈ rest, later.turnsOn = false) (ran : Runs.run step s rest = some last) :
    last.server.userOff = true := by
  have every : Runs.Every step (fun _ event => event.turnsOn = false) s rest := Runs.every_all rests
  exact Runs.run_preserves_when (fun s => s.server.userOff = true) (fun _ _ _ held meets stepped => (step_off held meets stepped).1) off every ran

theorem quiet_stays (turned : off.server.userOff = true) (disconnected : off.server.state = .disconnected)
    (rests : ∀ later ∈ rest, later.turnsOn = false) (quiet : Runs.Every step Quiet off rest) (ran : Runs.run step off rest = some last) :
    last.server.state = .disconnected := by
  induction rest generalizing off with
  | nil =>
    cases ran
    exact disconnected
  | cons event rest ih =>
    obtain ⟨next,stepped,tail⟩ := Runs.run_cons.mp ran
    have first := rests event (List.mem_cons_self ..)
    apply ih
    · exact (step_off turned first stepped).1
    · exact ((step_off turned first stepped).2 disconnected).mpr quiet.1
    · exact fun later member => rests later (List.mem_cons_of_mem _ member)
    · exact quiet.2 next stepped
    · exact tail

-- From the moment the user turns the server off until the user turns it on.
theorem disconnect_final (turns : event = .cancelConnect ∨ event = .disconnect) (before : s.server.state ≠ .disconnected)
    (stepped : step s event = some off) (disconnected : off.server.state = .disconnected)
    (rests : ∀ later ∈ rest, later.turnsOn = false) (ran : Runs.run step off rest = some last) :
    (∀ front remaining middle, rest = front ++ remaining → Runs.run step off front = some middle → middle.server.state = .disconnected) ↔
      Runs.Every step Quiet off rest := by
  have turned := turned_off turns stepped before disconnected
  constructor
  · intro stays
    by_contra breaks
    obtain ⟨front,loud,remaining,middle,next,rfl,ranFront,moved,_,notQuiet⟩ := Runs.every_fails ran breaks
    have member : loud ∈ front ++ loud::remaining := List.mem_append_right _ (List.mem_cons_self ..)
    have held := run_userOff turned (fun later inside => rests later (List.mem_append_left _ inside)) ranFront
    have here := stays front _ middle rfl ranFront
    have whole : front ++ loud::remaining = (front ++ [loud]) ++ remaining := by rw [List.append_assoc]; rfl
    have there := stays (front ++ [loud]) remaining next whole (Runs.run_append.mpr ⟨middle,ranFront,Runs.run_cons.mpr ⟨next,moved,rfl⟩⟩)
    exact notQuiet (((step_off held (rests loud member) moved).2 here).mp there)
  · rintro quiet front remaining middle rfl ranFront
    exact quiet_stays turned disconnected (fun later inside => rests later (List.mem_append_left _ inside)) (Runs.every_front quiet) ranFront

-- A saved server with a login, and one that was just added.
def savedServer : Server := ⟨.connecting,false,true,true,"ab","","","",false,0,0,true⟩
def addedServer : Server := ⟨.disconnected,false,false,false,"","","","",false,0,0,true⟩

def checking : State := ⟨{savedServer with checking := true},[.health false],0⟩

def lateHealth : List Event := [.health 0 (.ok ()),.tick 6000 true]

theorem late_health_ignored : ∃ off last, step checking .disconnect = some off ∧ Runs.run step off lateHealth = some last ∧
    last.server.state = .disconnected := by
  have quiet : ∀ off, Runs.Every step Quiet off lateHealth := by
    intro off
    simp [lateHealth,Runs.Every,Quiet]
  have before : checking.server.state ≠ .disconnected := by decide
  refine ⟨_,_,rfl,rfl,?_⟩
  exact (disconnect_final (s := checking) (.inr rfl) before rfl rfl (by decide) rfl).mpr (quiet _) lateHealth [] _ (List.append_nil _).symm rfl

-- The answer to the probe asks the user to trust a server that was turned off.
theorem cancelled_connect_comes_back : ∃ connecting off last, Runs.run step ⟨addedServer,[],0⟩ [.connect] = some connecting ∧
    step connecting .cancelConnect = some off ∧ connecting.server.state ≠ .disconnected ∧ off.server.state = .disconnected ∧
    Runs.run step off [.probe 0 (some ⟨false,"cd"⟩)] = some last ∧ last.server.state = .trust := by
  exact ⟨_,_,_,rfl,rfl,by decide,rfl,rfl,rfl⟩

end Runs

end RemoteFileExplorer.ServerStates
