import RemoteFileExplorer.UploadFiles

namespace RemoteFileExplorer.UploadAgent
open Slices Transfers

inductive Entry where
  | file (content : Bytes)
  | folder
  deriving DecidableEq, Repr

structure Session where
  row : Transfer
  received : List Int
  temp : Bytes
  deriving DecidableEq, Repr

structure Placement where
  id : Nat
  path : String
  bytes : Bytes
  deriving DecidableEq, Repr

inductive Request where
  | status (id : Nat)
  | openSession (path : String) (size : Nat) (sha256 : String) (chunkSize : Nat) (overwrite : Bool)
  | chunk (id n : Nat) (data : Bytes) (sum : String)
  | complete (id : Nat)
  | delete (id : Nat)
  deriving DecidableEq, Repr

structure Mail where
  tag : Nat
  attempt : Nat
  request : Request
  deriving DecidableEq, Repr

-- Sessions are numbered in the order they were opened; the number stands for
-- the random id. `completing` is the call that holds a session's completion
-- lease. `published` only observes.
structure Agent where
  sessions : Nat → Option Session
  opened : Nat
  completing : Nat → Option Mail
  entries : String → Option Entry
  published : List Placement

def Agent.fresh (entries : String → Option Entry) : Agent := ⟨fun _ => none,0,fun _ => none,entries,[]⟩

inductive Code where
  | conflict
  | transferActive
  | transferNotOpen
  | uploadIncomplete
  | hashMismatch
  | chunkHashMismatch
  | badRequest
  | payloadTooLarge
  | resourceLimit
  | chunkBusy
  | notFound
  | internal
  | unauthorized
  deriving DecidableEq, Repr

inductive Reply where
  | session (id : Nat) (chunkSize totalChunks : Int) (received : List Int) (status : Status)
  | noContent
  | completed
  | refused (code : Code)
  deriving DecidableEq, Repr

-- Refusals that say nothing about the session: a lease that a chunk or a
-- status call holds, a limit, a login that is not accepted, a lost handler.
def Code.passing : Code → Bool
  | .transferActive | .resourceLimit | .chunkBusy | .internal | .unauthorized => true
  | _ => false

def Agent.put (a : Agent) (id : Nat) (session : Option Session) : Agent := {a with sessions := Function.update a.sessions id session}

theorem put_self (a : Agent) (id : Nat) (session : Option Session) : (a.put id session).sessions id = session :=
  Function.update_self ..
theorem put_other {a : Agent} {id other : Nat} {session : Option Session} (different : other ≠ id) :
    (a.put id session).sessions other = a.sessions other := Function.update_of_ne different ..

def statusHandler (a : Agent) (id : Nat) : Reply :=
  match a.sessions id with
  | none => .refused .notFound
  | some session =>
    if session.row.status = .isOpen ∧ (a.completing id).isSome then .refused .transferActive else
    .session id session.row.chunkSize session.row.totalChunks session.received session.row.status

def openedSession (path : String) (size : Nat) (sha256 : String) (chunkSize : Nat) (overwrite : Bool) (serial : Nat) : Session :=
  ⟨sessionRow ⟨toString serial,path,size,chunkSize,sha256,overwrite,""⟩ serial,[],List.replicate size 0⟩

def openHandler (a : Agent) (path : String) (size : Nat) (sha256 : String) (chunkSize : Nat) (overwrite : Bool) : Agent × Reply :=
  if path = "" ∨ sha256 = "" ∨ chunkSize = 0 ∨ (chunkSize : Int) > maxChunkSize then (a,.refused .badRequest) else
  if (size : Int) > maxTransferSize then (a,.refused .payloadTooLarge) else
  if !overwrite && (a.entries path).isSome then (a,.refused .conflict) else
  let session := openedSession path size sha256 chunkSize overwrite a.opened
  ({a.put a.opened (some session) with opened := a.opened + 1},
    .session a.opened session.row.chunkSize session.row.totalChunks [] .isOpen)

section Hashing
variable (sha256 : Bytes → String)

def chunkHandler (a : Agent) (id n : Nat) (data : Bytes) (sum : String) : Agent × Reply :=
  match a.sessions id with
  | none => (a,.refused .notFound)
  | some session =>
    if session.row.status ≠ .isOpen then (a,.refused .transferNotOpen) else
    if (a.completing id).isSome then (a,.refused .transferActive) else
    if (n : Int) ≥ session.row.totalChunks ∨ (data.length : Int) ≠ expectedChunkLen session.row n then (a,.refused .badRequest) else
    if sha256 data ≠ sum then (a,.refused .chunkHashMismatch) else
    if (n : Int) ∈ session.received then (a,.noContent) else
    (a.put id (some {session with
      received := session.received ++ [(n : Int)]
      temp := writeAt 0 session.temp (n * session.row.chunkSize).toNat data}),.noContent)

-- A completion that gets the lease has no answer yet.
def beginCompletion (a : Agent) (id : Nat) (call : Mail) : Agent × Option Reply :=
  match a.sessions id with
  | none => (a,some (.refused .notFound))
  | some session =>
    if session.row.status ≠ .isOpen then (a,some (.refused .transferNotOpen)) else
    if (a.completing id).isSome then (a,some (.refused .transferActive)) else
    ({a with completing := Function.update a.completing id (some call)},none)

def Session.settled (session : Session) (status : Status) : Session := {session with row := {session.row with status := status}}

def publishReader (entries : String → Option Entry) (path : String) (bytes : Bytes) (overwrite : Bool) : Except Code (String → Option Entry) :=
  match entries path,overwrite with
  | none,_ | some (.file _),true => .ok (Function.update entries path (some (.file bytes)))
  | some .folder,true => .error .internal
  | some _,false => .error .conflict

-- The rest of a completion, up to the release of the lease.
def endCompletion (a : Agent) (id : Nat) : Agent × Reply :=
  let freed := {a with completing := Function.update a.completing id none}
  match a.sessions id with
  | none => (freed,.refused .notFound)
  | some session =>
    if (session.received.length : Int) < session.row.totalChunks then (freed,.refused .uploadIncomplete) else
    if sha256 session.temp ≠ session.row.sha256 then
      (freed.put id (some (session.settled .failed)),.refused .hashMismatch) else
    match publishReader a.entries session.row.targetPath session.temp session.row.overwrite with
    | .error code => (freed,.refused code)
    | .ok entries =>
      ({freed.put id (some (session.settled .completed)) with
        entries := entries
        published := ⟨id,session.row.targetPath,session.temp⟩::a.published},.completed)

def deleteHandler (a : Agent) (id : Nat) : Agent × Reply :=
  if (a.completing id).isSome then (a,.refused .transferActive) else
  match a.sessions id with
  | none => (a,.refused .notFound)
  | some _ => (a.put id none,.noContent)

def Agent.handle (a : Agent) (call : Mail) : Agent × Option Reply :=
  match call.request with
  | .status id => (a,some (statusHandler a id))
  | .openSession path size sum chunkSize overwrite =>
    let (next,reply) := openHandler a path size sum chunkSize overwrite
    (next,some reply)
  | .chunk id n data sum =>
    let (next,reply) := chunkHandler sha256 a id n data sum
    (next,some reply)
  | .complete id => beginCompletion a id call
  | .delete id =>
    let (next,reply) := deleteHandler a id
    (next,some reply)

-- The agent with the line to it. A request that is never taken up is lost, and
-- so is an answer that is never heard.
structure Host where
  agent : Agent
  sent : Nat
  flying : List Mail
  answers : List (Mail × Reply)

def Host.fresh (entries : String → Option Entry) : Host := ⟨Agent.fresh entries,0,[],[]⟩

def Host.post (h : Host) (attempt : Nat) (request : Request) : Host :=
  {h with sent := h.sent + 1,flying := h.flying ++ [⟨h.sent,attempt,request⟩]}

inductive Act where
  | take (mail : Mail) (turnedAway : Option Code)
  | finish (id : Nat)
  | forget (id : Nat)
  deriving DecidableEq, Repr

def Host.act (h : Host) : Act → Option Host
  | .take mail turnedAway =>
    if mail ∈ h.flying then
      let rest := h.flying.filter (· ≠ mail)
      match turnedAway with
      | some code => if code.passing then some {h with flying := rest,answers := (mail,.refused code)::h.answers} else none
      | none =>
        match h.agent.handle sha256 mail with
        | (agent,some reply) => some {h with agent := agent,flying := rest,answers := (mail,reply)::h.answers}
        | (agent,none) => some {h with agent := agent,flying := rest}
    else none
  | .finish id =>
    match h.agent.completing id with
    | none => none
    | some call =>
      let (agent,reply) := endCompletion sha256 h.agent id
      some {h with agent := agent,answers := (call,reply)::h.answers}
  -- A sweep drops a session nobody touched for a week and a finished one that
  -- is older than the history.
  | .forget id =>
    if (h.agent.completing id).isSome then none else some {h with agent := h.agent.put id none}

end Hashing

theorem openHandler_cases (path : String) (size : Nat) (sum : String) (chunkSize : Nat) (overwrite : Bool) (a : Agent) :
    (∃ code, openHandler a path size sum chunkSize overwrite = (a,.refused code) ∧ code.passing = false ∧
      (code = .conflict → overwrite = false ∧ (a.entries path).isSome)) ∨
    (0 < chunkSize ∧ (overwrite = false → a.entries path = none) ∧
      openHandler a path size sum chunkSize overwrite =
        ({a.put a.opened (some (openedSession path size sum chunkSize overwrite a.opened)) with opened := a.opened + 1},
          .session a.opened chunkSize (totalChunksOf size chunkSize) [] .isOpen)) := by
  unfold openHandler
  split
  · exact .inl ⟨.badRequest,rfl,rfl,nofun⟩
  · split
    · exact .inl ⟨.payloadTooLarge,rfl,rfl,nofun⟩
    · split
      · rename_i taken
        simp only [Bool.and_eq_true,Bool.not_eq_true'] at taken
        exact .inl ⟨.conflict,rfl,rfl,fun _ => taken⟩
      · rename_i free
        refine .inr ⟨by omega,?_,rfl⟩
        intro kept
        simpa [kept] using free

theorem chunkHandler_cases (sha256 : Bytes → String) (a : Agent) (id n : Nat) (data : Bytes) (sum : String) :
    (∃ reply, chunkHandler sha256 a id n data sum = (a,reply) ∧ reply ≠ .refused .conflict ∧ reply ≠ .completed ∧
      ∀ other chunkSize total received status, reply ≠ .session other chunkSize total received status) ∨
    ∃ session, a.sessions id = some session ∧ session.row.status = .isOpen ∧ a.completing id = none ∧
      (n : Int) < session.row.totalChunks ∧ (data.length : Int) = expectedChunkLen session.row n ∧ (n : Int) ∉ session.received ∧
      chunkHandler sha256 a id n data sum = (a.put id (some {session with
        received := session.received ++ [(n : Int)]
        temp := writeAt 0 session.temp (n * session.row.chunkSize).toNat data}),.noContent) := by
  unfold chunkHandler
  cases found : a.sessions id with
  | none => exact .inl ⟨_,rfl,nofun,nofun,nofun⟩
  | some session =>
    dsimp only
    split
    · exact .inl ⟨_,rfl,nofun,nofun,nofun⟩
    · rename_i isOpen
      split
      · exact .inl ⟨_,rfl,nofun,nofun,nofun⟩
      · rename_i free
        split
        · exact .inl ⟨_,rfl,nofun,nofun,nofun⟩
        · rename_i fits
          split
          · exact .inl ⟨_,rfl,nofun,nofun,nofun⟩
          · split
            · exact .inl ⟨_,rfl,nofun,nofun,nofun⟩
            · rename_i missing
              refine .inr ⟨session,rfl,by simpa using isOpen,by simpa using free,?_,?_,missing,rfl⟩
              · omega
              · exact not_not.mp fun wrong => fits (.inr wrong)

theorem beginCompletion_cases (a : Agent) (id : Nat) (call : Mail) :
    (∃ code, beginCompletion a id call = (a,some (.refused code)) ∧ code ≠ .conflict ∧ code ≠ .hashMismatch ∧
      (code = .transferNotOpen → ∃ session, a.sessions id = some session ∧ session.row.status ≠ .isOpen)) ∨
    ∃ session, a.sessions id = some session ∧ session.row.status = .isOpen ∧ a.completing id = none ∧
      beginCompletion a id call = ({a with completing := Function.update a.completing id (some call)},none) := by
  unfold beginCompletion
  cases found : a.sessions id with
  | none => exact .inl ⟨_,rfl,nofun,nofun,nofun⟩
  | some session =>
    dsimp only
    split
    · rename_i closed
      exact .inl ⟨_,rfl,nofun,nofun,fun _ => ⟨session,rfl,closed⟩⟩
    · rename_i isOpen
      split
      · exact .inl ⟨_,rfl,nofun,nofun,nofun⟩
      · rename_i free
        exact .inr ⟨session,rfl,by simpa using isOpen,by simpa using free,rfl⟩

theorem publishReader_cases (entries : String → Option Entry) (path : String) (bytes : Bytes) (overwrite : Bool) :
    publishReader entries path bytes overwrite = .ok (Function.update entries path (some (.file bytes))) ∨
    publishReader entries path bytes overwrite = .error .internal ∨
    (publishReader entries path bytes overwrite = .error .conflict ∧ overwrite = false ∧ (entries path).isSome) := by
  unfold publishReader
  cases found : entries path with
  | none => exact .inl rfl
  | some entry =>
    cases overwrite with
    | true =>
      cases entry with
      | file content => exact .inl rfl
      | folder => exact .inr (.inl rfl)
    | false => exact .inr (.inr ⟨by cases entry <;> rfl,rfl,rfl⟩)

def Agent.freed (a : Agent) (id : Nat) : Agent := {a with completing := Function.update a.completing id none}

def Agent.placed (a : Agent) (id : Nat) (session : Session) : Agent :=
  {(a.freed id).put id (some (session.settled .completed)) with
    entries := Function.update a.entries session.row.targetPath (some (.file session.temp))
    published := ⟨id,session.row.targetPath,session.temp⟩::a.published}

theorem endCompletion_cases (sha256 : Bytes → String) (a : Agent) (id : Nat) :
    (∃ code, endCompletion sha256 a id = (a.freed id,.refused code) ∧ code ≠ .hashMismatch ∧ code ≠ .transferNotOpen ∧
      (code = .conflict → ∃ session, a.sessions id = some session ∧ session.row.overwrite = false ∧
        (a.entries session.row.targetPath).isSome)) ∨
    ∃ session, a.sessions id = some session ∧ session.row.totalChunks ≤ session.received.length ∧
      ((sha256 session.temp ≠ session.row.sha256 ∧
        endCompletion sha256 a id = ((a.freed id).put id (some (session.settled .failed)),.refused .hashMismatch)) ∨
      (sha256 session.temp = session.row.sha256 ∧ endCompletion sha256 a id = (a.placed id session,.completed))) := by
  unfold endCompletion
  cases found : a.sessions id with
  | none => exact .inl ⟨.notFound,rfl,nofun,nofun,nofun⟩
  | some session =>
    dsimp only
    split
    · exact .inl ⟨.uploadIncomplete,rfl,nofun,nofun,nofun⟩
    · split
      · rename_i differs
        exact .inr ⟨session,rfl,by omega,.inl ⟨differs,rfl⟩⟩
      · rename_i same
        rcases publishReader_cases a.entries session.row.targetPath session.temp session.row.overwrite with done | broken | ⟨taken,kept,exists_⟩
        · rw [done]
          exact .inr ⟨session,rfl,by omega,.inr ⟨not_not.mp same,rfl⟩⟩
        · rw [broken]
          exact .inl ⟨.internal,rfl,nofun,nofun,nofun⟩
        · rw [taken]
          exact .inl ⟨.conflict,rfl,nofun,nofun,fun _ => ⟨session,rfl,kept,exists_⟩⟩

theorem deleteHandler_cases (a : Agent) (id : Nat) :
    (∃ code, deleteHandler a id = (a,.refused code) ∧ code ≠ .conflict) ∨
    (a.completing id = none ∧ deleteHandler a id = (a.put id none,.noContent)) := by
  unfold deleteHandler
  split
  · exact .inl ⟨_,rfl,nofun⟩
  · rename_i free
    cases found : a.sessions id with
    | none => exact .inl ⟨_,rfl,nofun⟩
    | some session => exact .inr ⟨by simpa using free,rfl⟩

end RemoteFileExplorer.UploadAgent
