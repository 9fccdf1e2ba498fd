import RemoteFileExplorer.DownloadResumes
import RemoteFileExplorer.UploadHosts

namespace RemoteFileExplorer.PhoneUploads
open Transfers UploadAgent Slices
open DownloadResumes (TransferState)

inductive Failure where
  | rejected (code : Code)
  | other
  deriving DecidableEq, Repr

structure TransferRecord where
  state : TransferState
  error : Option Failure
  sessionId : Option Nat
  sha256 : Option String
  deriving DecidableEq, Repr

structure Parsed where
  id : Nat
  chunkSize : Int
  totalChunks : Int
  received : List Int
  deriving DecidableEq, Repr

-- A pool thread with the chunk it sends: how often it was sent again, and how
-- often the last request was repeated while the agent was busy.
structure Job where
  n : Nat
  awaits : Mail
  tries : Nat
  busy : Nat
  deriving DecidableEq, Repr

inductive Stage where
  | idle
  | hashing
  | asking (id busy : Nat)
  | opening (busy : Nat)
  | sending (session : Parsed) (pending : List Nat) (jobs : List Job)
  | completing (session : Parsed) (busy : Nat)
  deriving DecidableEq, Repr

structure State where
  host : Host
  record : TransferRecord
  stage : Stage
  attempt : Nat
  awaits : Mail

structure Upload where
  sha256 : Bytes → String
  source : Bytes
  remotePath : String
  overwrite : Bool
  chunkSize : Nat

def busyRetries : Nat := 8
def chunkRetries : Nat := 3
def parallel : Nat := 3

def initial (entries : String → Option Entry) : State :=
  ⟨Host.fresh entries,⟨.queued,none,none,none⟩,.idle,0,⟨0,0,.status 0⟩⟩

def State.posts (s : State) (stage : Stage) (request : Request) : State :=
  {s with host := s.host.post s.attempt request,stage := stage,awaits := ⟨s.host.sent,s.attempt,request⟩}

def State.fails (s : State) (failure : Failure) : State :=
  {s with record := {s.record with state := .failed,error := some failure},stage := .idle}

section Worker
variable (u : Upload)

def openRequest (sum : Option String) : Request := .openSession u.remotePath u.source.length (sum.getD "") u.chunkSize u.overwrite

def State.opens (s : State) : State := s.posts (.opening 0) (openRequest u s.record.sha256)

def chunkLen (session : Parsed) (n : Nat) : Int :=
  if u.source.length = 0 then 0 else
  if (n : Int) = session.totalChunks - 1 then u.source.length - n * session.chunkSize else session.chunkSize

def chunkRequest (session : Parsed) (n : Nat) : Request :=
  let data := slice u.source (n * session.chunkSize).toNat (chunkLen u session n).toNat
  .chunk session.id n data (u.sha256 data)

def State.sends (s : State) (session : Parsed) : State :=
  {s with stage := .sending session ((List.range session.totalChunks.toNat).filter fun n => !session.received.contains (n : Int)) []}

def State.hears (s : State) (reply : Reply) : State :=
  match s.stage with
  | .asking id busy =>
    match reply with
    | .session other chunkSize totalChunks received status =>
      if status = .isOpen then s.sends ⟨other,chunkSize,totalChunks,received⟩ else s.opens u
    | .refused code =>
      if code = .notFound then s.opens u else
      if code = .transferActive ∧ busy < busyRetries then s.posts (.asking id (busy + 1)) (.status id) else s.fails (.rejected code)
    | _ => s.fails .other
  | .opening busy =>
    match reply with
    | .session id chunkSize totalChunks received _ =>
      {s with record := {s.record with sessionId := some id}}.sends ⟨id,chunkSize,totalChunks,received⟩
    | .refused code =>
      if code = .transferActive ∧ busy < busyRetries then s.posts (.opening (busy + 1)) (openRequest u s.record.sha256)
      else s.fails (.rejected code)
    | _ => s.fails .other
  | .completing session busy =>
    match reply with
    | .completed | .session .. => {s with record := {s.record with state := .done,error := none},stage := .idle}
    | .refused code =>
      if code = .transferActive ∧ busy < busyRetries then s.posts (.completing session (busy + 1)) (.complete session.id) else
      if code = .hashMismatch then {s with record := {s.record with sha256 := none,sessionId := none}}.fails (.rejected code) else
      s.fails (.rejected code)
    | _ => s.fails .other
  | _ => s

def State.resends (s : State) (session : Parsed) (pending : List Nat) (jobs : List Job) (job : Job) : State :=
  let request := chunkRequest u session job.n
  {s with
    host := s.host.post s.attempt request
    stage := .sending session pending ({job with awaits := ⟨s.host.sent,s.attempt,request⟩}::jobs)}

def State.jobHears (s : State) (session : Parsed) (pending : List Nat) (jobs : List Job) (job : Job) (reply : Reply) : State :=
  match reply with
  | .noContent => {s with stage := .sending session pending jobs}
  | .refused code =>
    if code = .transferActive ∧ job.busy < busyRetries then s.resends u session pending jobs {job with busy := job.busy + 1} else
    if code = .chunkHashMismatch ∧ job.tries < chunkRetries then
      s.resends u session pending jobs {job with tries := job.tries + 1,busy := 0}
    else s.fails (.rejected code)
  | _ => s.fails .other

inductive Event where
  | start
  | hashed
  | hear (reply : Reply)
  | claim
  | jobHears (job : Job) (reply : Reply)
  | jobBreaks (job : Job)
  | sentAll
  | breaks
  | stops
  | stray (attempt : Nat)
  | agent (act : Act)
  deriving DecidableEq, Repr

local instance answers_lawful : LawfulBEq (Mail × Reply) := inferInstance

def step (s : State) : Event → Option State
  | .start =>
    if s.stage = .idle ∧ (s.record.state = .queued ∨ s.record.state = .paused ∨ s.record.state = .failed) then
      let s := {s with record := {s.record with state := .running,error := none},attempt := s.attempt + 1}
      match s.record.sha256,s.record.sessionId with
      | none,_ => some {s with stage := .hashing}
      | some _,some id => some (s.posts (.asking id 0) (.status id))
      | some _,none => some (s.opens u)
    else none
  | .hashed =>
    if s.stage = .hashing then
      some ({s with record := {s.record with sha256 := some (u.sha256 u.source),sessionId := none}}.opens u)
    else none
  | .hear reply => if (s.awaits,reply) ∈ s.host.answers then some (s.hears u reply) else none
  | .claim =>
    match s.stage with
    | .sending session (n::pending) jobs =>
      if jobs.length < parallel then some (s.resends u session pending jobs ⟨n,s.awaits,0,0⟩) else none
    | _ => none
  | .jobHears job reply =>
    match s.stage with
    | .sending session pending jobs =>
      if job ∈ jobs ∧ (job.awaits,reply) ∈ s.host.answers then
        some (s.jobHears u session pending (jobs.filter (· ≠ job)) job reply)
      else none
    | _ => none
  -- A broken request for a chunk: three more tries, then the attempt fails.
  | .jobBreaks job =>
    match s.stage with
    | .sending session pending jobs =>
      if job ∈ jobs then
        if job.tries < chunkRetries then
          some (s.resends u session pending (jobs.filter (· ≠ job)) {job with tries := job.tries + 1,busy := 0})
        else some (s.fails .other)
      else none
    | _ => none
  | .sentAll =>
    match s.stage with
    | .sending session [] [] => some (s.posts (.completing session 0) (.complete session.id))
    | _ => none
  -- Any other end of the attempt: a broken request fails it, a pause, a stop of
  -- the engine or a new start of the app leaves it paused.
  | .breaks => if s.stage = .idle then none else some (s.fails .other)
  | .stops =>
    if s.stage = .idle then none else some {s with record := {s.record with state := .paused},stage := .idle}
  -- A stopped worker can still open a session before it looks.
  | .stray attempt => some {s with host := s.host.post attempt (openRequest u (some (u.sha256 u.source)))}
  | .agent act =>
    match s.host.act u.sha256 act with
    | some host => some {s with host := host}
    | none => none

end Worker

end RemoteFileExplorer.PhoneUploads
