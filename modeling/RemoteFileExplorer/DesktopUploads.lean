import RemoteFileExplorer.DesktopTransfers
import RemoteFileExplorer.TransferNames
import RemoteFileExplorer.UploadHosts

namespace RemoteFileExplorer.DesktopUploads
open PathTexts TransferNames Transfers UploadAgent Slices
open DesktopTransfers (Resolution Policy)

-- What a transfer keeps of its session between attempts. The file's identity is
-- kept beside it and never differs here: the source does not change.
structure Saved where
  id : Nat
  chunkSize : Nat
  totalChunks : Nat
  deriving DecidableEq, Repr

-- Where the one attempt of an upload stands. From `asking` to `retiring` it
-- waits for the answer to the last request, except that `hashing` reads the
-- file and `settling` waits for the choice about a taken name.
inductive Stage where
  | waiting
  | failed (error : Option Code)
  | skipped
  | done
  | asking (saved : Saved)
  | hashing
  | opening (path : Text) (how : Option Resolution) (copy chunkSize : Nat)
  | settling (path : Text) (copy chunkSize : Nat)
  | sending (saved : Saved) (received : List Nat) (n damaged : Nat)
  | completing (saved : Saved)
  | retiring (saved : Saved) (tries : Nat)
  deriving DecidableEq, Repr

structure Upload where
  stage : Stage
  session : Option Saved
  resolution : Option Resolution
  attempt : Nat
  awaits : Mail
  deriving DecidableEq, Repr

structure State where
  host : Host
  upload : Upload

section Client
variable (sha256 : Bytes → String) (source : Bytes) (remotePath : Text)

def initial (entries : String → Option Entry) : State := ⟨Host.fresh entries,⟨.waiting,none,none,0,⟨0,0,.status 0⟩⟩⟩

def maxSessionChunk : Nat := 32 * 2^20

def expectedChunks (size chunk : Nat) : Nat := max ((size + (max chunk 1) - 1) / (max chunk 1)) 1

def badSession (chunkSize totalChunks : Int) : Bool :=
  chunkSize ≤ 0 || chunkSize > maxSessionChunk || totalChunks != expectedChunks source.length chunkSize.toNat

def chunkLen (saved : Saved) (n : Nat) : Nat := min (source.length - n * saved.chunkSize) saved.chunkSize

def openRequest (path : Text) (how : Option Resolution) (chunkSize : Nat) : Request :=
  .openSession (String.ofList path) source.length (sha256 source) chunkSize (how == some .replace)

def chunkRequest (saved : Saved) (n : Nat) : Request :=
  let data := slice source (n * saved.chunkSize) (chunkLen source saved n)
  .chunk saved.id n data (sha256 data)

def goOn (saved : Saved) (received : List Nat) (n : Nat) : Stage × Request :=
  match (List.range' n (saved.totalChunks - n)).find? (fun m => !received.contains m) with
  | some m => (.sending saved received m 0,chunkRequest sha256 source saved m)
  | none => (.completing saved,.complete saved.id)

def maxCopies : Nat := 1000
def maxDeletes : Nat := 8

def Upload.hears (u : Upload) (reply : Reply) : Upload × Option Request :=
  match u.stage with
  | .asking saved =>
    match reply with
    | .session _ _ _ received .isOpen =>
      if received.any (fun n => decide (n ≥ (saved.totalChunks : Int))) then ({u with stage := .failed none,session := none},none) else
      let (stage,request) := goOn sha256 source saved (received.map Int.toNat) 0
      ({u with stage := stage},some request)
    | .session _ _ _ _ .completed => ({u with stage := .done,session := none},none)
    | .session _ _ _ _ .failed | .completed | .refused .notFound => ({u with stage := .hashing,session := none},none)
    | .refused code => ({u with stage := .failed (some code)},none)
    | _ => ({u with stage := .failed none},none)
  | .opening path _ copy chunk =>
    match reply with
    | .session id chunkSize totalChunks _ _ =>
      if badSession source chunkSize totalChunks then ({u with stage := .failed none},none) else
      let saved : Saved := ⟨id,chunkSize.toNat,totalChunks.toNat⟩
      let (stage,request) := goOn sha256 source saved [] 0
      ({u with stage := stage,session := some saved},some request)
    | .refused .conflict => ({u with stage := .settling path copy chunk},none)
    | .refused code => ({u with stage := .failed (some code)},none)
    | _ => ({u with stage := .failed none},none)
  | .sending saved received n damaged =>
    match reply with
    | .noContent =>
      let (stage,request) := goOn sha256 source saved received (n + 1)
      ({u with stage := stage},some request)
    | .refused code =>
      if code = .chunkHashMismatch ∧ damaged < 2 then
        ({u with stage := .sending saved received n (damaged + 1)},some (chunkRequest sha256 source saved n))
      else ({u with stage := .failed (some code)},none)
    | _ => ({u with stage := .failed none},none)
  | .completing saved =>
    match reply with
    | .refused code =>
      if code = .conflict then ({u with stage := .retiring saved 0,session := none},some (.delete saved.id)) else
      if code = .hashMismatch ∨ code = .transferNotOpen then ({u with stage := .failed (some code),session := none},none) else
      ({u with stage := .failed (some code)},none)
    | _ => ({u with stage := .done,session := none},none)
  | .retiring saved tries =>
    if reply = .refused .transferActive ∧ tries + 1 < maxDeletes then
      ({u with stage := .retiring saved (tries + 1)},some (.delete saved.id))
    else ({u with stage := .failed (some .conflict)},none)
  | _ => (u,none)

def Upload.listens (u : Upload) : Bool :=
  match u.stage with
  | .asking _ | .opening .. | .sending .. | .completing _ | .retiring .. => true
  | _ => false

def Upload.works (u : Upload) : Bool :=
  match u.stage with
  | .waiting | .failed _ | .skipped | .done => false
  | _ => true

-- The choice about a taken name: the one made before, else the policy's, else
-- the person's answer.
def Upload.mayChoose (policy : Policy) (u : Upload) (how : Resolution) : Bool :=
  match u.resolution with
  | some chosen => decide (how = chosen)
  | none =>
    match policy with
    | .act always => decide (how = always)
    | .ask => true

inductive Event where
  | start
  | hear (reply : Reply)
  | silence
  | pause
  | hashed (chunkSize : Nat)
  | settle (policy : Policy) (how : Resolution)
  | agent (act : Act)
  deriving DecidableEq, Repr

def State.sends (s : State) (u : Upload) (request : Option Request) : State :=
  match request with
  | none => {s with upload := u}
  | some request => ⟨s.host.post u.attempt request,{u with awaits := ⟨s.host.sent,u.attempt,request⟩}⟩

def step (s : State) : Event → Option State
  | .start =>
    let u := s.upload
    if u.works ∨ u.stage = .done then none else
    let u := {u with attempt := u.attempt + 1}
    match u.session with
    | some saved => some (s.sends {u with stage := .asking saved} (some (.status saved.id)))
    | none => some {s with upload := {u with stage := .hashing}}
  | .hear reply =>
    if s.upload.listens ∧ (s.upload.awaits,reply) ∈ s.host.answers then
      let (u,request) := s.upload.hears sha256 source reply
      some (s.sends u request)
    else none
  -- A time-out or a broken connection. It ends the attempt, or the removal of
  -- a retired session, which ends the attempt too.
  | .silence =>
    match s.upload.stage with
    | .retiring .. => some {s with upload := {s.upload with stage := .failed (some .conflict)}}
    | _ => if s.upload.works then some {s with upload := {s.upload with stage := .failed none}} else none
  | .pause => if s.upload.works then some {s with upload := {s.upload with stage := .waiting}} else none
  | .hashed chunkSize =>
    if s.upload.stage = .hashing then
      some (s.sends {s.upload with stage := .opening remotePath s.upload.resolution 0 chunkSize}
        (some (openRequest sha256 source remotePath s.upload.resolution chunkSize)))
    else none
  | .settle policy how =>
    match s.upload.stage with
    | .settling path copy chunkSize =>
      if s.upload.mayChoose policy how then
        let u := {s.upload with resolution := some how}
        match how with
        | .skip => some {s with upload := {u with stage := .skipped}}
        | .replace =>
          some (s.sends {u with stage := .opening path (some .replace) copy chunkSize}
            (some (openRequest sha256 source path (some .replace) chunkSize)))
        | .both =>
          if copy + 1 > maxCopies then some {s with upload := {u with stage := .failed none}} else
          let path := numberedRemote remotePath (copy + 1)
          some (s.sends {u with stage := .opening path (some .both) (copy + 1) chunkSize}
            (some (openRequest sha256 source path (some .both) chunkSize)))
      else none
    | _ => none
  | .agent act =>
    match s.host.act sha256 act with
    | some host => some {s with host := host}
    | none => none

end Client

end RemoteFileExplorer.DesktopUploads
