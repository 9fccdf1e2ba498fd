import Mathlib.Logic.Function.Basic
import RemoteFileExplorer.Runs
import RemoteFileExplorer.Tables
import RemoteFileExplorer.Slices

namespace RemoteFileExplorer.Transfers
open Tables Slices

abbrev Bytes := List UInt8

inductive Status where
  | isOpen
  | completed
  | failed
  deriving DecidableEq, Repr

-- `serial` numbers the sessions ever opened; the table has no such column. It
-- is also the number of the temp file the session created.
structure Transfer where
  id : String
  targetPath : String
  totalSize : Int
  chunkSize : Int
  sha256 : String
  status : Status
  totalChunks : Int
  deviceId : String
  updatedAt : Int
  terminalAt : Int
  overwrite : Bool
  serial : Nat
  deriving DecidableEq, Repr

def transferKeys : Schema Transfer := Schema.key Transfer.id
def chunkKeys : Schema (String × Int) := Schema.key id

def maxTransferSize : Int := 64 * 2^30
def maxActiveTransfersPerDevice : Nat := 4
def maxReservedBytesPerDevice : Int := 64 * 2^30
def maxActiveTransfersPerHost : Nat := 16
def maxReservedBytesPerHost : Int := 128 * 2^30
def transferStaleAfter : Int := 7 * 24 * 3600
def transferHistoryRetention : Int := 90 * 24 * 3600
def maxChunkSize : Int := 32 * 1024 * 1024

def expectedChunkLen (t : Transfer) (n : Int) : Int :=
  if n < 0 ∨ n ≥ t.totalChunks then -1 else
  if t.chunkSize ≤ 0 then -1 else
  let remaining := t.totalSize - n * t.chunkSize
  if remaining < 0 then -1 else
  if remaining > t.chunkSize then t.chunkSize else remaining

def totalChunksOf (size chunkSize : Int) : Int :=
  let chunks := (size + chunkSize - 1) / chunkSize
  if chunks = 0 then 1 else chunks

-- `createdFor` is the session id in the name the file was created under.
structure Inode where
  content : Bytes
  modTime : Int
  createdFor : String
  deriving DecidableEq, Repr

structure ChunkCall where
  id : String
  n : Int
  data : Bytes
  sha256 : String
  deriving DecidableEq, Repr

-- Where one call of the manager stands: a WriteChunk, a Status or a Complete.
-- `since` is how often the temp file had been written when hashing began.
inductive Stage where
  | idle
  | chunkLeased (call : ChunkCall)
  | chunkChecked (call : ChunkCall) (t : Transfer)
  | chunkMissing (call : ChunkCall) (t : Transfer)
  | chunkOpened (call : ChunkCall) (t : Transfer) (inode : Nat)
  | chunkWritten (call : ChunkCall) (t : Transfer) (inode : Nat)
  | leaving (id : String)
  | completing (id : String)
  | completeLoaded (t : Transfer)
  | completeCounted (t : Transfer)
  | hashing (t : Transfer) (inode since : Nat) (read : Bytes)
  | mismatched (t : Transfer)
  | failedRecorded (t : Transfer)
  | verified (t : Transfer) (inode since : Nat)
  | copying (t : Transfer) (inode since : Nat) (copied : Bytes)
  | placed (t : Transfer)
  | tempRemoved (t : Transfer)
  | completeLeaving (id : String)
  | finished
  deriving DecidableEq, Repr

-- What one successful placement put at the destination, with the number of
-- writes to the temp file when hashing began and when the bytes were placed.
structure Publication where
  transfer : Transfer
  bytes : Bytes
  writesAtHash : Nat
  writesAtPlace : Nat
  deriving DecidableEq, Repr

structure Ack where
  serial : Nat
  n : Int
  data : Bytes
  deriving DecidableEq, Repr

-- Temp files are named by session id and destinations are not modelled as
-- files: the jail keeps every target path out of the temp directory. The last
-- four fields only observe: writes per file, chunks answered with success,
-- files written by a chunk that then could not be recorded, and placements.
structure State where
  now : Int
  transfers : Table transferKeys
  chunks : Table chunkKeys
  inodes : Nat → Inode
  nextInode : Nat
  temps : String → Option Nat
  active : String → Nat
  completing : String → Bool
  procs : Nat → Stage
  writes : Nat → Nat
  acks : List Ack
  spoiled : List Nat
  published : List Publication

def initial (now : Int) : State :=
  ⟨now,.empty,.empty,fun _ => ⟨[],0,""⟩,0,fun _ => none,fun _ => 0,fun _ => false,fun _ => .idle,fun _ => 0,[],[],[]⟩

def getTransfer (s : State) (id : String) : Option Transfer := s.transfers.find (fun t => t.id == id)

def deleteTransfer (s : State) (id : String) : State :=
  {s with transfers := s.transfers.delete (fun t => t.id == id),chunks := s.chunks.delete (fun c => c.1 == id)}

-- UPDATE transfers SET .. WHERE id=?, on columns other than id.
def patchTransfer (s : State) (id : String) (set : Transfer → Transfer) (keeps : ∀ t, (set t).id = t.id) : State :=
  {s with transfers := s.transfers.modify (fun t => if t.id == id then set t else t) (fun a b => by
    have same : ∀ t : Transfer, (if t.id == id then set t else t).id = t.id := by intro t; split <;> simp [keeps]
    simp only [transferKeys,Schema.key_clash,same])}

def touchOpenTransfer (s : State) (id : String) : State :=
  patchTransfer s id (fun t => if t.status = .isOpen then {t with updatedAt := s.now} else t) (fun t => by split <;> rfl)

def setTransferStatus (s : State) (id : String) (status : Status) : State :=
  patchTransfer s id (fun t => {t with status := status,terminalAt := if status = .isOpen then 0 else s.now}) (fun _ => rfl)

def hasChunk (s : State) (id : String) (n : Int) : Bool := s.chunks.rows.any (fun c => c == (id,n))

def chunkNumbers (s : State) (id : String) : List Int := (s.chunks.rows.filter (fun c => c.1 == id)).map Prod.snd

-- INSERT OR IGNORE INTO transfer_chunks, after checking that the session exists.
def markChunkReceived (s : State) (id : String) (n : Int) : Option State :=
  if s.transfers.count (fun t => t.id == id) = 0 then none else
  some (patchTransfer {s with chunks := (s.chunks.insert (id,n)).getD s.chunks} id (fun t => {t with updatedAt := s.now}) (fun _ => rfl))

def openRows (s : State) : List Transfer := s.transfers.rows.filter (fun t => t.status = .isOpen)
def reserved (rows : List Transfer) : Int := (rows.map Transfer.totalSize).sum

inductive OpenError where
  | invalidId
  | tooLarge
  | chunkSize
  | destinationExists
  | quotaExceeded
  | constraint
  | tempFile
  deriving DecidableEq, Repr

def createTransferWithinLimits (s : State) (t : Transfer) : Except OpenError State :=
  let mine := (openRows s).filter (fun r => r.deviceId == t.deviceId)
  if (openRows s).length < maxActiveTransfersPerHost ∧ reserved (openRows s) ≤ maxReservedBytesPerHost - t.totalSize ∧
    mine.length < maxActiveTransfersPerDevice ∧ reserved mine ≤ maxReservedBytesPerDevice - t.totalSize then
    match s.transfers.insert t with
    | none => .error .constraint
    | some transfers => .ok {s with transfers := transfers}
  else .error .quotaExceeded

def isStale (s : State) (cutoff : Int) (t : Transfer) : Bool :=
  if t.updatedAt ≤ 0 then
    match s.temps t.id with
    | none => true
    | some inode => decide ((s.inodes inode).modTime < cutoff)
  else decide (t.updatedAt < cutoff)

-- The sweep under the manager lock: stale open sessions with their chunks and
-- temp files, then old terminal rows, then old temp files no open row names.
def sweepStaleSessions (s : State) : State :=
  let stale := fun t : Transfer => t.status = .isOpen && s.active t.id == 0 && isStale s (s.now - transferStaleAfter) t
  let doomed := (s.transfers.rows.filter stale).map Transfer.id
  {s with
    transfers := s.transfers.delete (fun t => doomed.contains t.id)
    chunks := s.chunks.delete (fun c => doomed.contains c.1)
    temps := fun id => if doomed.contains id then none else s.temps id}

def pruneTerminalTransfers (s : State) : State :=
  let old := fun t : Transfer => t.status ≠ .isOpen && decide (t.terminalAt > 0) && decide (t.terminalAt < s.now - transferHistoryRetention)
  let doomed := (s.transfers.rows.filter old).map Transfer.id
  {s with
    transfers := s.transfers.delete (fun t => doomed.contains t.id)
    chunks := s.chunks.delete (fun c => doomed.contains c.1)}

def sweepOrphanTemps (s : State) : State :=
  {s with temps := fun id =>
    match s.temps id with
    | none => none
    | some inode =>
      if s.active id = 0 ∧ !(openRows s).any (fun t => t.id == id) ∧ (s.inodes inode).modTime < s.now - transferStaleAfter
      then none else some inode}

def cleanupStale (s : State) : State := sweepOrphanTemps (pruneTerminalTransfers (sweepStaleSessions s))

def baseName (path : List Char) : List Char :=
  if path = [] then ['.'] else
  let stripped := (path.reverse.dropWhile (· = '/')).reverse
  if stripped = [] then ['/'] else (stripped.reverse.takeWhile (· ≠ '/')).reverse

def validTransferId (id : String) : Bool :=
  !(id == "" || baseName id.toList != id.toList || id == "." || id == "..")

structure OpenRequest where
  id : String
  targetPath : String
  size : Int
  chunkSize : Int
  sha256 : String
  overwrite : Bool
  deviceId : String
  deriving DecidableEq, Repr

def sessionRow (request : OpenRequest) (serial : Nat) : Transfer :=
  ⟨request.id,request.targetPath,request.size,request.chunkSize,request.sha256,.isOpen,
    totalChunksOf request.size request.chunkSize,request.deviceId,0,0,request.overwrite,serial⟩

-- Whether the file system can create and extend the temp file and, where it
-- cannot, whether the database lets the reservation go.
inductive Allocation where
  | made
  | undone
  | stuck
  deriving DecidableEq, Repr

-- `destination` is the answer of the early Stat. A temp file left under this
-- name makes the exclusive create fail, and the rollback then removes it.
def openSession (s : State) (request : OpenRequest) (destination : Bool) (allocation : Allocation) : State × Option OpenError :=
  if !validTransferId request.id then (s,some .invalidId) else
  if request.size < 0 ∨ request.size > maxTransferSize then (s,some .tooLarge) else
  if request.chunkSize ≤ 0 then (s,some .chunkSize) else
  if !request.overwrite && destination then (s,some .destinationExists) else
  let clean := cleanupStale s
  match createTransferWithinLimits clean (sessionRow request clean.nextInode) with
  | .error e => (clean,some e)
  | .ok created =>
    if allocation = .made ∧ created.temps request.id = none then
      ({created with
        inodes := Function.update created.inodes created.nextInode ⟨List.replicate request.size.toNat 0,created.now,request.id⟩
        temps := Function.update created.temps request.id (some created.nextInode)
        nextInode := created.nextInode + 1},none)
    -- The row stays behind. Its number is used up, for a file that has no name.
    else if allocation = .stuck then
      ({created with
        inodes := Function.update created.inodes created.nextInode ⟨List.replicate request.size.toNat 0,created.now,request.id⟩
        temps := Function.update created.temps request.id none
        nextInode := created.nextInode + 1},some .tempFile)
    else (deleteTransfer {created with temps := Function.update created.temps request.id none} request.id,some .tempFile)

-- The handler admits only these chunk sizes before it calls the manager.
def admitted (request : OpenRequest) : Bool := decide (0 < request.chunkSize) && decide (request.chunkSize ≤ maxChunkSize)

def move (s : State) (p : Nat) (stage : Stage) : State := {s with procs := Function.update s.procs p stage}

def beginActivity (s : State) (id : String) (requireOpen : Bool) : Option (State × Bool) :=
  match getTransfer s id with
  | none => none
  | some t =>
    if t.status ≠ .isOpen then (if requireOpen then none else some (s,false)) else
    if s.completing id then none else
    some ({touchOpenTransfer s id with active := Function.update s.active id (s.active id + 1)},true)

def endActivity (s : State) (id : String) : State :=
  {s with active := Function.update s.active id (if s.active id ≤ 1 then 0 else s.active id - 1)}

def beginCompletion (s : State) (id : String) : Option State :=
  match getTransfer s id with
  | none => none
  | some t =>
    if t.status ≠ .isOpen ∨ s.active id > 0 ∨ s.completing id then none else
    some {touchOpenTransfer s id with active := Function.update s.active id 1,completing := Function.update s.completing id true}

def endCompletion (s : State) (id : String) : State :=
  {s with active := Function.update s.active id 0,completing := Function.update s.completing id false}

def deleteSession (s : State) (id : String) : Option State :=
  if s.active id > 0 then none else
  match getTransfer s id with
  | none => none
  | some _ => some {deleteTransfer s id with temps := Function.update s.temps id none}

inductive Recorded where
  | done
  | rowDeleted
  | neither
  deriving DecidableEq, Repr

inductive Event where
  | clock (seconds : Nat)
  | openSession (request : OpenRequest) (destination : Bool) (allocation : Allocation)
  | deleteSession (id : String)
  | sweep
  | chunkBegin (p : Nat) (call : ChunkCall)
  | chunkCheck (p : Nat)
  | chunkLookup (p : Nat)
  | chunkOpen (p : Nat)
  | chunkWrite (p : Nat)
  | chunkRecord (p : Nat) (succeeds : Bool)
  | status (p : Nat) (id : String)
  | leave (p : Nat)
  | completeBegin (p : Nat) (id : String)
  | completeLoad (p : Nat)
  | completeCount (p : Nat)
  | completeOpen (p : Nat)
  | read (p : Nat) (count : Nat)
  | verify (p : Nat)
  | recordFailed (p : Nat) (outcome : Recorded)
  | stream (p : Nat) (reopen : Bool)
  | placeRename (p : Nat)
  | placeCopy (p : Nat)
  | removeTemp (p : Nat) (succeeds : Bool)
  | recordCompleted (p : Nat) (outcome : Recorded)
  | abandon (p : Nat)
  deriving DecidableEq, Repr

section Step
variable (sha256 : Bytes → String)

-- The checks WriteChunk makes on the row it read.
def acceptsChunk (t : Transfer) (call : ChunkCall) : Bool :=
  t.status = .isOpen && decide (0 ≤ call.n) && decide (call.n < t.totalChunks) &&
    decide ((call.data.length : Int) = expectedChunkLen t call.n) && sha256 call.data == call.sha256

def stepChunk (s : State) (p : Nat) : Event → Option State
  | .chunkBegin _ call =>
    if s.procs p = .idle then
      match beginActivity s call.id true with
      | some (leased,_) => some (move leased p (.chunkLeased call))
      | none => some (move s p .finished)
    else none
  | .chunkCheck _ =>
    match s.procs p with
    | .chunkLeased call =>
      match getTransfer s call.id with
      | none => some (move s p (.leaving call.id))
      | some t => some (move s p (if acceptsChunk sha256 t call then .chunkChecked call t else .leaving call.id))
    | _ => none
  -- A chunk that is already recorded is answered with success and not written.
  | .chunkLookup _ =>
    match s.procs p with
    | .chunkChecked call t =>
      if hasChunk s call.id call.n then some {move s p (.leaving call.id) with acks := ⟨t.serial,call.n,call.data⟩::s.acks}
      else some (move s p (.chunkMissing call t))
    | _ => none
  | .chunkOpen _ =>
    match s.procs p with
    | .chunkMissing call t =>
      match s.temps call.id with
      | none => some (move s p (.leaving call.id))
      | some inode => some (move s p (.chunkOpened call t inode))
    | _ => none
  | .chunkWrite _ =>
    match s.procs p with
    | .chunkOpened call t inode =>
      some {move s p (.chunkWritten call t inode) with
        inodes := Function.update s.inodes inode {s.inodes inode with
          content := writeAt 0 (s.inodes inode).content (call.n * t.chunkSize).toNat call.data,modTime := s.now}
        writes := Function.update s.writes inode (s.writes inode + 1)}
    | _ => none
  | .chunkRecord _ succeeds =>
    match s.procs p with
    | .chunkWritten call t inode =>
      match if succeeds then markChunkReceived s call.id call.n else none with
      | some recorded => some {move recorded p (.leaving call.id) with acks := ⟨t.serial,call.n,call.data⟩::s.acks}
      | none => some {move s p (.leaving call.id) with spoiled := inode::s.spoiled}
    | _ => none
  | .status _ id =>
    if s.procs p = .idle then
      match beginActivity s id false with
      | some (leased,true) => some (move leased p (.leaving id))
      | _ => some (move s p .finished)
    else none
  | .leave _ =>
    match s.procs p with
    | .leaving id => some (move (endActivity s id) p .finished)
    | .completeLeaving id => some (move (endCompletion s id) p .finished)
    | _ => none
  | _ => none

def stepComplete (s : State) (p : Nat) : Event → Option State
  | .completeBegin _ id =>
    if s.procs p = .idle then
      match beginCompletion s id with
      | some leased => some (move leased p (.completing id))
      | none => some (move s p .finished)
    else none
  | .completeLoad _ =>
    match s.procs p with
    | .completing id =>
      match getTransfer s id with
      | none => some (move s p (.completeLeaving id))
      | some t => some (move s p (if t.status = .isOpen then .completeLoaded t else .completeLeaving id))
    | _ => none
  | .completeCount _ =>
    match s.procs p with
    | .completeLoaded t =>
      some (move s p (if ((chunkNumbers s t.id).length : Int) < t.totalChunks then .completeLeaving t.id else .completeCounted t))
    | _ => none
  | .completeOpen _ =>
    match s.procs p with
    | .completeCounted t =>
      match s.temps t.id with
      | none => some (move s p (.completeLeaving t.id))
      | some inode => some (move s p (.hashing t inode (s.writes inode) []))
    | _ => none
  -- io.Copy reads block by block, for the hash and for a streamed placement.
  | .read _ count =>
    match s.procs p with
    | .hashing t inode since bytes =>
      some (move s p (.hashing t inode since (bytes ++ slice (s.inodes inode).content bytes.length count)))
    | .copying t inode since bytes =>
      some (move s p (.copying t inode since (bytes ++ slice (s.inodes inode).content bytes.length count)))
    | _ => none
  | .verify _ =>
    match s.procs p with
    | .hashing t inode since bytes =>
      if bytes.length < (s.inodes inode).content.length then none else
      some (move s p (if sha256 bytes = t.sha256 then .verified t inode since else .mismatched t))
    | _ => none
  | .recordFailed _ outcome =>
    match s.procs p with
    | .mismatched t =>
      some (move (match outcome with
        | .done => setTransferStatus s t.id .failed
        | .rowDeleted => deleteTransfer s t.id
        | .neither => s) p (.failedRecorded t))
    | _ => none
  -- A publisher rewinds the handle it was given; a move across file systems
  -- opens the temp file again.
  | .stream _ reopen =>
    match s.procs p with
    | .verified t inode since =>
      match if reopen then s.temps t.id else some inode with
      | none => some (move s p (.completeLeaving t.id))
      | some source => some (move s p (.copying t source since []))
    | _ => none
  -- rename or link: the temp file's own bytes appear at the destination.
  | .placeRename _ =>
    match s.procs p with
    | .verified t _ since =>
      match s.temps t.id with
      | none => some (move s p (.completeLeaving t.id))
      | some source => some {move s p (.placed t) with
          published := ⟨t,(s.inodes source).content,since,s.writes source⟩::s.published}
    | _ => none
  | .placeCopy _ =>
    match s.procs p with
    | .copying t source since bytes =>
      if bytes.length < (s.inodes source).content.length then none else
      some {move s p (.placed t) with published := ⟨t,bytes,since,s.writes source⟩::s.published}
    | _ => none
  | .removeTemp _ succeeds =>
    match s.procs p with
    | .failedRecorded t =>
      some (move {s with temps := if succeeds then Function.update s.temps t.id none else s.temps} p (.completeLeaving t.id))
    | .placed t =>
      some (move {s with temps := if succeeds then Function.update s.temps t.id none else s.temps} p (.tempRemoved t))
    | _ => none
  | .recordCompleted _ outcome =>
    match s.procs p with
    | .tempRemoved t =>
      some (move (match outcome with
        | .done => setTransferStatus s t.id .completed
        | .rowDeleted => deleteTransfer s t.id
        | .neither => s) p (.completeLeaving t.id))
    | _ => none
  | _ => none

-- Any other failure of a call, up to the point where it has written or placed
-- something, returns with only the lease to give back. So does a failure to
-- remove the temp file after a link.
def abandon (s : State) (p : Nat) : Option State :=
  match s.procs p with
  | .chunkLeased call | .chunkChecked call _ | .chunkMissing call _ | .chunkOpened call _ _ => some (move s p (.leaving call.id))
  | .completing id => some (move s p (.completeLeaving id))
  | .completeLoaded t | .completeCounted t | .hashing t _ _ _ | .verified t _ _ | .copying t _ _ _ | .placed t =>
    some (move s p (.completeLeaving t.id))
  | _ => none

def step (s : State) : Event → Option State
  | .clock seconds => some {s with now := s.now + seconds}
  | .openSession request destination allocation =>
    if admitted request then some (openSession s request destination allocation).1 else none
  | .deleteSession id => some ((deleteSession s id).getD s)
  | .sweep => some (cleanupStale s)
  | .abandon p => abandon s p
  | .chunkBegin p call => stepChunk sha256 s p (.chunkBegin p call)
  | .chunkCheck p => stepChunk sha256 s p (.chunkCheck p)
  | .chunkLookup p => stepChunk sha256 s p (.chunkLookup p)
  | .chunkOpen p => stepChunk sha256 s p (.chunkOpen p)
  | .chunkWrite p => stepChunk sha256 s p (.chunkWrite p)
  | .chunkRecord p succeeds => stepChunk sha256 s p (.chunkRecord p succeeds)
  | .status p id => stepChunk sha256 s p (.status p id)
  | .leave p => stepChunk sha256 s p (.leave p)
  | .completeBegin p id => stepComplete sha256 s p (.completeBegin p id)
  | .completeLoad p => stepComplete sha256 s p (.completeLoad p)
  | .completeCount p => stepComplete sha256 s p (.completeCount p)
  | .completeOpen p => stepComplete sha256 s p (.completeOpen p)
  | .read p count => stepComplete sha256 s p (.read p count)
  | .verify p => stepComplete sha256 s p (.verify p)
  | .recordFailed p outcome => stepComplete sha256 s p (.recordFailed p outcome)
  | .stream p reopen => stepComplete sha256 s p (.stream p reopen)
  | .placeRename p => stepComplete sha256 s p (.placeRename p)
  | .placeCopy p => stepComplete sha256 s p (.placeCopy p)
  | .removeTemp p succeeds => stepComplete sha256 s p (.removeTemp p succeeds)
  | .recordCompleted p outcome => stepComplete sha256 s p (.recordCompleted p outcome)

end Step

end RemoteFileExplorer.Transfers
