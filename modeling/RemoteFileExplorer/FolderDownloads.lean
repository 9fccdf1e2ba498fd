import RemoteFileExplorer.DesktopTransfers
import RemoteFileExplorer.Placings
import RemoteFileExplorer.TransferNames
import RemoteFileExplorer.Transfers

namespace RemoteFileExplorer.FolderDownloads
open PathTexts TransferNames Transfers Slices
open DesktopTransfers (Resolution Policy)

inductive Remote where
  | file (path : Text) (bytes : Bytes)
  | folder (path : Text) (isSymlink : Bool) (entries : List Remote)

-- A file to download: the folder below the chosen one, the remote path and what
-- the agent has there.
structure Wanted where
  dir : List Text
  remote : Text
  bytes : Bytes
  deriving DecidableEq, Repr

mutual

-- The files of a tree. A link to a folder is not followed.
def Remote.files (dir : List Text) : Remote → List Wanted
  | .file path bytes => [⟨dir,path,bytes⟩]
  | .folder path isSymlink entries => if isSymlink then [] else filesOf (dir ++ [safeName path]) entries

def filesOf (dir : List Text) : List Remote → List Wanted
  | [] => []
  | entry::rest => entry.files dir ++ filesOf dir rest

end

def Remote.tree : Remote → List Wanted
  | .file path bytes => [⟨[],path,bytes⟩]
  | .folder path _ entries => filesOf [safeName path] entries

inductive Entry where
  | file (content : Bytes)
  | folder
  deriving DecidableEq, Repr

inductive Stage (Place : Type) where
  | waiting
  | asked
  | fetching (how : Option Resolution)
  | done (place : Place)
  | cancelled
  deriving DecidableEq, Repr

structure Item (Place : Type) where
  wanted : Wanted
  part : Bytes
  resolution : Option Resolution
  stage : Stage Place
  deriving DecidableEq, Repr

-- The folders still to be listed, the one being listed with what is left of it,
-- and how many were listed.
inductive Walk where
  | going (stack : List (List Text × List Remote)) (here : Option (List Text × List Remote)) (folders : Nat)
  | ended
  | refused

structure State (Place : Type) where
  entries : Place → Option Entry
  walk : Walk
  items : List (Item Place)
  policy : Policy

def maxFolderFiles : Nat := 50000
def maxFolders : Nat := 20000
def maxNumbers : Nat := 10000

section Downloads
variable {Place : Type} [DecidableEq Place] (locate : List Text → Place)

def Item.name (item : Item Place) : Text := safeName item.wanted.remote

def Wanted.target (wanted : Wanted) : Place := locate (wanted.dir ++ [safeName wanted.remote])

def createDirs (entries : Place → Option Entry) : List (List Text) → Option (Place → Option Entry)
  | [] => some entries
  | dir::rest =>
    match entries (locate dir) with
    | none => createDirs (Function.update entries (locate dir) (some .folder)) rest
    | some .folder => createDirs entries rest
    | some (.file _) => none

def createDirAll (entries : Place → Option Entry) (dir : List Text) : Option (Place → Option Entry) :=
  createDirs locate entries (dir.inits.tail)

def initial (entries : Place → Option Entry) (policy : Policy) : Remote → State Place
  | .file path bytes => ⟨entries,.going [] (some ([],[.file path bytes])) 0,[],policy⟩
  | .folder path _ listed => ⟨entries,.going [([safeName path],listed)] none 0,[],policy⟩

def State.startDownload (s : State Place) (wanted : Wanted) (walk : Walk) : State Place :=
  if validRemote wanted.remote then
    match createDirAll locate s.entries wanted.dir with
    | none => {s with walk := .refused}
    | some entries => {s with entries := entries,walk := walk,items := s.items ++ [⟨wanted,[],none,.waiting⟩]}
  else {s with walk := .refused}

-- One step of the walk: a folder is taken from the stack and made, one of its
-- entries is queued or stacked, or it is left behind.
def State.walks (s : State Place) : Option (State Place) :=
  match s.walk with
  | .going ((dir,listed)::stack) none folders =>
    match createDirAll locate s.entries dir with
    | none => some {s with walk := .refused}
    | some entries => some {s with entries := entries,walk := .going stack (some (dir,listed)) folders}
  | .going [] none _ => some {s with walk := .ended}
  | .going stack (some (dir,.folder path isSymlink listed::rest)) folders =>
    if isSymlink then some {s with walk := .going stack (some (dir,rest)) folders}
    else some {s with walk := .going ((dir ++ [safeName path],listed)::stack) (some (dir,rest)) folders}
  | .going stack (some (dir,.file path bytes::rest)) folders =>
    if maxFolderFiles ≤ s.items.length then some {s with walk := .refused}
    else some (s.startDownload locate ⟨dir,path,bytes⟩ (.going stack (some (dir,rest)) folders))
  | .going stack (some (_,[])) folders =>
    if folders + 1 > maxFolders ∨ s.items.length > maxFolderFiles then some {s with walk := .refused}
    else some {s with walk := .going stack none (folders + 1)}
  | .ended | .refused => none

def State.puts (s : State Place) (i : Nat) (item : Item Place) : State Place := {s with items := s.items.set i item}

-- The answer given before, else the saved choice. Without either the person is
-- asked and the download waits.
def Item.settled (item : Item Place) (policy : Policy) : Option Resolution :=
  match item.resolution,policy with
  | some how,_ => some how
  | none,.act how => some how
  | none,.ask => none

def firstFree (free : Nat → Bool) : Nat → Nat → Option Nat
  | 0,_ => none
  | left + 1,n => if free n then some n else firstFree free left (n + 1)

theorem firstFree_free (first : firstFree free left n = some m) : free m = true := by
  induction left generalizing n with
  | zero => cases first
  | succ left ih =>
    unfold firstFree at first
    split at first
    · rename_i vacant
      cases first
      exact vacant
    · exact ih first

def freeNumber (entries : Place → Option Entry) (dir : List Text) (name : Text) : Option Nat :=
  firstFree (fun n => (entries (locate (dir ++ [numberedName name n]))).isNone) maxNumbers 0

def State.places (s : State Place) (i : Nat) (item : Item Place) (place : Place) : State Place :=
  {s with
    entries := Function.update s.entries place (some (.file item.part))
    items := s.items.set i {item with stage := .done place}}

def State.publishes (s : State Place) (i : Nat) (item : Item Place) (how : Option Resolution) : State Place :=
  let failed := s.puts i {item with stage := .waiting}
  if how = some .replace then
    let target := item.wanted.target locate
    if s.entries target = some .folder then failed else s.places i item target
  else
    match freeNumber locate s.entries item.wanted.dir item.name with
    | none => failed
    | some n => s.places i item (locate (item.wanted.dir ++ [numberedName item.name n]))

inductive Event where
  | walks
  | refuses
  | looks (i : Nat)
  | resolves (i : Nat) (how : Resolution)
  | settles (i : Nat)
  | fetches (i n : Nat)
  | restarts (i : Nat)
  | publishes (i : Nat)
  | stops (i : Nat)
  | cancels (i : Nat)
  | retries (i : Nat)
  | prefers (policy : Policy)
  deriving DecidableEq, Repr

def Item.active (item : Item Place) : Bool :=
  match item.stage with
  | .waiting | .asked | .fetching _ => true
  | _ => false

def Item.acts (s : State Place) (i : Nat) (item : Item Place) : Event → Option (State Place)
  | .looks _ =>
    if item.stage = .waiting then
      match s.entries (item.wanted.target locate) with
      | none => some (s.puts i {item with stage := .fetching item.resolution})
      | some _ => some (s.puts i {item with stage := .asked})
    else none
  | .resolves _ how => if item.stage = .asked ∧ item.resolution = none then some (s.puts i {item with resolution := some how}) else none
  | .settles _ =>
    match item.stage,item.settled s.policy with
    | .asked,some .skip => some (s.puts i {item with resolution := some .skip,stage := .cancelled})
    | .asked,some how => some (s.puts i {item with resolution := some how,stage := .fetching (some how)})
    | _,_ => none
  -- The agent answers with a beginning of what follows the part file.
  | .fetches _ n =>
    match item.stage with
    | .fetching _ => some (s.puts i {item with part := item.part ++ slice item.wanted.bytes item.part.length n})
    | _ => none
  | .restarts _ =>
    match item.stage with
    | .fetching _ => some (s.puts i {item with part := []})
    | _ => none
  | .publishes _ =>
    match item.stage with
    | .fetching how => if item.wanted.bytes.length ≤ item.part.length then some (s.publishes locate i item how) else none
    | _ => none
  -- A pause, or an attempt that fails and waits for a retry.
  | .stops _ => if item.active then some (s.puts i {item with stage := .waiting}) else none
  | .cancels _ => if item.active then some (s.puts i {item with part := [],stage := .cancelled}) else none
  | .retries _ => if item.stage = .cancelled then some (s.puts i {item with stage := .waiting}) else none
  | _ => none

def Event.item : Event → Option Nat
  | .looks i | .resolves i _ | .settles i | .fetches i _ | .restarts i | .publishes i | .stops i | .cancels i | .retries i => some i
  | _ => none

def step (s : State Place) (event : Event) : Option (State Place) :=
  match event with
  | .walks => s.walks locate
  -- A listing that fails: what was queued is cancelled, one after the other.
  | .refuses =>
    match s.walk with
    | .going .. => some {s with walk := .refused}
    | _ => none
  | .prefers policy => some {s with policy := policy}
  | event =>
    match event.item with
    | none => none
    | some i =>
      match s.items[i]? with
      | none => none
      | some item => item.acts locate s i event

end Downloads

end RemoteFileExplorer.FolderDownloads
