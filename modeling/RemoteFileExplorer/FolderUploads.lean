import RemoteFileExplorer.DesktopUploads
import Mathlib.Data.List.Sort

namespace RemoteFileExplorer.FolderUploads
open PathTexts TransferNames Transfers UploadAgent
open DesktopTransfers (Resolution Policy)
open DesktopUploads (Upload)

-- A local file or folder. Links and special files inside a folder are passed over.
inductive Tree where
  | file (name : Text) (bytes : Bytes)
  | folder (name : Text) (entries : List Tree)
  | other (name : Text)

-- A regular file with its path from the parent of what was picked.
structure Found where
  rel : List Text
  bytes : Bytes
  deriving DecidableEq, Repr

mutual

def Tree.files (above : List Text) : Tree → List Found
  | .file name bytes => [⟨above ++ [name],bytes⟩]
  | .folder name entries => filesOf (above ++ [name]) entries
  | .other _ => []

def filesOf (above : List Text) : List Tree → List Found
  | [] => []
  | entry::rest => entry.files above ++ filesOf above rest

end

mutual

def Tree.folders (above : List Text) : Tree → List (List Text)
  | .folder name entries => (above ++ [name])::foldersOf (above ++ [name]) entries
  | .file .. | .other _ => []

def foldersOf (above : List Text) : List Tree → List (List Text)
  | [] => []
  | entry::rest => entry.folders above ++ foldersOf above rest

end

def maxEntries : Nat := 50000

def notAfter (left right : Text) : Bool := decide (¬ right < left)

-- Shallowest first, so a parent is made before what is inside it.
def shallower (left right : List Text) : Bool :=
  decide (left.length < right.length) || (left.length == right.length && notAfter (slashed left) (slashed right))

def walkAll (root : Tree) : Option (List Found × List (List Text)) :=
  let files := root.files []
  let folders := root.folders []
  if files.length + folders.length > maxEntries then none else
  some (files.insertionSort fun left right => notAfter (slashed left.rel) (slashed right.rel),folders.insertionSort fun left right => shallower left right)

def maxNameBytes : Nat := 255

def validateName (name : Text) : Bool :=
  name != [] && decide (utf8Len name ≤ maxNameBytes) && name != ['.'] && name != ['.','.'] && trimSpace name == name &&
    !name.any fun c => isControl c || isSeparator c

section Places
variable (remoteDir : Text)

def remoteFolder : List Text → Text
  | [] => remoteDir
  | parents => joinRemote remoteDir (slashed parents)

def Found.target (found : Found) : Option Text :=
  (remoteFileName (found.rel.getLast?.getD [])).map (joinRemote (remoteFolder remoteDir found.rel.dropLast))

end Places

inductive Walk where
  | making (folders : List (List Text))
  | queuing
  | ended
  | refused
  deriving DecidableEq, Repr

-- The uploads of one tree over one agent. Upload `i` is the one of file `i`, and
-- the first `queued` of them are in the list.
structure World where
  host : Host
  walk : Walk
  queued : Nat
  uploads : Nat → Upload

def freshUpload : Upload := ⟨.waiting,none,none,0,⟨0,0,.status 0⟩⟩

def begins (remoteDir : Text) (root : Tree) : Walk :=
  if validRemote remoteDir then
    match walkAll root with
    | none | some ([],[]) => .refused
    | some (_,folders) => .making folders
  else .refused

def filesFor (root : Tree) : List Found := ((walkAll root).map Prod.fst).getD []

def initial (entries : String → Option Entry) (remoteDir : Text) (root : Tree) : World :=
  ⟨Host.fresh entries,begins remoteDir root,0,fun _ => freshUpload⟩

def sourceOf (files : List Found) (i : Nat) : Bytes := (files[i]?.map Found.bytes).getD []
def targetOf (remoteDir : Text) (files : List Found) (i : Nat) : Text := (files[i]?.bind (Found.target remoteDir)).getD []

section Uploads
variable (sha256 : Bytes → String) (remoteDir : Text) (files : List Found)

def World.makes (w : World) (folder : List Text) (rest : List (List Text)) : World :=
  let path := String.ofList (joinRemote (remoteFolder remoteDir folder.dropLast) (folder.getLast?.getD []))
  match w.host.agent.entries path with
  | some .folder => {w with walk := .making rest}
  | some (.file _) => {w with walk := .refused}
  | none =>
    if validateName (folder.getLast?.getD []) then
      let agent := {w.host.agent with entries := Function.update w.host.agent.entries path (some .folder)}
      {w with host := {w.host with agent := agent},walk := .making rest}
    else {w with walk := .refused}

def World.walks (w : World) : Option World :=
  match w.walk with
  | .making (folder::rest) => some (w.makes remoteDir folder rest)
  | .making [] => some {w with walk := .queuing}
  | .queuing =>
    match files[w.queued]? with
    | none => some {w with walk := .ended}
    | some found =>
      if validRemote (remoteFolder remoteDir found.rel.dropLast) ∧ (found.target remoteDir).isSome then some {w with queued := w.queued + 1}
      else some {w with walk := .refused}
  | .ended | .refused => none

inductive Event where
  | walks
  | refuses
  | upload (i : Nat) (event : DesktopUploads.Event)
  deriving DecidableEq, Repr

def step (w : World) : Event → Option World
  | .walks => w.walks remoteDir files
  -- A request for a folder or a login that fails.
  | .refuses => if w.walk = .ended ∨ w.walk = .refused then none else some {w with walk := .refused}
  | .upload i event =>
    if i < w.queued then
      match DesktopUploads.step sha256 (sourceOf files i) (targetOf remoteDir files i) ⟨w.host,w.uploads i⟩ event with
      | none => none
      | some next => some {w with host := next.host,uploads := Function.update w.uploads i next.upload}
    else none

end Uploads

end RemoteFileExplorer.FolderUploads
