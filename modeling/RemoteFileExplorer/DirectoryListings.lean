import RemoteFileExplorer.FileOps
import RemoteFileExplorer.Pages
import RemoteFileExplorer.TrashSteps

namespace RemoteFileExplorer.DirectoryListings
open FileTree PercentCodes Trash FileOps

section Rooted
variable {Data : Type} (tree : Node Data) (root : Path)

-- A walk that may not leave the root directory: a double dot at it and an
-- absolute link are refused, as a component that is no directory is.
def insideWith (follow : Path → List Name → Walked) : Path → List Name → Walked
  | place,[] => .found place
  | place,part::rest =>
    if part = "" ∨ part = "." then insideWith follow place rest else
    if part = ".." then (if place = root then .notDirectory else insideWith follow place.dropLast rest) else
    match nodeAt tree (place ++ [part]) with
    | none => .missing (place ++ [part]) rest
    | some (.link target) => if target.absolute then .notDirectory else follow place (target.parts ++ rest)
    | some (.file _) => if rest = [] then .found (place ++ [part]) else .notDirectory
    | some (.dir _) => insideWith follow (place ++ [part]) rest

def inside : Nat → Path → List Name → Walked
  | 0 => insideWith tree root (fun _ _ => .tooManyLinks)
  | links + 1 => insideWith tree root (inside links)

end Rooted

def rootMaxSymlinks : Nat := 8

def SecurePath.stat (disk : Files) (links : Nat) (path : SecurePath) : Option (Node Bytes) :=
  match path.root with
  | none => SystemCalls.stat disk links path.full
  | some root =>
    match inside disk.root root rootMaxSymlinks root (path.full.drop root.length) with
    | .found place => nodeAt disk.root place
    | _ => none

structure Entry where
  name : Name
  path : Bytes
  isDir : Bool
  size : Nat
  isSymlink : Bool
  deriving DecidableEq, Repr

structure Listing where
  entries : List Entry
  nextCursor : Option Name
  deriving DecidableEq, Repr

def infoSize : Node Bytes → Nat
  | .file data => data.length
  | .link target => (target.parts.map String.length).sum + (target.parts.length - 1)
  | .dir _ => 0

def entryFromSecureInfo (disk : Files) (links : Nat) (path : SecurePath) (name : Name) (info : Node Bytes) : Entry where
  name := name
  path := text path.full
  isDir := if info.isLink then ((SecurePath.stat disk links path).map Node.isDir).getD false else info.isDir
  size := infoSize info
  isSymlink := info.isLink

def maxListLimit : Nat := 1000

def pageLimit (limit : Int) : Nat := if limit ≤ 0 then 200 else min limit.toNat maxListLimit

-- A resolved path has no links but for one at its end that leads nowhere, and
-- opening that one fails.
def openNode (disk : Files) (path : SecurePath) : Option (Node Bytes) := (nodeAt disk.root path.full).filter (fun node => !node.isLink)

def listDir (disk : Files) (host : Host) (caller : Caller) (path : Bytes) (cursor : Option Name) (limit : Int) : Except OpError Listing :=
  match access disk host caller path with
  | .error _ => .error .forbidden
  | .ok resolved =>
    match openNode disk resolved with
    | some (.dir infos) =>
      let page := Pages.page Prod.fst (pageLimit limit) cursor infos
      .ok ⟨page.items.map (fun info => entryFromSecureInfo disk host.links (SecurePath.child resolved info.1) info.1 info.2),page.next⟩
    | some _ => .error .failed
    | none => .error .notFound

def checksum (disk : Files) (host : Host) (caller : Caller) (path : Bytes) : Except OpError Bytes :=
  match access disk host caller path with
  | .error _ => .error .forbidden
  | .ok resolved =>
    match openNode disk resolved with
    | some (.file data) => .ok data
    | some _ => .error .failed
    | none => .error .notFound

section Reading
variable {disk : Files} {host : Host} {caller : Caller}

theorem listDir_entry (shown : listDir disk host caller path cursor limit = .ok listing) (member : entry ∈ listing.entries) :
    ∃ resolved infos node, access disk host caller path = .ok resolved ∧ nodeAt disk.root resolved.full = some (.dir infos) ∧
      (entry.name,node) ∈ infos ∧ entry.path = text (resolved.full ++ [entry.name]) := by
  unfold listDir at shown
  split at shown
  · cases shown
  · rename_i resolved opened
    split at shown
    · rename_i infos found
      cases shown
      obtain ⟨stored,_⟩ := Option.filter_eq_some_iff.mp found
      obtain ⟨info,listed,rfl⟩ := List.mem_map.mp member
      have inside : info ∈ infos := by
        have taken := List.mem_of_mem_take listed
        have kept := List.mem_of_mem_filter taken
        exact (Pages.mem_listed Prod.fst).mp kept
      exact ⟨resolved,infos,info.2,opened,stored,inside,rfl⟩
    · cases shown
    · cases shown

theorem checksum_file : checksum disk host caller path = .ok data ↔
    ∃ resolved, access disk host caller path = .ok resolved ∧ nodeAt disk.root resolved.full = some (.file data) := by
  unfold checksum
  cases opened : access disk host caller path with
  | error e => simp
  | ok resolved =>
    simp only [Except.ok.injEq,exists_eq_left']
    cases stored : nodeAt disk.root resolved.full with
    | none =>
      have found : openNode disk resolved = none := by rw [openNode,stored,Option.filter_none]
      simp [found]
    | some node =>
      cases node with
      | file other =>
        have found : openNode disk resolved = some (.file other) := by rw [openNode,stored]; rfl
        simp [found]
      | dir entries =>
        have found : openNode disk resolved = some (.dir entries) := by rw [openNode,stored]; rfl
        simp [found]
      | link target =>
        have found : openNode disk resolved = none := by rw [openNode,stored]; rfl
        simp [found]

end Reading

end RemoteFileExplorer.DirectoryListings
