import Mathlib.Data.List.Perm.Basic
import RemoteFileExplorer.IndexListing
import RemoteFileExplorer.SearchFilters

namespace RemoteFileExplorer.SearchWalk
open FileTree DirectoryIndex IndexMirror SearchFilters

inductive Kind where
  | dir
  | link
  | other
  deriving DecidableEq, Repr

structure Instant where
  sec : Int
  nsec : Nat
  deriving DecidableEq, Repr

def saturate (t : Int) : Int := max (-2^63) (min t (2^63 - 1))
def Instant.nanos (t : Instant) : Int := t.sec * 10^9 + t.nsec
def Instant.saturated (t : Instant) : Int := saturate (saturate (t.sec * 10^9) + t.nsec)

-- What the file system knows of one entry. Of a link: its text, whether a
-- directory is at its end, and whether it ends inside the root it is walked from.
structure Found where
  name : Name
  kind : Kind
  size : Nat
  mtime : Instant
  ctime : Instant
  mode : Nat
  target : String
  leadsToDir : Bool
  staysInside : Bool
  deriving DecidableEq, Repr

-- A tree of files; `none` is no directory, or one that cannot be read.
structure World where
  listing : Path → Option (List Found)
  depth : Nat
  distinct : ∀ path rows, listing path = some rows → (rows.map Found.name).Nodup
  bounded : ∀ path rows, listing path = some rows → path.length < depth
  short : ∀ path rows, listing path = some rows → ∀ f ∈ rows, f.name.utf8ByteSize ≤ 255

-- What `list_dir` records; a link that leaves the root counts as no directory.
def Found.row (f : Found) : Row where
  name := f.name
  attrs := {
    stat := ⟨f.size,f.mtime.saturated,f.ctime.saturated,f.mode⟩
    isDir := if f.kind = .link then f.leadsToDir && f.staysInside else f.kind = .dir
    isSymlink := f.kind = .link
    target := if f.kind = .link then f.target else "" }
  walkInto := f.kind = .dir

def World.disk (world : World) : Disk :=
  ⟨fun path => (world.listing path).isSome,fun path => (world.listing path).isSome,fun path => (world.listing path).map (List.map Found.row),
    fun _ => none,world.depth⟩

structure Entry where
  path : Path
  isDir : Bool
  size : Nat
  mode : Nat
  modified : Int
  created : Option Int
  isSymlink : Bool
  target : String
  deriving DecidableEq, Repr

def shouldSkipVirtualDir (path : Path) : Bool :=
  [["proc"],["sys"],["dev"],["sysroot"]].contains path ||
    (match path.getLast? with | none => false | some name => isHidden name || name == "node_modules")

section Walk
variable (world : World) (casing : Casing) (filters : Filters)

-- The entries `fs.WalkDir` hands out below a directory, in name order.
def visit : Nat → Path → List (Path × Found)
  | 0,_ => []
  | depth + 1,path => (world.listing path).elim [] fun rows => (rows.insertionSort fun a b => a.name ≤ b.name).flatMap fun f =>
    if f.kind = .dir && shouldSkipVirtualDir (path ++ [f.name]) then []
    else (path,f)::if f.kind = .dir then visit depth (path ++ [f.name]) else []

def walkEntry (found : Path × Found) : Entry where
  path := found.1 ++ [found.2.name]
  isDir := if found.2.kind = .link then found.2.leadsToDir else found.2.kind = .dir
  size := found.2.size
  mode := found.2.mode
  modified := found.2.mtime.nanos
  created := some found.2.ctime.nanos
  isSymlink := found.2.kind = .link
  target := if found.2.kind = .link then found.2.target else ""

def walkAccepts (found : Path × Found) : Bool :=
  matchName casing filters found.2.name &&
    matchEntry casing filters found.2.name (walkEntry found).isDir (walkEntry found).size (walkEntry found).modified

-- Matches are appended until there are `limit`; the answer says whether it
-- stopped there.
def gather (limit : Nat) : List Entry → List Entry → List Entry × Bool
  | [],results => (results,false)
  | e::rest,results => if limit ≤ (results ++ [e]).length then (results ++ [e],true) else gather limit rest (results ++ [e])

def walkForMatches (limit : Nat) (root : Path) (results : List Entry) : List Entry × Bool :=
  gather limit (((visit world world.depth root).filter (walkAccepts casing filters)).map walkEntry) results

def searchLive (limit : Nat) : List Path → List Entry → List Entry × Bool
  | [],results => (results,false)
  | root::rest,results =>
    let walked := walkForMatches world casing filters limit root results
    if walked.2 then walked else searchLive limit rest walked.1

end Walk

section Query
variable (casing : Casing) (filters : Filters)

def unpruned : Path → List Name → Bool
  | _,[] => true
  | cur,part::rest => !shouldSkipVirtualDir (cur ++ [part]) && unpruned (cur ++ [part]) rest

def indexCovers (indexed : List Path) (root : Path) : Bool :=
  indexed.any fun base => base.isPrefixOf root && unpruned base (root.drop base.length)

def underAnyRootScopes (roots : List Path) (path : Path) : Bool := roots.any fun root => root.isPrefixOf path

def sidecarAccepts (item : Item) : Bool :=
  matchNameFast casing (compile casing (toWireFilters filters)) item.name &&
    matchAttrs (compile casing (toWireFilters filters)) (extOf casing item.name) item.attrs.isDir item.attrs.stat.size item.attrs.stat.mtime

def toEntry (item : Item) : Entry where
  path := item.dir ++ [item.name]
  isDir := item.attrs.isDir
  size := item.attrs.stat.size
  mode := item.attrs.stat.mode
  modified := item.attrs.stat.mtime
  created := if item.attrs.stat.ctime ≠ 0 then some item.attrs.stat.ctime else none
  isSymlink := item.attrs.isSymlink
  target := item.attrs.target

-- The groups of a query are scanned side by side and joined in order: the
-- answer is that of one scan. The agent checks the scope of each path again.
def query (index : Index) (roots : List Path) (limit : Nat) : Option (List Entry × Bool) :=
  (sequence index).map fun items =>
    let scanned := gather limit ((items.filter fun item => sidecarAccepts casing filters item &&
      underAnyRootScopes roots (item.dir ++ [item.name])).map toEntry) []
    ((gather limit (scanned.1.filter fun e => underAnyRootScopes roots e.path) []).1,index.truncated || scanned.2)

end Query

end RemoteFileExplorer.SearchWalk
