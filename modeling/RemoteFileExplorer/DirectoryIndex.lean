import Mathlib.Data.List.Dedup
import Mathlib.Data.List.Sort
import Mathlib.Logic.Equiv.Defs
import RemoteFileExplorer.FileTree

namespace RemoteFileExplorer.DirectoryIndex
open FileTree

structure Stat where
  size : Nat
  mtime : Int
  ctime : Int
  mode : Nat
  deriving DecidableEq, Repr

structure Attrs where
  stat : Stat
  isDir : Bool
  isSymlink : Bool
  target : String
  deriving DecidableEq, Repr

-- One entry read from a directory; `walkInto` says that it is itself a
-- directory, no link.
structure Row where
  name : Name
  attrs : Attrs
  walkInto : Bool
  deriving DecidableEq, Repr

-- What the file system answers: which roots and directories can be opened, the
-- rows of a directory (`none` when it cannot be read) and the stat of one. No
-- walk goes deeper than `depth`.
structure Disk where
  opensRoot : Path → Bool
  opensDir : Path → Bool
  entries : Path → Option (List Row)
  stat : Path → Option Stat
  depth : Nat

-- `none` for the child is NO_CHILD.
structure Rec where
  name : Name
  attrs : Attrs
  child : Option Nat
  deriving DecidableEq, Repr

structure Chunk where
  id : Nat
  dirPath : Path
  recs : List Rec
  deriving DecidableEq, Repr

structure Limits where
  maxEntries : Nat
  maxBytes : Nat
  deriving DecidableEq, Repr

structure Index where
  chunks : List Chunk
  idToPos : List (Option Nat)
  roots : List (Path × Option Nat)
  visible : Nat
  nextId : Nat
  limits : Limits
  truncated : Bool
  deriving DecidableEq, Repr

def recBytes : Nat := 40
def chunkOverhead : Nat := 96
def maxNameBytes : Nat := 2^16 - 1

def pathBytes (path : Path) : Nat := if path = [] then 1 else (path.map fun name => name.utf8ByteSize + 1).sum
def cost (name : Name) : Nat := recBytes + name.utf8ByteSize
def Chunk.bytes (c : Chunk) : Nat := (c.recs.map fun r => cost r.name).sum + pathBytes c.dirPath + chunkOverhead

def isHidden (name : Name) : Bool :=
  match name.toList with
  | '.'::_::_ => true
  | _ => false

def shouldSkipDir (name : Name) (path : Path) : Bool :=
  path == ["proc"] || path == ["sys"] || path == ["dev"] || path == ["sysroot"] || isHidden name || name == "node_modules"

def shownRows (path : Path) (rows : List Row) : List Row :=
  (rows.filter fun row => decide (row.name.utf8ByteSize ≤ maxNameBytes) &&
    !(row.walkInto && shouldSkipDir row.name (path ++ [row.name]))).insertionSort fun a b => a.name ≤ b.name

-- Records of the rows: a known subdirectory keeps its chunk id, any other gets
-- the next one and is handed back to be walked.
def record (reuse : Name → Option Nat) : List Row → Nat → List Rec × List (Name × Nat) × Nat
  | [],next => ([],[],next)
  | row::rest,next =>
    if row.walkInto then
      match reuse row.name with
      | some known =>
        let (recs,subs,last) := record reuse rest next
        (⟨row.name,row.attrs,some known⟩::recs,subs,last)
      | none =>
        let (recs,subs,last) := record reuse rest (next + 1)
        (⟨row.name,row.attrs,some next⟩::recs,(row.name,next)::subs,last)
    else
      let (recs,subs,last) := record reuse rest next
      (⟨row.name,row.attrs,none⟩::recs,subs,last)

def listDir (disk : Disk) (path : Path) (id : Nat) (reuse : Name → Option Nat) (next : Nat) :
    Option (Chunk × List (Name × Nat) × Nat) :=
  (disk.entries path).map fun rows =>
    let (recs,subs,last) := record reuse (shownRows path rows) next
    (⟨id,path,recs⟩,subs,last)

def walkSubs (disk : Disk) (walk : Path → Nat → Nat → List Chunk × Nat) (path : Path) : List (Name × Nat) → Nat → List Chunk × Nat
  | [],next => ([],next)
  | (name,id)::rest,next =>
    if disk.opensDir (path ++ [name]) then
      let (below,middle) := walk (path ++ [name]) id next
      let (others,last) := walkSubs disk walk path rest middle
      (below ++ others,last)
    else walkSubs disk walk path rest next

def walkDir (disk : Disk) : Nat → Path → Nat → Nat → List Chunk × Nat
  | 0,_,_,next => ([],next)
  | depth + 1,path,id,next =>
    match listDir disk path id (fun _ => none) next with
    | none => ([],next)
    | some (chunk,subs,middle) =>
      let (below,last) := walkSubs disk (walkDir disk depth) path subs middle
      (chunk::below,last)

def renameChunk (rename : Nat → Nat) (c : Chunk) : Chunk :=
  ⟨rename c.id,c.dirPath,c.recs.map fun r => {r with child := r.child.map rename}⟩

-- The threads of a walk take ids and push chunks in an order of their own: the
-- ids of one walk come out permuted among themselves, the chunks in any order.
structure Schedule where
  rename : Nat → Nat → Equiv.Perm Nat
  outside : ∀ first last i, ¬ (first ≤ i ∧ i < last) → rename first last i = i
  order : List Chunk → List Chunk
  perm : ∀ chunks, (order chunks).Perm chunks

def parWalk (disk : Disk) (schedule : Schedule) (path : Path) (id next : Nat) : List Chunk × Nat :=
  let (chunks,last) := walkDir disk disk.depth path id next
  (schedule.order (chunks.map (renameChunk (schedule.rename next last))),last)

-- Writes the position of every chunk at its id; `none` is the panic of an id
-- outside the table.
def place : List (Option Nat) → Nat → List Chunk → Option (List (Option Nat))
  | table,_,[] => some table
  | table,pos,chunk::rest => if chunk.id < table.length then place (table.set chunk.id (some pos)) (pos + 1) rest else none

structure Item where
  dir : Path
  name : Name
  attrs : Attrs
  deriving DecidableEq, Repr

def childPos (idToPos : List (Option Nat)) (r : Rec) : Option Nat := r.child.bind fun id => (idToPos[id]?).join

def dfsRec (idToPos : List (Option Nat)) (dir : Path) (walk : Nat → Option (List Item)) (r : Rec) : Option (List Item) :=
  match childPos idToPos r with
  | none => some [⟨dir,r.name,r.attrs⟩]
  | some below => (walk below).map (⟨dir,r.name,r.attrs⟩::·)

def dfsFrom (chunks : List Chunk) (idToPos : List (Option Nat)) : Nat → Nat → Option (List Item)
  | 0,_ => some []
  | depth + 1,pos => (chunks[pos]?).bind fun chunk =>
    (chunk.recs.mapM (dfsRec idToPos chunk.dirPath (dfsFrom chunks idToPos depth))).map List.flatten

-- A chunk lies one name below the chunk that points to it, so no branch is
-- longer than the longest directory path.
def dfsDepth (chunks : List Chunk) : Nat := (chunks.map fun c => c.dirPath.length).foldr max 0 + 1

def dfsRoot (chunks : List Chunk) (idToPos : List (Option Nat)) (root : Path × Option Nat) : Option (List Item) :=
  match root.2 with
  | none => some []
  | some pos => dfsFrom chunks idToPos (dfsDepth chunks) pos

def dfs (chunks : List Chunk) (idToPos : List (Option Nat)) (roots : List (Path × Option Nat)) : Option (List Item) :=
  (roots.mapM (dfsRoot chunks idToPos)).map List.flatten

def applyBudget (limits : Limits) : List Item → Nat → Nat → Nat × Bool
  | [],entries,_ => (entries,false)
  | item::rest,entries,bytes =>
    if entries ≥ limits.maxEntries ∨ bytes + cost item.name > limits.maxBytes then (entries,true)
    else applyBudget limits rest (entries + 1) (bytes + cost item.name)

def totalRecs (chunks : List Chunk) : Nat := (chunks.map fun c => c.recs.length).sum
def totalBytes (chunks : List Chunk) : Nat := (chunks.map Chunk.bytes).sum

def usizeMax : Nat := 2^64 - 1
def hardLimit (limit : Nat) : Nat := min (limit * 3) usizeMax / 2

-- The running totals reach a hard limit exactly when the totals of the whole
-- walk do; a walk that has passed it stops early.
def overLimits (limits : Limits) (chunks : List Chunk) : Bool :=
  !chunks.isEmpty && (decide (hardLimit limits.maxEntries ≤ totalRecs chunks) || decide (hardLimit limits.maxBytes ≤ totalBytes chunks))

def walkRoots (disk : Disk) (schedule : Schedule) : List Path → Nat → List (Path × Nat) × List Chunk × Nat
  | [],next => ([],[],next)
  | root::rest,next =>
    let (chunks,middle) := if disk.opensRoot root then parWalk disk schedule root next (next + 1) else ([],next + 1)
    let (ids,others,last) := walkRoots disk schedule rest middle
    ((root,next)::ids,chunks ++ others,last)

-- The chunks of a walk that went over budget are kept as if it had not stopped:
-- such an index is marked truncated and no update reads it.
def build (disk : Disk) (schedule : Schedule) (roots : List Path) (limits : Limits) : Option Index := do
  let (rootIds,walked,maxId) := walkRoots disk schedule roots 0
  let chunks := walked.insertionSort fun a b => a.id ≤ b.id
  let idToPos ← place (List.replicate maxId none) 0 chunks
  let roots := rootIds.map fun root => (root.1,(idToPos[root.2]?).join)
  let items ← dfs chunks idToPos roots
  let (visible,cut) := applyBudget limits items 0 0
  pure ⟨chunks,idToPos,roots,visible,maxId,limits,overLimits limits walked || cut⟩

def sequence (index : Index) : Option (List Item) := (dfs index.chunks index.idToPos index.roots).map (·.take index.visible)

-- An update that cannot be folded in asks for a rebuild; a panic is not caught.
inductive Failure where
  | panic
  | rebuild
  deriving DecidableEq, Repr

abbrev Replaced := Nat → Option Chunk

def getPos (v : List α) (pos : Nat) : Except Failure α := (v[pos]?).elim (.error .panic) .ok

def current (index : Index) (replaced : Replaced) (pos : Nat) : Except Failure Chunk := do
  let stored ← getPos index.chunks pos
  pure ((replaced pos).getD stored)

def findRec (c : Chunk) (name : Name) : Option Rec := c.recs.find? fun r => r.name == name

def follow (index : Index) (replaced : Replaced) : List Name → Nat → Except Failure (Option Nat)
  | [],pos => .ok (some pos)
  | name::rest,pos => do
    let chunk ← current index replaced pos
    match (findRec chunk name).bind (childPos index.idToPos) with
    | none => .ok none
    | some below => follow index replaced rest below

def locateFrom (index : Index) (replaced : Replaced) (path : Path) : List (Path × Option Nat) → Except Failure (Option (Path × Nat))
  | [] => .ok none
  | (root,rootPos)::rest =>
    if root.isPrefixOf path then
      match rootPos with
      | none => .ok none
      | some pos => do
        let found ← follow index replaced (path.drop root.length) pos
        pure (found.map fun at_ => (root,at_))
    else locateFrom index replaced path rest

def locate (index : Index) (replaced : Replaced) (path : Path) : Except Failure (Option (Path × Nat)) :=
  locateFrom index replaced path index.roots

-- One pop of the stack after the other, a chunk's children pushed at its end.
def collectSubtree (index : Index) (replaced : Replaced) : Nat → List Nat → List Nat → Except Failure (List Nat)
  | 0,_,out => .ok out
  | _ + 1,[],out => .ok out
  | fuel + 1,id::stack,out =>
    match (index.idToPos[id]?).join with
    | none => collectSubtree index replaced fuel stack out
    | some pos =>
      if out.contains id then collectSubtree index replaced fuel stack out else do
      let chunk ← current index replaced pos
      collectSubtree index replaced fuel ((chunk.recs.filterMap Rec.child).reverse ++ stack) (id::out)

-- Every chunk is expanded once at most, so this many pops empty the stack.
def collectFuel (index : Index) (replaced : Replaced) : Nat :=
  (index.chunks.zipIdx.map fun c => ((replaced c.2).getD c.1).recs.length).sum + 2

structure Update where
  replaced : Replaced
  removed : List Nat
  added : List Chunk
  nextId : Nat
  fresh : List Path

def setStat (name : Name) (stat : Stat) (c : Chunk) : Chunk :=
  {c with recs := c.recs.map fun r => if r.name = name then {r with attrs := {r.attrs with stat := stat}} else r}

-- The directory's own size and times stand in its parent's listing.
def patchParent (disk : Disk) (index : Index) (replaced : Replaced) (path : Path) : Except Failure Replaced :=
  match disk.stat path,path.getLast? with
  | some stat,some name => do
    match ← locate index replaced path.dropLast with
    | none => .ok replaced
    | some (_,pos) =>
      let parent ← current index replaced pos
      match findRec parent name with
      | none => .ok replaced
      | some _ => .ok (Function.update replaced pos (some (setStat name stat parent)))
  | _,_ => .ok replaced

def walkNew (disk : Disk) (schedule : Schedule) (limits : Limits) (path : Path) : List (Name × Nat) → Update → Except Failure Update
  | [],u => .ok u
  | (name,id)::rest,u =>
    if disk.opensDir (path ++ [name]) then
      let (chunks,last) := parWalk disk schedule (path ++ [name]) id u.nextId
      if overLimits limits chunks then .error .rebuild else
      walkNew disk schedule limits path rest
        {u with nextId := last,added := u.added ++ chunks,fresh := u.fresh ++ [path ++ [name]]}
    else walkNew disk schedule limits path rest u

def goneChildren (old chunk : Chunk) : List Nat :=
  (old.recs.filterMap Rec.child).filter fun id => !(chunk.recs.filterMap Rec.child).contains id

def collectAll (index : Index) (replaced : Replaced) (gone removed : List Nat) : Except Failure (List Nat) :=
  gone.foldlM (fun out id => collectSubtree index replaced (collectFuel index replaced) [id] out) removed

def replaceChunk (disk : Disk) (index : Index) (replaced : Replaced) (path root : Path) (pos : Nat) (chunk : Chunk) : Except Failure Replaced :=
  if path = root then .ok (Function.update replaced pos (some chunk))
  else patchParent disk index (Function.update replaced pos (some chunk)) path

-- A new listing in the place of an old one: subdirectories that are gone go
-- with all that is below them, new ones are walked.
def exchange (disk : Disk) (schedule : Schedule) (index : Index) (u : Update) (path root : Path) (pos : Nat) (old chunk : Chunk)
    (subs : List (Name × Nat)) (next : Nat) : Except Failure Update := do
  let removed ← collectAll index u.replaced (goneChildren old chunk) u.removed
  let replaced ← replaceChunk disk index u.replaced path root pos chunk
  walkNew disk schedule index.limits path subs ⟨replaced,removed,u.added,next,u.fresh⟩

def relistAt (disk : Disk) (schedule : Schedule) (index : Index) (u : Update) (path root : Path) (pos : Nat) : Except Failure Update := do
  let old ← current index u.replaced pos
  match listDir disk path old.id (fun name => (findRec old name).bind Rec.child) u.nextId with
  | none => do
    let removed ← collectSubtree index u.replaced (collectFuel index u.replaced) [old.id] u.removed
    pure {u with removed := removed}
  | some (chunk,subs,next) => exchange disk schedule index u path root pos old chunk subs next

def relist (disk : Disk) (schedule : Schedule) (index : Index) (u : Update) (path : Path) : Except Failure (Update × List Path) :=
  if u.fresh.any (fun f => f.isPrefixOf path) then .ok (u,[]) else do
  match ← locate index u.replaced path with
  | none => .ok (u,[])
  | some (root,pos) =>
    if !disk.opensRoot root then .error .rebuild else
    if !disk.opensDir path then (if path = root then .error .rebuild else .ok (u,[path.dropLast])) else do
    let next ← relistAt disk schedule index u path root pos
    pure (next,[])

def workLoop (disk : Disk) (schedule : Schedule) (index : Index) : Nat → List Path → Update → Except Failure Update
  | 0,_,u => .ok u
  | _ + 1,[],u => .ok u
  | fuel + 1,path::rest,u => do
    let (next,pushed) ← relist disk schedule index u path
    workLoop disk schedule index fuel (rest ++ pushed) next

def pathText (path : Path) : String := if path = [] then "/" else String.join (path.map ("/" ++ ·))

def workOrder (dirty : List Path) : List Path :=
  (dirty.insertionSort fun a b => a.length < b.length ∨ (a.length = b.length ∧ pathText a ≤ pathText b)).dedup

-- Each path of the list pushes at most the chain of its parents.
def workFuel (work : List Path) : Nat := (work.map fun path => path.length + 1).sum + 1

def kept (index : Index) (u : Update) : List Chunk :=
  index.chunks.zipIdx.filterMap fun c => if u.removed.contains c.1.id then none else some ((u.replaced c.2).getD c.1)

def newRoot (chunks : List Chunk) (idToPos : List (Option Nat)) (root : Path × Option Nat) : Except Failure (Path × Option Nat) :=
  match root.2 with
  | none => .error .panic
  | some pos => do
    let chunk ← getPos chunks pos
    let at_ ← getPos idToPos chunk.id
    pure (root.1,at_)

def finish (index : Index) (u : Update) : Except Failure Index := do
  let chunks := kept index u ++ u.added
  let idToPos ← (place (List.replicate u.nextId none) 0 chunks).elim (.error .panic) .ok
  let roots ← index.roots.mapM (newRoot index.chunks idToPos)
  if totalRecs chunks > index.limits.maxEntries ∨ totalBytes chunks > index.limits.maxBytes then .error .rebuild else
  let _ ← (dfs chunks idToPos roots).elim (.error .panic) .ok
  pure ⟨chunks,idToPos,roots,totalRecs chunks,u.nextId,index.limits,false⟩

def apply (disk : Disk) (schedule : Schedule) (index : Index) (dirty : List Path) : Except Failure Index :=
  if index.truncated then .error .rebuild else do
  let work := workOrder dirty
  let u ← workLoop disk schedule index (workFuel work) work ⟨fun _ => none,[],[],index.nextId,[]⟩
  finish index u

end RemoteFileExplorer.DirectoryIndex
