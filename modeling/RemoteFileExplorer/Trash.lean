import RemoteFileExplorer.SystemCalls
import RemoteFileExplorer.TrashInfo

namespace RemoteFileExplorer.Trash
open FileTree Jail TreeEdits SystemCalls PercentCodes TrashInfo

abbrev Files := Disk Bytes

def nameBytes (name : Name) : Bytes := ascii name

def nameOf (bytes : Bytes) : Name := String.ofList (bytes.map fun b => Char.ofNat b.toNat)

def text (path : Path) : Bytes := if path = [] then [slash] else [slash].intercalate ([]::path.map nameBytes)

def request (path : Bytes) : Written := ⟨isAbs path,(path.splitOn slash).map nameOf⟩

structure Host where
  protectedDirs : List Path
  links : Nat
  trashDir : CleanPath

structure Caller where
  roots : List CleanPath
  denyAll : Bool
  readOnly : Bool

def Caller.ops (caller : Caller) (host : Host) : Ops := ⟨caller.roots,caller.denyAll,host.protectedDirs,host.links⟩

def trashInfoExt : Name := ".trashinfo"
def maxAutoRename : Nat := 10000

def trashFilesDir (host : Host) : Path := host.trashDir.path ++ ["files"]
def trashInfoDir (host : Host) : Path := host.trashDir.path ++ ["info"]

inductive ErrorCode where
  | READ_ONLY
  | FORBIDDEN
  | PATH_NOT_FOUND
  | TRASH_FAILED
  | BAD_REQUEST
  | RESTORE_FAILED
  deriving DecidableEq, Repr

structure BatchResult where
  path : Bytes
  error : Option ErrorCode
  deriving DecidableEq, Repr

-- `root` is the jail directory the path is opened below.
structure SecurePath where
  full : Path
  root : Option Path
  deriving DecidableEq, Repr

def allowedRootFor (caller : Caller) (full : Path) : Option Path := (caller.roots.find? fun root => isUnder full root.path).map (·.path)

def openJailRoot (disk : Files) (host : Host) (root : Path) : Bool :=
  match lstat disk host.links root with
  | .ok (.dir _) => true
  | _ => false

def access (disk : Files) (host : Host) (caller : Caller) (path : Bytes) : Except ResolveError SecurePath :=
  match resolve disk (caller.ops host) (request path) with
  | .error e => .error e
  | .ok full =>
    match allowedRootFor caller full with
    | none => .ok ⟨full,none⟩
    | some root => if openJailRoot disk host root then .ok ⟨full,some root⟩ else .error .forbidden

-- How the file system takes a move. Across devices the tree is copied and the
-- source removed: the copy may fail and is then taken back, and the removal may
-- stop after some paths below the source are gone. `merged` is what a copy onto
-- something that exists leaves there.
inductive Fate where
  | renamed
  | refused
  | copied (merged : Node Bytes)
  | copyFailed
  | copyKept (gone : List Path) (merged : Node Bytes)

def Fate.across : Fate → Bool
  | .renamed => false
  | .refused => false
  | _ => true

-- Rename replaces a file by a file; below a jail it replaces nothing. That the
-- devices differ is told before, but for a directory that is found without a jail.
-- `above` says that the target is a directory above the source.
def blocked (jailed : Bool) (fate : Fate) (above : Bool) (node : Node Bytes) : Option (Node Bytes) → Bool
  | none => false
  | some (.dir _) => above || !(jailed && fate.across)
  | some _ => !fate.across && (jailed || node.isDir)

def removed (src : Path) (gone : List Path) (disk : Files) : Files := gone.foldl (fun disk rest => edit none (src ++ rest) disk) disk

def settle (disk : Files) (src dst : Path) (node : Node Bytes) : Fate → Files × Bool
  | .renamed => (edit (some node) dst (edit none src disk),true)
  | .refused => (disk,false)
  | .copied merged => (edit (some ((nodeAt disk.root dst).elim node fun _ => merged)) dst (edit none src disk),true)
  | .copyFailed => (edit none dst disk,false)
  | .copyKept gone merged =>
    let left := removed src gone (edit (some ((nodeAt disk.root dst).elim node fun _ => merged)) dst disk)
    (left,(nodeAt left.root src).isNone)

def carry (disk : Files) (links : Nat) (jailed : Bool) (src dst : Path) (fate : Fate) : Files × Bool :=
  match entryOf disk links src,entryOf disk links dst with
  | some source,some target =>
    match nodeAt disk.root source with
    | none => (disk,false)
    | some node =>
      if blocked jailed fate (target.isPrefixOf source) node (nodeAt disk.root target) then (disk,false) else
      if source = target then (disk,true) else
      if source.isPrefixOf target then (disk,false) else settle disk source target node fate
  | _,_ => (disk,false)

-- The jail root itself does not move.
def moveAcrossRootsSecure (disk : Files) (links : Nat) (src dst : SecurePath) (fate : Fate) : Files × Bool :=
  if src.root = some src.full ∨ dst.root = some dst.full then (disk,false) else
  carry disk links (src.root.isSome || dst.root.isSome) src.full dst.full fate

def baseName (path : Path) : Name := path.getLast?.getD "/"

def ext (base : List Char) : List Char :=
  let tail := base.reverse.takeWhile (· != '.')
  if tail.length = base.length then [] else '.'::tail.reverse

def stem (base : List Char) : List Char := base.take (base.length - (ext base).length)

def numbered (base : Name) (i : Nat) : Name :=
  String.ofList (stem base.toList ++ '_'::Nat.toDigits 10 i ++ ext base.toList)

def taken (disk : Files) (host : Host) (name : Name) : Bool :=
  (lstat disk host.links (trashFilesDir host ++ [name])).isOk ||
    (lstat disk host.links (trashInfoDir host ++ [name ++ trashInfoExt])).isOk

-- The last candidate is handed out unchecked.
def uniqueFrom (taken : Name → Bool) (base : Name) : Nat → Nat → Name → Name
  | 0,_,candidate => candidate
  | left + 1,i,candidate => if taken candidate then uniqueFrom taken base left (i + 1) (numbered base i) else candidate

def uniqueTrashName (disk : Files) (host : Host) (base : Name) : Name := uniqueFrom (taken disk host) base (maxAutoRename - 1) 1 base

-- A write that fails may leave the first bytes of the file behind.
inductive InfoWrite where
  | done
  | failed (written : Option Nat)

def writeTrashInfo (disk : Files) (host : Host) (own : Name) (path : Path) (now : Stamp) (outcome : InfoWrite) : Files × Bool :=
  let file := trashInfoDir host ++ [own ++ trashInfoExt]
  match outcome with
  | .done => (writeFile disk host.links file (content (text path) now)).elim (disk,false) (·,true)
  | .failed none => (disk,false)
  | .failed (some n) => ((writeFile disk host.links file ((content (text path) now).take n)).getD disk,false)

-- One path of a call, with the time and what the file system does about it.
structure TrashRequest where
  path : Bytes
  now : Stamp
  move : Fate
  write : InfoWrite
  rollback : Fate

def trashOne (disk : Files) (host : Host) (resolved : SecurePath) (r : TrashRequest) : Files × Option ErrorCode :=
  let own := uniqueTrashName disk host (baseName resolved.full)
  let dest : SecurePath := ⟨trashFilesDir host ++ [own],none⟩
  match moveAcrossRootsSecure disk host.links resolved dest r.move with
  | (moved,false) => (moved,some .TRASH_FAILED)
  | (moved,true) =>
    match writeTrashInfo moved host own resolved.full r.now r.write with
    | (written,true) => (written,none)
    | (written,false) => ((moveAcrossRootsSecure written host.links dest resolved r.rollback).1,some .TRASH_FAILED)

def trashPath (disk : Files) (host : Host) (caller : Caller) (r : TrashRequest) : Files × Option ErrorCode :=
  match access disk host caller r.path with
  | .error _ => (disk,some .FORBIDDEN)
  | .ok resolved =>
    match lstat disk host.links resolved.full with
    | .error .notExist => (disk,some .PATH_NOT_FOUND)
    | .error _ => (disk,some .TRASH_FAILED)
    | .ok _ => trashOne disk host resolved r

def trashEach (host : Host) (caller : Caller) : List TrashRequest → Files → Files × List BatchResult
  | [],disk => (disk,[])
  | r::rest,disk =>
    let (after,error) := trashPath disk host caller r
    let (last,results) := trashEach host caller rest after
    (last,⟨r.path,error⟩::results)

def moveToTrash (disk : Files) (host : Host) (caller : Caller) (requests : List TrashRequest) : Files × List BatchResult :=
  if caller.readOnly then (disk,requests.map fun r => ⟨r.path,some .READ_ONLY⟩) else
  match mkdirAll disk host.links (trashFilesDir host) with
  | none => (disk,requests.map fun r => ⟨r.path,some .TRASH_FAILED⟩)
  | some made =>
    match mkdirAll made host.links (trashInfoDir host) with
    | none => (made,requests.map fun r => ⟨r.path,some .TRASH_FAILED⟩)
    | some ready => trashEach host caller requests ready

structure TrashEntry where
  own : Name
  originalPath : Bytes
  deletedAt : Bytes
  isDir : Bool
  deriving DecidableEq, Repr

def ownOf (file : Name) : Option Name :=
  if trashInfoExt.toList.isSuffixOf file.toList then
    some (String.ofList (file.toList.take (file.toList.length - trashInfoExt.toList.length)))
  else none

def payloadIsDir (disk : Files) (host : Host) (own : Name) : Bool :=
  match lstat disk host.links (trashFilesDir host ++ [own]) with
  | .ok node => node.isDir
  | .error _ => false

def listed (disk : Files) (host : Host) (file : Name × Node Bytes) : Option TrashEntry :=
  if file.2.isDir then none else
  (ownOf file.1).bind fun own =>
    ((readFile disk host.links (trashInfoDir host ++ [file.1])).bind readTrashInfo).map fun read =>
      ⟨own,read.originalPath,read.deletedAt,payloadIsDir disk host own⟩

-- In the order of the directory. `none` is a failed read of it.
def listAll (disk : Files) (host : Host) : Option (List TrashEntry) :=
  match walk disk.root host.links [] (trashInfoDir host) with
  | .missing _ _ => some []
  | .found place =>
    match nodeAt disk.root place with
    | some (.dir entries) => some (entries.filterMap (listed disk host))
    | _ => none
  | _ => none

def listTrash (disk : Files) (host : Host) (caller : Caller) : Option (List TrashEntry) :=
  if caller.denyAll then some [] else
  (listAll disk host).map fun all =>
    if caller.roots.isEmpty then all else all.filter fun e => (resolve disk (caller.ops host) (request e.originalPath)).isOk

-- One component, no separator of either kind.
def validTrashID (own : Name) : Bool :=
  !(own == "" || own == "." || own == "..") && !own.toList.contains '/' && !own.toList.contains '\\'

def keepBoth (base : Name) (i : Nat) : Name :=
  String.ofList (stem base.toList ++ " (".toList ++ Nat.toDigits 10 i ++ ')'::ext base.toList)

def autoRenameFrom (disk : Files) (links : Nat) (dst : Path) : Nat → Nat → Path
  | left,i =>
    let candidate := dst.dropLast ++ [keepBoth (baseName dst) i]
    match left with
    | 0 => candidate
    | left + 1 => if (lstat disk links candidate).isOk then autoRenameFrom disk links dst left (i + 1) else candidate

-- Where a restored item goes; `none` where none of its names will do.
def destination (disk : Files) (links : Nat) (dest : SecurePath) : Option SecurePath :=
  match lstat disk links dest.full with
  | .error .notExist => some dest
  | .error _ => none
  | .ok _ =>
    let full := autoRenameFrom disk links dest.full (maxAutoRename - 1) 1
    if dest.root.all (isUnder full) then some ⟨full,dest.root⟩ else none

def restoreOne (disk : Files) (host : Host) (caller : Caller) (own : Name) (fate : Fate) : Files × BatchResult :=
  let failed (code : ErrorCode) : BatchResult := ⟨nameBytes own,some code⟩
  let infoPath := trashInfoDir host ++ [own ++ trashInfoExt]
  let src : SecurePath := ⟨trashFilesDir host ++ [own],none⟩
  if !validTrashID own then (disk,failed .BAD_REQUEST) else
  match (readFile disk host.links infoPath).bind readTrashInfo with
  | none => (disk,failed .PATH_NOT_FOUND)
  | some read =>
    match access disk host caller read.originalPath with
    | .error _ => (disk,failed .FORBIDDEN)
    | .ok dest =>
      if !(lstat disk host.links src.full).isOk then (disk,failed .PATH_NOT_FOUND) else
      if dest.root = some dest.full then (disk,failed .RESTORE_FAILED) else
      match destination disk host.links dest with
      | none => (disk,failed .RESTORE_FAILED)
      | some dest =>
        match mkdirAll disk host.links dest.full.dropLast with
        | none => (disk,failed .RESTORE_FAILED)
        | some made =>
          match moveAcrossRootsSecure made host.links src dest fate with
          | (moved,false) => (moved,failed .RESTORE_FAILED)
          | (moved,true) => (remove moved host.links infoPath,⟨text dest.full,none⟩)

def restoreEach (host : Host) (caller : Caller) : List (Name × Fate) → Files → Files × List BatchResult
  | [],disk => (disk,[])
  | (own,fate)::rest,disk =>
    let (after,result) := restoreOne disk host caller own fate
    let (last,results) := restoreEach host caller rest after
    (last,result::results)

def restoreFromTrash (disk : Files) (host : Host) (caller : Caller) (items : List (Name × Fate)) : Files × List BatchResult :=
  if caller.readOnly then (disk,items.map fun item => ⟨nameBytes item.1,some .READ_ONLY⟩) else restoreEach host caller items disk

end RemoteFileExplorer.Trash
