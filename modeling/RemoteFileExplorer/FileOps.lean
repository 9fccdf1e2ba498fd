import RemoteFileExplorer.Trash

namespace RemoteFileExplorer.FileOps
open FileTree Jail TreeEdits SystemCalls PercentCodes Trash

inductive OpError where
  | readOnly
  | forbidden
  | conflict
  | notFound
  | stale
  | unsupported
  | failed
  deriving DecidableEq, Repr

inductive BatchCode where
  | READ_ONLY
  | FORBIDDEN
  | CONFLICT
  | COPY_FAILED
  | MOVE_FAILED
  | DELETE_FAILED
  deriving DecidableEq, Repr

def each {α β : Type} (one : Files → α → Files × β) : List α → Files → Files × List β
  | [],disk => (disk,[])
  | item::rest,disk =>
    let (after,result) := one disk item
    let (last,results) := each one rest after
    (last,result::results)

def SecurePath.child (dir : SecurePath) (name : Name) : SecurePath := ⟨dir.full ++ [name],dir.root⟩

-- Both sides below one root: no copy stands in for the rename.
def renameTo (disk : Files) (links : Nat) (src dst : SecurePath) (fate : Fate) : Files × Bool :=
  if src.root ≠ dst.root ∨ src.root = some src.full ∨ dst.root = some dst.full then (disk,false) else
  match fate with
  | .renamed => carry disk links false src.full dst.full .renamed
  | _ => (disk,false)

def shift (disk : Files) (links : Nat) (src dst : SecurePath) (fate : Fate) : Files × Bool :=
  if src.root = dst.root then renameTo disk links src dst fate else moveAcrossRootsSecure disk links src dst fate

-- `gone` are the paths below it that are gone when the removal fails.
def removeAll (disk : Files) (links : Nat) (path : SecurePath) (gone : Option (List Path)) : Files × Bool :=
  if path.root = some path.full then (disk,false) else
  match entryOf disk links path.full,gone with
  | none,_ => (disk,!path.full.isEmpty)
  | some place,none => (edit none place disk,true)
  | some place,some gone => (removed place gone disk,false)

def autoRename (disk : Files) (links : Nat) (dst : SecurePath) : SecurePath :=
  ⟨autoRenameFrom disk links dst.full (maxAutoRename - 1) 1,dst.root⟩

def createFolder (disk : Files) (host : Host) (caller : Caller) (path : Bytes) : Files × Option OpError :=
  if caller.readOnly then (disk,some .readOnly) else
  match access disk host caller path with
  | .error _ => (disk,some .forbidden)
  | .ok resolved =>
    if (stat disk host.links resolved.full).isSome then (disk,some .conflict) else
    (mkdirAll disk host.links resolved.full).elim (disk,some .failed) (·,none)

-- A whole file is renamed over what stands there, which no directory is.
def replaceFile (disk : Files) (links : Nat) (path : Path) (data : Bytes) : Files × Option OpError :=
  match entryOf disk links path with
  | none => (disk,some .failed)
  | some place =>
    match nodeAt disk.root place with
    | some (.dir _) => (disk,some .failed)
    | _ => (edit (some (.file data)) place disk,none)

-- `base` says whether the time the caller knows is the file's. `done` is false
-- when the temporary file could not be written.
def writeContent (disk : Files) (host : Host) (caller : Caller) (path : Bytes) (data : Bytes) (base : Option Bool) (done : Bool) :
    Files × Option OpError :=
  if caller.readOnly then (disk,some .readOnly) else
  match access disk host caller path with
  | .error _ => (disk,some .forbidden)
  | .ok resolved =>
    match walk disk.root host.links [] resolved.full,base with
    | .notDirectory,_ => (disk,some .failed)
    | .tooManyLinks,_ => (disk,some .failed)
    | .missing _ _,some _ => (disk,some .notFound)
    | .found _,some false => (disk,some .stale)
    | _,_ =>
      match mkdirAll disk host.links resolved.full.dropLast with
      | none => (disk,some .failed)
      | some made => if done then replaceFile made host.links resolved.full data else (made,some .failed)

def accessPair (disk : Files) (host : Host) (caller : Caller) (src dst : Bytes) : Except ResolveError (SecurePath × SecurePath) :=
  match access disk host caller src with
  | .error e => .error e
  | .ok source => (access disk host caller dst).map (source,·)

def rename (disk : Files) (host : Host) (caller : Caller) (src dst : Bytes) (fate : Fate) : Files × Option OpError :=
  if caller.readOnly then (disk,some .readOnly) else
  match accessPair disk host caller src dst with
  | .error _ => (disk,some .forbidden)
  | .ok (src,dst) =>
    let onward : Files × Option OpError :=
      match mkdirAll disk host.links dst.full.dropLast with
      | none => (disk,some .failed)
      | some made =>
        let (moved,ok) := shift made host.links src dst fate
        (moved,if ok then none else some .failed)
    match lstat disk host.links dst.full with
    | .ok _ =>
      if !(lstat disk host.links src.full).isOk then (disk,some .notFound) else
      if entryOf disk host.links src.full ≠ entryOf disk host.links dst.full then (disk,some .conflict) else onward
    | .error .notExist => onward
    | .error _ => (disk,some .failed)

-- A copy that fails leaves a part of the tree, the last file cut short.
inductive Copying where
  | complete (merged : Node Bytes)
  | failed (merged : Node Bytes) (gone : List Path) (last : Path) (n : Nat)

def truncate (n : Nat) : Node Bytes → Node Bytes
  | .file data => .file (data.take n)
  | node => node

def copySecureRecursive (disk : Files) (links : Nat) (src dst : SecurePath) (outcome : Copying) : Files × Bool :=
  match lstat disk links src.full with
  | .error _ => (disk,false)
  | .ok node =>
    match mkdirAll disk links dst.full.dropLast with
    | none => (disk,false)
    | some made =>
      match entryOf made links dst.full with
      | none => (made,false)
      | some place =>
        let put (merged : Node Bytes) : Files := edit (some ((nodeAt made.root place).elim node fun _ => merged)) place made
        match outcome with
        | .complete merged => (put merged,true)
        | .failed merged gone last n =>
          let left := removed place gone (put merged)
          (edit ((nodeAt left.root (place ++ last)).map (truncate n)) (place ++ last) left,false)

-- The replaced destination is kept under a hidden name with random digits.
def asideName (hex : Name) : Name := ".rfe-old-" ++ hex

structure Transfer where
  src : Bytes
  hex : Name
  setAside : Fate
  copying : Copying
  move : Fate
  clearing : Option (List Path)
  takeBack : Fate
  discarding : Option (List Path)

def restoreAside (disk : Files) (links : Nat) (dst : SecurePath) (backup : Option SecurePath) (t : Transfer) : Files :=
  match backup with
  | none => disk
  | some aside => (renameTo (removeAll disk links dst t.clearing).1 links aside dst t.takeBack).1

def discardAside (disk : Files) (links : Nat) (backup : Option SecurePath) (t : Transfer) : Files :=
  match backup with
  | none => disk
  | some aside => (removeAll disk links aside t.discarding).1

def makeWay (disk : Files) (links : Nat) (src dstDir dst : SecurePath) (duplicate overwrite : Bool) (failure : BatchCode) (t : Transfer) :
    Files × Except BatchCode (SecurePath × Option SecurePath) :=
  if !(lstat disk links dst.full).isOk then (disk,.ok (dst,none)) else
  if duplicate then (disk,.ok (autoRename disk links dst,none)) else
  if !overwrite then (disk,.error .CONFLICT) else
  if isUnder src.full dst.full then (disk,.error .CONFLICT) else
  match renameTo disk links dst (SecurePath.child dstDir (asideName t.hex)) t.setAside with
  | (left,false) => (left,.error failure)
  | (moved,true) => (moved,.ok (dst,some (SecurePath.child dstDir (asideName t.hex))))

def copyOne (host : Host) (caller : Caller) (destDir : Bytes) (duplicate overwrite : Bool) (disk : Files) (t : Transfer) :
    Files × Option BatchCode :=
  match accessPair disk host caller t.src destDir with
  | .error _ => (disk,some .FORBIDDEN)
  | .ok (src,dstDir) =>
    let dst := SecurePath.child dstDir (baseName src.full)
    let isDir := match lstat disk host.links src.full with
      | .ok node => node.isDir
      | .error _ => false
    if isDir && isUnder dstDir.full src.full then (disk,some .CONFLICT) else
    if src.full = dst.full ∧ duplicate = false then (disk,none) else
    match makeWay disk host.links src dstDir dst duplicate overwrite .COPY_FAILED t with
    | (left,.error code) => (left,some code)
    | (ready,.ok (dst,backup)) =>
      match copySecureRecursive ready host.links src dst t.copying with
      | (copied,true) => (discardAside copied host.links backup t,none)
      | (copied,false) => (restoreAside copied host.links dst backup t,some .COPY_FAILED)

def Fate.isKept : Fate → Bool
  | .copyKept _ _ => true
  | _ => false

def moveOne (host : Host) (caller : Caller) (destDir : Bytes) (duplicate overwrite : Bool) (disk : Files) (t : Transfer) :
    Files × Option BatchCode :=
  match accessPair disk host caller t.src destDir with
  | .error _ => (disk,some .FORBIDDEN)
  | .ok (src,dstDir) =>
    let dst := SecurePath.child dstDir (baseName src.full)
    if src.full = dst.full then (disk,none) else
    if isUnder dst.full src.full then (disk,some .MOVE_FAILED) else
    match makeWay disk host.links src dstDir dst duplicate overwrite .MOVE_FAILED t with
    | (left,.error code) => (left,some code)
    | (ready,.ok (dst,backup)) =>
      match mkdirAll ready host.links dstDir.full with
      | none => (restoreAside ready host.links dst backup t,some .MOVE_FAILED)
      | some made =>
        match shift made host.links src dst t.move with
        | (moved,true) => (discardAside moved host.links backup t,none)
        | (left,false) =>
          if Fate.isKept t.move then (discardAside left host.links backup t,some .MOVE_FAILED)
          else (restoreAside left host.links dst backup t,some .MOVE_FAILED)

def copy (disk : Files) (host : Host) (caller : Caller) (destDir : Bytes) (duplicate overwrite : Bool) (transfers : List Transfer) :
    Files × List (Option BatchCode) :=
  if caller.readOnly then (disk,transfers.map fun _ => some .READ_ONLY) else
  each (copyOne host caller destDir duplicate overwrite) transfers disk

def move (disk : Files) (host : Host) (caller : Caller) (destDir : Bytes) (duplicate overwrite : Bool) (transfers : List Transfer) :
    Files × List (Option BatchCode) :=
  if caller.readOnly then (disk,transfers.map fun _ => some .READ_ONLY) else
  each (moveOne host caller destDir duplicate overwrite) transfers disk

structure Removal where
  path : Bytes
  gone : Option (List Path)

def deleteOne (host : Host) (caller : Caller) (disk : Files) (removal : Removal) : Files × Option BatchCode :=
  match access disk host caller removal.path with
  | .error _ => (disk,some .FORBIDDEN)
  | .ok resolved =>
    let (left,ok) := removeAll disk host.links resolved removal.gone
    (left,if ok then none else some .DELETE_FAILED)

def delete (disk : Files) (host : Host) (caller : Caller) (removals : List Removal) : Files × List (Option BatchCode) :=
  if caller.readOnly then (disk,removals.map fun _ => some .READ_ONLY) else each (deleteOne host caller) removals disk

inductive EntryBody where
  | dir
  | file (data : Bytes)
  | other

-- `name` is split at slashes.
structure ArchiveEntry where
  name : List Name
  body : EntryBody

-- The archive packages: a zip of named trees, and the entries of an archive as
-- they are read, with whether it could be read to its end.
structure Archives where
  pack : List (Name × Node Bytes) → Bytes
  unzip : Bytes → List ArchiveEntry × Bool
  untar : Bytes → List ArchiveEntry × Bool

def accessAll (disk : Files) (host : Host) (caller : Caller) : List Bytes → Option (List SecurePath)
  | [] => some []
  | path::rest =>
    match access disk host caller path with
    | .error _ => none
    | .ok resolved => (accessAll disk host caller rest).map (resolved::·)

-- Links are left out of the archive by the packer.
def gather (disk : Files) (links : Nat) : List SecurePath → Option (List (Name × Node Bytes))
  | [] => some []
  | src::rest =>
    match lstat disk links src.full with
    | .error _ => none
    | .ok node => (gather disk links rest).map ((baseName src.full,node)::·)

def compress (archives : Archives) (disk : Files) (host : Host) (caller : Caller) (sources : List Bytes) (dest : Bytes) (done : Bool) :
    Files × Option OpError :=
  if caller.readOnly then (disk,some .readOnly) else
  if sources = [] then (disk,some .notFound) else
  match access disk host caller dest,accessAll disk host caller sources with
  | .ok dest,some sources =>
    let dest := if (stat disk host.links dest.full).isSome then autoRename disk host.links dest else dest
    match mkdirAll disk host.links dest.full.dropLast with
    | none => (disk,some .failed)
    | some made =>
      match gather made host.links sources with
      | none => (made,some .failed)
      | some trees => if done then replaceFile made host.links dest.full (archives.pack trees) else (made,some .failed)
  | _,_ => (disk,some .forbidden)

def maxArchiveEntries : Nat := 100000
def maxArchiveTotalBytes : Nat := 2 * 2^30

-- No component below the destination that exists is a link.
def noSymlinkParent (disk : Files) (links : Nat) : Path → List Name → Bool
  | _,[] => true
  | place,part::rest =>
    match lstat disk links (place ++ [part]) with
    | .ok (.link _) => false
    | .ok _ => noSymlinkParent disk links (place ++ [part]) rest
    | .error .notExist => true
    | .error _ => false

def safeJoin (disk : Files) (links : Nat) (dest : Path) (name : List Name) : Option Path :=
  let target := clean (dest ++ name)
  if isUnder target dest && noSymlinkParent disk links dest (target.drop dest.length) then some target else none

def uniqueArchivePath (disk : Files) (links : Nat) (target : SecurePath) : Option SecurePath :=
  match lstat disk links target.full with
  | .ok (.dir _) => none
  | .ok _ => some (autoRename disk links target)
  | .error .notExist => some target
  | .error _ => none

def createNew (disk : Files) (links : Nat) (path : Path) (data : Bytes) : Option Files :=
  (entryOf disk links path).bind fun place =>
    match nodeAt disk.root place with
    | none => some (edit (some (.file data)) place disk)
    | some _ => none

def extractEntry (host : Host) (dest : SecurePath) (disk : Files) (remaining : Nat) (entry : ArchiveEntry) : Files × Option Nat :=
  match safeJoin disk host.links dest.full entry.name with
  | none => (disk,none)
  | some target =>
    match entry.body with
    | .other => (disk,some remaining)
    | .dir => (mkdirAll disk host.links target).elim (disk,none) (·,some remaining)
    | .file data =>
      match mkdirAll disk host.links target.dropLast with
      | none => (disk,none)
      | some made =>
        match uniqueArchivePath made host.links ⟨target,dest.root⟩ with
        | none => (made,none)
        | some free =>
          match createNew made host.links free.full data with
          | none => (made,none)
          | some written => if data.length ≤ remaining then (written,some (remaining - data.length)) else (made,none)

-- `left` counts the entries that are still allowed.
def extractEntries (host : Host) (dest : SecurePath) : Nat → Nat → List ArchiveEntry → Files → Files × Bool
  | _,_,[],disk => (disk,true)
  | 0,_,_::_,disk => (disk,false)
  | left + 1,remaining,entry::rest,disk =>
    match extractEntry host dest disk remaining entry with
    | (after,none) => (after,false)
    | (after,some remaining) => extractEntries host dest left remaining rest after

def endsIn (name ending : String) : Bool := ending.toList.isSuffixOf (name.toList.map Char.toLower)

def readerFor (archives : Archives) (name : Name) : Option (Bytes → List ArchiveEntry × Bool) :=
  if endsIn name ".zip" then some archives.unzip else
  if endsIn name ".tar.gz" || endsIn name ".tgz" then some archives.untar else none

-- `reads` bounds how many entries are read before the archive fails to be read.
def extract (archives : Archives) (disk : Files) (host : Host) (caller : Caller) (archive dest : Bytes) (reads : Option Nat) :
    Files × Option OpError :=
  if caller.readOnly then (disk,some .readOnly) else
  match access disk host caller archive with
  | .error _ => (disk,some .forbidden)
  | .ok source =>
    if !(stat disk host.links source.full).isSome then (disk,some .notFound) else
    match access disk host caller dest with
    | .error _ => (disk,some .forbidden)
    | .ok dest =>
      match mkdirAll disk host.links dest.full with
      | none => (disk,some .failed)
      | some made =>
        match readerFor archives (baseName source.full),readFile made host.links source.full with
        | none,_ => (made,some .unsupported)
        | some _,none => (made,some .failed)
        | some reader,some data =>
          let (entries,whole) := reader data
          let read := reads.elim entries entries.take
          let (after,ok) := extractEntries host dest maxArchiveEntries maxArchiveTotalBytes read made
          (after,if ok && whole && reads.isNone then none else some .failed)

inductive Request where
  | createFolder (path : Bytes)
  | writeContent (path data : Bytes) (base : Option Bool) (done : Bool)
  | rename (src dst : Bytes) (fate : Fate)
  | copy (destDir : Bytes) (duplicate overwrite : Bool) (transfers : List Transfer)
  | move (destDir : Bytes) (duplicate overwrite : Bool) (transfers : List Transfer)
  | delete (removals : List Removal)
  | compress (sources : List Bytes) (dest : Bytes) (done : Bool)
  | extract (archive dest : Bytes) (reads : Option Nat)
  | moveToTrash (requests : List TrashRequest)
  | restoreFromTrash (items : List (Name × Fate))

def perform (archives : Archives) (host : Host) (disk : Files) (caller : Caller) : Request → Files
  | .createFolder path => (createFolder disk host caller path).1
  | .writeContent path data base done => (writeContent disk host caller path data base done).1
  | .rename src dst fate => (rename disk host caller src dst fate).1
  | .copy destDir duplicate overwrite transfers => (copy disk host caller destDir duplicate overwrite transfers).1
  | .move destDir duplicate overwrite transfers => (move disk host caller destDir duplicate overwrite transfers).1
  | .delete removals => (delete disk host caller removals).1
  | .compress sources dest done => (compress archives disk host caller sources dest done).1
  | .extract archive dest reads => (extract archives disk host caller archive dest reads).1
  | .moveToTrash requests => (Trash.moveToTrash disk host caller requests).1
  | .restoreFromTrash items => (Trash.restoreFromTrash disk host caller items).1

end RemoteFileExplorer.FileOps
