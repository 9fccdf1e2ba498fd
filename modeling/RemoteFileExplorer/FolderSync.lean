import RemoteFileExplorer.Runs
import RemoteFileExplorer.Pages

namespace RemoteFileExplorer.FolderSync
open Pages

abbrev Bytes := List UInt8

-- Clocks count nanoseconds. JavaScript dates and the times of the phone's
-- files count milliseconds.
def ms (time : Nat) : Nat := time / 1000000

-- An item of the remote folder. A link has the length and the time of the link
-- itself and the content of the file it leads to, none if it leads nowhere.
structure Item where
  name : String
  isDir : Bool
  link : Bool
  size : Nat
  stamp : Nat
  content : Option Bytes
  deriving DecidableEq, Repr

structure Folder where
  items : List Item
  distinct : (items.map Item.name).Nodup

theorem without_distinct (folder : Folder) (name : String) : ((folder.items.filter (fun item => item.name != name)).map Item.name).Nodup :=
  folder.distinct.sublist (List.filter_sublist.map _)

def Folder.remove (folder : Folder) (name : String) : Folder := ⟨folder.items.filter (fun item => item.name != name),without_distinct folder name⟩

def Folder.put (folder : Folder) (item : Item) : Folder :=
  ⟨item::folder.items.filter (fun other => other.name != item.name),by
    refine List.nodup_cons.mpr ⟨?_,without_distinct folder item.name⟩
    simp⟩

def Folder.find (folder : Folder) (name : String) : Option Item := folder.items.find? (fun item => item.name == name)

structure Entry where
  name : String
  isDir : Bool
  size : Option Nat
  modified : Option Nat
  deriving DecidableEq, Repr

def Item.entry (item : Item) : Entry := ⟨item.name,item.isDir,some item.size,some (ms item.stamp)⟩

structure LocalInfo where
  size : Nat
  modified : Option Nat
  deriving DecidableEq, Repr

structure Copy where
  content : Bytes
  written : Option Nat
  deriving DecidableEq, Repr

def Copy.info (copy : Copy) : LocalInfo := ⟨copy.content.length,copy.written⟩

def needsSync (remote : Entry) : Option LocalInfo → Bool
  | none => true
  | some found =>
    if found.size != remote.size.getD 0 then true
    else match remote.modified,found.modified with
      | some remoteMs,some localMs => localMs < remoteMs
      | _,_ => false

def isSafeName (name : String) : Bool :=
  name != "" && name != "." && name != ".." && name.toList.all (fun c => c != '\\' && c != '/' && c != '\x00')

structure SyncResult where
  downloaded : Nat
  failed : List String
  skipped : Nat
  firstError : Option String
  deriving DecidableEq, Repr

def SyncResult.fail (result : SyncResult) (name message : String) : SyncResult :=
  {result with failed := result.failed ++ [name],firstError := result.firstError.or (some message)}

structure Pass where
  found : String → Option LocalInfo
  todo : List Entry
  result : SyncResult

-- `steady` says that the file has not been touched since its download began.
inductive Phase where
  | idle
  | listing (got : List Entry) (cursor : Option String)
  | listed (files : List Entry)
  | going (pass : Pass)
  | fetching (pass : Pass) (entry : Entry) (steady : Bool)
  | staged (pass : Pass) (entry : Entry) (content : Bytes)
  | ended (result : SyncResult) (cancelled : Bool)

-- `timed` says whether the local folder reports modification times. `calm`
-- says that the remote folder has not changed since the last pass began.
structure State where
  now : Nat
  timed : Bool
  remote : Folder
  copies : String → Option Copy
  phase : Phase
  calm : Bool

-- What a copy into the local folder that fails leaves of the old document.
inductive Left where
  | kept
  | removed
  | cut (length : Nat)
  deriving DecidableEq, Repr

inductive Event where
  | tick (time : Nat)
  | change (item : Item)
  | drop (name : String)
  | begin
  | page
  | listFails
  | list
  | next
  | cancel
  | arrives (content : Bytes)
  | fetchFails (message : String)
  | put
  | putFails (message : String) (left : Left)
  deriving DecidableEq, Repr

def pageSize : Nat := 200

-- Only a link is listed with a size that is not its content's. A file moved
-- into the folder keeps its time.
def Item.possible (item : Item) (now : Nat) : Bool :=
  item.stamp ≤ now && (item.isDir || item.link || item.content.any (fun content => content.length == item.size))

def touch (name : String) : Phase → Phase
  | .fetching pass entry steady => .fetching pass entry (steady && entry.name != name)
  | phase => phase

def State.write (s : State) (name : String) (copy : Option Copy) : State :=
  {s with copies := fun other => if other = name then copy else s.copies other}

def State.copied (s : State) (content : Bytes) : Copy := ⟨content,if s.timed then some (ms s.now) else none⟩

def State.leftover (s : State) (name : String) (content : Bytes) : Left → Option Copy
  | .kept => s.copies name
  | .removed => none
  | .cut length => some (s.copied (content.take length))

def nextFile (pass : Pass) : Phase :=
  match pass.todo with
  | [] => .ended pass.result false
  | entry::rest =>
    if !isSafeName entry.name then .going {pass with todo := rest,result := {pass.result with skipped := pass.result.skipped + 1}}
    else if !needsSync entry (pass.found entry.name) then .going {pass with todo := rest}
    else .fetching {pass with todo := rest} entry true

def Phase.resting : Phase → Bool
  | .idle | .ended _ _ => true
  | _ => false

def step (s : State) : Event → Option State
  | .tick time => some {s with now := s.now + time}
  | .change item => if item.possible s.now then some {s with remote := s.remote.put item,phase := touch item.name s.phase,calm := false} else none
  | .drop name => some {s with remote := s.remote.remove name,phase := touch name s.phase,calm := false}
  | .begin => if s.phase.resting then some {s with phase := .listing [] none,calm := true} else none
  | .page =>
    match s.phase with
    | .listing got cursor =>
      let read := Pages.page Item.name pageSize cursor s.remote.items
      let all := got ++ read.items.map Item.entry
      match read.next with
      | some last => some {s with phase := .listing all (some last)}
      | none => some {s with phase := .listed (all.filter (fun entry => !entry.isDir))}
    | _ => none
  | .listFails =>
    match s.phase with
    | .listing _ _ => some {s with phase := .idle}
    | _ => none
  | .list =>
    match s.phase with
    | .listed files => some {s with phase := .going ⟨fun name => (s.copies name).map Copy.info,files,⟨0,[],0,none⟩⟩}
    | _ => none
  | .next =>
    match s.phase with
    | .going pass => some {s with phase := nextFile pass}
    | _ => none
  | .cancel =>
    match s.phase with
    | .going pass => if pass.todo.isEmpty then none else some {s with phase := .ended pass.result true}
    | _ => none
  | .arrives content =>
    match s.phase with
    | .fetching pass entry steady =>
      if steady && (s.remote.find entry.name).all (fun item => item.isDir || item.content != some content) then none
      else some {s with phase := .staged pass entry content}
    | _ => none
  | .fetchFails message =>
    match s.phase with
    | .fetching pass entry _ => some {s with phase := .going {pass with result := pass.result.fail entry.name message}}
    | _ => none
  | .put =>
    match s.phase with
    | .staged pass entry content =>
      some {s.write entry.name (some (s.copied content)) with phase := .going {pass with result := {pass.result with downloaded := pass.result.downloaded + 1}}}
    | _ => none
  | .putFails message left =>
    match s.phase with
    | .staged pass entry content =>
      some {s.write entry.name (s.leftover entry.name content left) with phase := .going {pass with result := pass.result.fail entry.name message}}
    | _ => none

-- The remote file is what the copy holds, or differs from it in size, or is of
-- a later millisecond.
def told (item : Item) (copy : Copy) : Bool :=
  item.isDir || item.content.all (fun content => content == copy.content || copy.content.length != item.size || copy.written.any (· < ms item.stamp))

def sized (item : Item) : Bool := item.isDir || item.content.all (fun content => content.length == item.size)

-- No file gets other content of the same size between the moment its download
-- reads it and the end of the millisecond in which its local copy is written.
def undisturbed (s : State) : Event → Bool
  | .change item => sized item && (s.copies item.name).all (told item)
  | .put =>
    match s.phase with
    | .staged _ entry content => (s.remote.find entry.name).all (fun item => told item (s.copied content))
    | _ => true
  | .putFails _ (.cut length) =>
    match s.phase with
    | .staged _ entry content => (s.remote.find entry.name).all (fun item => told item (s.copied (content.take length)))
    | _ => true
  | _ => true

end RemoteFileExplorer.FolderSync
