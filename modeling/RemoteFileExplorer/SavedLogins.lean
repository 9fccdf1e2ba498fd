import RemoteFileExplorer.KeyedEntries
import RemoteFileExplorer.PathTexts
import RemoteFileExplorer.Procedures

namespace RemoteFileExplorer.SavedLogins
open PathTexts (Text trimSpace isSpace)
open Procedures
open KeyedEntries (put)

def pinKey (host : Text) : Text := (trimSpace host).map Char.toLower

theorem toLower_all (holds : Char → Prop) (capitals : ∀ n < 26, holds (Char.ofNat (n + 65)))
    (others : ∀ c : Char, c.toLower = c → holds c) (c : Char) : holds c := by
  by_cases capital : 65 ≤ c.toNat ∧ c.toNat ≤ 90
  · have letter := capitals (c.toNat - 65) (by omega)
    rw [Nat.sub_add_cancel capital.1,Char.ofNat_toNat] at letter
    exact letter
  · apply others
    exact dif_neg capital

theorem isSpace_toLower (c : Char) : isSpace c.toLower = isSpace c :=
  toLower_all (fun c => isSpace c.toLower = isSpace c) (by decide) (fun c same => by rw [same]) c

theorem toLower_toLower (c : Char) : c.toLower.toLower = c.toLower :=
  toLower_all (fun c => c.toLower.toLower = c.toLower) (by decide) (fun c same => by rw [same,same]) c

theorem trimSpace_trimmed (text : Text) : trimSpace (trimSpace text) = trimSpace text := by
  have front : (trimSpace text).dropWhile isSpace = trimSpace text := by
    cases trimmed : trimSpace text with
    | nil => rfl
    | cons first rest =>
      have start : (trimSpace text) <+: text.dropWhile isSpace := List.rdropWhile_prefix ..
      rw [trimmed] at start
      obtain ⟨more,whole⟩ := start
      have again := List.dropWhile_idempotent isSpace text
      rw [←whole] at again
      simp only [List.cons_append,List.dropWhile_cons] at again ⊢
      split at again
      · have shorter : (List.dropWhile isSpace (rest ++ more)).length ≤ (rest ++ more).length := List.length_dropWhile_le ..
        rw [again,List.length_cons] at shorter
        omega
      · rename_i solid
        rw [if_neg solid]
  rw [trimSpace,front]
  exact List.rdropWhile_idempotent ..

theorem trimSpace_map (same : ∀ c, isSpace (change c) = isSpace c) (text : Text) :
    trimSpace (text.map change) = (trimSpace text).map change := by
  have spaces : isSpace ∘ change = isSpace := funext same
  simp only [trimSpace,List.rdropWhile,List.dropWhile_map,spaces,←List.map_reverse]

theorem pinKey_trimmed (host : Text) : pinKey (trimSpace host) = pinKey host := by
  rw [pinKey,trimSpace_trimmed]
  rfl

theorem pinKey_pinKey (host : Text) : pinKey (pinKey host) = pinKey host := by
  simp only [pinKey,trimSpace_map isSpace_toLower,trimSpace_trimmed,List.map_map]
  apply List.map_congr_left
  intro c _
  exact toLower_toLower c

-- A token that the source keeps as an empty text is none here.
structure Saved (Token : Type) where
  host : Text
  fingerprint : String
  token : Option Token
  username : String
  deviceId : String

-- state.json. The token is that of a file from before the keystore.
structure StateFile (Token : Type) where
  host : Text
  fingerprint : String
  username : String
  deviceId : String
  token : Option Token
  pins : Option (List (Text × String))

structure Record where
  key : Text
  name : Text
  host : Text
  username : String
  deviceId : String
  deriving DecidableEq

structure Disk (Token : Type) where
  state : StateFile Token
  hosts : List Record
  token : Option Token
  parked : Text → Option Token

section Files
variable {Token : Type}

def StateFile.pinned (f : StateFile Token) : List (Text × String) := f.pins.getD []

-- A file from before the pins were kept by address has its one host folded in.
def StateFile.read (f : StateFile Token) : StateFile Token :=
  match f.pins with
  | some _ => f
  | none => {f with pins := some (if f.host ≠ [] ∧ f.fingerprint ≠ "" then [(pinKey f.host,f.fingerprint)] else [])}

-- The token is read and never written.
def StateFile.written (f : StateFile Token) : StateFile Token := {f with token := none}

def StateFile.intoSaved (f : StateFile Token) (token : Option Token) : Saved Token :=
  ⟨f.host,f.fingerprint,token,f.username,f.deviceId⟩

-- `writeSession` is the write of the state file in `save`, and `restore` puts the
-- earlier token back when that write was refused.
inductive Action (Token : Type) where
  | readState
  | writeState (f : StateFile Token)
  | writeSession (f : StateFile Token)
  | restore (f : StateFile Token) (previous : Option Token)
  | readFile
  | writeFile (hosts : List Record)
  | getToken
  | setToken (token : Token)
  | deleteToken
  | getParked (account : Text)
  | setParked (account : Text) (token : Token)
  | deleteParked (account : Text)
  | deleteIdentity
  | removeIdentityFile

def Action.Reply : Action Token → Type
  | .readState => StateFile Token
  | .readFile => List Record
  | .getToken => Option Token
  | .getParked _ => Option Token
  | _ => Unit

def perform : (action : Action Token) → Disk Token → Disk Token × action.Reply
  | .readState,d => (d,d.state.read)
  | .writeState f,d => ({d with state := f.written},())
  | .writeSession f,d => ({d with state := f.written},())
  | .restore _ previous,d => ({d with token := previous},())
  | .readFile,d => (d,d.hosts)
  | .writeFile hosts,d => ({d with hosts := hosts},())
  | .getToken,d => (d,d.token)
  | .setToken token,d => ({d with token := some token},())
  | .deleteToken,d => ({d with token := none},())
  | .getParked account,d => (d,d.parked account)
  | .setParked account token,d => ({d with parked := Function.update d.parked account (some token)},())
  | .deleteParked account,d => ({d with parked := Function.update d.parked account none},())
  | .deleteIdentity,d => (d,())
  | .removeIdentityFile,d => (d,())

def store (Token : Type) : Storage (Disk Token) := ⟨Action Token,Action.Reply,perform⟩

end Files

section Flows
variable {Token : Type} [DecidableEq Token]

abbrev Flow (Token : Type) (α : Type) := Proc (store Token) α

def request (action : Action Token) : Flow Token action.Reply := @act (Disk Token) (store Token) action

def readState : Flow Token (StateFile Token) := request .readState
def writeState (f : StateFile Token) : Flow Token Unit := request (.writeState f)
def writeSession (f : StateFile Token) : Flow Token Unit := request (.writeSession f)
def restore (f : StateFile Token) (previous : Option Token) : Flow Token Unit := request (.restore f previous)
def readFile : Flow Token (List Record) := request .readFile
def writeFile (hosts : List Record) : Flow Token Unit := request (.writeFile hosts)
def getToken : Flow Token (Option Token) := request .getToken
def setToken (token : Token) : Flow Token Unit := request (.setToken token)
def deleteToken : Flow Token Unit := request .deleteToken
def getParked (account : Text) : Flow Token (Option Token) := request (.getParked account)
def setParked (account : Text) (token : Token) : Flow Token Unit := request (.setParked account token)
def deleteParked (account : Text) : Flow Token Unit := request (.deleteParked account)
def deleteIdentity : Flow Token Unit := request .deleteIdentity
def removeIdentityFile : Flow Token Unit := request .removeIdentityFile

def parkedAccount (key : Text) : Text := pinKey key

-- A token of an earlier version is moved into the keystore first.
def migrate (f : StateFile Token) : Flow Token Unit :=
  match f.token with
  | none => pure ()
  | some token => do
    setToken token
    let kept ← getToken
    if kept = some token then writeState {f with token := none} else fail

def loadActive : Flow Token (Saved Token) := do
  let f ← readState
  migrate f
  let token ← getToken
  return f.intoSaved token

def find (file : List Record) (key : Text) : Option Record := file.find? (·.key = key)

def pinOf (pins : List (Text × String)) (key : Text) : Option String := (pins.find? (·.1 = key)).map (·.2)

def orFail : Option α → Flow Token α
  | some a => pure a
  | none => fail

def listPins : Flow Token (List (Text × String)) := do
  let f ← readState
  return f.pinned

def savedFor (key : Text) : Flow Token (Saved Token) := do
  let key := pinKey key
  let active ← loadActive
  if active.host ≠ [] ∧ pinKey active.host = key then return active
  let file ← readFile
  let rec ← orFail (find file key)
  let pins ← listPins
  let fingerprint ← orFail (pinOf pins key)
  let token ← getParked (parkedAccount key)
  return ⟨rec.host,fingerprint,token,rec.username,rec.deviceId⟩

def loadSaved (scope : Option Text) : Flow Token (Saved Token) :=
  match scope with
  | some host => savedFor host
  | none => loadActive

def upsert (file : List Record) (host : Text) (username deviceId : String) : List Record :=
  match file.findIdx? (·.key = pinKey host) with
  | some i => file.modify i fun r => {r with host := trimSpace host,username := username,deviceId := deviceId}
  | none => file ++ [⟨pinKey host,trimSpace host,trimSpace host,username,deviceId⟩]

def park (key : Text) : Option Token → Flow Token Unit
  | none => deleteParked (parkedAccount key)
  | some token => do
    setParked (parkedAccount key) token
    let kept ← getParked (parkedAccount key)
    if kept = some token then pure () else fail

def parkBeforeReplace (incoming : Text) : Flow Token Unit := do
  let cur ← loadSaved none
  if cur.host = [] ∨ pinKey cur.host = pinKey incoming then return ()
  park (pinKey cur.host) cur.token
  let file ← readFile
  writeFile (upsert file cur.host cur.username cur.deviceId)

def StateFile.session (f : StateFile Token) (s : Saved Token) : StateFile Token :=
  {f with
    pins := if s.host ≠ [] ∧ s.fingerprint ≠ "" then some (put (pinKey s.host) s.fingerprint f.pinned) else f.pins
    host := s.host
    fingerprint := s.fingerprint
    username := s.username
    deviceId := s.deviceId
    token := none}

def replaceToken : Option Token → Flow Token Unit
  | none => deleteToken
  | some token => setToken token

def writeOrRestore (f : StateFile Token) (previous : Option Token) : Flow Token Unit := do
  let written ← (writeSession f).attempt
  match written with
  | some () => pure ()
  | none => do
    let _ ← (restore f previous).attempt
    fail

def save (s : Saved Token) : Flow Token Unit := do
  let parked ← (parkBeforeReplace s.host).attempt
  if parked = none ∧ s.token = none then fail else
  let f ← readState
  let previous ← getToken
  replaceToken s.token
  writeOrRestore (f.session s) previous

structure Synced (Token : Type) where
  file : List Record
  active : Saved Token
  activeKey : Option Text
  pins : List (Text × String)

def kept (activeKey : Option Text) (pins : List (Text × String)) (r : Record) : Bool :=
  some r.key = activeKey ∨ pins.any (·.1 = r.key)

def addPinned (file : List Record) (pins : List (Text × String)) : List Record :=
  pins.foldl (fun file p => if file.any (·.key = p.1) then file else file ++ [⟨p.1,p.1,p.1,"",""⟩]) file

def keyOf (active : Saved Token) : Option Text := if active.host ≠ [] then some (pinKey active.host) else none

def addActive (file : List Record) (active : Saved Token) : List Record :=
  if active.host ≠ [] then upsert file active.host active.username active.deviceId else file

def dropParked (activeKey : Option Text) (pins : List (Text × String)) (file : List Record) : Flow Token Unit := do
  each (fun r => deleteParked (parkedAccount r.key)) (file.filter (!kept activeKey pins ·))
  each (fun key => deleteParked (parkedAccount key)) activeKey.toList

def writeChanged (before file : List Record) : Flow Token Unit := if file = before then pure () else writeFile file

def sync : Flow Token (Synced Token) := do
  let before ← readFile
  let active ← loadSaved none
  let pins ← listPins
  let file := addPinned (addActive before active) pins
  dropParked (keyOf active) pins file
  let file := file.filter (kept (keyOf active) pins)
  writeChanged before file
  return ⟨file,active,keyOf active,pins⟩

structure HostView where
  key : Text
  name : Text
  host : Text
  fingerprint : String
  username : String
  signedIn : Bool
  active : Bool

def loginOf (s : Synced Token) (key : Text) : Flow Token (Option Token) :=
  if some key = s.activeKey then pure s.active.token else getParked (parkedAccount key)

def view (s : Synced Token) (r : Record) : Flow Token HostView := do
  let token ← loginOf s r.key
  return ⟨r.key,r.name,r.host,(pinOf s.pins r.key).getD "",r.username,token.isSome,some r.key = s.activeKey⟩

def views (s : Synced Token) : List Record → Flow Token (List HostView)
  | [] => pure []
  | r::rest => do
    let first ← view s r
    let others ← views s rest
    return first::others

def list : Flow Token (List HostView) := do
  let s ← sync
  views s s.file

def switch (key : Text) : Flow Token (Saved Token) := do
  let s ← sync
  let key := pinKey key
  let rec ← orFail (find s.file key)
  if s.activeKey = some key then return s.active
  let fingerprint ← orFail (pinOf s.pins key)
  let token ← getParked (parkedAccount key)
  let target : Saved Token := ⟨rec.host,fingerprint,token,rec.username,rec.deviceId⟩
  save target
  deleteParked (parkedAccount key)
  return target

-- char::is_control.
def isControl (c : Char) : Bool := c.toNat < 0x20 || (0x7f ≤ c.toNat && c.toNat < 0xa0)

def maxNameChars : Nat := 64

def cleanName (name : Text) : Option Text :=
  let name := trimSpace name
  if name = [] ∨ maxNameChars < name.length ∨ name.any isControl = true then none else some name

def rename (key name : Text) : Flow Token Unit := do
  let name ← orFail (cleanName name)
  let s ← sync
  let key := pinKey key
  match s.file.findIdx? (·.key = key) with
  | none => fail
  | some i => writeFile (s.file.modify i fun r => {r with name := name})

def writeWhen (changed : Bool) (f : StateFile Token) : Flow Token Unit := if changed then writeState f else pure ()

structure ForgetPin where
  wasPinned : Bool
  signedOut : Bool

def forgetParked (key : Text) : Flow Token Unit := deleteParked (parkedAccount key)

def StateFile.unpinned (f : StateFile Token) (key : Text) : StateFile Token :=
  {f with pins := some (f.pinned.filter (·.1 ≠ key))}

def StateFile.cleared (f : StateFile Token) : StateFile Token :=
  {f with host := [],fingerprint := "",username := "",deviceId := "",token := none}

def forgetPin (host : Text) : Flow Token ForgetPin := do
  let key := pinKey host
  forgetParked key
  let f ← readState
  let wasPinned := (pinOf f.pinned key).isSome
  let f := f.unpinned key
  if f.host ≠ [] ∧ pinKey f.host = key then
    deleteToken
    writeState f.cleared
    return ⟨wasPinned,true⟩
  writeWhen wasPinned f
  return ⟨wasPinned,false⟩

def remove (key : Text) : Flow Token Bool := do
  let s ← sync
  let key := pinKey key
  let rec ← orFail (find s.file key)
  deleteParked (parkedAccount key)
  let forgot ← forgetPin rec.host
  writeFile (s.file.filter (·.key ≠ key))
  return forgot.signedOut

def forgetParkedToken (token : Token) : Flow Token Unit := do
  let file ← readFile
  each (fun r => do
    let stored ← getParked (parkedAccount r.key)
    if stored = some token then deleteParked (parkedAccount r.key) else pure ()) file

def forgetAllParked : Flow Token Unit := do
  let file ← readFile
  each (fun r => deleteParked (parkedAccount r.key)) file

def dropRefusedToken (token : Option Token) : Flow Token Unit :=
  match token with
  | none => pure ()
  | some token => do
    let active ← loadActive
    if active.token = some token then deleteToken else forgetParkedToken token

def resetDeviceKey : Flow Token Unit := do
  let saved ← loadSaved none
  if saved.token.isSome then fail else
  forgetAllParked
  deleteIdentity
  removeIdentityFile

def signOut : Flow Token Unit := do
  let f ← readState
  writeWhen f.token.isSome {f with token := none}
  deleteToken

end Flows

end RemoteFileExplorer.SavedLogins
