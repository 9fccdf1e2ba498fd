import RemoteFileExplorer.Runs
import RemoteFileExplorer.Tables

namespace RemoteFileExplorer.Devices
open Tables

structure Device where
  id : String
  label : String
  tokenHash : String
  created : Int
  lastSeen : Int
  revoked : Bool
  clientId : String
  publicKey : String
  viaLogin : Bool
  username : String
  jailRoot : String
  readOnly : Bool
  viewApps : Bool
  launchApps : Bool
  canBrowse : Bool
  canDownload : Bool
  canUpload : Bool
  canModify : Bool
  canDelete : Bool
  canShare : Bool
  deriving DecidableEq, Repr

structure User where
  username : String
  passwordHash : String
  created : Int
  deriving DecidableEq, Repr

-- `deviceId` is the minting device, empty for a token older than the column.
structure ShareToken where
  tokenHash : String
  path : String
  created : Int
  expires : Int
  deviceId : String
  deriving DecidableEq, Repr

-- devices.id, devices.token_hash and the partial index on devices.client_id.
def deviceKeys : Schema Device :=
  (Schema.key Device.id).both ((Schema.key Device.tokenHash).both (Schema.keyUnless "" Device.clientId))
def userKeys : Schema User := Schema.key User.username
def shareTokenKeys : Schema ShareToken := Schema.key ShareToken.tokenHash

structure DB where
  devices : Table deviceKeys
  users : Table userKeys
  shareTokens : Table shareTokenKeys
  deriving DecidableEq

def DB.empty : DB := ⟨.empty,.empty,.empty⟩

inductive StoreError where
  | constraint
  | noRows
  | accountExists
  | loginAccountChanged
  | lastUser
  deriving DecidableEq, Repr

-- UPDATE devices SET .. WHERE id=? on columns that no constraint mentions.
structure Patch where
  set : Device → Device
  id : ∀ d, (set d).id = d.id
  tokenHash : ∀ d, (set d).tokenHash = d.tokenHash
  clientId : ∀ d, (set d).clientId = d.clientId

def Patch.onlyWhere (patch : Patch) (chosen : Device → Bool) : Patch where
  set d := if chosen d then patch.set d else d
  id d := by split <;> simp [patch.id]
  tokenHash d := by split <;> simp [patch.tokenHash]
  clientId d := by split <;> simp [patch.clientId]

def DB.patchDevices (db : DB) (patch : Patch) : DB :=
  {db with devices := db.devices.modify patch.set (fun a b => by
    simp [deviceKeys,patch.id,patch.tokenHash,patch.clientId])}

def DB.patchDevice (db : DB) (id : String) (patch : Patch) : DB :=
  db.patchDevices (patch.onlyWhere (fun d => d.id == id))

def DB.purgeShareTokens (db : DB) (id : String) : DB :=
  {db with shareTokens := db.shareTokens.delete (fun t => t.deviceId == id)}

def getDeviceById (db : DB) (id : String) : Option Device := db.devices.find (fun d => d.id == id)

def clientDeviceById (db : DB) (clientId : String) : Option Device :=
  if clientId = "" then none else db.devices.find (fun d => d.clientId == clientId)

section Store
variable (hashToken : String → String) (now : Int)

def createDevice (db : DB) (id label token : String) : Except StoreError DB :=
  match db.devices.insert ⟨id,label,hashToken token,now,now,false,"","",false,"","",false,false,false,true,false,false,false,false,false⟩ with
  | none => .error .constraint
  | some devices => .ok {db with devices := devices}

-- CASE WHEN login=1 THEN 1 WHEN via_login=1 THEN fresh ELSE column END, where
-- via_login is the stored value before the update.
def rePairedGrant (viaLogin wasLogin fresh column : Bool) : Bool :=
  if viaLogin then true else if wasLogin then fresh else column

def rePaired (d : Device) (label token publicKey : String) (viaLogin : Bool) : Device :=
  {d with
    tokenHash := hashToken token,label := label,lastSeen := now,revoked := false,
    publicKey := publicKey,viaLogin := viaLogin,
    canBrowse := rePairedGrant viaLogin d.viaLogin true d.canBrowse
    canDownload := rePairedGrant viaLogin d.viaLogin false d.canDownload
    canUpload := rePairedGrant viaLogin d.viaLogin false d.canUpload
    canModify := rePairedGrant viaLogin d.viaLogin false d.canModify
    canDelete := rePairedGrant viaLogin d.viaLogin false d.canDelete
    canShare := rePairedGrant viaLogin d.viaLogin false d.canShare}

def freshDevice (id clientId label token publicKey : String) (viaLogin : Bool) : Device :=
  ⟨id,label,hashToken token,now,now,false,clientId,publicKey,viaLogin,"","",false,false,false,
    true,viaLogin,viaLogin,viaLogin,viaLogin,viaLogin⟩

-- The new id is the random uuid the caller would draw; it is used only when
-- no row holds the client id, and a clash with a stored id fails the insert.
def upsertDeviceTx (db : DB) (clientId label token publicKey : String) (viaLogin : Bool) (uuid : String) :
    Except StoreError (DB × String) :=
  match clientDeviceById db clientId with
  | some existing =>
    match db.devices.update (fun d => if d.id == existing.id then rePaired hashToken now d label token publicKey viaLogin else d) with
    | none => .error .constraint
    | some devices => .ok ({db with devices := devices},existing.id)
  | none =>
    match db.devices.insert (freshDevice hashToken now uuid clientId label token publicKey viaLogin) with
    | none => .error .constraint
    | some devices => .ok ({db with devices := devices},uuid)

def stampUsername (username : String) : Patch :=
  ⟨fun d => {d with username := username},fun _ => rfl,fun _ => rfl,fun _ => rfl⟩

def loginUpsert (db : DB) (clientId label token publicKey username uuid : String) : Except StoreError (DB × String) := do
  let (db,id) ← upsertDeviceTx hashToken now db clientId label token publicKey true uuid
  return (db.patchDevice id (stampUsername username),id)

def registerAccount (db : DB) (clientId label token publicKey username passwordHash uuid : String) :
    Except StoreError (DB × String) :=
  if db.users.rows.length > 0 then .error .accountExists else
  match db.users.insert ⟨username,passwordHash,now⟩ with
  | none => .error .constraint
  | some users => loginUpsert hashToken now {db with users := users} clientId label token publicKey username uuid

def loginDevice (db : DB) (clientId label token publicKey username passwordHash uuid : String) :
    Except StoreError (DB × String) :=
  if db.users.rows.any (fun u => u.username == username && u.passwordHash == passwordHash) then
    loginUpsert hashToken now db clientId label token publicKey username uuid
  else .error .loginAccountChanged

end Store

def resetDeviceAccess (db : DB) (id : String) : DB :=
  (db.patchDevice id ⟨fun d => {d with
    canBrowse := true,canDownload := false,canUpload := false,canModify := false,canDelete := false,
    canShare := false,viewApps := false,launchApps := false},fun _ => rfl,fun _ => rfl,fun _ => rfl⟩).purgeShareTokens id

def setDeviceJail (db : DB) (id jailRoot : String) : DB :=
  db.patchDevice id ⟨fun d => {d with jailRoot := jailRoot},fun _ => rfl,fun _ => rfl,fun _ => rfl⟩

def setDeviceReadOnly (db : DB) (id : String) (readOnly : Bool) : DB :=
  db.patchDevice id ⟨fun d => {d with readOnly := readOnly},fun _ => rfl,fun _ => rfl,fun _ => rfl⟩

def setDeviceAppPermissions (db : DB) (id : String) (viewApps launchApps : Bool) : DB :=
  db.patchDevice id ⟨fun d => {d with viewApps := viewApps,launchApps := launchApps},fun _ => rfl,fun _ => rfl,fun _ => rfl⟩

def setDeviceFilePermissions (db : DB) (id : String) (browse download upload modify delete share : Bool) : DB :=
  let patched := db.patchDevice id ⟨fun d => {d with
    canBrowse := browse,canDownload := download,canUpload := upload,
    canModify := modify,canDelete := delete,canShare := share},fun _ => rfl,fun _ => rfl,fun _ => rfl⟩
  if share then patched else patched.purgeShareTokens id

def revoke : Patch := ⟨fun d => {d with revoked := true},fun _ => rfl,fun _ => rfl,fun _ => rfl⟩

def revokeDevice (db : DB) (id : String) : DB := (db.patchDevice id revoke).purgeShareTokens id

def deleteDevice (db : DB) (id : String) : DB :=
  ({db with devices := db.devices.delete (fun d => d.id == id)}).purgeShareTokens id

def createUser (now : Int) (db : DB) (username passwordHash : String) : Except StoreError DB :=
  match db.users.insert ⟨username,passwordHash,now⟩ with
  | none => .error .constraint
  | some users => .ok {db with users := users}

def deleteUser (db : DB) (username : String) : Except StoreError DB :=
  if db.users.count (fun u => u.username == username) = 0 then .error .noRows else
  if db.users.rows.length ≤ 1 then .error .lastUser else
  let owned := (db.devices.rows.filter (fun d => d.username == username)).map Device.id
  let ended : DB := {db with
    users := db.users.delete (fun u => u.username == username)
    shareTokens := db.shareTokens.delete (fun t => owned.contains t.deviceId)}
  .ok (ended.patchDevices (revoke.onlyWhere (fun d => d.username == username)))

def createShareToken (now : Int) (db : DB) (tokenHash path deviceId : String) (expires : Int) : Except StoreError DB :=
  match db.shareTokens.insert ⟨tokenHash,path,now,expires,deviceId⟩ with
  | none => .error .constraint
  | some tokens => .ok {db with shareTokens := tokens}

def getShareToken (db : DB) (tokenHash : String) : Option ShareToken :=
  db.shareTokens.find (fun t => t.tokenHash == tokenHash)

def deleteShareToken (db : DB) (tokenHash : String) : DB :=
  {db with shareTokens := db.shareTokens.delete (fun t => t.tokenHash == tokenHash)}

-- The row is deleted whether or not it had expired; only an unexpired one is
-- handed to the caller.
def consumeShareTokenFor (now : Int) (db : DB) (tokenHash : String) : DB × Option (String × String) :=
  match getShareToken db tokenHash with
  | none => (db,none)
  | some token => (deleteShareToken db tokenHash,if now > token.expires then none else some (token.path,token.deviceId))

def sweepExpiredShareTokens (now : Int) (db : DB) : DB :=
  {db with shareTokens := db.shareTokens.delete (fun t => t.expires < now)}

inductive Operation where
  | createDevice (id label token : String)
  | upsertDevice (clientId label token publicKey : String) (viaLogin : Bool) (uuid : String)
  | registerAccount (clientId label token publicKey username passwordHash uuid : String)
  | loginDevice (clientId label token publicKey username passwordHash uuid : String)
  | resetDeviceAccess (id : String)
  | setDeviceJail (id jailRoot : String)
  | setDeviceReadOnly (id : String) (readOnly : Bool)
  | setDeviceAppPermissions (id : String) (viewApps launchApps : Bool)
  | setDeviceFilePermissions (id : String) (browse download upload modify delete share : Bool)
  | revokeDevice (id : String)
  | deleteDevice (id : String)
  | createUser (username passwordHash : String)
  | deleteUser (username : String)
  | createShareToken (tokenHash path deviceId : String) (expires : Int)
  | consumeShareToken (tokenHash : String)
  | deleteShareToken (tokenHash : String)
  | sweepExpiredShareTokens
  deriving DecidableEq, Repr

def exec (hashToken : String → String) (now : Int) (db : DB) : Operation → Except StoreError DB
  | .createDevice id label token => createDevice hashToken now db id label token
  | .upsertDevice clientId label token publicKey viaLogin uuid =>
    (upsertDeviceTx hashToken now db clientId label token publicKey viaLogin uuid).map Prod.fst
  | .registerAccount clientId label token publicKey username passwordHash uuid =>
    (registerAccount hashToken now db clientId label token publicKey username passwordHash uuid).map Prod.fst
  | .loginDevice clientId label token publicKey username passwordHash uuid =>
    (loginDevice hashToken now db clientId label token publicKey username passwordHash uuid).map Prod.fst
  | .resetDeviceAccess id => .ok (resetDeviceAccess db id)
  | .setDeviceJail id jailRoot => .ok (setDeviceJail db id jailRoot)
  | .setDeviceReadOnly id readOnly => .ok (setDeviceReadOnly db id readOnly)
  | .setDeviceAppPermissions id viewApps launchApps => .ok (setDeviceAppPermissions db id viewApps launchApps)
  | .setDeviceFilePermissions id browse download upload modify delete share =>
    .ok (setDeviceFilePermissions db id browse download upload modify delete share)
  | .revokeDevice id => .ok (revokeDevice db id)
  | .deleteDevice id => .ok (deleteDevice db id)
  | .createUser username passwordHash => createUser now db username passwordHash
  | .deleteUser username => deleteUser db username
  | .createShareToken tokenHash path deviceId expires => createShareToken now db tokenHash path deviceId expires
  | .consumeShareToken tokenHash => .ok (consumeShareTokenFor now db tokenHash).1
  | .deleteShareToken tokenHash => .ok (deleteShareToken db tokenHash)
  | .sweepExpiredShareTokens => .ok (sweepExpiredShareTokens now db)

theorem map_fst_ok {result : Except StoreError (DB × String)} (done : result.map Prod.fst = .ok next) :
    ∃ deviceId, result = .ok (next,deviceId) := by
  cases result with
  | error e => simp [Except.map] at done
  | ok pair =>
    simp only [Except.map,Except.ok.injEq] at done
    exact ⟨pair.2,by rw [← done]⟩

section Parts
variable {hashToken : String → String} {now : Int} {db next : DB}

theorem loginUpsert_parts (paired : loginUpsert hashToken now db clientId label token publicKey username uuid = .ok (next,deviceId)) :
    ∃ middle, upsertDeviceTx hashToken now db clientId label token publicKey true uuid = .ok (middle,deviceId) ∧
      next = middle.patchDevice deviceId (stampUsername username) := by
  unfold loginUpsert at paired
  cases upserted : upsertDeviceTx hashToken now db clientId label token publicKey true uuid with
  | error e =>
    rw [upserted] at paired
    cases paired
  | ok result =>
    rw [upserted] at paired
    cases paired
    exact ⟨_,rfl,rfl⟩

theorem registerAccount_parts
    (registered : registerAccount hashToken now db clientId label token publicKey username passwordHash uuid = .ok (next,deviceId)) :
    db.users.rows = [] ∧ ∃ users, db.users.insert ⟨username,passwordHash,now⟩ = some users ∧
      loginUpsert hashToken now {db with users := users} clientId label token publicKey username uuid = .ok (next,deviceId) := by
  unfold registerAccount at registered
  split at registered
  · cases registered
  · split at registered
    · cases registered
    · exact ⟨List.length_eq_zero_iff.mp (by omega),_,‹_›,registered⟩

theorem loginDevice_parts (logged : loginDevice hashToken now db clientId label token publicKey username passwordHash uuid = .ok (next,deviceId)) :
    db.users.rows.any (fun u => u.username == username && u.passwordHash == passwordHash) = true ∧
      loginUpsert hashToken now db clientId label token publicKey username uuid = .ok (next,deviceId) := by
  unfold loginDevice at logged
  split at logged
  · exact ⟨‹_›,logged⟩
  · cases logged

theorem createDevice_parts (done : createDevice hashToken now db own label token = .ok next) :
    ∃ row devices, row.clientId = "" ∧ row.viaLogin = false ∧ db.devices.insert row = some devices ∧ next = {db with devices := devices} := by
  unfold createDevice at done
  split at done
  · cases done
  · cases done
    exact ⟨_,_,rfl,rfl,‹_›,rfl⟩

theorem createUser_parts (done : createUser now db username passwordHash = .ok next) :
    ∃ users, db.users.insert ⟨username,passwordHash,now⟩ = some users ∧ next = {db with users := users} := by
  unfold createUser at done
  split at done
  · cases done
  · cases done
    exact ⟨_,‹_›,rfl⟩

theorem createShareToken_parts (done : createShareToken now db tokenHash path deviceId expires = .ok next) :
    ∃ tokens, db.shareTokens.insert ⟨tokenHash,path,now,expires,deviceId⟩ = some tokens ∧ next = {db with shareTokens := tokens} := by
  unfold createShareToken at done
  split at done
  · cases done
  · cases done
    exact ⟨_,‹_›,rfl⟩

end Parts

structure State where
  db : DB
  now : Int
  deriving DecidableEq

inductive Event where
  | operation (op : Operation)
  | clock (seconds : Nat)
  deriving DecidableEq, Repr

-- Each operation is one SQLite transaction: an error rolls it back.
def step (hashToken : String → String) (s : State) : Event → Option State
  | .operation op => some {s with db := ((exec hashToken s.now s.db op).toOption).getD s.db}
  | .clock seconds => some {s with now := s.now + seconds}

def initial (now : Int) : State := ⟨.empty,now⟩

end RemoteFileExplorer.Devices
