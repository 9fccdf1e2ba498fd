import RemoteFileExplorer.DevicePatches
import RemoteFileExplorer.PairRequests

namespace RemoteFileExplorer.PairGrants
open Tables Devices PairRequests
open DevicePatches (Field Value Group Body Env valueOf groupOf asked writesGroup allGroups isAdminDevice launchWithoutView)
open ShareAuthority (same_device client_device upsert_cases)

-- The permission flags beyond browsing.
def grants : List Field := [.viewApps,.launchApps,.download,.upload,.modify,.delete,.share]

def isApp : Field → Bool
  | .viewApps | .launchApps => true
  | _ => false

-- A flag that counts for the row. The file flags of a login device mean nothing
-- and are cleared when it pairs; the app flags stay.
def claims (d : Device) (field : Field) : Bool :=
  grants.contains field && (isApp field || !d.viaLogin) && valueOf d field == .flag true

def browseOnly (d : Device) : Bool := d.canBrowse && grants.all (fun field => valueOf d field == .flag false)

-- A pairing whose proof and code, or whose approved request, were accepted.
structure Pairing where
  clientId : String
  label : String
  publicKey : String
  jailRoot : String
  readOnly : Bool
  deriving DecidableEq, Repr

inductive Stage where
  | idle
  | pairing (p : Pairing)
  | decided (p : Pairing) (replaces : String)
  | minted (p : Pairing) (deviceId replaces : String) (takeover : Bool)
  | limiting (p : Pairing) (deviceId : String)
  | sealing (p : Pairing) (deviceId : String)
  | writing (id : String) (body : Body) (target : Device) (rest : List Group)
  | restoring (id : String) (target : Device) (rest : List Group)
  | finished

-- `granted` lists the flags that an administrator has set on a device since its
-- current key was installed and it was last taken over; no handler reads it.
structure State where
  now : Int
  db : DB
  requests : Table requestKeys
  handlers : Nat → Stage
  granted : List (String × Field)

def initial (now : Int) : State := ⟨now,.empty,.empty,fun _ => .idle,[]⟩

inductive Event where
  | clock (seconds : Nat)
  | operation (op : Operation)
  | createRequest (id deviceLabel clientId publicKey commit ip : String) (startedAt : Int)
  | revealRequest (id nonce : String)
  | decideRequest (id : String) (approve : Bool)
  | pairByCode (handler : Nat) (clientId label publicKey jailRoot : String) (readOnly : Bool)
  | claimRequest (handler : Nat) (id : String)
  | checkReplaces (handler : Nat)
  | mint (handler : Nat) (token uuid : String)
  | reset (handler : Nat)
  | limit (handler : Nat)
  | restrict (handler : Nat)
  | patch (handler : Nat) (caller : Option Device) (id : String) (body : Body)
  | patchWrite (handler : Nat) (env : Env)
  | patchDone (handler : Nat)
  | fault (handler : Nat)

def move (s : State) (handler : Nat) (stage : Stage) : State :=
  {s with handlers := Function.update s.handlers handler stage}

def takesOver (db : DB) (clientId publicKey : String) : Bool :=
  (clientDeviceById db clientId).any (fun d => d.revoked || d.publicKey != publicKey)

def forget (granted : List (String × Field)) (id : String) : List (String × Field) := granted.filter (fun g => g.1 != id)

-- A new key makes earlier grants the grants of another device.
def installed (db : DB) (clientId publicKey uuid : String) (granted : List (String × Field)) : List (String × Field) :=
  match clientDeviceById db clientId with
  | none => forget granted uuid
  | some d => if d.publicKey = publicKey then granted else forget granted d.id

def recordOperation (db : DB) (granted : List (String × Field)) : Operation → List (String × Field)
  | .registerAccount clientId _ _ publicKey _ _ uuid => installed db clientId publicKey uuid granted
  | .loginDevice clientId _ _ publicKey _ _ uuid => installed db clientId publicKey uuid granted
  | .setDeviceFilePermissions id _ download upload modify delete share =>
    ([(Field.download,download),(.upload,upload),(.modify,modify),(.delete,delete),(.share,share)].filter Prod.snd).map
      (fun set => (id,set.1)) ++ granted
  | _ => granted

def recordPatch (granted : List (String × Field)) (id : String) (b : Body) (group : Group) : List (String × Field) :=
  (grants.filter (fun field => groupOf field == group && asked b field == some (.flag true))).map (fun field => (id,field)) ++ granted

-- What the account handlers, the settings page and the command line call
-- directly. Pairing and app permissions go through the handlers below.
def direct : Operation → Bool
  | .registerAccount _ label _ publicKey _ _ _ => label != "" && publicKey != ""
  | .loginDevice _ label _ publicKey _ _ _ => label != "" && publicKey != ""
  | .createDevice _ _ _ | .upsertDevice _ _ _ _ _ _ | .resetDeviceAccess _ | .setDeviceAppPermissions _ _ _ => false
  | _ => true

section Step
variable (hashToken : String → String)

def step (s : State) : Event → Option State
  | .clock seconds => some {s with now := s.now + seconds}
  | .operation op =>
    if direct op then
      match exec hashToken s.now s.db op with
      | .error _ => some s
      | .ok db => some {s with db := db,granted := recordOperation s.db s.granted op}
    else none
  | .createRequest id deviceLabel clientId publicKey commit ip startedAt =>
    if publicKey = "" then none else
    let request := ⟨id,sanitizeLabel deviceLabel,clientId,publicKey,"",commit,ip,.committed,startedAt,startedAt + pairRequestTTL⟩
    some {s with requests := ((createPairRequest s.now s.requests request).toOption).getD s.requests}
  | .revealRequest id nonce =>
    match revealPairRequest s.now s.requests id nonce with
    | .error _ => some s
    | .ok (requests,_) => some {s with requests := requests}
  | .decideRequest id approve => some {s with requests := ((decidePairRequest s.now s.requests id approve).toOption).getD s.requests}
  | .pairByCode handler clientId label publicKey jailRoot readOnly =>
    match s.handlers handler with
    | .idle =>
      if publicKey = "" then none else
      some (move s handler (.pairing ⟨clientId,if label = "" then "unnamed-device" else label,publicKey,jailRoot,readOnly⟩))
    | _ => none
  | .claimRequest handler id =>
    match s.handlers handler with
    | .idle =>
      match claimApprovedPairRequest s.now s.requests id with
      | none => some (move s handler .finished)
      | some (requests,r) => some (move {s with requests := requests} handler (.pairing ⟨r.clientId,r.label,r.publicKey,"",false⟩))
    | _ => none
  | .checkReplaces handler =>
    match s.handlers handler with
    | .pairing p => some (move s handler (.decided p (pairReplaces s.db p.clientId p.publicKey)))
    | _ => none
  | .mint handler token uuid =>
    match s.handlers handler with
    | .decided p replaces =>
      match upsertDeviceTx hashToken s.now s.db p.clientId p.label token p.publicKey false uuid with
      | .error _ => some (move s handler .finished)
      | .ok (db,deviceId) =>
        let takeover := takesOver s.db p.clientId p.publicKey
        let anew := takeover || (clientDeviceById s.db p.clientId).isNone
        some {move s handler (.minted p deviceId replaces takeover) with
          db := db,granted := if anew then forget s.granted deviceId else s.granted}
    | _ => none
  | .reset handler =>
    match s.handlers handler with
    | .minted p deviceId replaces _ =>
      some (move {s with db := if replaces = "" then s.db else resetDeviceAccess s.db deviceId} handler (.limiting p deviceId))
    | _ => none
  | .limit handler =>
    match s.handlers handler with
    | .limiting p deviceId =>
      some (move {s with db := if p.jailRoot = "" then s.db else setDeviceJail s.db deviceId p.jailRoot} handler (.sealing p deviceId))
    | _ => none
  | .restrict handler =>
    match s.handlers handler with
    | .sealing p deviceId =>
      some (move {s with db := if p.readOnly then setDeviceReadOnly s.db deviceId true else s.db} handler .finished)
    | _ => none
  | .patch handler caller id body =>
    match s.handlers handler with
    | .idle =>
      if !isAdminDevice caller then some (move s handler .finished) else
      match getDeviceById s.db id with
      | none => some (move s handler .finished)
      | some target =>
        if launchWithoutView target body then some (move s handler .finished)
        else some (move s handler (.writing id body target (allGroups.filter (writesGroup body))))
    | _ => none
  | .patchWrite handler env =>
    match s.handlers handler with
    | .writing id body target (group::rest) =>
      match DevicePatches.write env s.db id target body group with
      | .error _ => some (move s handler .finished)
      | .ok db =>
        some {move s handler (.writing id body target rest) with db := db,granted := recordPatch s.granted id body group}
    | .restoring id target (group::rest) =>
      some (move {s with db := DevicePatches.restore env s.db id target group} handler (.restoring id target rest))
    | _ => none
  | .patchDone handler =>
    match s.handlers handler with
    | .writing _ _ _ [] => some (move s handler .finished)
    | .restoring _ _ [] => some (move s handler .finished)
    | _ => none
  -- A database error ends a pairing where it stands; the row of a guest that
  -- could not be limited is revoked. A patch undoes what it wrote.
  | .fault handler =>
    match s.handlers handler with
    | .limiting _ deviceId => some (move {s with db := revokeDevice s.db deviceId} handler .finished)
    | .sealing _ deviceId => some (move {s with db := revokeDevice s.db deviceId} handler .finished)
    | .writing id _ target (group::_) =>
      some (move s handler (if group = .jail then .finished else .restoring id target allGroups))
    | .restoring id target (_::rest) => some (move s handler (.restoring id target rest))
    | _ => some (move s handler .finished)

end Step

-- Between its upsert and its reset a pairing owes the row the defaults.
def Pending (s : State) (id : String) : Prop :=
  ∃ handler p replaces takeover, s.handlers handler = .minted p id replaces takeover ∧ replaces ≠ ""

def rowHolds (db : DB) (id : String) (field : Field) : Bool := (getDeviceById db id).all (fun d => valueOf d field == .flag true)

-- The condition of each step: a pairing's decision still covers what it now
-- meets, no error falls between a takeover and its reset, a permission change
-- writes back no flag that the row has lost since it was read, and no login
-- hands a device with app flags to another key.
def Current (s : State) : Event → Bool
  | .mint handler _ _ =>
    match s.handlers handler with
    | .decided p replaces => pairReplaces s.db p.clientId p.publicKey == "" || replaces != ""
    | _ => true
  | .fault handler =>
    match s.handlers handler with
    | .minted _ _ replaces _ => replaces == ""
    | _ => true
  | .patchWrite handler _ =>
    match s.handlers handler with
    | .writing id body target (group::_) => grants.all (fun field =>
        groupOf field != group || (asked body field).isSome || valueOf target field != .flag true || rowHolds s.db id field)
    | .restoring id target (group::_) => grants.all (fun field =>
        groupOf field != group || valueOf target field != .flag true || rowHolds s.db id field)
    | _ => true
  | .operation (.registerAccount clientId _ _ publicKey _ _ _) =>
    (clientDeviceById s.db clientId).all (fun d => d.publicKey == publicKey || !(d.viewApps || d.launchApps))
  | .operation (.loginDevice clientId _ _ publicKey _ _ _) =>
    (clientDeviceById s.db clientId).all (fun d => d.publicKey == publicKey || !(d.viewApps || d.launchApps))
  | _ => true

def Stage.pairs : Stage → Option Pairing
  | .pairing p | .decided p _ => some p
  | _ => none

-- Every row that a client id can reach has a label and a key, so a device to be
-- replaced is never taken for none.
structure Named (s : State) : Prop where
  rows : ∀ d ∈ s.db.devices.rows, d.clientId ≠ "" → d.label ≠ "" ∧ d.publicKey ≠ ""
  requests : ∀ r ∈ s.requests.rows, r.label ≠ "" ∧ r.publicKey ≠ ""
  pairings : ∀ handler p, (s.handlers handler).pairs = some p → p.label ≠ "" ∧ p.publicKey ≠ ""

def Covered (s : State) : Prop :=
  ∀ d ∈ s.db.devices.rows, Pending s d.id ∨ ∀ field, claims d field = true → (d.id,field) ∈ s.granted

def TookOver (s : State) : Prop :=
  ∀ handler p deviceId replaces, s.handlers handler = .minted p deviceId replaces true → replaces ≠ ""

theorem client_row (found : clientDeviceById db clientId = some d) : d ∈ db.devices.rows ∧ d.clientId = clientId ∧ clientId ≠ "" := by
  have stored := client_device found
  obtain ⟨named,found⟩ := Option.ite_none_left_eq_some.mp found
  refine ⟨stored,?_,named⟩
  have same := List.find?_some found
  exact beq_iff_eq.mp same

theorem takeover_replaces (named : ∀ d ∈ db.devices.rows, d.clientId ≠ "" → d.label ≠ "" ∧ d.publicKey ≠ "")
    (taken : takesOver db clientId publicKey = true) : pairReplaces db clientId publicKey ≠ "" := by
  unfold takesOver at taken
  unfold pairReplaces
  cases found : clientDeviceById db clientId with
  | none => rw [found] at taken; cases taken
  | some d =>
    rw [found] at taken
    obtain ⟨stored,same,nonempty⟩ := client_row found
    obtain ⟨label,key⟩ := named d stored (same ▸ nonempty)
    have replaced : (d.revoked || (d.publicKey != "" && d.publicKey != publicKey)) = true := by
      simp only [Option.any_some,Bool.or_eq_true] at taken ⊢
      rcases taken with revoked | other
      · exact .inl revoked
      · exact .inr (by simpa [key] using other)
    simp only [replaced]
    exact label

-- What a step may do to one row: its flags are covered by new grants, or it
-- carries on from a row of the same id.
theorem covered_of (covered : Covered s)
    (rows : ∀ d ∈ next.db.devices.rows, Pending next d.id ∨ (∀ field, claims d field = true → (d.id,field) ∈ next.granted) ∨
      ∃ old ∈ s.db.devices.rows, old.id = d.id ∧ (Pending s old.id → Pending next old.id) ∧
        (∀ field, claims d field = true → claims old field = true ∨ (old.id,field) ∈ next.granted) ∧
        ∀ field, (old.id,field) ∈ s.granted → (old.id,field) ∈ next.granted) : Covered next := by
  intro d stored
  rcases rows d stored with pending | new | ⟨old,member,same,pends,carried,kept⟩
  · exact .inl pending
  · exact .inr new
  · rw [← same]
    rcases covered old member with pending | listed
    · exact .inl (pends pending)
    · apply Or.inr
      intro field claimed
      rcases carried field claimed with before | now
      · exact kept field (listed field before)
      · exact now

theorem pending_move
    (clear : ∀ p replaces takeover, s.handlers handler = .minted p own replaces takeover → replaces = "")
    (pending : Pending s own) (stage : Stage) : Pending (move s handler stage) own := by
  obtain ⟨other,p,replaces,takeover,holds,some_⟩ := pending
  refine ⟨other,p,replaces,takeover,?_,some_⟩
  have apart : other ≠ handler := by
    rintro rfl
    exact some_ (clear p replaces takeover holds)
  simpa only [move,Function.update_of_ne apart] using holds

theorem tookOver_move (took : TookOver s) (stage : Stage)
    (new : ∀ p deviceId replaces, stage = .minted p deviceId replaces true → replaces ≠ "") : TookOver (move s handler stage) := by
  intro other p deviceId replaces holds
  by_cases same : other = handler
  · rw [same] at holds
    simp only [move,Function.update_self] at holds
    exact new p deviceId replaces holds
  · simp only [move,Function.update_of_ne same] at holds
    exact took other p deviceId replaces holds

theorem pairings_move (named : Named s) (stage : Stage)
    (new : ∀ p, stage.pairs = some p → p.label ≠ "" ∧ p.publicKey ≠ "") : Named (move s handler stage) := by
  refine ⟨named.rows,named.requests,?_⟩
  intro other p holds
  by_cases same : other = handler
  · rw [same] at holds
    simp only [move,Function.update_self] at holds
    exact new p holds
  · simp only [move,Function.update_of_ne same] at holds
    exact named.pairings other p holds

structure SameRow (d d' : Device) : Prop where
  id : d'.id = d.id
  clientId : d'.clientId = d.clientId
  label : d'.label = d.label
  publicKey : d'.publicKey = d.publicKey
  viaLogin : d'.viaLogin = d.viaLogin

theorem sameRow_refl (d : Device) : SameRow d d := ⟨rfl,rfl,rfl,rfl,rfl⟩

def Rewrites (db next : DB) (value : Device → Field → Value) : Prop :=
  ∃ set : Device → Device, next.devices.rows = db.devices.rows.map set ∧
    ∀ d, SameRow d (set d) ∧ ∀ field ∈ grants, valueOf (set d) field = value d field

def onDevice (own : String) (new : Device → Field → Value) (d : Device) (field : Field) : Value :=
  if d.id = own then new d field else valueOf d field

theorem patchDevice_rewrites (db : DB) (own : String) (patch : Patch) (new : Device → Field → Value)
    (same : ∀ d, SameRow d (patch.set d)) (value : ∀ d field, field ∈ grants → valueOf (patch.set d) field = new d field) :
    Rewrites db (db.patchDevice own patch) (onDevice own new) := by
  refine ⟨_,rfl,?_⟩
  intro d
  by_cases chosen : d.id = own
  · have picked : (patch.onlyWhere (fun d => d.id == own)).set d = patch.set d := by simp [Patch.onlyWhere,chosen]
    rw [picked]
    refine ⟨same d,?_⟩
    intro field listed
    rw [onDevice,if_pos chosen]
    exact value d field listed
  · have picked : (patch.onlyWhere (fun d => d.id == own)).set d = d := by simp [Patch.onlyWhere,chosen]
    rw [picked]
    refine ⟨sameRow_refl d,?_⟩
    intro field _
    rw [onDevice,if_neg chosen]

def Carries (db next : DB) (granted : List (String × Field)) : Prop :=
  ∀ d ∈ next.devices.rows, ∃ old ∈ db.devices.rows, SameRow old d ∧
    ∀ field, claims d field = true → claims old field = true ∨ (old.id,field) ∈ granted

theorem claims_iff : claims d field = true ↔ field ∈ grants ∧ (isApp field = true ∨ d.viaLogin = false) ∧ valueOf d field = .flag true := by
  simp only [claims,Bool.and_eq_true,Bool.or_eq_true,List.contains_iff_mem,beq_iff_eq,Bool.not_eq_true']
  exact and_assoc

theorem rewrites_carries (rewrites : Rewrites db next value)
    (carried : ∀ d ∈ db.devices.rows, ∀ field ∈ grants, value d field = .flag true →
      valueOf d field = .flag true ∨ (d.id,field) ∈ granted) : Carries db next granted := by
  obtain ⟨set,rows,sets⟩ := rewrites
  intro d stored
  rw [rows] at stored
  obtain ⟨old,member,rfl⟩ := List.mem_map.mp stored
  obtain ⟨same,values⟩ := sets old
  refine ⟨old,member,same,?_⟩
  intro field claimed
  obtain ⟨listed,counts,held⟩ := claims_iff.mp claimed
  rw [values field listed] at held
  rcases carried old member field listed held with before | now
  · rw [same.viaLogin] at counts
    exact .inl (claims_iff.mpr ⟨listed,counts,before⟩)
  · exact .inr now

theorem subset_carries (rows : ∀ d ∈ next.devices.rows, d ∈ db.devices.rows) : Carries db next granted := by
  intro d stored
  exact ⟨d,rows d stored,sameRow_refl d,fun _ claimed => .inl claimed⟩

structure Kept (s : State) : Prop where
  named : Named s
  covered : Covered s
  took : TookOver s

theorem carried_kept (kept : Kept s)
    (carries : Carries s.db db granted) (grows : ∀ g ∈ s.granted, g ∈ granted) : Kept {s with db := db,granted := granted} := by
  refine ⟨⟨?_,kept.named.requests,kept.named.pairings⟩,?_,kept.took⟩
  · intro d stored client
    obtain ⟨old,member,same,_⟩ := carries d stored
    rw [same.label,same.publicKey]
    exact kept.named.rows old member (same.clientId ▸ client)
  · refine covered_of kept.covered ?_
    intro d stored
    obtain ⟨old,member,same,claimed⟩ := carries d stored
    exact .inr (.inr ⟨old,member,same.id.symm,id,claimed,fun field listed => grows _ listed⟩)

theorem moved_kept (kept : Kept s) (handler : Nat)
    (clear : ∀ p own replaces takeover, s.handlers handler = .minted p own replaces takeover → replaces = "") (stage : Stage) (names : ∀ p, stage.pairs = some p → p.label ≠ "" ∧ p.publicKey ≠ "")
    (other : ∀ p own replaces takeover, stage ≠ .minted p own replaces takeover) : Kept (move s handler stage) := by
  refine ⟨pairings_move kept.named stage names,?_,?_⟩
  · refine covered_of kept.covered ?_
    intro d stored
    refine .inr (.inr ⟨d,stored,rfl,?_,fun _ claimed => .inl claimed,fun _ listed => listed⟩)
    intro pending
    exact pending_move (fun p replaces takeover => clear p d.id replaces takeover) pending stage
  · refine tookOver_move kept.took stage ?_
    intro p own replaces is
    exact absurd is (other p own replaces true)

def filed (browse download upload modify delete share : Bool) (d : Device) : Device :=
  {d with
    canBrowse := browse,canDownload := download,canUpload := upload,
    canModify := modify,canDelete := delete,canShare := share}

theorem filePermissions_rewrites (db : DB) (own : String) (browse download upload modify delete share : Bool) :
    Rewrites db (setDeviceFilePermissions db own browse download upload modify delete share)
      (onDevice own (fun d => valueOf (filed browse download upload modify delete share d))) := by
  have patched := patchDevice_rewrites db own ⟨filed browse download upload modify delete share,fun _ => rfl,fun _ => rfl,fun _ => rfl⟩
    (fun d => valueOf (filed browse download upload modify delete share d)) (fun _ => ⟨rfl,rfl,rfl,rfl,rfl⟩) (fun _ _ _ => rfl)
  unfold setDeviceFilePermissions
  split
  · exact patched
  · exact patched

theorem onDevice_keeps (own : String) : ∀ d field, onDevice own valueOf d field = valueOf d field := by
  intro d field
  unfold onDevice
  split <;> rfl

theorem calm_carries (rewrites : Rewrites db next value)
    (keeps : ∀ d, ∀ field ∈ grants, value d field = .flag true → valueOf d field = .flag true) : Carries db next granted := by
  refine rewrites_carries rewrites ?_
  intro d _ field listed held
  exact .inl (keeps d field listed held)

theorem patch_carries (db : DB) (own : String) (patch : Patch) (same : ∀ d, SameRow d (patch.set d))
    (value : ∀ d field, field ∈ grants → valueOf (patch.set d) field = valueOf d field) :
    Carries db (db.patchDevice own patch) granted := by
  refine calm_carries (patchDevice_rewrites db own patch valueOf same value) ?_
  intro d field _ held
  rwa [onDevice_keeps] at held

theorem jail_carries (db : DB) (own jailRoot : String) : Carries db (setDeviceJail db own jailRoot) granted :=
  patch_carries db own _ (fun _ => ⟨rfl,rfl,rfl,rfl,rfl⟩) (by intro d field listed; cases field <;> first | rfl | simp [grants] at listed)

section
variable (db : DB) (own : String)
include db own

theorem readOnly_carries (on : Bool) : Carries db (setDeviceReadOnly db own on) granted :=
  patch_carries db own _ (fun _ => ⟨rfl,rfl,rfl,rfl,rfl⟩) (by intro d field listed; cases field <;> first | rfl | simp [grants] at listed)

theorem revoke_carries : Carries db (revokeDevice db own) granted :=
  patch_carries db own revoke (fun _ => ⟨rfl,rfl,rfl,rfl,rfl⟩) (by intro d field _; cases field <;> rfl)

theorem reset_rewrites :
    Rewrites db (resetDeviceAccess db own) (onDevice own (fun _ _ => .flag false)) :=
  patchDevice_rewrites db own _ (fun _ _ => .flag false) (fun _ => ⟨rfl,rfl,rfl,rfl,rfl⟩)
    (by intro d field listed; cases field <;> first | rfl | simp [grants] at listed)

theorem reset_carries : Carries db (resetDeviceAccess db own) granted := by
  refine calm_carries (reset_rewrites db own) ?_
  intro d field _ held
  unfold onDevice at held
  split at held
  · cases held
  · exact held

end

theorem deleteUser_carries (deleted : deleteUser db username = .ok next) : Carries db next granted := by
  unfold deleteUser at deleted
  split at deleted
  · cases deleted
  · split at deleted
    · cases deleted
    · cases deleted
      refine calm_carries (show Rewrites _ _ valueOf from ⟨_,rfl,?_⟩) (fun _ _ _ held => held)
      intro d
      simp only [Patch.onlyWhere,revoke]
      split
      · exact ⟨⟨rfl,rfl,rfl,rfl,rfl⟩,by intro field _; cases field <;> rfl⟩
      · exact ⟨sameRow_refl d,fun _ _ => rfl⟩

theorem files_carries (db : DB) (own : String) (browse download upload modify delete share : Bool) (granted : List (String × Field)) :
    Carries db (setDeviceFilePermissions db own browse download upload modify delete share)
      (recordOperation db granted (.setDeviceFilePermissions own browse download upload modify delete share)) := by
  refine rewrites_carries (filePermissions_rewrites db own browse download upload modify delete share) ?_
  intro d _ field listed held
  unfold onDevice at held
  split at held
  · cases field <;> simp_all [grants,valueOf,recordOperation,filed]
  · exact .inl held

section Upsert
variable {hashToken : String → String} {now : Int}

theorem upsert_row
    (paired : upsertDeviceTx hashToken now db clientId label token publicKey viaLogin uuid = .ok (next,deviceId))
    (member : d ∈ next.devices.rows) :
    d ∈ db.devices.rows ∧ d.id ≠ deviceId ∨
    (∃ old, clientDeviceById db clientId = some old ∧ deviceId = old.id ∧ d = rePaired hashToken now old label token publicKey viaLogin) ∨
    clientDeviceById db clientId = none ∧ deviceId = uuid ∧
      d = freshDevice hashToken now uuid clientId label token publicKey viaLogin := by
  obtain ⟨_,_,⟨old,found,same,rows⟩ | ⟨fresh,same,rows⟩⟩ := upsert_cases paired
  · rw [rows] at member
    obtain ⟨before,stored,equal⟩ := List.mem_map.mp member
    by_cases chosen : before.id = old.id
    · have identical := same_device stored (client_device found) chosen
      rw [if_pos (beq_iff_eq.mpr chosen),identical] at equal
      exact .inr (.inl ⟨old,found,same,equal.symm⟩)
    · rw [if_neg (by simpa using chosen)] at equal
      rw [← equal]
      exact .inl ⟨stored,same ▸ chosen⟩
  · by_cases drawn : d.id = uuid
    · have last : freshDevice hashToken now uuid clientId label token publicKey viaLogin ∈ next.devices.rows := by
        rw [rows]
        exact List.mem_append_right _ (List.mem_singleton_self _)
      exact .inr (.inr ⟨fresh,same,same_device member last drawn⟩)
    · rw [rows] at member
      rcases List.mem_append.mp member with stored | new
      · exact .inl ⟨stored,same ▸ drawn⟩
      · rw [List.mem_singleton.mp new] at drawn
        exact absurd rfl drawn

theorem rePaired_claims (claimed : claims (rePaired hashToken now old label token publicKey viaLogin) field = true) :
    claims old field = true := by
  obtain ⟨listed,counts,held⟩ := claims_iff.mp claimed
  apply claims_iff.mpr
  refine ⟨listed,?_⟩
  cases viaLogin <;> cases login : old.viaLogin <;> cases field <;>
    simp_all [grants,isApp,valueOf,rePaired,rePairedGrant]

theorem fresh_claims : claims (freshDevice hashToken now uuid clientId label token publicKey viaLogin) field = false := by
  cases viaLogin <;> cases field <;> rfl

theorem forget_mem (listed : (own,field) ∈ granted) (other : own ≠ gone) :
    (own,field) ∈ forget granted gone := by
  refine List.mem_filter.mpr ⟨listed,?_⟩
  simpa using other

theorem upsert_named (kept : Kept s)
    (paired : upsertDeviceTx hashToken now s.db clientId label token publicKey viaLogin uuid = .ok (next,deviceId))
    (labelled : label ≠ "") (keyed : publicKey ≠ "") :
    ∀ d ∈ next.devices.rows, d.clientId ≠ "" → d.label ≠ "" ∧ d.publicKey ≠ "" := by
  intro d stored client
  rcases upsert_row paired stored with ⟨before,_⟩ | ⟨old,_,_,rfl⟩ | ⟨_,_,rfl⟩
  · exact kept.named.rows d before client
  · exact ⟨labelled,keyed⟩
  · exact ⟨labelled,keyed⟩

theorem stamp_carries (db : DB) (own username : String) (granted : List (String × Field)) :
    Carries db (db.patchDevice own (stampUsername username)) granted :=
  patch_carries db own (stampUsername username) (fun _ => ⟨rfl,rfl,rfl,rfl,rfl⟩) (by intro d field _; cases field <;> rfl)

theorem login_kept (kept : Kept s)
    (done : loginUpsert hashToken now s.db clientId label token publicKey username uuid = .ok (next,deviceId))
    (labelled : label ≠ "") (keyed : publicKey ≠ "")
    (current : (clientDeviceById s.db clientId).all (fun d => d.publicKey == publicKey || !(d.viewApps || d.launchApps)) = true) :
    Kept {s with db := next,granted := installed s.db clientId publicKey uuid s.granted} := by
  obtain ⟨middle,paired,rfl⟩ := loginUpsert_parts done
  have after : Kept {s with db := middle,granted := installed s.db clientId publicKey uuid s.granted} := by
    refine ⟨⟨upsert_named kept paired labelled keyed,kept.named.requests,kept.named.pairings⟩,?_,kept.took⟩
    refine covered_of kept.covered ?_
    intro d stored
    rcases upsert_row paired stored with ⟨before,apart⟩ | ⟨old,found,same,rfl⟩ | ⟨none_,same,rfl⟩
    · refine .inr (.inr ⟨d,before,rfl,id,fun _ claimed => .inl claimed,?_⟩)
      intro field listed
      simp only [installed]
      obtain ⟨_,_,⟨old,found,same,_⟩ | ⟨fresh,same,_⟩⟩ := upsert_cases paired
      · rw [found]
        dsimp only
        split
        · exact listed
        · exact forget_mem listed (same ▸ apart)
      · rw [fresh]
        exact forget_mem listed (same ▸ apart)
    · by_cases pinned : old.publicKey = publicKey
      · refine .inr (.inr ⟨old,client_device found,rfl,id,fun _ claimed => .inl (rePaired_claims claimed),?_⟩)
        intro field listed
        simpa only [installed,found,if_pos pinned] using listed
      · -- the row changes hands: it must not carry app flags
        refine .inr (.inl ?_)
        intro field claimed
        obtain ⟨listed,counts,held⟩ := claims_iff.mp claimed
        cases field <;> simp_all [grants,isApp,valueOf,rePaired]
    · refine .inr (.inl ?_)
      intro field claimed
      rw [fresh_claims] at claimed
      cases claimed
  have stamped := stamp_carries middle deviceId username (installed s.db clientId publicKey uuid s.granted)
  have carried := carried_kept after stamped (fun _ listed => listed)
  exact carried

theorem mint_kept (kept : Kept s) (holds : s.handlers handler = .decided p replaces)
    (current : (pairReplaces s.db p.clientId p.publicKey == "" || replaces != "") = true)
    (paired : upsertDeviceTx hashToken now s.db p.clientId p.label token p.publicKey false uuid = .ok (next,deviceId)) :
    Kept {move s handler (.minted p deviceId replaces (takesOver s.db p.clientId p.publicKey)) with
      db := next
      granted := if takesOver s.db p.clientId p.publicKey || (clientDeviceById s.db p.clientId).isNone
        then forget s.granted deviceId else s.granted} := by
  obtain ⟨labelled,keyed⟩ := kept.named.pairings handler p (by rw [holds]; rfl)
  have replaced : takesOver s.db p.clientId p.publicKey = true → replaces ≠ "" := by
    intro taken
    have now_ := takeover_replaces kept.named.rows taken
    simpa [now_] using current
  have waits : ∀ q own other takeover, s.handlers handler = .minted q own other takeover → other = "" := by
    simp [holds]
  refine ⟨⟨upsert_named kept paired labelled keyed,kept.named.requests,?_⟩,?_,?_⟩
  · exact (pairings_move kept.named (.minted p deviceId replaces _) nofun).pairings
  · refine covered_of kept.covered ?_
    intro d stored
    rcases upsert_row paired stored with ⟨before,apart⟩ | ⟨old,found,same,rfl⟩ | ⟨none_,same,rfl⟩
    · refine .inr (.inr ⟨d,before,rfl,?_,fun _ claimed => .inl claimed,?_⟩)
      · intro pending
        exact pending_move (fun q other takeover => waits q d.id other takeover) pending _
      · intro field listed
        split
        · exact forget_mem listed apart
        · exact listed
    · by_cases taken : takesOver s.db p.clientId p.publicKey = true
      · -- the reset is owed from here on
        refine .inl ⟨handler,p,replaces,takesOver s.db p.clientId p.publicKey,?_,replaced taken⟩
        simp only [move,Function.update_self,same]
        rfl
      · refine .inr (.inr ⟨old,client_device found,rfl,?_,fun _ claimed => .inl (rePaired_claims claimed),?_⟩)
        · intro pending
          exact pending_move (fun q other takeover => waits q old.id other takeover) pending _
        · intro field listed
          simpa [taken,found] using listed
    · refine .inr (.inl ?_)
      intro field claimed
      rw [fresh_claims] at claimed
      cases claimed
  · refine tookOver_move kept.took _ ?_
    intro q own other is
    obtain ⟨_,_,rfl,taken⟩ := Stage.minted.inj is
    exact replaced taken

end Upsert

theorem row_holds (stored : d ∈ db.devices.rows) (holds : rowHolds db d.id field = true) :
    valueOf d field = .flag true := by
  unfold rowHolds at holds
  cases found : getDeviceById db d.id with
  | none =>
    have absent := List.find?_eq_none.mp found d stored
    simp at absent
  | some other =>
    rw [found] at holds
    have named : other.id = d.id := by simpa using List.find?_some found
    have same := same_device (List.mem_of_find?_eq_some found) stored named
    rw [same] at holds
    simpa using holds

theorem written_carries
    (rewrites : Rewrites db next (onDevice own (fun d field =>
      if groupOf field = group then (asked b field).getD (valueOf target field) else valueOf d field)))
    (current : grants.all (fun field => groupOf field != group || (asked b field).isSome || valueOf target field != .flag true ||
      rowHolds db own field) = true) : Carries db next (recordPatch granted own b group) := by
  refine rewrites_carries rewrites ?_
  intro d stored field listed held
  unfold onDevice at held
  split at held
  · rename_i chosen
    dsimp only at held
    split at held
    · rename_i inGroup
      cases asks : asked b field with
      | some value =>
        rw [asks] at held
        have on : value = .flag true := held
        apply Or.inr
        refine List.mem_append_left _ (List.mem_map.mpr ⟨field,List.mem_filter.mpr ⟨listed,?_⟩,by rw [chosen]⟩)
        simp [inGroup,asks,on]
      | none =>
        rw [asks] at held
        have read : valueOf target field = .flag true := held
        have now_ := List.all_eq_true.mp current field listed
        rw [← chosen] at now_
        exact .inl (row_holds stored (by simpa [inGroup,asks,read] using now_))
    · exact .inl held
  · exact .inl held

theorem recorded_grows (granted : List (String × Field)) (own : String) (b : Body) (group : Group) :
    ∀ g ∈ granted, g ∈ recordPatch granted own b group := by
  intro g listed
  exact List.mem_append_right _ listed

def apped (viewApps launchApps : Bool) (d : Device) : Device := {d with viewApps := viewApps,launchApps := launchApps}

theorem appPermissions_rewrites (db : DB) (own : String) (viewApps launchApps : Bool) :
    Rewrites db (setDeviceAppPermissions db own viewApps launchApps) (onDevice own (fun d => valueOf (apped viewApps launchApps d))) :=
  patchDevice_rewrites db own ⟨apped viewApps launchApps,fun _ => rfl,fun _ => rfl,fun _ => rfl⟩ _
    (fun _ => ⟨rfl,rfl,rfl,rfl,rfl⟩) (fun _ _ _ => rfl)

theorem rewrites_congr (rewrites : Rewrites db next value)
    (same : ∀ d, ∀ field ∈ grants, value d field = other d field) : Rewrites db next other := by
  obtain ⟨set,rows,sets⟩ := rewrites
  refine ⟨set,rows,?_⟩
  intro d
  refine ⟨(sets d).1,?_⟩
  intro field listed
  exact ((sets d).2 field listed).trans (same d field listed)

theorem setJail_carries (wrote : DevicePatches.setJail env db own jailRoot = .ok next) : Carries db next granted := by
  unfold DevicePatches.setJail at wrote
  cases valid : DevicePatches.validateJailRoot env jailRoot with
  | error message => rw [valid] at wrote; cases wrote
  | ok stored =>
    rw [valid] at wrote
    cases wrote
    exact jail_carries db own stored

theorem write_carries (granted : List (String × Field))
    (wrote : DevicePatches.write env db own target b group = .ok next)
    (current : grants.all (fun field => groupOf field != group || (asked b field).isSome || valueOf target field != .flag true ||
      rowHolds db own field) = true) : Carries db next (recordPatch granted own b group) := by
  cases group with
  | jail =>
    simp only [DevicePatches.write] at wrote
    split at wrote
    · cases wrote
      exact subset_carries (fun _ stored => stored)
    · exact setJail_carries wrote
  | readOnly =>
    cases wrote
    exact readOnly_carries db own _
  | apps =>
    cases wrote
    refine written_carries (rewrites_congr (appPermissions_rewrites db own _ _) ?_) current
    intro d field listed
    unfold onDevice
    split
    · cases field <;> simp [groupOf,asked,valueOf,apped]
    · rfl
  | files =>
    cases wrote
    refine written_carries (rewrites_congr (filePermissions_rewrites db own _ _ _ _ _ _) ?_) current
    intro d field listed
    unfold onDevice
    split
    · cases field <;> simp [groupOf,asked,valueOf,filed]
    · rfl

theorem restored_carries
    (rewrites : Rewrites db next (onDevice own (fun d field => if groupOf field = group then valueOf target field else valueOf d field)))
    (current : grants.all (fun field => groupOf field != group || valueOf target field != .flag true || rowHolds db own field) = true) :
    Carries db next granted := by
  refine rewrites_carries rewrites ?_
  intro d stored field listed held
  unfold onDevice at held
  split at held
  · rename_i chosen
    dsimp only at held
    split at held
    · rename_i inGroup
      have now_ := List.all_eq_true.mp current field listed
      rw [← chosen] at now_
      exact .inl (row_holds stored (by simpa [inGroup,held] using now_))
    · exact .inl held
  · exact .inl held

theorem restore_carries (env : Env) (db : DB) (own : String) (target : Device) (group : Group)
    (current : grants.all (fun field => groupOf field != group || valueOf target field != .flag true || rowHolds db own field) = true) :
    Carries db (DevicePatches.restore env db own target group) granted := by
  cases group with
  | jail =>
    simp only [DevicePatches.restore]
    cases valid : DevicePatches.setJail env db own target.jailRoot with
    | error message => exact subset_carries (fun _ stored => stored)
    | ok next => exact setJail_carries valid
  | readOnly => exact readOnly_carries db own _
  | apps =>
    refine restored_carries (rewrites_congr (appPermissions_rewrites db own _ _) ?_) current
    intro d field listed
    unfold onDevice
    split
    · cases field <;> simp [groupOf,valueOf,apped]
    · rfl
  | files =>
    refine restored_carries (rewrites_congr (filePermissions_rewrites db own _ _ _ _ _ _) ?_) current
    intro d field listed
    unfold onDevice
    split
    · cases field <;> simp [groupOf,valueOf,filed]
    · rfl

theorem sanitizeLabel_nonempty (text : String) : sanitizeLabel text ≠ "" := by
  unfold sanitizeLabel
  dsimp only
  split
  · decide
  · rename_i some_
    intro empty
    exact some_ (String.ofList_eq_empty_iff.mp empty)

theorem requests_kept (kept : Kept s)
    (rows : ∀ r ∈ requests.rows, r.label ≠ "" ∧ r.publicKey ≠ "") : Kept {s with requests := requests} :=
  ⟨⟨kept.named.rows,rows,kept.named.pairings⟩,kept.covered,kept.took⟩

theorem operation_kept (kept : Kept s) (calls : direct op = true)
    (current : Current s (.operation op) = true) (done : exec hashToken s.now s.db op = .ok db) :
    Kept {s with db := db,granted := recordOperation s.db s.granted op} := by
  have calm : Carries s.db db s.granted → Kept {s with db := db,granted := s.granted} :=
    fun carries => carried_kept kept carries (fun _ listed => listed)
  cases op with
  | createDevice own label token | upsertDevice clientId label token publicKey viaLogin uuid | resetDeviceAccess own
  | setDeviceAppPermissions own viewApps launchApps => cases calls
  | registerAccount clientId label token publicKey username passwordHash uuid =>
    simp only [direct,Bool.and_eq_true,bne_iff_ne] at calls
    obtain ⟨deviceId,registered⟩ := map_fst_ok done
    obtain ⟨_,users,_,logged⟩ := registerAccount_parts registered
    have before : Kept {s with db := {s.db with users := users}} :=
      carried_kept kept (subset_carries (fun _ stored => stored)) (fun _ listed => listed)
    have after := login_kept before logged calls.1 calls.2 current
    exact after
  | loginDevice clientId label token publicKey username passwordHash uuid =>
    simp only [direct,Bool.and_eq_true,bne_iff_ne] at calls
    obtain ⟨deviceId,logged⟩ := map_fst_ok done
    exact login_kept kept (loginDevice_parts logged).2 calls.1 calls.2 current
  | setDeviceJail own jailRoot => cases done; exact calm (jail_carries s.db own jailRoot)
  | setDeviceReadOnly own on => cases done; exact calm (readOnly_carries s.db own on)
  | setDeviceFilePermissions own browse download upload modify delete share =>
    cases done
    refine carried_kept kept (files_carries s.db own browse download upload modify delete share s.granted) ?_
    intro g listed
    exact List.mem_append_right _ listed
  | revokeDevice own => cases done; exact calm (revoke_carries s.db own)
  | deleteDevice own =>
    cases done
    refine calm (subset_carries ?_)
    intro d stored
    exact (List.mem_filter.mp stored).1
  | createUser username passwordHash =>
    obtain ⟨_,_,rfl⟩ := createUser_parts done
    exact calm (subset_carries (fun _ stored => stored))
  | deleteUser username => exact calm (deleteUser_carries done)
  | createShareToken tokenHash path deviceId expires =>
    obtain ⟨_,_,rfl⟩ := createShareToken_parts done
    exact calm (subset_carries (fun _ stored => stored))
  | consumeShareToken tokenHash =>
    cases done
    refine calm (subset_carries ?_)
    intro d stored
    unfold consumeShareTokenFor at stored
    split at stored <;> exact stored
  | deleteShareToken tokenHash | sweepExpiredShareTokens => cases done; exact calm (subset_carries (fun _ stored => stored))

theorem browse_reset (stored : d ∈ (resetDeviceAccess db own).devices.rows) (named : d.id = own) :
    browseOnly d = true := by
  obtain ⟨old,_,rfl⟩ := List.mem_map.mp (show d ∈ List.map _ db.devices.rows from stored)
  have chosen : old.id = own := by
    rwa [Patch.id] at named
  simp [Patch.onlyWhere,chosen,browseOnly,grants,valueOf]

theorem reset_kept (kept : Kept s) (holds : s.handlers handler = .minted p own replaces takeover) :
    Kept (move {s with db := if replaces = "" then s.db else resetDeviceAccess s.db own} handler (.limiting p own)) := by
  have carries : Carries s.db (if replaces = "" then s.db else resetDeviceAccess s.db own) s.granted := by
    split
    · exact subset_carries (fun _ stored => stored)
    · exact reset_carries s.db own
  have names := (carried_kept kept carries (fun _ listed => listed)).named
  refine ⟨pairings_move names _ nofun,?_,?_⟩
  · refine covered_of kept.covered ?_
    intro d stored
    obtain ⟨old,member,same,claimed⟩ := carries d stored
    by_cases named : d.id = own ∧ replaces ≠ ""
    · -- the row that this handler owed the defaults
      refine .inr (.inl ?_)
      intro field claims_
      simp only [move,if_neg named.2] at stored
      have plain := browse_reset stored named.1
      obtain ⟨listed,_,held⟩ := claims_iff.mp claims_
      simp only [browseOnly,Bool.and_eq_true] at plain
      have off := List.all_eq_true.mp plain.2 field listed
      rw [held] at off
      cases off
    · refine .inr (.inr ⟨old,member,same.id.symm,?_,claimed,fun _ listed => listed⟩)
      rintro ⟨other,q,label,took,is,some_⟩
      refine ⟨other,q,label,took,?_,some_⟩
      have apart : other ≠ handler := by
        rintro rfl
        rw [holds] at is
        obtain ⟨_,owned,same',_⟩ := Stage.minted.inj is
        exact named ⟨same.id.trans owned.symm,same' ▸ some_⟩
      simpa only [move,Function.update_of_ne apart] using is
  · exact tookOver_move kept.took _ nofun

theorem claimed_named (kept : Kept s) (claimed : claimApprovedPairRequest now s.requests own = some (requests,r)) :
    (∀ q ∈ requests.rows, q.label ≠ "" ∧ q.publicKey ≠ "") ∧ r.label ≠ "" ∧ r.publicKey ≠ "" := by
  have rows : ∀ q ∈ requests.rows, q.label ≠ "" ∧ q.publicKey ≠ "" := by
    intro q stored
    rcases claimed_row claimed stored with before | ⟨old,before,_,_,_,rfl⟩
    · exact kept.named.requests q before
    · exact kept.named.requests old before
  obtain ⟨_,_,_,_,_,_,stored⟩ := claimed_request claimed
  exact ⟨rows,rows r stored⟩

section Run
variable {hashToken : String → String}

theorem patchWrite_kept (kept : Kept s) (current : Current s (.patchWrite handler env) = true)
    (moved : step hashToken s (.patchWrite handler env) = some next) : Kept next := by
  simp only [step] at moved
  split at moved
  · rename_i own b target group rest holds
    simp only [Current,holds] at current
    split at moved
    · cases Option.some.inj moved
      exact moved_kept kept handler (by simp [holds]) .finished nofun (by simp)
    · rename_i db wrote
      cases Option.some.inj moved
      have written := carried_kept kept (write_carries s.granted wrote current) (recorded_grows s.granted own b group)
      have after := moved_kept written handler (by simp [holds]) (.writing own b target rest) nofun (by simp)
      exact after
  · rename_i own target group rest holds
    simp only [Current,holds] at current
    cases Option.some.inj moved
    have restored := carried_kept kept (restore_carries env s.db own target group current) (fun _ listed => listed)
    have after := moved_kept restored handler (by simp [holds]) (.restoring own target rest) nofun (by simp)
    exact after
  · cases moved

theorem fault_kept (kept : Kept s) (current : Current s (.fault handler) = true)
    (moved : step hashToken s (.fault handler) = some next) : Kept next := by
  have clear : ∀ p own replaces takeover, s.handlers handler = .minted p own replaces takeover → replaces = "" := by
    intro p own replaces takeover holds
    simpa only [Current,holds,beq_iff_eq] using current
  have revoked : ∀ own, Kept (move {s with db := revokeDevice s.db own} handler .finished) := by
    intro own
    have after := moved_kept (carried_kept kept (revoke_carries s.db own) (fun _ listed => listed)) handler clear .finished
      nofun (by simp)
    exact after
  have ends : ∀ stage : Stage, stage.pairs = none → (∀ p other replaces takeover, stage ≠ .minted p other replaces takeover) →
      Kept (move s handler stage) := by
    intro stage none_ other
    refine moved_kept kept handler clear stage ?_ other
    intro p is
    rw [none_] at is
    cases is
  simp only [step] at moved
  split at moved
  · cases Option.some.inj moved; exact revoked _
  · cases Option.some.inj moved; exact revoked _
  · cases Option.some.inj moved
    split
    · exact ends _ rfl (by simp)
    · exact ends _ rfl (by simp)
  all_goals cases Option.some.inj moved; exact ends _ rfl (by simp)

theorem step_kept (kept : Kept s) (current : Current s event = true) (moved : step hashToken s event = some next) :
    Kept next := by
  cases event with
  | clock seconds =>
    cases Option.some.inj moved
    exact ⟨⟨kept.named.rows,kept.named.requests,kept.named.pairings⟩,kept.covered,kept.took⟩
  | operation op =>
    obtain ⟨calls,moved⟩ := Option.ite_none_right_eq_some.mp moved
    split at moved
    · cases Option.some.inj moved
      exact kept
    · rename_i db done
      cases Option.some.inj moved
      exact operation_kept kept calls current done
  | createRequest own deviceLabel clientId publicKey commit ip startedAt =>
    obtain ⟨keyed,⟨⟩⟩ := Option.ite_none_left_eq_some.mp moved
    refine requests_kept kept ?_
    intro r stored
    cases created : createPairRequest s.now s.requests ⟨own,sanitizeLabel deviceLabel,clientId,publicKey,"",commit,ip,
        .committed,startedAt,startedAt + pairRequestTTL⟩ with
    | error e => rw [created] at stored; exact kept.named.requests r stored
    | ok requests =>
      rw [created] at stored
      have rows := created_rows created
      simp only [Except.toOption,Option.getD_some,rows] at stored
      rcases List.mem_append.mp stored with before | new
      · exact kept.named.requests r (List.mem_filter.mp before).1
      · cases List.mem_singleton.mp new
        exact ⟨sanitizeLabel_nonempty deviceLabel,keyed⟩
  | revealRequest own nonce =>
    simp only [step] at moved
    split at moved
    · cases Option.some.inj moved
      exact kept
    · rename_i requests shown revealed
      cases Option.some.inj moved
      refine requests_kept kept ?_
      intro r stored
      rcases revealed_row revealed stored with before | ⟨old,before,_,_,_,rfl⟩
      · exact kept.named.requests r before
      · exact kept.named.requests old before
  | decideRequest own approve =>
    cases Option.some.inj moved
    refine requests_kept kept ?_
    intro r stored
    cases decided : decidePairRequest s.now s.requests own approve with
    | error e => rw [decided] at stored; exact kept.named.requests r stored
    | ok requests =>
      rw [decided] at stored
      rcases decided_row decided stored with before | ⟨old,before,_,_,_,rfl⟩
      · exact kept.named.requests r before
      · exact kept.named.requests old before
  | pairByCode handler clientId label publicKey jailRoot readOnly =>
    simp only [step] at moved
    split at moved
    · rename_i holds
      obtain ⟨keyed,⟨⟩⟩ := Option.ite_none_left_eq_some.mp moved
      refine moved_kept kept handler (by simp [holds]) _ ?_ (by simp)
      intro p is
      cases Option.some.inj is
      refine ⟨?_,keyed⟩
      dsimp only
      split
      · decide
      · assumption
    · cases moved
  | claimRequest handler own =>
    simp only [step] at moved
    split at moved
    · rename_i holds
      split at moved
      · cases Option.some.inj moved
        exact moved_kept kept handler (by simp [holds]) .finished (by simp [Stage.pairs]) (by simp)
      · rename_i requests r claimed
        cases Option.some.inj moved
        obtain ⟨rows,named⟩ := claimed_named kept claimed
        refine moved_kept (requests_kept kept rows) handler (by simp [holds]) _ ?_ (by simp)
        intro p is
        cases Option.some.inj is
        exact named
    · cases moved
  | checkReplaces handler =>
    simp only [step] at moved
    split at moved
    · rename_i p holds
      cases Option.some.inj moved
      refine moved_kept kept handler (by simp [holds]) _ ?_ (by simp)
      intro q is
      cases Option.some.inj is
      exact kept.named.pairings handler p (by rw [holds]; rfl)
    · cases moved
  | mint handler token uuid =>
    simp only [step] at moved
    split at moved
    · rename_i p replaces holds
      split at moved
      · cases Option.some.inj moved
        exact moved_kept kept handler (by simp [holds]) .finished (by simp [Stage.pairs]) (by simp)
      · rename_i db deviceId paired
        cases Option.some.inj moved
        exact mint_kept kept holds (by simpa only [Current,holds] using current) paired
    · cases moved
  | reset handler =>
    simp only [step] at moved
    split at moved
    · rename_i p own replaces takeover holds
      cases Option.some.inj moved
      exact reset_kept kept holds
    · cases moved
  | limit handler =>
    simp only [step] at moved
    split at moved
    · rename_i p own holds
      cases Option.some.inj moved
      have carries : Carries s.db (if p.jailRoot = "" then s.db else setDeviceJail s.db own p.jailRoot) s.granted := by
        split
        · exact subset_carries (fun _ stored => stored)
        · exact jail_carries s.db own p.jailRoot
      have after := moved_kept (carried_kept kept carries (fun _ listed => listed)) handler (by simp [holds]) (.sealing p own)
        (by simp [Stage.pairs]) (by simp)
      exact after
    · cases moved
  | restrict handler =>
    simp only [step] at moved
    split at moved
    · rename_i p own holds
      cases Option.some.inj moved
      have carries : Carries s.db (if p.readOnly then setDeviceReadOnly s.db own true else s.db) s.granted := by
        split
        · exact readOnly_carries s.db own true
        · exact subset_carries (fun _ stored => stored)
      have after := moved_kept (carried_kept kept carries (fun _ listed => listed)) handler (by simp [holds]) .finished
        (by simp [Stage.pairs]) (by simp)
      exact after
    · cases moved
  | patch handler caller own body =>
    simp only [step] at moved
    split at moved
    · rename_i holds
      have ends : ∀ stage : Stage, stage.pairs = none → (∀ p other replaces takeover, stage ≠ .minted p other replaces takeover) →
          Kept (move s handler stage) := by
        intro stage none_ other
        refine moved_kept kept handler (by simp [holds]) stage ?_ other
        intro p is
        rw [none_] at is
        cases is
      split at moved
      · cases Option.some.inj moved; exact ends _ rfl (by simp)
      · split at moved
        · cases Option.some.inj moved; exact ends _ rfl (by simp)
        · split at moved
          all_goals cases Option.some.inj moved; exact ends _ rfl (by simp)
    · cases moved
  | patchWrite handler env => exact patchWrite_kept kept current moved
  | patchDone handler =>
    simp only [step] at moved
    split at moved
    · rename_i holds
      cases Option.some.inj moved
      exact moved_kept kept handler (by simp [holds]) .finished (by simp [Stage.pairs]) (by simp)
    · rename_i holds
      cases Option.some.inj moved
      exact moved_kept kept handler (by simp [holds]) .finished (by simp [Stage.pairs]) (by simp)
    · cases moved
  | fault handler => exact fault_kept kept current moved

def IsCurrent (s : State) (event : Event) : Prop := Current s event = true

instance (s : State) (event : Event) : Decidable (IsCurrent s event) := inferInstanceAs (Decidable (Current s event = true))

theorem initial_kept (now : Int) : Kept (initial now) := by
  refine ⟨⟨?_,?_,?_⟩,?_,?_⟩
  · intro d stored
    cases stored
  · intro r stored
    cases stored
  · intro handler p is
    cases is
  · intro d stored
    cases stored
  · intro handler p own replaces is
    cases is

theorem run_kept (current : Runs.Every (step hashToken) IsCurrent (initial now) events)
    (ran : Runs.run (step hashToken) (initial now) events = some s) : Kept s := by
  refine Runs.run_preserves_when Kept ?_ (initial_kept now) current ran
  intro before event next kept meets moved
  exact step_kept kept meets moved

-- A device that is not a login session holds a flag beyond browsing only if an
-- administrator set it since the key was installed, and a pairing that took a
-- row over leaves it browse-only.
theorem no_inherited_grants {s : State} (current : Runs.Every (step hashToken) IsCurrent (initial now) events)
    (ran : Runs.run (step hashToken) (initial now) events = some s) :
    (∀ d ∈ s.db.devices.rows, d.viaLogin = false → ¬ Pending s d.id →
      ∀ field ∈ grants, valueOf d field = .flag true → (d.id,field) ∈ s.granted) ∧
    ∀ handler p own replaces next, s.handlers handler = .minted p own replaces true →
      step hashToken s (.reset handler) = some next → ∀ d ∈ next.db.devices.rows, d.id = own → browseOnly d = true := by
  have kept := run_kept current ran
  refine ⟨?_,?_⟩
  · intro d stored paired settled field listed held
    rcases kept.covered d stored with pending | covered
    · exact absurd pending settled
    · exact covered field (claims_iff.mpr ⟨listed,.inr paired,held⟩)
  · intro handler p own replaces next holds moved d stored named
    have owes := kept.took handler p own replaces holds
    simp only [step,holds,if_neg owes] at moved
    cases Option.some.inj moved
    exact browse_reset stored named

end Run

def pairs (handler : Nat) (publicKey token uuid : String) : List Event :=
  [.pairByCode handler "phone" "Phone" publicKey "" false,.checkReplaces handler,.mint handler token uuid]

def settles (handler : Nat) : List Event := [.reset handler,.limit handler,.restrict handler]

def allowed : Event := .operation (.setDeviceFilePermissions "d1" true true false false false false)

theorem other_key_resets : ∃ s next d, Runs.run (step id) (initial 0) (pairs 0 "key" "t1" "d1" ++ settles 0 ++ [allowed] ++ pairs 1 "other" "t2" "d2") = some s ∧
    step id s (.reset 1) = some next ∧ next.db.devices.rows = [d] ∧ browseOnly d = true := by
  have current : Runs.Every (step id) IsCurrent (initial 0) (pairs 0 "key" "t1" "d1" ++ settles 0 ++ [allowed] ++ pairs 1 "other" "t2" "d2") := by
    decide
  have reached : ∃ s p replaces next d,
      Runs.run (step id) (initial 0) (pairs 0 "key" "t1" "d1" ++ settles 0 ++ [allowed] ++ pairs 1 "other" "t2" "d2") = some s ∧
      s.handlers 1 = .minted p "d1" replaces true ∧ step id s (.reset 1) = some next ∧ next.db.devices.rows = [d] ∧ d.id = "d1" :=
    ⟨_,_,_,_,_,rfl,rfl,rfl,rfl,rfl⟩
  obtain ⟨s,p,replaces,next,d,ran,holds,moved,only,named⟩ := reached
  have stored : d ∈ next.db.devices.rows := by rw [only]; exact List.mem_singleton_self d
  exact ⟨s,next,d,ran,moved,only,(no_inherited_grants current ran).2 1 p "d1" replaces next holds moved d stored named⟩

-- The device is revoked between the decision of its new pairing and the upsert:
-- it comes back with the grant that the revocation ended.
theorem revoked_grant_inherited : ∃ s next p d, Runs.run (step id) (initial 0) (pairs 0 "key" "t1" "d1" ++ settles 0 ++
      [allowed,.pairByCode 1 "phone" "Phone" "key" "" false,.checkReplaces 1,.operation (.revokeDevice "d1"),.mint 1 "t2" "d2"]) = some s ∧
    s.handlers 1 = .minted p "d1" "" true ∧ Runs.run (step id) s (settles 1) = some next ∧ next.db.devices.rows = [d] ∧
    d.revoked = false ∧ d.viaLogin = false ∧ browseOnly d = false ∧ valueOf d .download = .flag true ∧
    (d.id,Field.download) ∉ next.granted :=
  ⟨_,_,_,_,rfl,rfl,rfl,rfl,rfl,rfl,rfl,rfl,by decide⟩

end RemoteFileExplorer.PairGrants
