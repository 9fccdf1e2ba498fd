import RemoteFileExplorer.Accounts

namespace RemoteFileExplorer.DeviceKeys
open Tables Devices
open Accounts (Login getUserByUsername calledAlone)
open ShareAuthority (same_device client_device upsert_cases)

-- A login request between its steps: the password is checked, then the device
-- proof, and then the session is written.
structure Pending where
  login : Login
  proved : Bool
  deriving DecidableEq, Repr

structure State where
  db : DB
  now : Int
  pending : List Pending
  deriving DecidableEq

-- `signed` says that the nonce was fresh and the signature is one of the key.
inductive Event where
  | store (op : Operation)
  | checkPassword (username password clientId label publicKey : String)
  | checkProof (i : Nat) (signed : Bool)
  | commitLogin (i : Nat) (token uuid : String)
  | clock (seconds : Nat)
  deriving DecidableEq, Repr

def initial (now : Int) : State := ⟨.empty,now,[]⟩

def devicePublicKeyByClientId (db : DB) (clientId : String) : String := (clientDeviceById db clientId).elim "" Device.publicKey

-- The policy of the login handler: a different key that is pinned is refused.
def verifyDeviceProof (db : DB) (clientId publicKey : String) (signed : Bool) : Bool :=
  let pinned := devicePublicKeyByClientId db clientId
  publicKey != "" && signed && (pinned == "" || pinned == publicKey)

section System
variable (hashToken : String → String) (verify : String → String → Bool)

def passwordChecked (db : DB) (username password clientId label publicKey : String) : Option Login :=
  match getUserByUsername db username with
  | none => none
  | some user =>
    if username ≠ "" ∧ password ≠ "" ∧ verify user.passwordHash password = true then some ⟨username,password,clientId,label,publicKey,user⟩ else none

def loginResult (s : State) (login : Login) (token uuid : String) : Except StoreError (DB × String) :=
  let label := if login.label = "" then "unnamed-device" else login.label
  loginDevice hashToken s.now s.db login.clientId label token login.publicKey login.username login.user.passwordHash uuid

def step (s : State) : Event → Option State
  | .store op => if calledAlone op then some {s with db := ((exec hashToken s.now s.db op).toOption).getD s.db} else none
  | .checkPassword username password clientId label publicKey =>
    some ((passwordChecked verify s.db username password clientId label publicKey).elim s fun login => {s with pending := s.pending ++ [⟨login,false⟩]})
  | .checkProof i signed =>
    match s.pending[i]? with
    | some ⟨login,false⟩ =>
      if verifyDeviceProof s.db login.clientId login.publicKey signed then some {s with pending := s.pending.set i ⟨login,true⟩}
      else some {s with pending := s.pending.eraseIdx i}
    | _ => none
  | .commitLogin i token uuid =>
    match s.pending[i]? with
    | some ⟨login,true⟩ =>
      match loginResult hashToken s login token uuid with
      | .ok (db,_) => some {s with db := db,pending := s.pending.eraseIdx i}
      | .error _ => some {s with pending := s.pending.eraseIdx i}
    | _ => none
  | .clock seconds => some {s with now := s.now + seconds}

end System

def pins : Operation → Option (String × String)
  | .upsertDevice clientId _ _ publicKey _ _ => some (clientId,publicKey)
  | .registerAccount clientId _ _ publicKey _ _ _ => some (clientId,publicKey)
  | .loginDevice clientId _ _ publicKey _ _ _ => some (clientId,publicKey)
  | _ => none

def written (s : State) : Event → Option (String × String) × List Pending
  | .store op => (pins op,s.pending)
  | .commitLogin i _ _ => (s.pending[i]?.map fun p => (p.login.clientId,p.login.publicKey),s.pending.eraseIdx i)
  | _ => (none,s.pending)

-- No other key is pinned for a device while a login of that device stands
-- between its proof and its transaction.
def Undisturbed (s : State) (event : Event) : Prop :=
  ∀ clientId publicKey, (written s event).1 = some (clientId,publicKey) → clientId ≠ "" →
    ∀ p ∈ (written s event).2, p.proved = true → p.login.clientId = clientId → p.login.publicKey = publicKey

section Rows
variable {hashToken : String → String} {now : Int} {db next : DB}

def Keys (db next : DB) (pinned : Option (String × String)) : Prop :=
  ∀ d ∈ next.devices.rows, d.clientId ≠ "" →
    (∃ old ∈ db.devices.rows, old.clientId = d.clientId ∧ old.publicKey = d.publicKey) ∨ pinned = some (d.clientId,d.publicKey)

theorem keys_same (same : next.devices = db.devices) : Keys db next pinned := by
  intro d member _
  rw [same] at member
  exact .inl ⟨d,member,rfl,rfl⟩

theorem keys_patchDevices (patch : Patch) (keeps : ∀ d, (patch.set d).publicKey = d.publicKey) : Keys db (db.patchDevices patch) pinned := by
  intro d member _
  obtain ⟨old,stored,rfl⟩ := List.mem_map.mp member
  exact .inl ⟨old,stored,(patch.clientId old).symm,(keeps old).symm⟩

theorem onlyWhere_key {patch : Patch} (keeps : ∀ d, (patch.set d).publicKey = d.publicKey) (chosen : Device → Bool) (d : Device) :
    ((patch.onlyWhere chosen).set d).publicKey = d.publicKey := by
  simp only [Patch.onlyWhere]
  split
  · exact keeps d
  · rfl

theorem keys_patchDevice (id : String) (patch : Patch) (keeps : ∀ d, (patch.set d).publicKey = d.publicKey) :
    Keys db (db.patchDevice id patch) pinned := keys_patchDevices _ (onlyWhere_key keeps _)

theorem keys_upsert (paired : upsertDeviceTx hashToken now db clientId label token publicKey viaLogin uuid = .ok (next,deviceId)) :
    Keys db next (some (clientId,publicKey)) := by
  obtain ⟨_,_,ended⟩ := upsert_cases paired
  intro d member _
  rcases ended with ⟨existing,found,_,rows⟩ | ⟨_,_,rows⟩
  · rw [rows] at member
    obtain ⟨old,stored,rfl⟩ := List.mem_map.mp member
    by_cases same : old.id = existing.id
    · have mine : old = existing := same_device stored (client_device found) same
      have named : existing.clientId = clientId := by
        obtain ⟨_,found⟩ := Option.ite_none_left_eq_some.mp found
        simpa using List.find?_some found
      right
      simp [rePaired,mine,named]
    · left
      simp only [beq_iff_eq,same,if_false]
      exact ⟨old,stored,rfl,rfl⟩
  · rw [rows] at member
    rcases List.mem_append.mp member with stored | fresh
    · exact .inl ⟨d,stored,rfl,rfl⟩
    · right
      rw [List.mem_singleton.mp fresh]
      rfl

section
variable (logged : loginUpsert hashToken now db clientId label token publicKey username uuid = .ok (next,deviceId))
include logged

theorem keys_login :
    Keys db next (some (clientId,publicKey)) := by
  obtain ⟨middle,upserted,rfl⟩ := loginUpsert_parts logged
  intro d member named
  obtain ⟨old,stored,rfl⟩ := List.mem_map.mp member
  have key : (((stampUsername username).onlyWhere (fun d => d.id == deviceId)).set old).publicKey = old.publicKey := onlyWhere_key (fun _ => rfl) _ old
  have client : (((stampUsername username).onlyWhere (fun d => d.id == deviceId)).set old).clientId = old.clientId := Patch.clientId _ old
  rw [key,client]
  rw [client] at named
  exact keys_upsert upserted old stored named

end

theorem exec_keys (done : exec hashToken now db op = .ok next) : Keys db next (pins op) := by
  cases op with
  | createDevice id label token =>
    obtain ⟨row,_,client,_,inserted,rfl⟩ := createDevice_parts done
    intro d member named
    rcases (Table.mem_insert inserted).mp member with stored | rfl
    · exact .inl ⟨d,stored,rfl,rfl⟩
    · exact absurd client named
  | upsertDevice clientId label token publicKey viaLogin uuid =>
    obtain ⟨deviceId,paired⟩ := map_fst_ok done
    exact keys_upsert paired
  | registerAccount clientId label token publicKey username passwordHash uuid =>
    obtain ⟨deviceId,registered⟩ := map_fst_ok done
    obtain ⟨_,_,_,logged⟩ := registerAccount_parts registered
    have keys := keys_login logged
    exact keys
  | loginDevice clientId label token publicKey username passwordHash uuid =>
    obtain ⟨deviceId,logged⟩ := map_fst_ok done
    exact keys_login (loginDevice_parts logged).2
  | resetDeviceAccess id | setDeviceJail id jailRoot | setDeviceReadOnly id readOnly | setDeviceAppPermissions id viewApps launchApps
  | revokeDevice id =>
    cases done
    exact keys_patchDevice id _ fun _ => rfl
  | setDeviceFilePermissions id browse download upload modify delete share =>
    cases done
    cases share with
    | true | false => exact keys_patchDevice id _ fun _ => rfl
  | deleteDevice id =>
    cases done
    intro d member _
    exact .inl ⟨d,(Table.mem_delete.mp member).1,rfl,rfl⟩
  | createUser username passwordHash =>
    obtain ⟨_,_,rfl⟩ := createUser_parts done
    exact keys_same rfl
  | deleteUser username =>
    obtain ⟨_,_,rows⟩ := Accounts.deleteUser_parts done
    intro d member _
    rw [rows] at member
    obtain ⟨old,stored,rfl⟩ := List.mem_map.mp member
    exact .inl ⟨old,stored,(Patch.clientId _ old).symm,(onlyWhere_key (fun _ => rfl) _ old).symm⟩
  | createShareToken tokenHash path deviceId expires =>
    obtain ⟨_,_,rfl⟩ := createShareToken_parts done
    exact keys_same rfl
  | consumeShareToken tokenHash =>
    cases done
    unfold consumeShareTokenFor
    split
    · exact keys_same rfl
    · exact keys_same rfl
  | deleteShareToken tokenHash | sweepExpiredShareTokens =>
    cases done
    exact keys_same rfl

theorem login_key (done : loginDevice hashToken now db clientId label token publicKey username passwordHash uuid = .ok (next,deviceId))
    (found : clientDeviceById db clientId = some d) : deviceId = d.id ∧ ∃ row ∈ next.devices.rows, row.id = d.id ∧ row.publicKey = publicKey := by
  obtain ⟨middle,upserted,rfl⟩ := loginUpsert_parts (loginDevice_parts done).2
  obtain ⟨_,_,ended⟩ := upsert_cases upserted
  rcases ended with ⟨existing,known,chosen,rows⟩ | ⟨missing,_,_⟩
  · rw [found] at known
    cases known
    refine ⟨chosen,?_⟩
    have stored : rePaired hashToken now d label token publicKey true ∈ middle.devices.rows := by
      rw [rows]
      exact List.mem_map.mpr ⟨d,client_device found,by simp⟩
    refine ⟨_,List.mem_map_of_mem stored,?_,?_⟩
    · exact Patch.id _ _
    · exact onlyWhere_key (fun _ => rfl) _ _
  · rw [found] at missing
    cases missing

end Rows

section Runs
variable {hashToken : String → String} {verify : String → String → Bool} {s next last : State} {event : Event} {events : List Event}

def Proved (db : DB) (login : Login) : Prop :=
  ∀ d ∈ db.devices.rows, d.clientId = login.clientId → d.clientId ≠ "" → d.publicKey = "" ∨ d.publicKey = login.publicKey

def Current (s : State) : Prop := ∀ p ∈ s.pending, p.proved = true → Proved s.db p.login

theorem client_found (stored : d ∈ db.devices.rows) (named : d.clientId ≠ "") : clientDeviceById db d.clientId = some d := by
  unfold clientDeviceById
  rw [if_neg named]
  cases found : db.devices.find (fun row => row.clientId == d.clientId) with
  | none =>
    have missing := List.find?_eq_none.mp found d stored
    simp at missing
  | some row =>
    have same : row.clientId = d.clientId := by simpa using List.find?_some found
    have equal : row = d := Table.same_of_clash (List.mem_of_find?_eq_some found) stored (by simp [deviceKeys,same,named])
    rw [equal]

theorem proof_checked (verified : verifyDeviceProof db login.clientId login.publicKey signed = true) : Proved db login := by
  intro d stored same named
  have found := client_found stored named
  rw [same] at found
  simp only [verifyDeviceProof,devicePublicKeyByClientId,found,Option.elim,Bool.and_eq_true,Bool.or_eq_true,beq_iff_eq] at verified
  exact verified.2

theorem proved_kept (keys : Keys db later pinned) (proved : Proved db login)
    (clear : ∀ clientId publicKey, pinned = some (clientId,publicKey) → clientId ≠ "" → login.clientId = clientId → login.publicKey = publicKey) :
    Proved later login := by
  intro d stored same named
  rcases keys d stored named with ⟨old,before,client,key⟩ | new
  · rw [← key]
    exact proved old before (client.trans same) (client ▸ named)
  · exact .inr (clear d.clientId d.publicKey new named same.symm).symm

theorem step_current (current : Current s) (undisturbed : Undisturbed s event) (stepped : step hashToken verify s event = some next) : Current next := by
  cases event with
  | store op =>
    obtain ⟨_,⟨⟩⟩ := Option.ite_none_right_eq_some.mp stepped
    intro p member proved
    have before := current p member proved
    cases done : exec hashToken s.now s.db op with
    | error e => exact before
    | ok db =>
      refine proved_kept (exec_keys done) before ?_
      intro clientId publicKey pinned named mine
      exact undisturbed clientId publicKey pinned named p member proved mine
  | checkPassword username password clientId label publicKey =>
    cases stepped
    cases passwordChecked verify s.db username password clientId label publicKey with
    | none => exact current
    | some login =>
      intro p member proved
      rcases List.mem_append.mp member with old | new
      · exact current p old proved
      · rw [List.mem_singleton.mp new] at proved
        cases proved
  | checkProof i signed =>
    simp only [step] at stepped
    split at stepped
    · rename_i login waits
      split at stepped
      · rename_i verified
        cases stepped
        intro p member proved
        rcases List.mem_or_eq_of_mem_set member with old | rfl
        · exact current p old proved
        · exact proof_checked verified
      · cases stepped
        intro p member proved
        exact current p (List.mem_of_mem_eraseIdx member) proved
    · cases stepped
  | commitLogin i token uuid =>
    simp only [step] at stepped
    split at stepped
    · rename_i login waits
      split at stepped
      · rename_i db deviceId done
        cases stepped
        intro p member proved
        refine proved_kept (keys_login (loginDevice_parts done).2) (current p (List.mem_of_mem_eraseIdx member) proved) ?_
        intro clientId publicKey pinned named mine
        apply undisturbed clientId publicKey _ named p member proved mine
        rw [← pinned,written,waits]
        rfl
      · cases stepped
        intro p member proved
        exact current p (List.mem_of_mem_eraseIdx member) proved
    · cases stepped
  | clock seconds =>
    cases stepped
    exact current

theorem run_current (undisturbed : Runs.Every (step hashToken verify) Undisturbed (initial now) events)
    (ran : Runs.run (step hashToken verify) (initial now) events = some last) : Current last := by
  refine Runs.run_preserves_when Current (fun _ _ _ current meets stepped => step_current current meets stepped) ?_ undisturbed ran
  intro p member
  cases member

def signsInAgain : List Event :=
  [.store (.registerAccount "phone" "Phone" "first" "key" "owner" "password" "d1"),
    .checkPassword "owner" "password" "phone" "Phone" "key",.checkProof 0 true,.commitLogin 0 "second" "d2"]

def firstLogins : List Event :=
  [.store (.createUser "owner" "password"),
    .checkPassword "owner" "password" "phone" "Phone" "one",.checkPassword "owner" "password" "phone" "Phone" "other",
    .checkProof 0 true,.checkProof 1 true,.commitLogin 0 "first" "d1"]

end Runs

end RemoteFileExplorer.DeviceKeys
