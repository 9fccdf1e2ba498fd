import RemoteFileExplorer.ShareAuthority

namespace RemoteFileExplorer.Accounts
open Tables Devices
open ShareAuthority (same_device client_device upsert_cases)

-- A login request whose password has been checked, with the account row it was
-- checked against. The device proof and the token come after that.
structure Login where
  username : String
  password : String
  clientId : String
  label : String
  publicKey : String
  user : User
  deriving DecidableEq, Repr

structure State where
  db : DB
  now : Int
  logins : List Login
  deriving DecidableEq

inductive Event where
  | store (op : Operation)
  | checkLogin (username password clientId label publicKey : String)
  | commitLogin (i : Nat) (token uuid : String)
  | clock (seconds : Nat)
  deriving DecidableEq, Repr

def initial (now : Int) : State := ⟨.empty,now,[]⟩

def getUserByUsername (db : DB) (username : String) : Option User := db.users.find (fun u => u.username == username)

def hasAccount (db : DB) (username : String) : Bool := db.users.rows.any (fun u => u.username == username)

section System
variable (hashToken : String → String) (verify : String → String → Bool)

def deviceByToken (db : DB) (token : String) : Option Device :=
  db.devices.find (fun d => d.tokenHash == hashToken token && (!d.viaLogin || d.username != "" && hasAccount db d.username))

-- LoginDevice has one caller, the login handler, and every other caller of
-- UpsertDevice pairs.
def calledAlone : Operation → Bool
  | .loginDevice .. => false
  | .upsertDevice _ _ _ _ viaLogin _ => !viaLogin
  | _ => true

def stepLogin (s : State) (username password clientId label publicKey : String) : State :=
  match getUserByUsername s.db username with
  | none => s
  | some user =>
    if username ≠ "" ∧ password ≠ "" ∧ verify user.passwordHash password = true then
      {s with logins := s.logins ++ [⟨username,password,clientId,label,publicKey,user⟩]}
    else s

def loginResult (s : State) (login : Login) (token uuid : String) : Except StoreError (DB × String) :=
  loginDevice hashToken s.now s.db login.clientId login.label token login.publicKey login.username login.user.passwordHash uuid

def step (s : State) : Event → Option State
  | .store op => if calledAlone op then some {s with db := ((exec hashToken s.now s.db op).toOption).getD s.db} else none
  | .checkLogin username password clientId label publicKey => some (stepLogin verify s username password clientId label publicKey)
  | .commitLogin i token uuid =>
    match s.logins[i]? with
    | none => none
    | some login =>
      match loginResult hashToken s login token uuid with
      | .ok (db,_) => some {s with db := db,logins := s.logins.eraseIdx i}
      | .error _ => some {s with logins := s.logins.eraseIdx i}
  | .clock seconds => some {s with now := s.now + seconds}

def Opens (s : State) (event : Event) (tokenHash username : String) : Prop :=
  match event with
  | .store (.registerAccount clientId label token publicKey name passwordHash uuid) =>
    name = username ∧ hashToken token = tokenHash ∧
      ∃ result, registerAccount hashToken s.now s.db clientId label token publicKey name passwordHash uuid = .ok result
  | .commitLogin i token uuid =>
    hashToken token = tokenHash ∧ ∃ login result, s.logins[i]? = some login ∧ login.username = username ∧ loginResult hashToken s login token uuid = .ok result
  | _ => False

def Ends (s : State) (event : Event) (username : String) : Prop :=
  ∃ db, event = .store (.deleteUser username) ∧ deleteUser s.db username = .ok db

def registers (s : State) : Event → Bool
  | .store (.registerAccount clientId label token publicKey name passwordHash uuid) =>
    (registerAccount hashToken s.now s.db clientId label token publicKey name passwordHash uuid).isOk
  | _ => false

def registrations : State → List Event → Nat
  | _,[] => 0
  | s,event::rest => (if registers hashToken s event then 1 else 0) + ((step hashToken verify s event).elim 0 (registrations · rest))

end System

section Rows
variable {hashToken : String → String} {now : Int} {db next : DB}

def Session (d : Device) : Prop := d.viaLogin = true ∧ d.revoked = false

def Inherits (db next : DB) : Prop :=
  ∀ d ∈ next.devices.rows, Session d → ∃ old ∈ db.devices.rows, Session old ∧ old.tokenHash = d.tokenHash ∧ old.username = d.username

theorem inherits_same (same : next.devices = db.devices) : Inherits db next := by
  intro d member live
  rw [same] at member
  exact ⟨d,member,live,rfl,rfl⟩

theorem inherits_patch (patch : Patch) (names : ∀ d, (patch.set d).username = d.username)
    (logins : ∀ d, (patch.set d).viaLogin = d.viaLogin) (revoked : ∀ d, d.revoked = true → (patch.set d).revoked = true) :
    Inherits db (db.patchDevices patch) := by
  intro d member live
  obtain ⟨old,stored,rfl⟩ := List.mem_map.mp member
  refine ⟨old,stored,⟨(logins old).symm.trans live.1,?_⟩,(patch.tokenHash old).symm,(names old).symm⟩
  cases ended : old.revoked with
  | false => rfl
  | true => exact (revoked old ended).symm.trans live.2

theorem inherits_patchDevice (id : String) (patch : Patch) (names : ∀ d, (patch.set d).username = d.username)
    (logins : ∀ d, (patch.set d).viaLogin = d.viaLogin) (revoked : ∀ d, d.revoked = true → (patch.set d).revoked = true) :
    Inherits db (db.patchDevice id patch) := by
  apply inherits_patch
  · intro d
    simp only [Patch.onlyWhere]
    split <;> simp [names]
  · intro d
    simp only [Patch.onlyWhere]
    split <;> simp [logins]
  · intro d ended
    simp only [Patch.onlyWhere]
    split
    · exact revoked d ended
    · exact ended

theorem inherits_purge (id : String) (kept : Inherits db next) : Inherits db (next.purgeShareTokens id) := kept

theorem inherits_pairing (paired : upsertDeviceTx hashToken now db clientId label token publicKey false uuid = .ok (next,deviceId)) : Inherits db next := by
  obtain ⟨_,_,ended⟩ := upsert_cases paired
  intro d member live
  rcases ended with ⟨existing,_,_,rows⟩ | ⟨_,_,rows⟩
  · rw [rows] at member
    obtain ⟨old,stored,rfl⟩ := List.mem_map.mp member
    by_cases same : old.id = existing.id
    · simp [Session,same,rePaired] at live
    · simp only [beq_iff_eq,same,if_false] at live ⊢
      exact ⟨old,stored,live,rfl,rfl⟩
  · rw [rows] at member
    rcases List.mem_append.mp member with stored | fresh
    · exact ⟨d,stored,live,rfl,rfl⟩
    · rw [List.mem_singleton.mp fresh] at live
      simp [Session,freshDevice] at live

theorem login_rows (logged : loginUpsert hashToken now db clientId label token publicKey username uuid = .ok (next,deviceId)) :
    next.users = db.users ∧ ∀ d ∈ next.devices.rows, d ∈ db.devices.rows ∨ d.tokenHash = hashToken token ∧ d.username = username := by
  obtain ⟨middle,upserted,rfl⟩ := loginUpsert_parts logged
  obtain ⟨users,_,ended⟩ := upsert_cases upserted
  refine ⟨users,?_⟩
  intro d member
  obtain ⟨row,stored,rfl⟩ := List.mem_map.mp member
  rcases ended with ⟨existing,_,written,rows⟩ | ⟨_,written,rows⟩
  · rw [rows] at stored
    obtain ⟨old,before,rfl⟩ := List.mem_map.mp stored
    by_cases same : old.id = existing.id
    · right
      simp [Patch.onlyWhere,stampUsername,rePaired,same,written]
    · left
      simpa [Patch.onlyWhere,same,written] using before
  · have fresh : freshDevice hashToken now uuid clientId label token publicKey true ∈ middle.devices.rows := by
      rw [rows]
      exact List.mem_append_right _ List.mem_cons_self
    by_cases same : row.id = uuid
    · right
      rw [same_device stored fresh same]
      simp [Patch.onlyWhere,stampUsername,freshDevice,written]
    · left
      rw [rows] at stored
      rcases List.mem_append.mp stored with before | new
      · simpa [Patch.onlyWhere,same,written] using before
      · rw [List.mem_singleton.mp new] at same
        exact absurd rfl same

section
variable (deleted : deleteUser db username = .ok next)
include deleted

theorem deleteUser_parts :
    2 ≤ db.users.rows.length ∧ next.users = db.users.delete (fun u => u.username == username) ∧
      next.devices.rows = db.devices.rows.map (revoke.onlyWhere (fun d => d.username == username)).set := by
  unfold deleteUser at deleted
  split at deleted
  · cases deleted
  · split at deleted
    · cases deleted
    · cases deleted
      exact ⟨by omega,rfl,rfl⟩

theorem deleteUser_inherits :
    Inherits db next ∧ ∀ d ∈ next.devices.rows, Session d → d.username ≠ username := by
  obtain ⟨_,_,rows⟩ := deleteUser_parts deleted
  have written : ∀ d ∈ next.devices.rows, Session d → d ∈ db.devices.rows ∧ d.username ≠ username := by
    intro d member live
    rw [rows] at member
    obtain ⟨old,stored,rfl⟩ := List.mem_map.mp member
    by_cases same : old.username = username
    · simp [Session,Patch.onlyWhere,revoke,same] at live
    · have kept : (revoke.onlyWhere (fun d => d.username == username)).set old = old := by simp [Patch.onlyWhere,same]
      rw [kept]
      exact ⟨stored,same⟩
  exact ⟨fun d member live => ⟨d,(written d member live).1,live,rfl,rfl⟩,fun d member live => (written d member live).2⟩

-- Usernames are unique, so at least one of several accounts is left.
theorem deleteUser_leaves : next.users.rows ≠ [] := by
  obtain ⟨several,users,_⟩ := deleteUser_parts deleted
  have single : db.users.count (fun u => u.username == username) ≤ 1 := by
    apply Table.count_le_one
    intro a b left right
    simp only [beq_iff_eq] at left right
    simp [userKeys,left,right]
  intro empty
  rw [users,Table.delete_rows,List.filter_eq_nil_iff] at empty
  have all : db.users.rows.countP (fun u => u.username == username) = db.users.rows.length := by
    rw [List.countP_eq_length]
    intro u member
    simpa using empty u member
  rw [Table.count,all] at single
  omega

end

theorem register_parts (done : registerAccount hashToken now db clientId label token publicKey username passwordHash uuid = .ok (next,deviceId)) :
    db.users.rows = [] ∧ next.users.rows ≠ [] ∧
      ∀ d ∈ next.devices.rows, d ∈ db.devices.rows ∨ d.tokenHash = hashToken token ∧ d.username = username := by
  obtain ⟨none,users,inserted,logged⟩ := registerAccount_parts done
  obtain ⟨same,rows⟩ := login_rows logged
  refine ⟨none,?_,rows⟩
  have stored := (Table.insert_parts inserted).2
  rw [same]
  intro empty
  simp [stored] at empty

theorem login_parts (done : loginDevice hashToken now db clientId label token publicKey username passwordHash uuid = .ok (next,deviceId)) :
    (∃ row ∈ db.users.rows, row.username = username ∧ row.passwordHash = passwordHash) ∧ next.users = db.users ∧
      ∀ d ∈ next.devices.rows, d ∈ db.devices.rows ∨ d.tokenHash = hashToken token ∧ d.username = username := by
  obtain ⟨matching,logged⟩ := loginDevice_parts done
  obtain ⟨row,stored,same⟩ := List.any_eq_true.mp matching
  simp only [Bool.and_eq_true,beq_iff_eq] at same
  exact ⟨⟨row,stored,same⟩,login_rows logged⟩

theorem exec_sessions (alone : calledAlone op = true) (done : exec hashToken now db op = .ok next) :
    Inherits db next ∨ ∃ clientId label token publicKey username passwordHash uuid,
      op = .registerAccount clientId label token publicKey username passwordHash uuid ∧
        ∀ d ∈ next.devices.rows, d ∈ db.devices.rows ∨ d.tokenHash = hashToken token ∧ d.username = username := by
  cases op with
  | createDevice id label token =>
    left
    obtain ⟨row,_,_,login,inserted,rfl⟩ := createDevice_parts done
    intro d member live
    rcases (Table.mem_insert inserted).mp member with stored | rfl
    · exact ⟨d,stored,live,rfl,rfl⟩
    · simp [Session,login] at live
  | upsertDevice clientId label token publicKey viaLogin uuid =>
    left
    cases viaLogin with
    | true => cases alone
    | false =>
      obtain ⟨deviceId,paired⟩ := map_fst_ok done
      exact inherits_pairing paired
  | registerAccount clientId label token publicKey username passwordHash uuid =>
    right
    obtain ⟨deviceId,registered⟩ := map_fst_ok done
    exact ⟨clientId,label,token,publicKey,username,passwordHash,uuid,rfl,(register_parts registered).2.2⟩
  | loginDevice clientId label token publicKey username passwordHash uuid => cases alone
  | resetDeviceAccess id =>
    cases done
    exact .inl (inherits_purge id (inherits_patchDevice id _ (fun _ => rfl) (fun _ => rfl) (fun _ ended => ended)))
  | setDeviceJail id jailRoot | setDeviceReadOnly id readOnly | setDeviceAppPermissions id viewApps launchApps =>
    cases done
    exact .inl (inherits_patchDevice id _ (fun _ => rfl) (fun _ => rfl) (fun _ ended => ended))
  | setDeviceFilePermissions id browse download upload modify delete share =>
    cases done
    cases share with
    | true => exact .inl (inherits_patchDevice id _ (fun _ => rfl) (fun _ => rfl) (fun _ ended => ended))
    | false => exact .inl (inherits_purge id (inherits_patchDevice id _ (fun _ => rfl) (fun _ => rfl) (fun _ ended => ended)))
  | revokeDevice id =>
    cases done
    exact .inl (inherits_purge id (inherits_patchDevice id revoke (fun _ => rfl) (fun _ => rfl) (fun _ _ => rfl)))
  | deleteDevice id =>
    cases done
    left
    apply inherits_purge
    intro d member live
    exact ⟨d,(Table.mem_delete.mp member).1,live,rfl,rfl⟩
  | createUser username passwordHash =>
    obtain ⟨_,_,rfl⟩ := createUser_parts done
    exact .inl (inherits_same rfl)
  | deleteUser username => exact .inl (deleteUser_inherits done).1
  | createShareToken tokenHash path deviceId expires =>
    obtain ⟨_,_,rfl⟩ := createShareToken_parts done
    exact .inl (inherits_same rfl)
  | consumeShareToken tokenHash =>
    cases done
    left
    apply inherits_same
    unfold consumeShareTokenFor
    split <;> rfl
  | deleteShareToken tokenHash | sweepExpiredShareTokens => cases done; exact .inl (inherits_same rfl)

theorem exec_users (done : exec hashToken now db op = .ok next) (some : db.users.rows ≠ []) : next.users.rows ≠ [] := by
  cases op with
  | createDevice id label token =>
    obtain ⟨_,_,_,_,_,rfl⟩ := createDevice_parts done
    exact some
  | upsertDevice clientId label token publicKey viaLogin uuid =>
    obtain ⟨deviceId,paired⟩ := map_fst_ok done
    rw [(upsert_cases paired).1]
    exact some
  | registerAccount clientId label token publicKey username passwordHash uuid =>
    obtain ⟨deviceId,registered⟩ := map_fst_ok done
    exact (register_parts registered).2.1
  | loginDevice clientId label token publicKey username passwordHash uuid =>
    obtain ⟨deviceId,logged⟩ := map_fst_ok done
    rw [(login_parts logged).2.1]
    exact some
  | setDeviceFilePermissions id browse download upload modify delete share =>
    cases done
    cases share <;> exact some
  | createUser username passwordHash =>
    obtain ⟨users,inserted,rfl⟩ := createUser_parts done
    intro empty
    have stored := (Table.insert_parts inserted).2
    simp [stored] at empty
  | deleteUser username => exact deleteUser_leaves done
  | createShareToken tokenHash path deviceId expires =>
    obtain ⟨_,_,rfl⟩ := createShareToken_parts done
    exact some
  | consumeShareToken tokenHash =>
    cases done
    unfold consumeShareTokenFor
    split <;> exact some
  | resetDeviceAccess | setDeviceJail | setDeviceReadOnly | setDeviceAppPermissions | revokeDevice | deleteDevice | deleteShareToken | sweepExpiredShareTokens =>
    cases done
    exact some

end Rows

section Steps
variable {hashToken : String → String} {verify : String → String → Bool} {s next : State} {event : Event}

theorem step_login_logins (member : login ∈ (stepLogin verify s username password clientId label publicKey).logins) :
    login ∈ s.logins ∨ login.username = username ∧ login.password = password ∧ login.clientId = clientId ∧ login.label = label ∧
      login.publicKey = publicKey ∧ login.user ∈ s.db.users.rows ∧ login.user.username = username ∧ verify login.user.passwordHash password = true := by
  unfold stepLogin at member
  split at member
  · exact .inl member
  · rename_i user found
    split at member
    · rename_i checked
      rcases List.mem_append.mp member with old | new
      · exact .inl old
      · rw [List.mem_singleton.mp new]
        have named := List.find?_some found
        exact .inr ⟨rfl,rfl,rfl,rfl,rfl,List.mem_of_find?_eq_some found,by simpa using named,checked.2.2⟩
    · exact .inl member

theorem step_login_db (verify : String → String → Bool) (s : State) (username password clientId label publicKey : String) :
    (stepLogin verify s username password clientId label publicKey).db = s.db := by
  unfold stepLogin
  split
  · rfl
  · split <;> rfl

section
variable (stepped : step hashToken verify s event = some next)
include stepped

-- The database after a step: untouched, or after one store call, or after the
-- commit of a checked login.
theorem step_cases :
    next.db = s.db ∨
    (∃ op, event = .store op ∧ calledAlone op = true ∧ exec hashToken s.now s.db op = .ok next.db) ∨
    ∃ i token uuid login deviceId, event = .commitLogin i token uuid ∧ s.logins[i]? = some login ∧
      loginResult hashToken s login token uuid = .ok (next.db,deviceId) := by
  cases event with
  | store op =>
    obtain ⟨alone,⟨⟩⟩ := Option.ite_none_right_eq_some.mp stepped
    cases done : exec hashToken s.now s.db op with
    | error e => exact .inl rfl
    | ok db => exact .inr (.inl ⟨op,rfl,alone,by simp [Except.toOption,done]⟩)
  | checkLogin username password clientId label publicKey =>
    cases stepped
    exact .inl (step_login_db verify s username password clientId label publicKey)
  | commitLogin i token uuid =>
    simp only [step] at stepped
    cases pending : s.logins[i]? with
    | none => simp [pending] at stepped
    | some login =>
      simp only [pending] at stepped
      cases done : loginResult hashToken s login token uuid with
      | error e =>
        simp only [done] at stepped
        cases stepped
        exact .inl rfl
      | ok result =>
        simp only [done] at stepped
        cases stepped
        exact .inr (.inr ⟨i,token,uuid,login,result.2,rfl,pending,done⟩)
  | clock seconds =>
    cases stepped
    exact .inl rfl

theorem step_session (member : d ∈ next.db.devices.rows) (live : Session d) :
    Opens hashToken s event d.tokenHash d.username ∨
      (∃ old ∈ s.db.devices.rows, Session old ∧ old.tokenHash = d.tokenHash ∧ old.username = d.username) ∧ ¬ Ends s event d.username := by
  rcases step_cases stepped with same | ⟨op,rfl,alone,done⟩ | ⟨i,token,uuid,login,deviceId,rfl,pending,done⟩
  · right
    rw [same] at member
    refine ⟨⟨d,member,live,rfl,rfl⟩,?_⟩
    rintro ⟨db,rfl,deleted⟩
    have written : next.db = db := by
      cases stepped
      simp [exec,deleted,Except.toOption]
    rw [← same,written] at member
    exact (deleteUser_inherits deleted).2 d member live rfl
  · rcases exec_sessions alone done with kept | ⟨clientId,label,token,publicKey,username,passwordHash,uuid,rfl,rows⟩
    · right
      refine ⟨kept d member live,?_⟩
      rintro ⟨db,same,deleted⟩
      cases same
      cases deleted.symm.trans done
      exact (deleteUser_inherits deleted).2 d member live rfl
    · rcases rows d member with stored | ⟨minted,named⟩
      · refine .inr ⟨⟨d,stored,live,rfl,rfl⟩,?_⟩
        rintro ⟨db,same,_⟩
        cases same
      · obtain ⟨deviceId,registered⟩ := map_fst_ok done
        exact .inl ⟨named.symm,minted.symm,_,registered⟩
  · rcases (login_parts done).2.2 d member with stored | ⟨minted,named⟩
    · refine .inr ⟨⟨d,stored,live,rfl,rfl⟩,?_⟩
      rintro ⟨db,same,_⟩
      cases same
    · exact .inl ⟨minted.symm,login,_,pending,named.symm,done⟩

theorem step_users (some : s.db.users.rows ≠ []) : next.db.users.rows ≠ [] := by
  rcases step_cases stepped with same | ⟨op,_,_,done⟩ | ⟨i,token,uuid,login,deviceId,_,_,done⟩
  · rw [same]
    exact some
  · exact exec_users done some
  · rw [(login_parts done).2.1]
    exact some

end

theorem registers_parts (registered : registers hashToken s event = true) :
    s.db.users.rows = [] ∧ ∀ next, step hashToken verify s event = some next → next.db.users.rows ≠ [] := by
  unfold registers at registered
  split at registered
  · rename_i clientId label token publicKey name passwordHash uuid
    cases done : registerAccount hashToken s.now s.db clientId label token publicKey name passwordHash uuid with
    | error e => rw [done] at registered; cases registered
    | ok result =>
      obtain ⟨none,some,_⟩ := register_parts done
      refine ⟨none,?_⟩
      intro next stepped
      cases stepped
      simpa [exec,done,Except.toOption,Except.map] using some
  · cases registered

theorem no_registrations (events : List Event) (some : s.db.users.rows ≠ []) : registrations hashToken verify s events = 0 := by
  induction events generalizing s with
  | nil => rfl
  | cons event rest ih =>
    have refused : registers hashToken s event = false := by
      cases registered : registers hashToken s event with
      | false => rfl
      | true =>
        have empty : s.db.users.rows = [] := (@registers_parts hashToken verify s event registered).1
        exact absurd empty some
    simp only [registrations,refused]
    cases stepped : step hashToken verify s event with
    | none => rfl
    | some next => simpa using ih (step_users stepped some)

theorem registrations_le (events : List Event) : registrations hashToken verify s events ≤ 1 := by
  induction events generalizing s with
  | nil => exact Nat.zero_le _
  | cons event rest ih =>
    simp only [registrations]
    cases stepped : step hashToken verify s event with
    | none => simp only [Option.elim]; split <;> simp
    | some next =>
      cases registered : registers hashToken s event with
      | false => simpa using ih
      | true =>
        have some := (registers_parts registered).2 next stepped
        simp [no_registrations rest some]

def Checked (verify : String → String → Bool) (past : List Event) (login : Login) : Prop :=
  .checkLogin login.username login.password login.clientId login.label login.publicKey ∈ past ∧
    login.user.username = login.username ∧ verify login.user.passwordHash login.password = true

theorem step_checked (checked : ∀ login ∈ s.logins, Checked verify past login)
    (stepped : step hashToken verify s event = some next) : ∀ login ∈ next.logins, Checked verify (past ++ [event]) login := by
  have kept : ∀ login ∈ s.logins, Checked verify (past ++ [event]) login := by
    intro login member
    obtain ⟨asked,named,verified⟩ := checked login member
    exact ⟨List.mem_append_left _ asked,named,verified⟩
  intro login member
  cases event with
  | store op =>
    obtain ⟨_,⟨⟩⟩ := Option.ite_none_right_eq_some.mp stepped
    exact kept login member
  | checkLogin username password clientId label publicKey =>
    cases stepped
    rcases step_login_logins member with old | ⟨rfl,rfl,rfl,rfl,rfl,_,named,verified⟩
    · exact kept login old
    · exact ⟨List.mem_append_right _ List.mem_cons_self,named,verified⟩
  | commitLogin i token uuid =>
    apply kept
    simp only [step] at stepped
    split at stepped
    · cases stepped
    · split at stepped <;>
      · cases stepped
        exact List.mem_of_mem_eraseIdx member
  | clock seconds =>
    cases stepped
    exact kept login member

end Steps

section Runs
variable {hashToken : String → String} {verify : String → String → Bool} {begin last : State} {events : List Event}

-- The run opened a session with this token hash through the account, and has
-- not deleted the account since.
def Open (hashToken : String → String) (verify : String → String → Bool) (begin : State) (events : List Event) (tokenHash username : String) : Prop :=
  ∃ past event rest before opened, events = past ++ event::rest ∧ Runs.run (step hashToken verify) begin past = some before ∧
    step hashToken verify before event = some opened ∧ Opens hashToken before event tokenHash username ∧
    Runs.Every (step hashToken verify) (fun s event => ¬ Ends s event username) opened rest

theorem open_new (ran : Runs.run (step hashToken verify) begin past = some s)
    (stepped : step hashToken verify s event = some next) (opens : Opens hashToken s event tokenHash username) :
    Open hashToken verify begin (past ++ [event]) tokenHash username :=
  ⟨past,event,[],s,next,rfl,ran,stepped,opens,trivial⟩

theorem open_kept (ran : Runs.run (step hashToken verify) begin past = some s)
    (stands : Open hashToken verify begin past tokenHash username) (spared : ¬ Ends s event username) :
    Open hashToken verify begin (past ++ [event]) tokenHash username := by
  obtain ⟨front,opening,rest,before,opened,rfl,ranFront,moved,opens,kept⟩ := stands
  obtain ⟨middle,ranBefore,after⟩ := Runs.run_append.mp ran
  cases ranFront.symm.trans ranBefore
  obtain ⟨other,again,tail⟩ := Runs.run_cons.mp after
  cases moved.symm.trans again
  exact ⟨front,opening,rest ++ [event],before,opened,by simp,ranFront,moved,opens,Runs.every_snoc tail kept spared⟩

section
variable (ran : Runs.run (step hashToken verify) (initial now) events = some last)
include ran

theorem run_checked :
    ∀ login ∈ last.logins, Checked verify events login := by
  refine Runs.run_history (fun past s => ∀ login ∈ s.logins, Checked verify past login) ?_ ?_ ran
  · intro past s event next _ checked stepped _
    exact step_checked checked stepped
  · intro login member
    cases member

theorem run_sessions :
    ∀ d ∈ last.db.devices.rows, Session d → Open hashToken verify (initial now) events d.tokenHash d.username := by
  refine Runs.run_history (fun past s => ∀ d ∈ s.db.devices.rows, Session d → Open hashToken verify (initial now) past d.tokenHash d.username) ?_ ?_ ran
  · intro past s event next ranPast held stepped _ d member live
    rcases step_session stepped member live with opens | ⟨⟨old,stored,lived,token,name⟩,spared⟩
    · exact open_new ranPast stepped opens
    · have before := held old stored lived
      rw [token,name] at before
      exact open_kept ranPast before spared
  · intro d member
    cases member

end

theorem deviceByToken_parts (found : deviceByToken hashToken db token = some d) :
    d ∈ db.devices.rows ∧ d.tokenHash = hashToken token ∧ (d.viaLogin = true → ∃ u ∈ db.users.rows, u.username = d.username) := by
  have stored := List.mem_of_find?_eq_some found
  have meets := List.find?_some found
  simp only [Bool.and_eq_true,Bool.or_eq_true,Bool.not_eq_true',beq_iff_eq] at meets
  refine ⟨stored,meets.1,?_⟩
  intro login
  rcases meets.2 with paired | ⟨_,account⟩
  · rw [login] at paired
    cases paired
  · simpa [hasAccount] using account

theorem sessions_follow_accounts {now : Int} (ran : Runs.run (step hashToken verify) (initial now) events = some last) :
    registrations hashToken verify (initial now) events ≤ 1 ∧
    (∀ past i token uuid rest before login result, events = past ++ .commitLogin i token uuid::rest →
      Runs.run (step hashToken verify) (initial now) past = some before → before.logins[i]? = some login →
      loginResult hashToken before login token uuid = .ok result →
      Checked verify past login ∧ ∃ row ∈ before.db.users.rows, row.username = login.user.username ∧ row.passwordHash = login.user.passwordHash) ∧
    (∀ token d, deviceByToken hashToken last.db token = some d → d.viaLogin = true →
      (∃ u ∈ last.db.users.rows, u.username = d.username) ∧
      (d.revoked = false → Open hashToken verify (initial now) events (hashToken token) d.username)) ∧
    ∀ past username rest before db, events = past ++ .store (.deleteUser username)::rest →
      Runs.run (step hashToken verify) (initial now) past = some before → deleteUser before.db username = .ok db →
      ∀ token d, deviceByToken hashToken db token = some d → d.viaLogin = true → d.username ≠ username := by
  refine ⟨registrations_le events,?_,?_,?_⟩
  · intro past i token uuid rest before login result _ ranPast pending done
    have checked := run_checked ranPast login (List.mem_of_getElem? pending)
    obtain ⟨⟨row,stored,named,hashed⟩,_⟩ := login_parts done
    exact ⟨checked,row,stored,named.trans checked.2.1.symm,hashed⟩
  · intro token d found login
    obtain ⟨stored,hashed,account⟩ := deviceByToken_parts found
    refine ⟨account login,?_⟩
    intro live
    rw [← hashed]
    exact run_sessions ran d stored ⟨login,live⟩
  · intro past username rest before db _ _ deleted token d found login
    obtain ⟨_,_,account⟩ := deviceByToken_parts found
    obtain ⟨u,stored,named⟩ := account login
    rw [(deleteUser_parts deleted).2.1] at stored
    have other := (Table.mem_delete.mp stored).2
    intro same
    simp [named,same] at other

def ownerLogsIn : List Event :=
  [.store (.registerAccount "phone" "Phone" "first" "key" "owner" "password" "d1"),
    .checkLogin "owner" "password" "tablet" "Tablet" "key",.commitLogin 0 "second" "d2"]

theorem login_session_open : ∃ last d, Runs.run (step id (· == ·)) (initial 0) ownerLogsIn = some last ∧
    deviceByToken id last.db "second" = some d ∧ d.viaLogin = true ∧ d.revoked = false ∧ Open id (· == ·) (initial 0) ownerLogsIn "second" d.username := by
  refine ⟨_,_,rfl,rfl,rfl,rfl,?_⟩
  exact ((sessions_follow_accounts rfl).2.2.1 "second" _ rfl rfl).2 rfl

end Runs

end RemoteFileExplorer.Accounts
