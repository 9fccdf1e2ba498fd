import Mathlib.Logic.Function.Basic
import RemoteFileExplorer.ShareAuthority

namespace RemoteFileExplorer.ShareLinks
open Tables Devices ShareAuthority

-- Where one GET /v1/share/{token} request stands. Each database call, clock
-- reading and flag reading of the handler is a step of its own, so the stages
-- carry what the handler holds in its local variables between them.
inductive Stage where
  | idle
  | arrived (hash : String)
  | looked (token : ShareToken)
  | fresh (token : ShareToken)
  | enabled (token : ShareToken)
  | checked (token : ShareToken) (owner : Option Device)
  | consumed (row : ShareToken) (consumedAt : Int) (owner : Option Device)
  | granted (row : ShareToken) (consumedAt : Int) (owner : Option Device)
  | served
  | refused
  deriving DecidableEq, Repr

structure Serving where
  row : ShareToken
  consumedAt : Int
  owner : Option Device
  deriving DecidableEq, Repr

-- `minted` lists every token hash ever stored and `log` every file sent; the
-- handler reads neither.
structure State where
  db : DB
  now : Int
  sharingEnabled : Bool
  requests : Nat → Stage
  minted : List String
  log : List Serving

def initial (now : Int) : State := ⟨.empty,now,true,fun _ => .idle,[],[]⟩

def ownerAllowed (d : Device) : Bool := !(d.revoked || (!d.viaLogin && !(d.canShare && d.canDownload)))

inductive Event where
  | store (op : Operation)
  | setSharing (enabled : Bool)
  | clock (seconds : Nat)
  | arrive (request : Nat) (hash : String) (allowed : Bool)
  | look (request : Nat)
  | checkExpiry (request : Nat)
  | checkSharing (request : Nat)
  | checkOwner (request : Nat)
  | consume (request : Nat)
  | recheckExpiry (request : Nat)
  | send (request : Nat) (opened : Bool)
  | fault (request : Nat)
  deriving DecidableEq, Repr

def move (s : State) (request : Nat) (stage : Stage) : State :=
  {s with requests := Function.update s.requests request stage}

-- A link hash comes from 32 random bytes, so no mint draws one drawn before.
def drawsFresh (s : State) : Operation → Bool
  | .createShareToken tokenHash _ _ _ => !s.minted.contains tokenHash
  | _ => true

def recordMint (minted : List String) : Operation → List String
  | .createShareToken tokenHash _ _ _ => tokenHash::minted
  | _ => minted

def step (hashToken : String → String) (s : State) : Event → Option State
  | .store op =>
    if drawsFresh s op then
      some {s with db := ((exec hashToken s.now s.db op).toOption).getD s.db,minted := recordMint s.minted op}
    else none
  | .setSharing enabled => some {s with sharingEnabled := enabled}
  | .clock seconds => some {s with now := s.now + seconds}
  -- The per-address limiter answers first and touches no token.
  | .arrive request hash allowed =>
    match s.requests request with
    | .idle => some (move s request (if allowed then .arrived hash else .refused))
    | _ => none
  | .look request =>
    match s.requests request with
    | .arrived hash => some (move s request ((getShareToken s.db hash).elim .refused .looked))
    | _ => none
  -- time.Now().Before(expires + 1s), on whole seconds.
  | .checkExpiry request =>
    match s.requests request with
    | .looked token => some (move s request (if s.now < token.expires + 1 then .fresh token else .refused))
    | _ => none
  | .checkSharing request =>
    match s.requests request with
    | .fresh token => some (move s request (if s.sharingEnabled then .enabled token else .refused))
    | _ => none
  | .checkOwner request =>
    match s.requests request with
    | .enabled token =>
      if token.deviceId = "" then some (move s request (.checked token none)) else
      match getDeviceById s.db token.deviceId with
      | none => some (move s request .refused)
      | some d => some (move s request (if ownerAllowed d then .checked token (some d) else .refused))
    | _ => none
  -- The transaction of ConsumeShareTokenFor: look the row up and delete it.
  | .consume request =>
    match s.requests request with
    | .checked token owner =>
      match getShareToken s.db token.tokenHash with
      | none => some (move s request .refused)
      | some row => some (move {s with db := deleteShareToken s.db token.tokenHash} request (.consumed row s.now owner))
    | _ => none
  -- Its second clock reading, after the commit.
  | .recheckExpiry request =>
    match s.requests request with
    | .consumed row consumedAt owner =>
      some (move s request (if s.now > row.expires then .refused else .granted row consumedAt owner))
    | _ => none
  -- Opening the file can still fail; only an opened file is sent.
  | .send request opened =>
    match s.requests request with
    | .granted row consumedAt owner =>
      if opened then some {move s request .served with log := ⟨row,consumedAt,owner⟩::s.log}
      else some (move s request .refused)
    | _ => none
  -- A database error ends the request with 500; the failed transaction of a
  -- consumption is rolled back.
  | .fault request =>
    match s.requests request with
    | .arrived _ | .looked _ | .fresh _ | .enabled _ | .checked _ _ => some (move s request .refused)
    | _ => none

def Stage.copy : Stage → Option ShareToken
  | .looked token | .fresh token | .enabled token | .checked token _ => some token
  | _ => none

def Stage.taken : Stage → Option Serving
  | .consumed row consumedAt owner | .granted row consumedAt owner => some ⟨row,consumedAt,owner⟩
  | _ => none

-- Every hash drawn so far is in one place at most: in a stored row, in the
-- hands of the one request that consumed it, or in the log. Copies that other
-- requests looked up still agree with the stored row.
structure Valid (s : State) : Prop where
  stored : ∀ t ∈ s.db.shareTokens.rows, t.tokenHash ∈ s.minted
  copied : ∀ r token, (s.requests r).copy = some token → token.tokenHash ∈ s.minted ∧
    ∀ t ∈ s.db.shareTokens.rows, t.tokenHash = token.tokenHash → t = token
  taken : ∀ r serving, (s.requests r).taken = some serving →
    serving.row.tokenHash ∈ s.minted ∧ serving.consumedAt ≤ s.now ∧
    (∀ t ∈ s.db.shareTokens.rows, t.tokenHash ≠ serving.row.tokenHash) ∧
    (∀ entry ∈ s.log, entry.row.tokenHash ≠ serving.row.tokenHash) ∧
    ∀ other otherServing, (s.requests other).taken = some otherServing →
      otherServing.row.tokenHash = serving.row.tokenHash → other = r
  logged : ∀ entry ∈ s.log, entry.row.tokenHash ∈ s.minted ∧
    ∀ t ∈ s.db.shareTokens.rows, t.tokenHash ≠ entry.row.tokenHash
  once : (s.log.map (fun entry => entry.row.tokenHash)).Nodup
  idle : ∃ bound, ∀ r, bound ≤ r → s.requests r = .idle

theorem initial_valid (now : Int) : Valid (initial now) := by
  refine ⟨?_,?_,?_,?_,?_,0,fun _ _ => rfl⟩ <;> simp [initial,DB.empty,Stage.copy,Stage.taken]

@[simp] theorem move_same (s : State) (r : Nat) (stage : Stage) : (move s r stage).requests r = stage := by
  simp [move]
theorem move_other (s : State) (stage : Stage) (other : q ≠ r) : (move s r stage).requests q = s.requests q := by
  simp [move,other]
@[simp] theorem move_db (s : State) (r : Nat) (stage : Stage) : (move s r stage).db = s.db := rfl
@[simp] theorem move_now (s : State) (r : Nat) (stage : Stage) : (move s r stage).now = s.now := rfl
@[simp] theorem move_minted (s : State) (r : Nat) (stage : Stage) : (move s r stage).minted = s.minted := rfl
@[simp] theorem move_log (s : State) (r : Nat) (stage : Stage) : (move s r stage).log = s.log := rfl

theorem move_idle (valid : Valid s) (r : Nat) (stage : Stage) :
    ∃ bound, ∀ q, bound ≤ q → (move s r stage).requests q = .idle := by
  obtain ⟨bound,quiet⟩ := valid.idle
  refine ⟨max bound (r+1),fun q far => ?_⟩
  rw [move_other s stage (by omega)]
  exact quiet q (by omega)

theorem move_valid (valid : Valid s)
    (copies : ∀ token, stage.copy = some token → (s.requests r).copy = some token ∨ token ∈ s.db.shareTokens.rows)
    (takes : ∀ serving, stage.taken = some serving → (s.requests r).taken = some serving) :
    Valid (move s r stage) := by
  have back : ∀ q serving, ((move s r stage).requests q).taken = some serving → (s.requests q).taken = some serving := by
    intro q serving held
    by_cases same : q = r
    · subst same
      exact takes serving (by simpa using held)
    · rwa [move_other s stage same] at held
  refine ⟨valid.stored,?_,?_,valid.logged,valid.once,move_idle valid r stage⟩
  · intro q token held
    by_cases same : q = r
    · subst same
      rcases copies token (by simpa using held) with before | row
      · exact valid.copied q token before
      · exact ⟨valid.stored token row,fun t present equal => Table.same_of_clash present row (by simp [shareTokenKeys,equal])⟩
    · rw [move_other s stage same] at held
      exact valid.copied q token held
  · intro q serving held
    obtain ⟨minted,past,gone,unserved,alone⟩ := valid.taken q serving (back q serving held)
    exact ⟨minted,past,gone,unserved,fun other otherServing also => alone other otherServing (back other otherServing also)⟩

theorem getShareToken_row (found : getShareToken db tokenHash = some row) :
    row ∈ db.shareTokens.rows ∧ row.tokenHash = tokenHash := by
  refine ⟨List.mem_of_find?_eq_some found,?_⟩
  have matched := List.find?_some found
  simpa using matched

theorem getDeviceById_row (found : getDeviceById db deviceId = some d) : d ∈ db.devices.rows ∧ d.id = deviceId := by
  refine ⟨List.mem_of_find?_eq_some found,?_⟩
  have matched := List.find?_some found
  simpa using matched

theorem deleteShareToken_mem :
    t ∈ (deleteShareToken db tokenHash).shareTokens.rows ↔ t ∈ db.shareTokens.rows ∧ t.tokenHash ≠ tokenHash := by
  simp [deleteShareToken]

theorem shrink_valid (valid : Valid s)
    (kept : ∀ t ∈ db.shareTokens.rows, t ∈ s.db.shareTokens.rows) : Valid {s with db := db} := by
  refine ⟨fun t left => valid.stored t (kept t left),?_,?_,?_,valid.once,valid.idle⟩
  · intro q token held
    obtain ⟨minted,agrees⟩ := valid.copied q token held
    exact ⟨minted,fun t left => agrees t (kept t left)⟩
  · intro q serving held
    obtain ⟨minted,past,gone,fresh,alone⟩ := valid.taken q serving held
    exact ⟨minted,past,fun t left => gone t (kept t left),fresh,alone⟩
  · intro entry sent
    exact ⟨(valid.logged entry sent).1,fun t left => (valid.logged entry sent).2 t (kept t left)⟩

theorem consume_valid (valid : Valid s) (found : getShareToken s.db tokenHash = some row) :
    Valid (move {s with db := deleteShareToken s.db tokenHash} r (.consumed row s.now owner)) := by
  obtain ⟨present,same⟩ := getShareToken_row found
  have deleted : Valid {s with db := deleteShareToken s.db tokenHash} :=
    shrink_valid valid (fun t left => (deleteShareToken_mem.mp left).1)
  -- While the row is stored, no request holds its hash and no log entry has it.
  have unheld : ∀ q serving, (s.requests q).taken = some serving → row.tokenHash ≠ serving.row.tokenHash :=
    fun q serving held => (valid.taken q serving held).2.2.1 row present
  refine ⟨deleted.stored,?_,?_,deleted.logged,deleted.once,move_idle deleted r _⟩
  · intro q token held
    by_cases own : q = r
    · subst own
      simp [Stage.copy] at held
    · rw [move_other _ _ own] at held
      exact deleted.copied q token held
  · intro q serving held
    by_cases own : q = r
    · subst own
      simp only [move_same,Stage.taken,Option.some.injEq] at held
      subst held
      refine ⟨valid.stored row present,Int.le_refl _,?_,?_,?_⟩
      · intro t left equal
        exact (deleteShareToken_mem.mp left).2 (equal.trans same)
      · intro entry sent equal
        exact (valid.logged entry sent).2 row present equal.symm
      · intro other otherServing also equal
        by_contra different
        rw [move_other _ _ different] at also
        exact unheld other otherServing also equal.symm
    · rw [move_other _ _ own] at held
      obtain ⟨minted,past,gone,fresh,alone⟩ := deleted.taken q serving held
      refine ⟨minted,past,gone,fresh,?_⟩
      intro other otherServing also equal
      by_cases mine : other = r
      · subst mine
        simp only [move_same,Stage.taken,Option.some.injEq] at also
        subst also
        exact absurd equal (unheld q serving held)
      · rw [move_other _ _ mine] at also
        exact alone other otherServing also equal

theorem send_valid (valid : Valid s) (holds : (s.requests r).taken = some serving) :
    Valid {move s r .served with log := serving::s.log} := by
  obtain ⟨minted,_,gone,unserved,alone⟩ := valid.taken r serving holds
  have moved : Valid (move s r .served) := move_valid valid (by simp [Stage.copy]) (by simp [Stage.taken])
  refine ⟨moved.stored,moved.copied,?_,?_,?_,moved.idle⟩
  · intro q other held
    obtain ⟨otherMinted,past,otherGone,fresh,exclusive⟩ := moved.taken q other held
    refine ⟨otherMinted,past,otherGone,?_,exclusive⟩
    intro entry sent
    rcases List.mem_cons.mp sent with rfl | older
    · intro equal
      have different : q ≠ r := by
        rintro rfl
        simp [Stage.taken] at held
      rw [move_other _ _ different] at held
      exact different (alone q other held equal.symm)
    · exact fresh entry older
  · intro entry sent
    rcases List.mem_cons.mp sent with rfl | older
    · exact ⟨minted,gone⟩
    · exact moved.logged entry older
  · refine List.nodup_cons.mpr ⟨?_,moved.once⟩
    intro listed
    obtain ⟨entry,sent,equal⟩ := List.mem_map.mp listed
    exact unserved entry sent equal

theorem loginUpsert_tokens
    (paired : loginUpsert hashToken now db clientId label token publicKey username uuid = .ok (next,deviceId)) :
    next.shareTokens = db.shareTokens := by
  obtain ⟨middle,upserted,rfl⟩ := loginUpsert_parts paired
  exact (upsert_cases upserted).2.1

theorem exec_tokens (done : exec hashToken now db op = .ok next)
    (present : t ∈ next.shareTokens.rows) :
    t ∈ db.shareTokens.rows ∨ ∃ path deviceId expires, op = .createShareToken t.tokenHash path deviceId expires := by
  cases op with
  | createDevice id label token =>
    obtain ⟨_,_,_,_,_,rfl⟩ := createDevice_parts done
    exact .inl present
  | upsertDevice clientId label token publicKey viaLogin uuid =>
    obtain ⟨deviceId,paired⟩ := map_fst_ok done
    rw [(upsert_cases paired).2.1] at present
    exact .inl present
  | registerAccount clientId label token publicKey username passwordHash uuid =>
    obtain ⟨deviceId,registered⟩ := map_fst_ok done
    obtain ⟨_,_,_,paired⟩ := registerAccount_parts registered
    rw [loginUpsert_tokens paired] at present
    exact .inl present
  | loginDevice clientId label token publicKey username passwordHash uuid =>
    obtain ⟨deviceId,paired⟩ := map_fst_ok done
    rw [loginUpsert_tokens (loginDevice_parts paired).2] at present
    exact .inl present
  | resetDeviceAccess id | revokeDevice id | deleteDevice id => cases done; exact .inl ((purge_mem _ _).mp present).1
  | setDeviceJail id jailRoot | setDeviceReadOnly id readOnly | setDeviceAppPermissions id viewApps launchApps => cases done; exact .inl present
  | setDeviceFilePermissions id browse download upload modify delete share =>
    cases done
    cases share with
    | true => exact .inl present
    | false => exact .inl ((purge_mem _ _).mp present).1
  | createUser username passwordHash =>
    obtain ⟨_,_,rfl⟩ := createUser_parts done
    exact .inl present
  | deleteUser username =>
    simp only [exec,deleteUser] at done
    split at done
    · cases done
    · split at done
      · cases done
      · cases done
        exact .inl (Table.mem_delete.mp present).1
  | createShareToken tokenHash path deviceId expires =>
    obtain ⟨tokens,inserted,rfl⟩ := createShareToken_parts done
    rcases (Table.mem_insert inserted).mp present with old | rfl
    · exact .inl old
    · exact .inr ⟨path,deviceId,expires,rfl⟩
  | consumeShareToken tokenHash =>
    cases done
    unfold consumeShareTokenFor at present
    split at present
    · exact .inl present
    · exact .inl (Table.mem_delete.mp present).1
  | deleteShareToken tokenHash | sweepExpiredShareTokens => cases done; exact .inl (Table.mem_delete.mp present).1

theorem mem_recordMint (minted : List String) (op : Operation) (listed : h ∈ minted) : h ∈ recordMint minted op := by
  cases op <;> simp [recordMint,listed]

theorem store_valid (valid : Valid s) (fresh : drawsFresh s op = true) :
    Valid {s with db := ((exec hashToken s.now s.db op).toOption).getD s.db,minted := recordMint s.minted op} := by
  -- A row of the new table is an old one, or its hash has never been drawn.
  have rows : ∀ t ∈ (((exec hashToken s.now s.db op).toOption).getD s.db).shareTokens.rows,
      t ∈ s.db.shareTokens.rows ∨ (t.tokenHash ∉ s.minted ∧ t.tokenHash ∈ recordMint s.minted op) := by
    intro t present
    cases done : exec hashToken s.now s.db op with
    | error e => rw [done] at present; exact .inl present
    | ok next =>
      rw [done] at present
      rcases exec_tokens done present with old | ⟨path,deviceId,expires,rfl⟩
      · exact .inl old
      · exact .inr ⟨by simpa [drawsFresh] using fresh,by simp [recordMint]⟩
  have apart : ∀ h ∈ s.minted, (∀ t ∈ s.db.shareTokens.rows, t.tokenHash ≠ h) →
      ∀ t ∈ (((exec hashToken s.now s.db op).toOption).getD s.db).shareTokens.rows, t.tokenHash ≠ h := by
    intro h listed clear t present equal
    rcases rows t present with old | ⟨undrawn,_⟩
    · exact clear t old equal
    · exact undrawn (equal ▸ listed)
  refine ⟨?_,?_,?_,?_,valid.once,valid.idle⟩
  · intro t present
    rcases rows t present with old | ⟨_,recorded⟩
    · exact mem_recordMint _ _ (valid.stored t old)
    · exact recorded
  · intro q token held
    obtain ⟨minted,agrees⟩ := valid.copied q token held
    refine ⟨mem_recordMint _ _ minted,?_⟩
    intro t present equal
    rcases rows t present with old | ⟨undrawn,_⟩
    · exact agrees t old equal
    · exact absurd (equal ▸ minted) undrawn
  · intro q serving held
    obtain ⟨minted,past,gone,unserved,alone⟩ := valid.taken q serving held
    exact ⟨mem_recordMint _ _ minted,past,apart _ minted gone,unserved,alone⟩
  · intro entry sent
    obtain ⟨minted,gone⟩ := valid.logged entry sent
    exact ⟨mem_recordMint _ _ minted,apart _ minted gone⟩

inductive Advance (s : State) : Event → Nat → Stage → Prop where
  | refuse (event : Event) (r : Nat) : Advance s event r .refused
  | arrive : s.requests r = .idle → Advance s (.arrive r tokenHash true) r (.arrived tokenHash)
  | look : s.requests r = .arrived tokenHash → getShareToken s.db tokenHash = some token →
      Advance s (.look r) r (.looked token)
  | checkExpiry : s.requests r = .looked token → s.now < token.expires + 1 →
      Advance s (.checkExpiry r) r (.fresh token)
  | checkSharing : s.requests r = .fresh token → s.sharingEnabled = true →
      Advance s (.checkSharing r) r (.enabled token)
  | ownerless : s.requests r = .enabled token → token.deviceId = "" →
      Advance s (.checkOwner r) r (.checked token none)
  | owned : s.requests r = .enabled token → getDeviceById s.db token.deviceId = some d → ownerAllowed d = true →
      Advance s (.checkOwner r) r (.checked token (some d))
  | recheckExpiry : s.requests r = .consumed row consumedAt owner → s.now ≤ row.expires →
      Advance s (.recheckExpiry r) r (.granted row consumedAt owner)

inductive Stepped (hashToken : String → String) (s : State) : Event → State → Prop where
  | store : drawsFresh s op = true → Stepped hashToken s (.store op)
      {s with db := ((exec hashToken s.now s.db op).toOption).getD s.db,minted := recordMint s.minted op}
  | setSharing : Stepped hashToken s (.setSharing enabled) {s with sharingEnabled := enabled}
  | clock : Stepped hashToken s (.clock seconds) {s with now := s.now + (seconds : Nat)}
  | advance : Advance s event r stage → Stepped hashToken s event (move s r stage)
  | consume : s.requests r = .checked token owner → getShareToken s.db token.tokenHash = some row →
      Stepped hashToken s (.consume r) (move {s with db := deleteShareToken s.db token.tokenHash} r (.consumed row s.now owner))
  | send : s.requests r = .granted row consumedAt owner →
      Stepped hashToken s (.send r true) {move s r .served with log := ⟨row,consumedAt,owner⟩::s.log}

theorem step_cases (stepped : step hashToken s event = some next) :
    Stepped hashToken s event next := by
  cases event with
  | store op =>
    obtain ⟨allowed,⟨⟩⟩ := Option.ite_none_right_eq_some.mp stepped
    exact .store allowed
  | setSharing enabled => cases stepped; exact .setSharing
  | clock seconds => cases stepped; exact .clock
  | arrive r tokenHash allowed =>
    simp only [step] at stepped
    split at stepped
    · rename_i idle
      cases stepped
      cases allowed with
      | true => exact .advance (.arrive idle)
      | false => exact .advance (.refuse _ r)
    · cases stepped
  | look r =>
    simp only [step] at stepped
    split at stepped
    · rename_i tokenHash arrived
      cases stepped
      cases found : getShareToken s.db tokenHash with
      | none => exact .advance (.refuse _ r)
      | some token => exact .advance (.look arrived found)
    · cases stepped
  | checkExpiry r =>
    simp only [step] at stepped
    split at stepped
    · rename_i token looked
      cases stepped
      split
      · exact .advance (.checkExpiry looked ‹_›)
      · exact .advance (.refuse _ r)
    · cases stepped
  | checkSharing r =>
    simp only [step] at stepped
    split at stepped
    · rename_i token fresh
      cases stepped
      split
      · exact .advance (.checkSharing fresh ‹_›)
      · exact .advance (.refuse _ r)
    · cases stepped
  | checkOwner r =>
    simp only [step] at stepped
    split at stepped
    · rename_i token enabled
      split at stepped
      · cases stepped
        exact .advance (.ownerless enabled ‹_›)
      · split at stepped
        · cases stepped
          exact .advance (.refuse _ r)
        · rename_i d found
          cases stepped
          split
          · exact .advance (.owned enabled found ‹_›)
          · exact .advance (.refuse _ r)
    · cases stepped
  | consume r =>
    simp only [step] at stepped
    split at stepped
    · rename_i token owner checked
      split at stepped
      · cases stepped
        exact .advance (.refuse _ r)
      · rename_i row found
        cases stepped
        exact .consume checked found
    · cases stepped
  | recheckExpiry r =>
    simp only [step] at stepped
    split at stepped
    · rename_i row consumedAt owner consumed
      cases stepped
      split
      · exact .advance (.refuse _ r)
      · exact .advance (.recheckExpiry consumed (by omega))
    · cases stepped
  | send r opened =>
    simp only [step] at stepped
    split at stepped
    · rename_i row consumedAt owner granted
      cases opened with
      | true => cases stepped; exact .send granted
      | false => cases stepped; exact .advance (.refuse _ r)
    · cases stepped
  | fault r =>
    simp only [step] at stepped
    split at stepped <;> cases stepped <;> exact .advance (.refuse _ r)

theorem advance_valid (valid : Valid s) (advanced : Advance s event r stage) : Valid (move s r stage) := by
  cases advanced with
  | refuse | arrive idle => exact move_valid valid (by simp [Stage.copy]) (by simp [Stage.taken])
  | look arrived found =>
    refine move_valid valid ?_ (by simp [Stage.taken])
    intro token copies
    cases copies
    exact .inr (getShareToken_row found).1
  | checkExpiry held _ | checkSharing held _ | ownerless held _ | owned held _ _ =>
    exact move_valid valid (by simp [Stage.copy,held]) (by simp [Stage.taken])
  | recheckExpiry held _ => exact move_valid valid (by simp [Stage.copy]) (by simp [Stage.taken,held])

theorem step_valid (valid : Valid s)
    (stepped : step hashToken s event = some next) : Valid next := by
  cases step_cases stepped with
  | store fresh => exact store_valid valid fresh
  | setSharing => exact ⟨valid.stored,valid.copied,valid.taken,valid.logged,valid.once,valid.idle⟩
  | clock =>
    refine ⟨valid.stored,valid.copied,?_,valid.logged,valid.once,valid.idle⟩
    intro q serving held
    obtain ⟨minted,past,rest⟩ := valid.taken q serving held
    exact ⟨minted,by change serving.consumedAt ≤ s.now + _; omega,rest⟩
  | advance advanced => exact advance_valid valid advanced
  | consume _ found => exact consume_valid valid found
  | send granted => exact send_valid valid (by rw [granted]; rfl)

theorem stage_change (stepped : step hashToken s event = some next)
    (before : s.requests r ≠ stage) (after : next.requests r = stage) (unserved : stage ≠ .served) :
    Advance s event r stage ∨ ∃ token owner row, event = .consume r ∧ s.requests r = .checked token owner ∧
      getShareToken s.db token.tokenHash = some row ∧ stage = .consumed row s.now owner := by
  cases step_cases stepped with
  | store _ | setSharing | clock => exact absurd after before
  | @advance _ q moved advanced =>
    by_cases same : q = r
    · subst same
      rw [move_same] at after
      exact .inl (after ▸ advanced)
    · rw [move_other _ _ (Ne.symm same)] at after
      exact absurd after before
  | @consume q token owner row checked found =>
    by_cases same : q = r
    · subst same
      rw [move_same] at after
      exact .inr ⟨token,owner,row,rfl,checked,found,after.symm⟩
    · rw [move_other _ _ (Ne.symm same)] at after
      exact absurd after before
  | @send q row consumedAt owner granted =>
    by_cases same : q = r
    · subst same
      exact absurd ((move_same s q .served).symm.trans after).symm unserved
    · exact absurd ((move_other s .served (Ne.symm same)).symm.trans after) before

section Run
variable {hashToken : String → String} {now : Int} {events : List Event} {last : State}

section
variable (ran : Runs.run (step hashToken) (initial now) events = some last)
include ran

theorem run_valid : Valid last :=
  Runs.run_preserves (fun _ _ _ valid stepped => step_valid valid stepped) (initial_valid now) ran

theorem stage_entered (held : last.requests r = stage) (busy : stage ≠ .idle) (unserved : stage ≠ .served) :
    ∃ past event rest middle, events = past ++ event::rest ∧
      Runs.run (step hashToken) (initial now) past = some middle ∧
      (Advance middle event r stage ∨ ∃ token owner row, event = .consume r ∧ middle.requests r = .checked token owner ∧
        getShareToken middle.db token.tokenHash = some row ∧ stage = .consumed row middle.now owner) := by
  obtain ⟨past,event,rest,middle,next,split,ranPast,stepped,_,before,after⟩ :=
    Runs.run_begins (fun s => s.requests r = stage) (fun idle => busy idle.symm) ran held
  exact ⟨past,event,rest,middle,split,ranPast,stage_change stepped before after unserved⟩

theorem log_entered (sent : entry ∈ last.log) :
    ∃ r past rest middle, events = past ++ rest ∧ Runs.run (step hashToken) (initial now) past = some middle ∧
      middle.requests r = .granted entry.row entry.consumedAt entry.owner := by
  obtain ⟨past,event,rest,middle,next,split,ranPast,stepped,_,before,after⟩ :=
    Runs.run_begins (fun s => entry ∈ s.log) (by simp [initial]) ran sent
  cases step_cases stepped with
  | store _ | setSharing | clock | advance _ | consume _ _ => exact absurd after before
  | @send r row consumedAt owner granted =>
    rcases List.mem_cons.mp after with rfl | older
    · exact ⟨r,past,_,middle,split,ranPast,granted⟩
    · exact absurd older before

end

-- The owner was checked in `checking` and the row was deleted in `consuming`,
-- both by the same request and in this order.
def ServedAfterChecks (hashToken : String → String) (now : Int) (events : List Event) (row : ShareToken) : Prop :=
  ∃ r first second third checking consuming,
    events = first ++ .checkOwner r::(second ++ .consume r::third) ∧
    Runs.run (step hashToken) (initial now) first = some checking ∧
    Runs.run (step hashToken) (initial now) (first ++ .checkOwner r::second) = some consuming ∧
    row ∈ consuming.db.shareTokens.rows ∧ consuming.now ≤ row.expires ∧
    (row.deviceId ≠ "" → ∃ d ∈ checking.db.devices.rows, d.id = row.deviceId ∧ d.revoked = false ∧
      (d.viaLogin = true ∨ (d.canShare = true ∧ d.canDownload = true)))

theorem ownerAllowed_parts (allowed : ownerAllowed d = true) :
    d.revoked = false ∧ (d.viaLogin = true ∨ (d.canShare = true ∧ d.canDownload = true)) := by
  cases revoked : d.revoked <;> cases login : d.viaLogin <;> simp_all [ownerAllowed]

theorem served_after_checks (ran : Runs.run (step hashToken) (initial now) events = some last)
    (sent : entry ∈ last.log) : ServedAfterChecks hashToken now events entry.row := by
  -- Walk the request back: granted, consumed, checked.
  obtain ⟨r,untilSend,afterSend,sending,split,ranSend,granted⟩ := log_entered ran sent
  obtain ⟨untilRecheck,event,afterRecheck,rechecking,splitSend,ranRecheck,entered⟩ :=
    stage_entered ranSend granted (by simp) (by simp)
  rcases entered with advanced | ⟨_,_,_,_,_,_,impossible⟩
  swap
  · cases impossible
  cases advanced with
  | recheckExpiry consumed unexpired =>
  obtain ⟨untilConsume,event,afterConsume,consuming,splitRecheck,ranConsume,entered⟩ :=
    stage_entered ranRecheck consumed (by simp) (by simp)
  rcases entered with advanced | ⟨token,owner,row,rfl,checked,found,stage⟩
  · cases advanced
  have past := ((run_valid ranRecheck).taken r _ (by rw [consumed]; rfl)).2.1
  obtain ⟨row_eq,time_eq,_⟩ : entry.row = row ∧ entry.consumedAt = consuming.now ∧ entry.owner = owner := by
    simpa using stage
  obtain ⟨present,same⟩ := getShareToken_row found
  have token_eq : row = token := ((run_valid ranConsume).copied r token (by rw [checked]; rfl)).2 row present same
  obtain ⟨untilCheck,event,afterCheck,checking,splitConsume,ranCheck,entered⟩ :=
    stage_entered ranConsume checked (by simp) (by simp)
  rcases entered with advanced | ⟨_,_,_,_,_,_,impossible⟩
  swap
  · cases impossible
  have checkedOwner : event = .checkOwner r ∧ (token.deviceId ≠ "" → ∃ d ∈ checking.db.devices.rows, d.id = token.deviceId ∧
      d.revoked = false ∧ (d.viaLogin = true ∨ (d.canShare = true ∧ d.canDownload = true))) := by
    cases advanced with
    | ownerless _ unnamed => exact ⟨rfl,fun named => absurd unnamed named⟩
    | owned _ known allowed =>
      obtain ⟨member,named⟩ := getDeviceById_row known
      exact ⟨rfl,fun _ => ⟨_,member,named,ownerAllowed_parts allowed⟩⟩
  obtain ⟨rfl,rights⟩ := checkedOwner
  refine ⟨r,untilCheck,afterCheck,afterConsume ++ (.recheckExpiry r::afterRecheck ++ afterSend),checking,consuming,
    ?_,ranCheck,by rw [← splitConsume]; exact ranConsume,row_eq ▸ present,?_,?_⟩
  · rw [split,splitSend,splitRecheck,splitConsume]
    simp
  · change entry.consumedAt ≤ rechecking.now at past
    omega
  · rw [row_eq,token_eq]
    exact rights

theorem token_leaves (ran : Runs.run (step hashToken) s events = some last)
    (present : t ∈ s.db.shareTokens.rows) (gone : t ∉ last.db.shareTokens.rows) :
    ∃ past event rest middle next, events = past ++ event::rest ∧ Runs.run (step hashToken) s past = some middle ∧
      step hashToken middle event = some next ∧
      ((∃ op, event = .store op) ∨ ∃ r owner, event = .consume r ∧ next.requests r = .consumed t middle.now owner) := by
  obtain ⟨past,event,rest,middle,next,split,ranPast,stepped,_,before,after⟩ :=
    Runs.run_begins (fun s => t ∉ s.db.shareTokens.rows) (not_not_intro present) ran gone
  refine ⟨past,event,rest,middle,next,split,ranPast,stepped,?_⟩
  cases step_cases stepped with
  | store _ => exact .inl ⟨_,rfl⟩
  | setSharing | clock | advance _ | send _ => exact absurd after before
  | @consume r token owner row checked found =>
    refine .inr ⟨r,owner,rfl,?_⟩
    have held : t ∈ middle.db.shareTokens.rows := not_not.mp before
    obtain ⟨member,same⟩ := getShareToken_row found
    have hit : t.tokenHash = token.tokenHash := by
      by_contra other
      exact after (deleteShareToken_mem.mpr ⟨held,other⟩)
    have equal : t = row := Table.same_of_clash held member (by simp [shareTokenKeys,hit,same])
    rw [equal,move_same]

def OwnerReady (db : DB) (token : ShareToken) : Prop :=
  token.deviceId = "" ∨ ∃ d, getDeviceById db token.deviceId = some d ∧ ownerAllowed d = true

def download (r : Nat) (tokenHash : String) : List Event :=
  [.arrive r tokenHash true,.look r,.checkExpiry r,.checkSharing r,.checkOwner r,.consume r,.recheckExpiry r,.send r true]

theorem getShareToken_stored (present : t ∈ db.shareTokens.rows) : getShareToken db t.tokenHash = some t := by
  cases found : getShareToken db t.tokenHash with
  | none =>
    have missed := List.find?_eq_none.mp found t present
    simp at missed
  | some row =>
    obtain ⟨member,same⟩ := getShareToken_row found
    rw [Table.same_of_clash member present (by simp [shareTokenKeys,same])]

theorem download_serves (idle : s.requests r = .idle) (present : t ∈ s.db.shareTokens.rows)
    (unexpired : s.now ≤ t.expires) (sharing : s.sharingEnabled = true) (ready : OwnerReady s.db t) :
    ∃ served owner, Runs.run (step hashToken) s (download r t.tokenHash) = some served ∧
      served.log = ⟨t,s.now,owner⟩::s.log := by
  have found := getShareToken_stored present
  have early : s.now < t.expires + 1 := by omega
  have late : ¬ t.expires < s.now := by omega
  have logs : ∃ owner, (Runs.run (step hashToken) s (download r t.tokenHash)).map State.log = some (⟨t,s.now,owner⟩::s.log) := by
    rcases ready with unnamed | ⟨d,known,allowed⟩
    · refine ⟨none,?_⟩
      simp [download,Runs.run,step,move,idle,found,early,unexpired,sharing,unnamed,late]
    · by_cases unnamed : t.deviceId = ""
      · refine ⟨none,?_⟩
        simp [download,Runs.run,step,move,idle,found,early,unexpired,sharing,unnamed,late]
      · refine ⟨some d,?_⟩
        simp [download,Runs.run,step,move,idle,found,early,unexpired,sharing,unnamed,known,allowed,late]
  obtain ⟨owner,logged⟩ := logs
  obtain ⟨served,ran,equal⟩ := Option.map_eq_some_iff.mp logged
  exact ⟨served,owner,ran,equal⟩

end Run

theorem share_link_served_once (hashToken : String → String) (now : Int) (events : List Event) (last : State)
    (ran : Runs.run (step hashToken) (initial now) events = some last) :
    (last.log.map (fun entry => entry.row.tokenHash)).Nodup ∧
    (∀ entry ∈ last.log, ServedAfterChecks hashToken now events entry.row) ∧
    (∀ first rest middle t, events = first ++ rest → Runs.run (step hashToken) (initial now) first = some middle →
      t ∈ middle.db.shareTokens.rows → t ∉ last.db.shareTokens.rows →
      ∃ past event later taking next, rest = past ++ event::later ∧
        Runs.run (step hashToken) middle past = some taking ∧ step hashToken taking event = some next ∧
        ((∃ op, event = .store op) ∨ ∃ r owner, event = .consume r ∧ next.requests r = .consumed t taking.now owner)) ∧
    (∀ t ∈ last.db.shareTokens.rows, last.now ≤ t.expires → last.sharingEnabled = true → OwnerReady last.db t →
      ∃ r served owner, last.requests r = .idle ∧ Runs.run (step hashToken) last (download r t.tokenHash) = some served ∧
        served.log = ⟨t,last.now,owner⟩::last.log) := by
  have valid := run_valid ran
  refine ⟨valid.once,fun entry sent => served_after_checks ran sent,?_,?_⟩
  · rintro first rest middle t rfl ranFirst present gone
    obtain ⟨reached,ranAgain,ranRest⟩ := Runs.run_append.mp ran
    cases ranFirst.symm.trans ranAgain
    exact token_leaves ranRest present gone
  · intro t present unexpired sharing ready
    obtain ⟨bound,quiet⟩ := valid.idle
    obtain ⟨served,owner,downloaded,logged⟩ := download_serves (quiet bound (Nat.le_refl _)) present unexpired sharing ready
    exact ⟨bound,served,owner,quiet bound (Nat.le_refl _),downloaded,logged⟩

def race : List Event :=
  [.store (.registerAccount "phone" "Phone" "first" "key" "owner" "password" "d1"),
    .store (.createShareToken "link" "/home/report.pdf" "d1" 900),.setSharing false,
    .arrive 0 "link" true,.look 0,.checkExpiry 0,.checkSharing 0,.setSharing true,
    .arrive 1 "link" true,.look 1,.arrive 2 "link" true,.look 2,.checkExpiry 2,.checkExpiry 1,.checkSharing 1,
    .checkSharing 2,.checkOwner 1,.checkOwner 2,.consume 2,.consume 1,.recheckExpiry 2,.send 2 true]

theorem race_served_once : ∃ last, Runs.run (step id) (initial 0) race = some last ∧ last.log.length = 1 ∧
    (last.log.map (fun entry => entry.row.tokenHash)).Nodup := by
  refine ⟨_,rfl,rfl,(share_link_served_once id 0 race _ rfl).1⟩

end RemoteFileExplorer.ShareLinks
