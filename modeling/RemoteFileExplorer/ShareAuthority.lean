import RemoteFileExplorer.Devices

namespace RemoteFileExplorer.ShareAuthority
open Tables Devices

def mayShare (d : Device) : Bool := !d.revoked && (d.viaLogin || d.canShare)

def OwnerMayShare (db : DB) (id : String) : Prop := ∃ d ∈ db.devices.rows, d.id = id ∧ mayShare d = true

-- A token that names no device is older than the owner column and has none.
def Authority (db : DB) : Prop := ∀ t ∈ db.shareTokens.rows, t.deviceId ≠ "" → OwnerMayShare db t.deviceId

instance (db : DB) (id : String) : Decidable (OwnerMayShare db id) :=
  inferInstanceAs (Decidable (∃ d ∈ db.devices.rows, d.id = id ∧ mayShare d = true))
instance (db : DB) : Decidable (Authority db) :=
  inferInstanceAs (Decidable (∀ t ∈ db.shareTokens.rows, t.deviceId ≠ "" → OwnerMayShare db t.deviceId))

def ownsToken (db : DB) (id : String) : Prop := ∃ t ∈ db.shareTokens.rows, t.deviceId = id ∧ t.deviceId ≠ ""

theorem same_device {db : DB} {a b : Device} (left : a ∈ db.devices.rows) (right : b ∈ db.devices.rows)
    (same : a.id = b.id) : a = b :=
  Table.same_of_clash left right (by simp [deviceKeys,same])

theorem authority_owner (valid : Authority db) (stored : d ∈ db.devices.rows) (owns : ownsToken db d.id) :
    mayShare d = true := by
  obtain ⟨t,present,owner,named⟩ := owns
  obtain ⟨row,member,same,may⟩ := valid t present named
  have equal := same_device member stored (same.trans owner)
  rwa [equal] at may

theorem authority_map (set : Device → Device) (valid : Authority db)
    (rows : next.devices.rows = db.devices.rows.map set) (ids : ∀ d, (set d).id = d.id)
    (tokens : ∀ t ∈ next.shareTokens.rows, t ∈ db.shareTokens.rows)
    (keeps : ∀ d ∈ db.devices.rows, mayShare d = true → ownsToken next d.id → mayShare (set d) = true) :
    Authority next := by
  intro t present named
  obtain ⟨d,member,same,may⟩ := valid t (tokens t present) named
  refine ⟨set d,?_,(ids d).trans same,keeps d member may ⟨t,present,same.symm,named⟩⟩
  rw [rows]
  exact List.mem_map_of_mem member

theorem authority_tokens (valid : Authority db) (rows : next.devices = db.devices)
    (tokens : ∀ t ∈ next.shareTokens.rows, t ∈ db.shareTokens.rows) : Authority next := by
  refine authority_map id valid (by simp [rows]) (fun _ => rfl) tokens ?_
  intro d _ may _
  exact may

theorem authority_grow (valid : Authority db)
    (rows : ∀ d ∈ db.devices.rows, d ∈ next.devices.rows) (tokens : next.shareTokens = db.shareTokens) :
    Authority next := by
  intro t present named
  rw [tokens] at present
  obtain ⟨d,member,same,may⟩ := valid t present named
  exact ⟨d,rows d member,same,may⟩

@[simp] theorem patchDevices_rows (db : DB) (patch : Patch) :
    (db.patchDevices patch).devices.rows = db.devices.rows.map patch.set := rfl
@[simp] theorem patchDevices_tokens (db : DB) (patch : Patch) :
    (db.patchDevices patch).shareTokens = db.shareTokens := rfl
@[simp] theorem patchDevice_tokens (db : DB) (id : String) (patch : Patch) :
    (db.patchDevice id patch).shareTokens = db.shareTokens := rfl

theorem purge_mem (db : DB) (id : String) :
    t ∈ (db.purgeShareTokens id).shareTokens.rows ↔ t ∈ db.shareTokens.rows ∧ t.deviceId ≠ id := by
  simp [DB.purgeShareTokens]

theorem patch_purge_authority (valid : Authority db) (id : String) (patch : Patch) :
    Authority ((db.patchDevice id patch).purgeShareTokens id) := by
  refine authority_map (patch.onlyWhere (fun d => d.id == id)).set valid rfl (Patch.id _) ?_ ?_
  · intro t present
    exact ((purge_mem _ _).mp present).1
  · intro d _ may owns
    obtain ⟨t,present,owner,_⟩ := owns
    have other : d.id ≠ id := owner ▸ ((purge_mem _ _).mp present).2
    simpa [Patch.onlyWhere,other] using may

theorem patch_keeps_authority (valid : Authority db) (id : String) (patch : Patch)
    (keeps : ∀ d, mayShare d = true → mayShare (patch.set d) = true) : Authority (db.patchDevice id patch) := by
  refine authority_map (patch.onlyWhere (fun d => d.id == id)).set valid rfl (Patch.id _) (fun _ present => present) ?_
  intro d _ may _
  by_cases chosen : d.id = id
  · simpa [Patch.onlyWhere,chosen] using keeps d may
  · simpa [Patch.onlyWhere,chosen] using may

theorem client_device (found : clientDeviceById db clientId = some d) : d ∈ db.devices.rows := by
  unfold clientDeviceById at found
  split at found
  · cases found
  · exact List.mem_of_find?_eq_some found

-- The two ways a pairing can end: the row of the client id is rewritten, or a
-- row with the drawn id is added. Users and tokens are never touched.
theorem upsert_cases
    (paired : upsertDeviceTx hashToken now db clientId label token publicKey viaLogin uuid = .ok (next,deviceId)) :
    next.users = db.users ∧ next.shareTokens = db.shareTokens ∧
    ((∃ existing, clientDeviceById db clientId = some existing ∧ deviceId = existing.id ∧
        next.devices.rows = db.devices.rows.map (fun d =>
          if d.id == existing.id then rePaired hashToken now d label token publicKey viaLogin else d)) ∨
      (clientDeviceById db clientId = none ∧ deviceId = uuid ∧
        next.devices.rows = db.devices.rows ++ [freshDevice hashToken now uuid clientId label token publicKey viaLogin])) := by
  unfold upsertDeviceTx at paired
  cases known : clientDeviceById db clientId with
  | some existing =>
    simp only [known] at paired
    split at paired
    · cases paired
    · rename_i devices updated
      cases paired
      exact ⟨rfl,rfl,.inl ⟨existing,rfl,rfl,Table.update_rows updated⟩⟩
  | none =>
    simp only [known] at paired
    split at paired
    · cases paired
    · rename_i devices inserted
      cases paired
      exact ⟨rfl,rfl,.inr ⟨rfl,rfl,(Table.insert_parts inserted).2⟩⟩

theorem rePaired_may (hashToken : String → String) (now : Int) (d : Device) (label token publicKey : String) (viaLogin : Bool) :
    mayShare (rePaired hashToken now d label token publicKey viaLogin) = (viaLogin || (!d.viaLogin && d.canShare)) := by
  cases viaLogin <;> cases login : d.viaLogin <;> simp [mayShare,rePaired,rePairedGrant,login]

def Keeps (db : DB) : Operation → Prop
  | .upsertDevice clientId _ _ _ viaLogin _ =>
    viaLogin = false → ∀ d, clientDeviceById db clientId = some d → d.viaLogin = true → ¬ ownsToken db d.id
  | .createShareToken _ _ deviceId _ => deviceId ≠ "" → OwnerMayShare db deviceId
  | _ => True

theorem upsert_authority {hashToken : String → String} (valid : Authority db)
    (paired : upsertDeviceTx hashToken now db clientId label token publicKey viaLogin uuid = .ok (next,deviceId)) :
    Authority next ↔
      (viaLogin = false → ∀ d, clientDeviceById db clientId = some d → d.viaLogin = true → ¬ ownsToken db d.id) := by
  obtain ⟨_,tokens,ended⟩ := upsert_cases paired
  have owned : ∀ id, ownsToken next id ↔ ownsToken db id := by
    intro id
    simp [ownsToken,tokens]
  rcases ended with ⟨existing,known,_,rows⟩ | ⟨unknown,_,rows⟩
  · have stored := client_device known
    constructor
    · intro kept byCode d found login owns
      cases known.symm.trans found
      have member : rePaired hashToken now existing label token publicKey viaLogin ∈ next.devices.rows := by
        rw [rows]
        exact List.mem_map.mpr ⟨existing,stored,by simp⟩
      have may := authority_owner kept member ((owned _).mpr owns)
      rw [rePaired_may] at may
      simp [byCode,login] at may
    · intro allowed
      refine authority_map _ valid rows ?_ (by simp [tokens]) ?_
      · intro d
        split <;> rfl
      · intro d member may owns
        by_cases chosen : d.id = existing.id
        · cases same_device member stored chosen
          simp only [beq_self_eq_true,if_true,rePaired_may]
          cases byCode : viaLogin with
          | true => rfl
          | false =>
            cases login : existing.viaLogin with
            | true => exact absurd ((owned _).mp owns) (allowed byCode existing known login)
            | false => simpa [mayShare,login] using (Bool.and_eq_true_iff.mp may).2
        · simpa [chosen] using may
  · constructor
    · intro _ _ d found
      rw [unknown] at found
      cases found
    · intro _
      exact authority_grow valid (fun d member => by rw [rows]; exact List.mem_append_left _ member) tokens

theorem loginUpsert_authority (valid : Authority db)
    (paired : loginUpsert hashToken now db clientId label token publicKey username uuid = .ok (next,deviceId)) :
    Authority next := by
  obtain ⟨middle,upserted,rfl⟩ := loginUpsert_parts paired
  have kept : Authority middle := (upsert_authority valid upserted).mpr (by simp)
  exact patch_keeps_authority kept _ (stampUsername username) (fun _ may => may)

theorem deleteUser_authority (valid : Authority db) (deleted : deleteUser db username = .ok next) : Authority next := by
  unfold deleteUser at deleted
  split at deleted
  · cases deleted
  · split at deleted
    · cases deleted
    · cases deleted
      refine authority_map (revoke.onlyWhere (fun d => d.username == username)).set valid rfl (Patch.id _) ?_ ?_
      · intro t present
        exact (Table.mem_delete.mp present).1
      · intro d member may owns
        obtain ⟨t,present,owner,_⟩ := owns
        have spared := (Table.mem_delete.mp present).2
        have other : d.username ≠ username := by
          intro same
          have listed : t.deviceId ∈ (db.devices.rows.filter (fun d => d.username == username)).map Device.id :=
            List.mem_map.mpr ⟨d,List.mem_filter.mpr ⟨member,by simpa using same⟩,owner.symm⟩
          rw [List.contains_iff_mem.mpr listed] at spared
          cases spared
        simpa [Patch.onlyWhere,other] using may

theorem exec_authority (valid : Authority db)
    (done : exec hashToken now db op = .ok next) : Authority next ↔ Keeps db op := by
  have always : Authority next → (Authority next ↔ True) := fun kept => ⟨fun _ => trivial,fun _ => kept⟩
  cases op with
  | createDevice id label token =>
    apply always
    obtain ⟨_,_,_,_,inserted,rfl⟩ := createDevice_parts done
    exact authority_grow valid (fun d member => (Table.mem_insert inserted).mpr (.inl member)) rfl
  | upsertDevice clientId label token publicKey viaLogin uuid =>
    obtain ⟨_,paired⟩ := map_fst_ok done
    exact upsert_authority valid paired
  | registerAccount clientId label token publicKey username passwordHash uuid =>
    apply always
    obtain ⟨_,registered⟩ := map_fst_ok done
    obtain ⟨_,users,_,paired⟩ := registerAccount_parts registered
    have shifted : Authority {db with users := users} := valid
    exact loginUpsert_authority shifted paired
  | loginDevice clientId label token publicKey username passwordHash uuid =>
    apply always
    obtain ⟨_,logged⟩ := map_fst_ok done
    exact loginUpsert_authority valid (loginDevice_parts logged).2
  | resetDeviceAccess id => cases done; exact always (patch_purge_authority valid id _)
  | setDeviceJail id jailRoot | setDeviceReadOnly id readOnly => cases done; exact always (patch_keeps_authority valid id _ (fun _ may => may))
  | setDeviceAppPermissions id viewApps launchApps =>
    cases done; exact always (patch_keeps_authority valid id _ (fun _ may => may))
  | setDeviceFilePermissions id browse download upload modify delete share =>
    cases done
    apply always
    cases share with
    | false => exact patch_purge_authority valid id _
    | true =>
      refine patch_keeps_authority valid id _ ?_
      intro d may
      have live := (Bool.and_eq_true_iff.mp may).1
      simpa [mayShare] using live
  | revokeDevice id => cases done; exact always (patch_purge_authority valid id revoke)
  | deleteDevice id =>
    cases done
    apply always
    intro t present named
    obtain ⟨kept,other⟩ := (purge_mem _ _).mp present
    obtain ⟨d,member,same,may⟩ := valid t kept named
    exact ⟨d,Table.mem_delete.mpr ⟨member,by simpa [same] using other⟩,same,may⟩
  | createUser username passwordHash =>
    apply always
    obtain ⟨_,_,rfl⟩ := createUser_parts done
    exact valid
  | deleteUser username => exact always (deleteUser_authority valid done)
  | createShareToken tokenHash path deviceId expires =>
    obtain ⟨tokens,inserted,rfl⟩ := createShareToken_parts done
    constructor
    · intro kept named
      exact kept _ ((Table.mem_insert inserted).mpr (.inr rfl)) named
    · intro owner t present named
      rcases (Table.mem_insert inserted).mp present with old | rfl
      · exact valid t old named
      · exact owner named
  | consumeShareToken tokenHash =>
    cases done
    refine always (authority_tokens valid ?_ ?_)
    · unfold consumeShareTokenFor; split <;> rfl
    · intro t present
      unfold consumeShareTokenFor at present
      split at present
      · exact present
      · exact (Table.mem_delete.mp present).1
  | deleteShareToken tokenHash | sweepExpiredShareTokens =>
    cases done
    exact always (authority_tokens valid rfl (fun t present => (Table.mem_delete.mp present).1))

def EventKeeps (s : State) (event : Event) : Prop := ∀ op, event = .operation op → Keeps s.db op

theorem step_authority (valid : Authority s.db) (keeps : EventKeeps s event)
    (stepped : step hashToken s event = some next) : Authority next.db := by
  cases event with
  | clock seconds => cases stepped; exact valid
  | operation op =>
    cases stepped
    cases done : exec hashToken s.now s.db op with
    | error e => simpa [Except.toOption] using valid
    | ok db => exact (exec_authority valid done).mpr (keeps op rfl)

theorem share_tokens_have_authorised_owners (hashToken : String → String) (now : Int) :
    (∀ events last, Runs.Every (step hashToken) EventKeeps (initial now) events →
      Runs.run (step hashToken) (initial now) events = some last → Authority last.db) ∧
    ∀ (s : State) op next, Authority s.db → exec hashToken s.now s.db op = .ok next → ¬ Keeps s.db op → ¬ Authority next := by
  constructor
  · intro events last meets ran
    refine Runs.run_preserves_when (fun s => Authority s.db) ?_ ?_ meets ran
    · intro s event next valid keeps stepped
      exact step_authority valid keeps stepped
    · intro t present
      cases present
  · intro s op next valid done breaks kept
    exact breaks ((exec_authority valid done).mp kept)

def registered : Event := .operation (.registerAccount "phone" "Phone" "first" "key" "owner" "password" "d1")
def shared : Event := .operation (.createShareToken "link" "/home/report.pdf" "d1" 900)
def pairedByCode : Event := .operation (.upsertDevice "phone" "Phone" "second" "key" false "d2")

theorem authorised_owners_after_share :
    ∃ last, Runs.run (step id) (initial 0) [registered,shared,.clock 60] = some last ∧ Authority last.db := by
  refine ⟨_,rfl,(share_tokens_have_authorised_owners id 0).1 [registered,shared,.clock 60] _ ?_ rfl⟩
  refine ⟨?_,fun next stepped => ?_⟩
  · intro op same; cases same; trivial
  · cases stepped
    refine ⟨?_,fun next stepped => ?_⟩
    · intro op same
      cases same
      intro _
      decide
    · cases stepped
      refine ⟨?_,fun next stepped => trivial⟩
      intro op same
      cases same

-- The same phone pairs by code after it logged in: the row stops being a login
-- row and loses can_share, while the link it minted stays stored.
theorem pairing_by_code_strands_share_token :
    ¬ ∀ events last, Runs.run (step id) (initial 0) events = some last → Authority last.db := by
  intro every
  have stranded := every [registered,shared,pairedByCode] _ rfl
  revert stranded
  decide

end RemoteFileExplorer.ShareAuthority
