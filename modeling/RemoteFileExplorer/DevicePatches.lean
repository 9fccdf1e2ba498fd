import RemoteFileExplorer.Jail
import RemoteFileExplorer.ShareAuthority
import RemoteFileExplorer.StaleWrites

namespace RemoteFileExplorer.DevicePatches
open Devices FileTree Jail StaleWrites
open ShareAuthority (patchDevices_rows)

inductive Field where
  | jailRoot
  | readOnly
  | viewApps
  | launchApps
  | browse
  | download
  | upload
  | modify
  | delete
  | share
  deriving DecidableEq, Repr

def allFields : List Field :=
  [.jailRoot,.readOnly,.viewApps,.launchApps,.browse,.download,.upload,.modify,.delete,.share]

instance (holds : Field → Prop) [DecidablePred holds] : Decidable (∀ field, holds field) :=
  decidable_of_iff (∀ field ∈ allFields, holds field)
    ⟨fun listed field => listed field (by cases field <;> decide),fun all field _ => all field⟩

inductive Value where
  | text (path : String)
  | flag (on : Bool)
  deriving DecidableEq, Repr

def valueOf (d : Device) : Field → Value
  | .jailRoot => .text d.jailRoot
  | .readOnly => .flag d.readOnly
  | .viewApps => .flag d.viewApps
  | .launchApps => .flag d.launchApps
  | .browse => .flag d.canBrowse
  | .download => .flag d.canDownload
  | .upload => .flag d.canUpload
  | .modify => .flag d.canModify
  | .delete => .flag d.canDelete
  | .share => .flag d.canShare

structure Body where
  jailRoot : Option String := none
  readOnly : Option Bool := none
  viewApps : Option Bool := none
  launchApps : Option Bool := none
  browse : Option Bool := none
  download : Option Bool := none
  upload : Option Bool := none
  modify : Option Bool := none
  delete : Option Bool := none
  share : Option Bool := none
  deriving DecidableEq, Repr

def splitSlash : List Char → List (List Char)
  | [] => [[]]
  | c::rest =>
    match c == '/',splitSlash rest with
    | true,parts => []::parts
    | false,first::parts => (c::first)::parts
    | false,[] => [[c]]

def written (text : String) : Written := ⟨text.toList.head? == some '/',(splitSlash text.toList).map String.ofList⟩

-- filepath.Clean of an absolute path.
def cleanText (text : String) : String := "/" ++ String.intercalate "/" (clean (written text).parts)

-- What the jail check reads besides the request: the disk, the configured
-- roots and the protected directories, as they are when it is made.
structure Env where
  disk : Disk Unit
  roots : List CleanPath
  protectedDirs : List Path
  links : Nat

def storedJail (jailRoot : String) : String := if jailRoot = "" then "" else cleanText jailRoot

def validateJailRoot (env : Env) (jailRoot : String) : Except String String :=
  if jailRoot = "" then .ok "" else
  if !(written jailRoot).absolute then .error "jailRoot must be an absolute path" else
  if env.roots.isEmpty then .ok (cleanText jailRoot) else
  match resolve env.disk ⟨env.roots,false,env.protectedDirs,env.links⟩ ⟨true,clean (written jailRoot).parts⟩ with
  | .error _ => .error "jailRoot must resolve within the agent's configured roots"
  | .ok _ => .ok (cleanText jailRoot)

def setJail (env : Env) (db : DB) (id jailRoot : String) : Except String DB :=
  (validateJailRoot env jailRoot).map (setDeviceJail db id)

inductive Group where
  | jail
  | readOnly
  | apps
  | files
  deriving DecidableEq, Repr

def groupOf : Field → Group
  | .jailRoot => .jail
  | .readOnly => .readOnly
  | .viewApps | .launchApps => .apps
  | .browse | .download | .upload | .modify | .delete | .share => .files

-- The value a field is asked to have. A jail root is stored cleaned.
def asked (b : Body) : Field → Option Value
  | .jailRoot => b.jailRoot.map (.text ∘ storedJail)
  | .readOnly => b.readOnly.map .flag
  | .viewApps => b.viewApps.map .flag
  | .launchApps => b.launchApps.map .flag
  | .browse => b.browse.map .flag
  | .download => b.download.map .flag
  | .upload => b.upload.map .flag
  | .modify => b.modify.map .flag
  | .delete => b.delete.map .flag
  | .share => b.share.map .flag

def names (b : Body) (field : Field) : Bool := (asked b field).isSome

def writesGroup (b : Body) : Group → Bool
  | .jail => b.jailRoot.isSome
  | .readOnly => b.readOnly.isSome
  | .apps => b.viewApps.isSome || b.launchApps.isSome
  | .files => b.browse.isSome || b.download.isSome || b.upload.isSome || b.modify.isSome || b.delete.isSome || b.share.isSome

def allGroups : List Group := [.jail,.readOnly,.apps,.files]

def write (env : Env) (db : DB) (id : String) (target : Device) (b : Body) : Group → Except String DB
  | .jail =>
    match b.jailRoot with
    | none => .ok db
    | some jailRoot => setJail env db id jailRoot
  | .readOnly => .ok (setDeviceReadOnly db id (b.readOnly.getD target.readOnly))
  | .apps => .ok (setDeviceAppPermissions db id (b.viewApps.getD target.viewApps) (b.launchApps.getD target.launchApps))
  | .files => .ok (setDeviceFilePermissions db id (b.browse.getD target.canBrowse) (b.download.getD target.canDownload)
      (b.upload.getD target.canUpload) (b.modify.getD target.canModify) (b.delete.getD target.canDelete)
      (b.share.getD target.canShare))

-- A restore that fails is logged and the next one is tried.
def restore (env : Env) (db : DB) (id : String) (target : Device) : Group → DB
  | .jail => (setJail env db id target.jailRoot).toOption.getD db
  | .readOnly => setDeviceReadOnly db id target.readOnly
  | .apps => setDeviceAppPermissions db id target.viewApps target.launchApps
  | .files => setDeviceFilePermissions db id target.canBrowse target.canDownload target.canUpload target.canModify
      target.canDelete target.canShare

def isAdminDevice (caller : Option Device) : Bool := caller.any Device.viaLogin

inductive Stage where
  | arrived
  | writing (target : Device) (rest : List Group)
  | restoring (target : Device) (rest : List Group)
  | failed
  | succeeded
  deriving DecidableEq, Repr

structure Request where
  caller : Option Device
  body : Body
  deriving DecidableEq, Repr

structure State where
  db : DB
  env : Env
  left : Stage
  right : Stage

def State.stage (s : State) (side : Side) : Stage := side.pick s.left s.right

def State.put (s : State) (side : Side) (stage : Stage) : State :=
  match side with
  | .left => {s with left := stage}
  | .right => {s with right := stage}

inductive Event where
  | read (side : Side)
  | write (side : Side)
  | finish (side : Side)
  | fault (side : Side)
  | environment (env : Env)

section Step
variable (id : String) (requests : Side → Request)

def launchWithoutView (target : Device) (b : Body) : Bool :=
  b.launchApps.getD target.launchApps && !b.viewApps.getD target.viewApps

def step (s : State) : Event → Option State
  | .read side =>
    match s.stage side with
    | .arrived =>
      if !isAdminDevice (requests side).caller then some (s.put side .failed) else
      match getDeviceById s.db id with
      | none => some (s.put side .failed)
      | some target =>
        if launchWithoutView target (requests side).body then some (s.put side .failed)
        else some (s.put side (.writing target (allGroups.filter (writesGroup (requests side).body))))
    | _ => none
  | .write side =>
    match s.stage side with
    | .writing target (group::rest) =>
      match write s.env s.db id target (requests side).body group with
      | .ok db => some ({s with db := db}.put side (.writing target rest))
      | .error _ => some (s.put side .failed)
    | .restoring target (group::rest) => some ({s with db := restore s.env s.db id target group}.put side (.restoring target rest))
    | _ => none
  | .finish side =>
    match s.stage side with
    | .writing _ [] => some (s.put side (if (getDeviceById s.db id).isSome then .succeeded else .failed))
    | .restoring _ [] => some (s.put side .failed)
    | _ => none
  -- A database error, or a body that does not decode. Only the writes after
  -- the first are undone, and an error while undoing skips that group.
  | .fault side =>
    match s.stage side with
    | .arrived => some (s.put side .failed)
    | .writing _ (.jail::_) => some (s.put side .failed)
    | .writing target (_::_) => some (s.put side (.restoring target allGroups))
    | .writing _ [] => some (s.put side .failed)
    | .restoring target (_::rest) => some (s.put side (.restoring target rest))
    | _ => none
  | .environment env => some {s with env := env}

def start (db : DB) (env : Env) : State := ⟨db,env,.arrived,.arrived⟩

def Kept (before after : DB) : Prop :=
  ∃ d d', getDeviceById before id = some d ∧ getDeviceById after id = some d' ∧
    (∀ side field value, asked (requests side).body field = some value → valueOf d' field = value) ∧
    ∀ field, (∀ side, asked (requests side).body field = none) → valueOf d' field = valueOf d field

-- The next write would meet the fields that it carries without being asked to
-- as its own request read them.
def AsRead (db : DB) (b : Body) : Stage → Prop
  | .writing target (group::_) => ∀ field, groupOf field = group → asked b field = none →
      (getDeviceById db id).map (valueOf · field) = some (valueOf target field)
  | _ => True

def FindsAsRead (s : State) : Event → Prop
  | .write side => AsRead id s.db (requests side).body (s.stage side)
  | _ => True

instance (db : DB) (b : Body) : (stage : Stage) → Decidable (AsRead id db b stage)
  | .writing target (group::_) => inferInstanceAs (Decidable (∀ field, groupOf field = group → asked b field = none →
      (getDeviceById db id).map (valueOf · field) = some (valueOf target field)))
  | .writing _ [] | .arrived | .restoring _ _ | .failed | .succeeded => .isTrue trivial

instance (s : State) : (event : Event) → Decidable (FindsAsRead id requests s event)
  | .write side => inferInstanceAs (Decidable (AsRead id s.db (requests side).body (s.stage side)))
  | .read _ | .finish _ | .fault _ | .environment _ => .isTrue trivial

end Step

@[simp] theorem stage_put_same (s : State) (side : Side) (stage : Stage) : (s.put side stage).stage side = stage := by
  cases side <;> rfl
@[simp] theorem stage_put_other (s : State) (side : Side) (stage : Stage) :
    (s.put side stage).stage side.other = s.stage side.other := by
  cases side <;> rfl
@[simp] theorem put_db (s : State) (side : Side) (stage : Stage) : (s.put side stage).db = s.db := by
  cases side <;> rfl

theorem patched_device {id : String} (found : getDeviceById db id = some d) (patch : Patch) :
    getDeviceById (db.patchDevice id patch) id = some (patch.set d) := by
  have kept : ∀ d, ((patch.onlyWhere fun d => d.id == id).set d).id = d.id := (patch.onlyWhere _).id
  have named : d.id = id := by simpa using List.find?_some found
  simp only [getDeviceById,Tables.Table.find,DB.patchDevice,patchDevices_rows,List.find?_map,Function.comp_def,kept] at found ⊢
  rw [found]
  simp [Patch.onlyWhere,named]

theorem filed_device {id : String} (found : getDeviceById db id = some d)
    (browse download upload modify delete share : Bool) :
    getDeviceById (setDeviceFilePermissions db id browse download upload modify delete share) id = some {d with
      canBrowse := browse,canDownload := download,canUpload := upload,
      canModify := modify,canDelete := delete,canShare := share} := by
  unfold setDeviceFilePermissions
  split
  · exact patched_device found _
  · exact patched_device found _

theorem asked_jail (valid : validateJailRoot env jailRoot = .ok stored) : stored = storedJail jailRoot := by
  unfold validateJailRoot at valid
  unfold storedJail
  split at valid
  · cases valid; simp [*]
  · rename_i named
    rw [if_neg named]
    split at valid
    · cases valid
    · split at valid
      · cases valid; rfl
      · split at valid
        · cases valid
        · cases valid; rfl

theorem write_values {id : String}
    (found : getDeviceById db id = some d) (writes : writesGroup b group = true)
    (wrote : write env db id target b group = .ok next) :
    ∃ d', getDeviceById next id = some d' ∧ ∀ field, valueOf d' field =
      if groupOf field = group then (asked b field).getD (valueOf target field) else valueOf d field := by
  cases group with
  | jail =>
    obtain ⟨jailRoot,given⟩ := Option.isSome_iff_exists.mp writes
    simp only [write,given,setJail] at wrote
    cases valid : validateJailRoot env jailRoot with
    | error message => rw [valid] at wrote; cases wrote
    | ok stored =>
      rw [valid] at wrote
      cases wrote
      refine ⟨_,patched_device found _,?_⟩
      intro field
      cases field <;> simp [groupOf,valueOf,asked,given,asked_jail valid]
  | readOnly | apps =>
    cases wrote
    refine ⟨_,patched_device found _,?_⟩
    intro field
    cases field <;> simp [groupOf,valueOf,asked]
  | files =>
    cases wrote
    refine ⟨_,filed_device found _ _ _ _ _ _,?_⟩
    intro field
    cases field <;> simp [groupOf,valueOf,asked]

theorem names_group (asks : asked b field ≠ none) : writesGroup b (groupOf field) = true := by
  cases field <;> simp_all [asked,groupOf,writesGroup,Option.isSome_iff_ne_none]

def Stage.lost : Stage → Prop
  | .failed | .restoring _ _ => True
  | _ => False

def Doomed (s : State) : Prop := s.left.lost ∨ s.right.lost

section Proofs
variable {id : String} {requests : Side → Request} {s next : State} {event : Event}

theorem doomed_iff : Doomed s ↔ ∃ side, (s.stage side).lost := by
  constructor
  · rintro (lost | lost)
    · exact ⟨.left,lost⟩
    · exact ⟨.right,lost⟩
  · rintro ⟨side,lost⟩
    cases side with
    | left => exact .inl lost
    | right => exact .inr lost

theorem put_doomed (side : Side) (lost : stage.lost) : Doomed (s.put side stage) :=
  doomed_iff.mpr ⟨side,by rw [stage_put_same]; exact lost⟩

inductive Move (id : String) (requests : Side → Request) (s : State) : Event → State → Prop where
  | environment (env : Env) : Move id requests s (.environment env) {s with env := env}
  | read (side : Side) : s.stage side = .arrived → getDeviceById s.db id = some target →
      Move id requests s (.read side) (s.put side (.writing target (allGroups.filter (writesGroup (requests side).body))))
  | write (side : Side) : s.stage side = .writing target (group::rest) →
      write s.env s.db id target (requests side).body group = .ok db →
      Move id requests s (.write side) ({s with db := db}.put side (.writing target rest))
  | finish (side : Side) : s.stage side = .writing target [] → Move id requests s (.finish side) (s.put side .succeeded)

theorem step_cases (stepped : step id requests s event = some next) : Doomed next ∨ Move id requests s event next := by
  cases event with
  | environment env => cases stepped; exact .inr (.environment env)
  | read side =>
    simp only [step] at stepped
    split at stepped
    · rename_i arrived
      split at stepped
      · cases stepped; exact .inl (put_doomed side trivial)
      · split at stepped
        · cases stepped; exact .inl (put_doomed side trivial)
        · rename_i target found
          split at stepped
          · cases stepped; exact .inl (put_doomed side trivial)
          · cases stepped; exact .inr (.read side arrived found)
    · cases stepped
  | write side =>
    simp only [step] at stepped
    split at stepped
    · rename_i target group rest writing
      split at stepped
      · rename_i db wrote
        cases stepped; exact .inr (.write side writing wrote)
      · cases stepped; exact .inl (put_doomed side trivial)
    · cases stepped; exact .inl (put_doomed side trivial)
    · cases stepped
  | finish side =>
    simp only [step] at stepped
    split at stepped
    · rename_i target written
      cases stepped
      split
      · exact .inr (.finish side written)
      · exact .inl (put_doomed side trivial)
    · cases stepped; exact .inl (put_doomed side trivial)
    · cases stepped
  | fault side =>
    simp only [step] at stepped
    split at stepped
    all_goals first | cases stepped; exact .inl (put_doomed side trivial) | cases stepped

theorem move_lost (moved : Move id requests s event next) (lost : (s.stage side).lost) : (next.stage side).lost := by
  cases moved with
  | environment env => exact lost
  | read actor stage | write actor stage | finish actor stage =>
    rcases side_cases side actor with same | other
    · rw [same,stage] at lost; exact lost.elim
    · rw [other] at lost ⊢
      rw [stage_put_other]
      exact lost

theorem doomed_stays (doomed : Doomed s) (stepped : step id requests s event = some next) : Doomed next := by
  rcases step_cases stepped with lost | moved
  · exact lost
  · obtain ⟨side,lost⟩ := doomed_iff.mp doomed
    exact doomed_iff.mpr ⟨side,move_lost moved lost⟩

def Shape (requests : Side → Request) (s : State) : Prop :=
  ∀ side target rest, s.stage side = .writing target rest →
    rest.Sublist (allGroups.filter (writesGroup (requests side).body))

theorem move_shape (shape : Shape requests s) (moved : Move id requests s event next) : Shape requests next := by
  intro side target rest writing
  cases moved with
  | environment env => exact shape side target rest writing
  | read actor arrived found =>
    rcases side_cases side actor with rfl | rfl
    · rw [stage_put_same] at writing; cases writing; exact .refl _
    · rw [stage_put_other] at writing; exact shape _ target rest writing
  | write actor stage wrote =>
    rcases side_cases side actor with rfl | rfl
    · rw [stage_put_same] at writing
      cases writing
      exact (List.sublist_cons_self _ _).trans (shape _ _ _ stage)
    · rw [stage_put_other] at writing; exact shape _ target rest writing
  | finish actor stage =>
    rcases side_cases side actor with rfl | rfl
    · rw [stage_put_same] at writing; cases writing
    · rw [stage_put_other] at writing; exact shape _ target rest writing

theorem shape_head (shape : Shape requests s) (writing : s.stage side = .writing target (group::rest)) :
    writesGroup (requests side).body group = true ∧ group ∉ rest := by
  have listed := shape side target (group::rest) writing
  have distinct : (group::rest).Nodup := (listed.trans List.filter_sublist).nodup (by decide)
  exact ⟨(List.mem_filter.mp (listed.subset List.mem_cons_self)).2,(List.nodup_cons.mp distinct).1⟩

def phaseOf (field : Field) : Stage → Phase Value
  | .arrived => .waiting
  | .writing target rest => if groupOf field ∈ rest then .holding (valueOf target field) else .passed
  | _ => .passed

def view (field : Field) (s : State) (d : Device) : Cell Value := ⟨valueOf d field,fun side => phaseOf field (s.stage side)⟩

def asks (requests : Side → Request) (field : Field) (side : Side) : Option Value := asked (requests side).body field

theorem move_view (field : Field) (shape : Shape requests s) (found : getDeviceById s.db id = some d)
    (moved : Move id requests s event next) :
    ∃ d', getDeviceById next.db id = some d' ∧ Moves (asks requests field) (view field s d) (view field next d') := by
  cases moved with
  | environment env => exact ⟨d,found,.stays rfl⟩
  | read actor arrived stored =>
    rw [found] at stored
    cases stored
    refine ⟨d,by rw [put_db]; exact found,?_⟩
    by_cases touched : groupOf field ∈ allGroups.filter (writesGroup (requests actor).body)
    · exact .reads actor (by simp [view,phaseOf,arrived]) rfl (by simp [view,phaseOf,touched]) (by simp [view])
    · refine .skips actor (by simp [view,phaseOf,arrived]) ?_ rfl (by simp [view,phaseOf,touched]) (by simp [view])
      by_contra asksField
      apply touched
      rw [List.mem_filter]
      exact ⟨by cases groupOf field <;> decide,names_group asksField⟩
  | write actor writing wrote =>
    obtain ⟨writes,once⟩ := shape_head shape writing
    obtain ⟨d',stored,values⟩ := write_values found writes wrote
    refine ⟨d',by rw [put_db]; exact stored,?_⟩
    rename_i target group rest db
    by_cases same : groupOf field = group
    · refine .writes actor (valueOf target field) ?_ ?_ ?_ ?_
      · simp [view,phaseOf,writing,same]
      · simp only [view]
        rw [values field,if_pos same]
        rfl
      · simp [view,phaseOf,same,once]
      · simp [view]; rfl
    · refine .stays (Cell.ext ?_ (funext fun side => ?_))
      · simp only [view]
        rw [values field,if_neg same]
      · rcases side_cases side actor with rfl | rfl
        · simp [view,phaseOf,writing,same]
        · simp [view]; rfl
  | finish actor writing =>
    refine ⟨d,by rw [put_db]; exact found,.stays (Cell.ext rfl (funext fun side => ?_))⟩
    rcases side_cases side actor with rfl | rfl
    · simp [view,phaseOf,writing]
    · simp [view]

def Tracks (id : String) (requests : Side → Request) (field : Field) (holds : Cell Value → Prop) (s : State) : Prop :=
  Doomed s ∨ (Shape requests s ∧ ∃ d, getDeviceById s.db id = some d ∧ holds (view field s d))

theorem tracks_step (tracks : Tracks id requests field holds s)
    (stepped : step id requests s event = some next)
    (keeps : ∀ d d', getDeviceById s.db id = some d → Move id requests s event next →
      Moves (asks requests field) (view field s d) (view field next d') → holds (view field s d) → holds (view field next d')) :
    Tracks id requests field holds next := by
  rcases tracks with doomed | ⟨shape,d,found,now⟩
  · exact .inl (doomed_stays doomed stepped)
  · rcases step_cases stepped with doomed | moved
    · exact .inl doomed
    · obtain ⟨d',stored,moves⟩ := move_view field shape found moved
      exact .inr ⟨move_shape shape moved,d',stored,keeps d d' found moved moves now⟩

theorem tracks_run (tracks : Tracks id requests field holds s)
    (keeps : ∀ c d, Moves (asks requests field) c d → holds c → holds d)
    (ran : Runs.run (step id requests) s events = some next) : Tracks id requests field holds next := by
  refine Runs.run_preserves ?_ tracks ran
  intro s event next now stepped
  refine tracks_step now stepped ?_
  intro d d' _ _ moves here
  exact keeps _ _ moves here

theorem finds_fresh (finds : FindsAsRead id requests s event) (found : getDeviceById s.db id = some d)
    (moved : Move id requests s event next) (silent : asks requests field actor = none)
    (held : (view field s d).phase actor = .holding seen) (wrote : (view field next d').phase actor = .passed) :
    (view field s d).current = seen := by
  simp only [view] at held wrote ⊢
  cases moved with
  | environment env => exact absurd (held.symm.trans wrote) (by simp)
  | read other arrived | finish other arrived =>
    rcases side_cases actor other with rfl | rfl
    · rw [arrived] at held; simp [phaseOf] at held
    · rw [stage_put_other] at wrote; exact absurd (held.symm.trans wrote) (by simp)
  | write other writing =>
    rename_i target group rest db ok
    rcases side_cases actor other with rfl | rfl
    · rw [stage_put_same] at wrote
      rw [writing] at held
      simp only [FindsAsRead,AsRead,writing] at finds
      by_cases same : groupOf field = group
      · have equal := finds field same silent
        rw [found] at equal
        simp only [phaseOf,same,List.mem_cons_self,if_true] at held
        cases held
        exact Option.some.inj equal
      · simp only [phaseOf,List.mem_cons,same,false_or] at held wrote
        exact absurd (held.symm.trans wrote) (by simp)
    · rw [stage_put_other] at wrote
      exact absurd (held.symm.trans wrote) (by simp)

theorem initial_tracks (field : Field) (found : getDeviceById db id = some d)
    (begins : holds ⟨valueOf d field,fun _ => .waiting⟩) : Tracks id requests field holds (start db env) := by
  refine .inr ⟨?_,d,found,?_⟩
  · intro side target rest writing
    cases side <;> cases writing
  · have fresh : view field (start db env) d = ⟨valueOf d field,fun _ => .waiting⟩ := by
      refine Cell.ext rfl (funext fun side => ?_)
      cases side <;> rfl
    rwa [fresh]

theorem ended_phase (both : ∀ side, s.stage side = .succeeded) (side : Side) :
    (view field s d).phase side = .passed := by
  simp [view,phaseOf,both]

theorem ended_undoomed (both : ∀ side, s.stage side = .succeeded) : ¬ Doomed s := by
  intro doomed
  obtain ⟨side,lost⟩ := doomed_iff.mp doomed
  rw [both side] at lost
  exact lost

def Blocked (id : String) (s : State) : Prop :=
  Doomed s ∨ (getDeviceById s.db id = none ∧ ∀ side, s.stage side = .arrived)

theorem blocked_step (blocked : Blocked id s) (stepped : step id requests s event = some next) : Blocked id next := by
  rcases blocked with doomed | ⟨missing,waits⟩
  · exact .inl (doomed_stays doomed stepped)
  · rcases step_cases stepped with doomed | moved
    · exact .inl doomed
    · cases moved with
      | environment env => exact .inr ⟨missing,waits⟩
      | read side _ found => rw [missing] at found; cases found
      | write side writing | finish side writing => rw [waits side] at writing; cases writing

theorem device_was_there (ran : Runs.run (step id requests) (start db env) events = some last)
    (both : ∀ side, last.stage side = .succeeded) : ∃ d, getDeviceById db id = some d := by
  rw [←Option.isSome_iff_exists]
  by_contra gone
  rw [Bool.not_eq_true,Option.isSome_eq_false_iff,Option.isNone_iff_eq_none] at gone
  have begins : Blocked id (start db env) := by
    refine .inr ⟨gone,?_⟩
    intro side
    cases side <;> rfl
  rcases Runs.run_preserves (fun _ _ _ => blocked_step) begins ran with doomed | ⟨_,waits⟩
  · exact ended_undoomed both doomed
  · have done := both .left
    rw [waits .left] at done
    cases done

theorem untouched_kept (found : getDeviceById db id = some d)
    (nobody : ∀ side, asks requests field side = none)
    (ran : Runs.run (step id requests) (start db env) events = some last) (undoomed : ¬ Doomed last)
    (ends : getDeviceById last.db id = some d') : Untouched (valueOf d field) (view field last d') := by
  have begins : Tracks id requests field (Untouched (valueOf d field)) (start db env) :=
    initial_tracks field found ⟨rfl,nofun⟩
  rcases tracks_run begins (fun _ _ moves kept => untouched_moves kept nobody moves) ran with doomed | ⟨_,row,stored,kept⟩
  · exact absurd doomed undoomed
  · rw [ends] at stored
    cases stored
    exact kept

section
variable (found : getDeviceById db id = some d) (asksOwner : asks requests field owner = some value) (asksOther : asks requests field owner.other = none)
include found asksOwner asksOther

theorem owned_pristine (ran : Runs.run (step id requests) (start db env) events = some last) :
    Tracks id requests field (Owned (Pristine owner) (valueOf d field) value owner) last := by
  refine tracks_run (initial_tracks field found ⟨?_,?_⟩) ?_ ran
  · exact fun _ => ⟨rfl,nofun⟩
  · exact nofun
  · intro c d moves owned
    refine owned_moves owned asksOwner asksOther moves (pristine_back moves) ?_
    exact fun _ _ passed pristine => absurd passed pristine

theorem owned_kept (finds : Runs.Every (step id requests) (FindsAsRead id requests) (start db env) events)
    (ran : Runs.run (step id requests) (start db env) events = some last) :
    Tracks id requests field (Owned (fun _ => True) (valueOf d field) value owner) last := by
  refine Runs.run_preserves_when _ ?_ (initial_tracks field found ⟨?_,?_⟩) finds ran
  · intro s event next now fresh stepped
    refine tracks_step now stepped ?_
    intro row row' stored moved moves owned
    refine owned_moves owned asksOwner asksOther moves (fun _ => trivial) ?_
    exact fun seen held passed _ => finds_fresh fresh stored moved asksOther held passed
  · exact fun _ => ⟨rfl,nofun⟩
  · exact nofun

end

-- The one way to miss the condition: a write that carries a field as it was
-- read, where the other request has meanwhile written what it was asked to.
theorem stale_write (found : getDeviceById db id = some d)
    (ran : Runs.run (step id requests) (start db env) past = some s) (undoomed : ¬ Doomed next)
    (stepped : step id requests s event = some next) (misses : ¬ FindsAsRead id requests s event) :
    ∃ field owner value, asks requests field owner = some value ∧ Tracks id requests field (Overwritten value) next := by
  rcases step_cases stepped with doomed | moved
  · exact absurd doomed undoomed
  · cases moved with
    | environment env | read side | finish side => exact absurd trivial misses
    | write side writing wrote =>
      rename_i target group rest db'
      simp only [FindsAsRead,AsRead,writing] at misses
      push Not at misses
      obtain ⟨field,same,silent,other⟩ := misses
      have differs : ∀ row, getDeviceById s.db id = some row → valueOf row field ≠ valueOf target field := by
        intro row stored equal
        apply other
        rw [stored,Option.map_some,equal]
      have silentSide : asks requests field side = none := silent
      have undone : ¬ Doomed s := fun doomed => undoomed (doomed_stays doomed stepped)
      have holding : ∀ row, (view field s row).phase side = .holding (valueOf target field) := by
        intro row
        simp [view,phaseOf,writing,same]
      cases named : asks requests field side.other with
      | none =>
        obtain ⟨row,stored⟩ : ∃ row, getDeviceById s.db id = some row := by
          have begins : Tracks id requests field (fun _ => True) (start db env) := initial_tracks field found trivial
          rcases tracks_run begins (fun _ _ _ kept => kept) ran with doomed | ⟨_,row,stored,_⟩
          · exact absurd doomed undone
          · exact ⟨row,stored⟩
        have nobody : ∀ other, asks requests field other = none := by
          intro other
          rcases side_cases other side with rfl | rfl
          · exact silentSide
          · exact named
        obtain ⟨current,seen⟩ := untouched_kept found nobody ran undone stored
        exact absurd (current.trans (seen side _ (holding row)).symm) (differs row stored)
      | some value =>
        refine ⟨field,side.other,value,named,?_⟩
        have silentOther : asks requests field side.other.other = none := by rw [other_other]; exact silentSide
        rcases owned_pristine found named silentOther ran with doomed | ⟨shape,row,stored,owned⟩
        · exact absurd doomed undone
        · obtain ⟨row',stored',moves⟩ := move_view field shape stored (.write side writing wrote)
          refine .inr ⟨move_shape shape (.write side writing wrote),row',stored',?_⟩
          refine stale_overwrites owned silentOther (by rw [other_other]; exact holding row) (differs row stored) moves ?_
          simp [view,phaseOf,same,(shape_head shape writing).2]

def Apart (requests : Side → Request) : Prop := ∀ field, asks requests field .left = none ∨ asks requests field .right = none

instance (requests : Side → Request) : Decidable (Apart requests) :=
  inferInstanceAs (Decidable (∀ field, asks requests field .left = none ∨ asks requests field .right = none))

theorem apart_other (apart : Apart requests) (asksOwner : asks requests field owner = some value) :
    asks requests field owner.other = none := by
  rcases apart field with silent | silent
  · cases owner with
    | left => rw [silent] at asksOwner; cases asksOwner
    | right => exact silent
  · cases owner with
    | left => exact silent
    | right => rw [silent] at asksOwner; cases asksOwner

theorem patches_kept_iff (id : String) (requests : Side → Request) (apart : Apart requests) (db : DB) (env : Env)
    (events : List Event) (last : State) (ran : Runs.run (step id requests) (start db env) events = some last)
    (both : ∀ side, last.stage side = .succeeded) :
    Kept id requests db last.db ↔ Runs.Every (step id requests) (FindsAsRead id requests) (start db env) events := by
  obtain ⟨d,found⟩ := device_was_there ran both
  have undoomed := ended_undoomed both
  constructor
  · rintro ⟨row,row',before,after,asksHold,_⟩
    by_contra misses
    obtain ⟨past,event,rest,middle,next,_,ranPast,stepped,ranRest,broken⟩ := Runs.every_fails ran misses
    have onwards : ¬ Doomed next := fun doomed => undoomed (Runs.run_preserves (fun _ _ _ => doomed_stays) doomed ranRest)
    obtain ⟨field,owner,value,asksOwner,lost⟩ := stale_write found ranPast onwards stepped broken
    rcases tracks_run lost (fun _ _ moves bad => overwritten_moves bad moves) ranRest with doomed | ⟨_,final,stored,_,differs⟩
    · exact undoomed doomed
    · rw [after] at stored
      cases stored
      exact differs (asksHold owner field value asksOwner)
  · intro finds
    obtain ⟨d',stored⟩ : ∃ d', getDeviceById last.db id = some d' := by
      have begins : Tracks id requests .share (fun _ => True) (start db env) := initial_tracks .share found trivial
      rcases tracks_run begins (fun _ _ _ kept => kept) ran with doomed | ⟨_,row,stored,_⟩
      · exact absurd doomed undoomed
      · exact ⟨row,stored⟩
    refine ⟨d,d',found,stored,?_,?_⟩
    · intro owner field value asksOwner
      rcases owned_kept found asksOwner (apart_other apart asksOwner) finds ran with doomed | ⟨_,row,here,owned⟩
      · exact absurd doomed undoomed
      · rw [stored] at here
        cases here
        exact owned.stands (ended_phase both owner) trivial
    · intro field nobody
      exact (untouched_kept found nobody ran undoomed stored).1

end Proofs

def viewer : Device := freshDevice (fun token => token) 0 "d" "c" "phone" "t" "k" false

def oneDevice : DB := (DB.empty.devices.insert viewer).elim .empty (fun devices => {DB.empty with devices := devices})

def anywhere : Env := ⟨[],[],[],40⟩

def grants : Side → Request
  | .left => ⟨some {viewer with viaLogin := true},{download := some true}⟩
  | .right => ⟨some {viewer with viaLogin := true},{upload := some true}⟩

theorem grants_in_turn : ∃ last,
    Runs.run (step "d" grants) (start oneDevice anywhere)
      [.read .left,.write .left,.read .right,.write .right,.finish .left,.finish .right] = some last ∧
    Kept "d" grants oneDevice last.db := by
  obtain ⟨last,ran,both⟩ : ∃ last, Runs.run (step "d" grants) (start oneDevice anywhere)
      [.read .left,.write .left,.read .right,.write .right,.finish .left,.finish .right] = some last ∧
      ∀ side, last.stage side = .succeeded := by
    refine ⟨_,rfl,?_⟩
    intro side
    cases side <;> rfl
  exact ⟨last,ran,(patches_kept_iff "d" grants (by decide) oneDevice anywhere _ last ran both).mpr (by decide)⟩

theorem grant_lost : ∃ last,
    Runs.run (step "d" grants) (start oneDevice anywhere)
      [.read .left,.read .right,.write .left,.write .right,.finish .left,.finish .right] = some last ∧
    Apart grants ∧ (∀ side, last.stage side = .succeeded) ∧ ¬ Kept "d" grants oneDevice last.db := by
  refine ⟨_,rfl,by decide,?_,?_⟩
  · intro side; cases side <;> rfl
  · rintro ⟨d,d',before,after,asksHold,_⟩
    have granted := asksHold .left .download (.flag true) rfl
    cases after
    cases granted

end RemoteFileExplorer.DevicePatches
