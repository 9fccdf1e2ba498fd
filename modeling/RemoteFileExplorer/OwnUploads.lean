import RemoteFileExplorer.FolderUploads
import RemoteFileExplorer.OwnDownloads
import RemoteFileExplorer.PublishOnce
import RemoteFileExplorer.SharedHosts

namespace RemoteFileExplorer.FolderUploads
open Runs PathTexts TransferNames Transfers UploadAgent UploadHosts SharedHosts Placings
open DesktopTransfers (Resolution Policy)
open DesktopUploads (Upload Saved)

section Clients
variable {sha256 : Bytes → String} {remoteDir : Text} {files : List Found} {before : String → Option Entry} {w : World}
  {sender owner : Nat → Nat} {i : Nat} {u : Upload} {h : Host}

def placeOf (remoteDir : Text) (files : List Found) (i : Nat) : String := String.ofList (targetOf remoteDir files i)

def Named (remoteDir : Text) (files : List Found) (i : Nat) (path : String) : Prop :=
  path = placeOf remoteDir files i ∨ ∃ n, path = String.ofList (numberedRemote (targetOf remoteDir files i) n)

-- An upload overwrites only the place it asks for first, and only when it was
-- settled so.
def Aims (remoteDir : Text) (files : List Found) (uploads : Nat → Upload) (i : Nat) (path : String) (overwrite : Bool) : Prop :=
  Named remoteDir files i path ∧ (overwrite = true → path = placeOf remoteDir files i ∧ (uploads i).resolution = some .replace)

-- The name an upload is about to replace was taken before the transfer began,
-- and no other file of the tree that goes to it replaces it too.
def Outside (remoteDir : Text) (files : List Found) (before : String → Option Entry) (w : World) (i : Nat) : Prop :=
  w.host.agent.entries (placeOf remoteDir files i) = some .folder ∨
    (before (placeOf remoteDir files i) ≠ none ∧
      ∀ j < w.queued, j ≠ i → (w.uploads j).resolution = some .replace → placeOf remoteDir files j ≠ placeOf remoteDir files i)

def Sparing (remoteDir : Text) (files : List Found) (before : String → Option Entry) (w : World) : Event → Prop
  | .upload i (.settle _ .replace) => Outside remoteDir files before w i
  | _ => True

instance (remoteDir : Text) (files : List Found) (before : String → Option Entry) (w : World) (i : Nat) :
    Decidable (Outside remoteDir files before w i) := by
  unfold Outside
  infer_instance

instance (remoteDir : Text) (files : List Found) (before : String → Option Entry) (w : World) : (event : Event) → Decidable (Sparing remoteDir files before w event)
  | .upload i (.settle _ .replace) => inferInstanceAs (Decidable (Outside remoteDir files before w i))
  | .walks | .refuses | .upload _ .start | .upload _ (.hear _) | .upload _ .silence | .upload _ .pause | .upload _ (.hashed _) |
    .upload _ (.agent _) | .upload _ (.settle _ .both) | .upload _ (.settle _ .skip) => .isTrue trivial

structure Client (sha256 : Bytes → String) (remoteDir : Text) (files : List Found) (h : Host) (sender owner : Nat → Nat) (i : Nat) (u : Upload) :
    Prop where
  held : ∀ saved, u.session = some saved → Known h.agent saved.id saved.chunkSize saved.totalChunks ∧ owner saved.id = i
  works : ∀ saved, u.stage.saved = some saved → Known h.agent saved.id saved.chunkSize saved.totalChunks ∧ owner saved.id = i
  asks : ∀ request, u.stage.expects sha256 (sourceOf files i) = some request →
    u.awaits.request = request ∧ sender u.awaits.tag = i ∧ u.awaits.tag < h.sent
  inside : ∀ saved received n damaged, u.stage = .sending saved received n damaged → n < saved.totalChunks
  opening : ∀ path how copy chunk, u.stage = .opening path how copy chunk → Named remoteDir files i (String.ofList path) ∧
    (path = targetOf remoteDir files i ∨ u.resolution = some .both) ∧ (how = some .replace → u.resolution = some .replace)
  settling : ∀ path copy chunk, u.stage = .settling path copy chunk → Named remoteDir files i (String.ofList path) ∧
    (path = targetOf remoteDir files i ∨ u.resolution = some .both)
  done : u.stage = .done → ∃ placement ∈ h.agent.published, owner placement.id = i

def Filed (owner : Nat → Nat) (a : Agent) (i : Nat) (entry : Entry) (place : String) : Prop :=
  ∃ placement ∈ a.published, owner placement.id = i ∧ entry = .file placement.bytes ∧ place = placement.path

structure Kept (sha256 : Bytes → String) (remoteDir : Text) (files : List Found) (before : String → Option Entry) (sender owner : Nat → Nat)
    (w : World) : Prop where
  shared : Shared sha256 (sourceOf files) (Aims remoteDir files w.uploads) sender owner w.host
  clients : ∀ i, Client sha256 remoteDir files w.host sender owner i (w.uploads i)
  unqueued : ∀ i, w.queued ≤ i → (w.uploads i).resolution = none
  stays : ∀ place, before place ≠ none → w.host.agent.entries place ≠ none
  outside : ∀ i, (w.uploads i).resolution = some .replace → Outside remoteDir files before w i
  origin : ∀ placement ∈ w.host.agent.published, before placement.path = none ∨
    (placement.path = placeOf remoteDir files (owner placement.id) ∧ (w.uploads (owner placement.id)).resolution = some .replace)
  own : Own w.host.agent.entries (Filed owner w.host.agent)

theorem client_moved
    (client : Client sha256 remoteDir files h sender owner i u) (moved : Moved sha256 source aim owner h.agent g.agent later)
    (count : h.sent ≤ g.sent) (published : ∀ placement ∈ h.agent.published, placement.id < h.agent.opened) :
    Client sha256 remoteDir files g sender later i u := by
  have carried : ∀ saved : Saved, Known h.agent saved.id saved.chunkSize saved.totalChunks ∧ owner saved.id = i →
      Known g.agent saved.id saved.chunkSize saved.totalChunks ∧ later saved.id = i := by
    intro saved ⟨known,mine⟩
    refine ⟨known_grows (moved_grows moved) known,?_⟩
    rw [moved_owner moved known.1]
    exact mine
  refine ⟨fun saved stored => carried saved (client.held saved stored),fun saved stage => carried saved (client.works saved stage),?_,
    client.inside,client.opening,client.settling,?_⟩
  · intro request expects
    obtain ⟨asked,mine,low⟩ := client.asks request expects
    exact ⟨asked,mine,Nat.lt_of_lt_of_le low count⟩
  intro done
  obtain ⟨placement,member,mine⟩ := client.done done
  obtain ⟨other,there,same⟩ := moved_placed moved ⟨placement,member,rfl⟩
  refine ⟨other,there,?_⟩
  rw [same,moved_owner moved (published placement member)]
  exact mine

theorem moved_entries
    (moved : Moved sha256 source aim owner a b later) (place : String) :
    (a.entries place ≠ none → b.entries place ≠ none) ∧ (a.entries place = some .folder → b.entries place = some .folder) := by
  cases moved with
  | @placed id session found whole unfoldered free =>
    change (_ → Function.update a.entries session.row.targetPath (some (.file session.temp)) place ≠ none) ∧
      (_ → Function.update a.entries session.row.targetPath (some (.file session.temp)) place = some .folder)
    by_cases equal : place = session.row.targetPath
    · subst place
      rw [Function.update_self]
      exact ⟨nofun,fun folder => absurd folder unfoldered⟩
    · rw [Function.update_of_ne equal]
      exact ⟨fun taken => taken,fun folder => folder⟩
  | _ => exact ⟨fun taken => taken,fun folder => folder⟩

theorem outside_moved (outside : Outside remoteDir files before w i)
    (folders : ∀ place, w.host.agent.entries place = some .folder → host.agent.entries place = some .folder) :
    Outside remoteDir files before {w with host := host} i := by
  rcases outside with folder | apart
  · exact .inl (folders _ folder)
  · exact .inr apart

theorem placed_clear {id : Nat} (kept : Kept sha256 remoteDir files before sender owner w)
    (found : w.host.agent.sessions id = some session) (unfoldered : w.host.agent.entries session.row.targetPath ≠ some .folder)
    (free : session.row.overwrite = false → w.host.agent.entries session.row.targetPath = none) :
    (∀ j entry, Filed owner w.host.agent j entry session.row.targetPath → j = owner id) ∧
    (before session.row.targetPath = none ∨
      (session.row.targetPath = placeOf remoteDir files (owner id) ∧ (w.uploads (owner id)).resolution = some .replace)) := by
  obtain ⟨_,_,aims⟩ := kept.shared.agent.sessions id session found
  cases choice : session.row.overwrite with
  | false =>
    have vacant := free choice
    refine ⟨fun j entry filed => absurd filed (free_unplaced kept.own vacant),.inl ?_⟩
    by_contra taken
    exact kept.stays _ taken vacant
  | true =>
    obtain ⟨first,replaces⟩ := aims choice
    rw [first] at unfoldered ⊢
    refine ⟨?_,.inr ⟨rfl,replaces⟩⟩
    rcases kept.outside _ replaces with folder | ⟨taken,others⟩
    · exact absurd folder unfoldered
    · rintro j entry ⟨placement,member,mine,_,place⟩
      rcases kept.origin placement member with vacant | ⟨theirs,also⟩
      · rw [← place] at vacant
        exact absurd vacant taken
      · rw [mine] at theirs also
        by_contra different
        have low : j < w.queued := by
          by_contra high
          rw [kept.unqueued j (by omega)] at also
          cases also
        exact others j low different also (theirs.symm.trans place.symm)

theorem moved_filed {b : Agent} (kept : Kept sha256 remoteDir files before sender owner w)
    (moved : Moved sha256 (sourceOf files) (Aims remoteDir files w.uploads) owner w.host.agent b later) :
    (∀ placement ∈ b.published, before placement.path = none ∨
      (placement.path = placeOf remoteDir files (later placement.id) ∧ (w.uploads (later placement.id)).resolution = some .replace)) ∧
    Own b.entries (Filed later b) := by
  cases moved with
  | same | stored | leased | freed | dropped => exact ⟨kept.origin,kept.own⟩
  | @opened i path chunkSize overwrite positive aims =>
    have owners : ∀ placement ∈ w.host.agent.published, Function.update owner w.host.agent.opened i placement.id = owner placement.id :=
      fun placement member => Function.update_of_ne (Nat.ne_of_lt (kept.shared.agent.published placement member).1) ..
    refine ⟨?_,?_⟩
    · intro placement member
      rw [owners placement member]
      exact kept.origin placement member
    · refine own_fewer kept.own ?_
      rintro j entry place ⟨placement,member,mine,same,there⟩
      refine ⟨placement,member,?_,same,there⟩
      rw [← owners placement member]
      exact mine
  | @placed id session found whole unfoldered free =>
    obtain ⟨clear,origin⟩ := placed_clear kept found unfoldered free
    refine ⟨?_,?_⟩
    · intro placement member
      rcases List.mem_cons.mp member with rfl | old
      · exact origin
      · exact kept.origin placement old
    · refine own_put (i := owner id) kept.own ?_ ?_
      · intro j entry filed
        have mine := clear j entry filed
        obtain ⟨placement,member,theirs,rfl,_⟩ := filed
        refine ⟨mine,?_⟩
        rw [whole,(kept.shared.agent.published placement member).2.1,theirs,mine]
      · rintro j entry there ⟨placement,member,mine,same,place⟩
        rcases List.mem_cons.mp member with rfl | old
        · exact .inr ⟨mine.symm,same,place⟩
        · exact .inl ⟨placement,old,mine,same,place⟩

section
variable (kept : Kept sha256 remoteDir files before sender owner w)
include kept

theorem act_kept (acted : w.host.act sha256 act = some host) :
    ∃ later, Kept sha256 remoteDir files before sender later {w with host := host} := by
  obtain ⟨later,moved,count,shared⟩ := act_shared kept.shared acted
  have published : ∀ placement ∈ w.host.agent.published, placement.id < w.host.agent.opened :=
    fun placement member => (kept.shared.agent.published placement member).1
  have entries := moved_entries moved
  obtain ⟨origin,own⟩ := moved_filed kept moved
  refine ⟨later,shared,?_,kept.unqueued,?_,?_,origin,own⟩
  · exact fun i => client_moved (kept.clients i) moved (Nat.le_of_eq count.symm) published
  · exact fun place taken => (entries place).1 (kept.stays place taken)
  · exact fun i replaces => outside_moved (kept.outside i replaces) (fun place => (entries place).2)

theorem kept_moves (low : i < w.queued)
    (client : Client sha256 remoteDir files w.host sender owner i u)
    (choice : (w.uploads i).resolution = some .replace → u.resolution = some .replace)
    (outside : u.resolution = some .replace → Outside remoteDir files before w i) :
    Kept sha256 remoteDir files before sender owner {w with uploads := Function.update w.uploads i u} := by
  have kinder : ∀ j, (w.uploads j).resolution = some .replace → (Function.update w.uploads i u j).resolution = some .replace := by
    intro j replaces
    by_cases equal : j = i
    · subst j
      rw [Function.update_self]
      exact choice replaces
    · rw [Function.update_of_ne equal]
      exact replaces
  refine ⟨?_,?_,?_,kept.stays,?_,?_,kept.own⟩
  · refine shared_weakens kept.shared ?_
    intro j path overwrite aims
    refine ⟨aims.1,?_⟩
    intro replacing
    exact ⟨(aims.2 replacing).1,kinder j (aims.2 replacing).2⟩
  · intro j
    by_cases equal : j = i
    · subst j
      dsimp only
      rw [Function.update_self]
      exact client
    · dsimp only
      rw [Function.update_of_ne equal]
      exact kept.clients j
  · intro j high
    change w.queued ≤ j at high
    dsimp only
    rw [Function.update_of_ne (by omega)]
    exact kept.unqueued j high
  · intro j replaces
    by_cases equal : j = i
    · subst j
      dsimp only at replaces
      rw [Function.update_self] at replaces
      rcases outside replaces with folder | ⟨taken,others⟩
      · exact .inl folder
      · refine .inr ⟨taken,?_⟩
        intro k bound different also
        dsimp only at also
        rw [Function.update_of_ne different] at also
        exact others k bound different also
    · dsimp only at replaces
      rw [Function.update_of_ne equal] at replaces
      rcases kept.outside j replaces with folder | ⟨taken,others⟩
      · exact .inl folder
      · by_cases clash : u.resolution = some .replace ∧ placeOf remoteDir files i = placeOf remoteDir files j
        · obtain ⟨also,same⟩ := clash
          have bound : j < w.queued := by
            by_contra high
            rw [kept.unqueued j (by omega)] at replaces
            cases replaces
          rcases outside also with folder | ⟨_,apart⟩
          · rw [same] at folder
            exact .inl folder
          · exact absurd same.symm (apart j bound equal replaces)
        · refine .inr ⟨taken,?_⟩
          intro k bound different also
          by_cases mine : k = i
          · subst k
            dsimp only at also
            rw [Function.update_self] at also
            exact fun same => clash ⟨also,same⟩
          · dsimp only at also
            rw [Function.update_of_ne mine] at also
            exact others k bound different also
  · intro placement member
    rcases kept.origin placement member with vacant | ⟨first,replaces⟩
    · exact .inl vacant
    · exact .inr ⟨first,kinder _ replaces⟩

theorem kept_post (i attempt : Nat)
    (right : Right sha256 (sourceOf files i) w.host.agent request) (mine : ∀ id n data sum, request = .chunk id n data sum → owner id = i)
    (aims : ∀ path size sum chunkSize overwrite, request = .openSession path size sum chunkSize overwrite →
      Aims remoteDir files w.uploads i path overwrite) :
    Kept sha256 remoteDir files before (Function.update sender w.host.sent i) owner {w with host := w.host.post attempt request} := by
  refine ⟨post_shared kept.shared i attempt right mine aims,?_,kept.unqueued,kept.stays,kept.outside,kept.origin,kept.own⟩
  intro j
  have client := kept.clients j
  refine ⟨client.held,client.works,?_,client.inside,client.opening,client.settling,client.done⟩
  intro asked expects
  obtain ⟨same,theirs,low⟩ := client.asks asked expects
  refine ⟨same,?_,Nat.lt_succ_of_lt low⟩
  rw [Function.update_of_ne (Nat.ne_of_lt low)]
  exact theirs

theorem kept_sends (low : i < w.queued)
    (held : ∀ saved, u.session = some saved → Known w.host.agent saved.id saved.chunkSize saved.totalChunks ∧ owner saved.id = i)
    (works : ∀ saved, u.stage.saved = some saved → Known w.host.agent saved.id saved.chunkSize saved.totalChunks ∧ owner saved.id = i)
    (expects : u.stage.expects sha256 (sourceOf files i) = some request)
    (inside : ∀ saved received n damaged, u.stage = .sending saved received n damaged → n < saved.totalChunks)
    (opening : ∀ path how copy chunk, u.stage = .opening path how copy chunk → Named remoteDir files i (String.ofList path) ∧
      (path = targetOf remoteDir files i ∨ u.resolution = some .both) ∧ (how = some .replace → u.resolution = some .replace))
    (choice : (w.uploads i).resolution = some .replace → u.resolution = some .replace)
    (outside : u.resolution = some .replace → Outside remoteDir files before w i) :
    Kept sha256 remoteDir files before (Function.update sender w.host.sent i) owner {w with
      host := w.host.post u.attempt request
      uploads := Function.update w.uploads i {u with awaits := ⟨w.host.sent,u.attempt,request⟩}} := by
  have idle : Kept sha256 remoteDir files before sender owner {w with uploads := Function.update w.uploads i {u with stage := .waiting}} :=
    kept_moves kept low ⟨held,nofun,nofun,nofun,nofun,nofun,nofun⟩ choice outside
  have right : Right sha256 (sourceOf files i) w.host.agent request ∧ ∀ id n data sum, request = .chunk id n data sum → owner id = i := by
    cases stage : u.stage with
    | asking | completing | retiring =>
      rw [stage] at expects
      cases expects
      exact ⟨trivial,nofun⟩
    | opening path how copy chunk =>
      rw [stage] at expects
      cases expects
      exact ⟨⟨rfl,rfl⟩,nofun⟩
    | sending saved received n damaged =>
      obtain ⟨known,mine⟩ := works saved (by rw [stage]; rfl)
      have faithful : ∀ session, w.host.agent.sessions saved.id = some session → Faithful sha256 (sourceOf files i) session := by
        intro session found
        rw [← mine]
        exact (kept.shared.agent.sessions saved.id session found).1
      have fits := DesktopUploads.chunk_right faithful known (inside saved received n damaged stage)
      rw [stage] at expects
      cases expects
      refine ⟨fits,?_⟩
      intro id m data sum same
      cases same
      exact mine
    | waiting | failed | skipped | done | hashing | settling =>
      rw [stage] at expects
      cases expects
  have aims : ∀ path size sum chunkSize overwrite, request = .openSession path size sum chunkSize overwrite →
      Aims remoteDir files (Function.update w.uploads i {u with stage := .waiting}) i path overwrite := by
    intro path size sum chunkSize overwrite same
    cases stage : u.stage with
    | opening asked how copy chunk =>
      obtain ⟨named,first,replaces⟩ := opening asked how copy chunk stage
      rw [stage] at expects
      cases expects
      cases same
      refine ⟨named,?_⟩
      intro replacing
      have decided := replaces (eq_of_beq replacing)
      rw [Function.update_self]
      refine ⟨?_,decided⟩
      rcases first with same | both
      · rw [same]
        rfl
      · rw [decided] at both
        cases both
    | asking | completing | retiring | sending =>
      rw [stage] at expects
      cases expects
      cases same
    | waiting | failed | skipped | done | hashing | settling =>
      rw [stage] at expects
      cases expects
  have posted := kept_post idle i u.attempt right.1 right.2 aims
  have final : Client sha256 remoteDir files (w.host.post u.attempt request) (Function.update sender w.host.sent i) owner i
      {u with awaits := ⟨w.host.sent,u.attempt,request⟩} := by
    refine ⟨held,works,?_,inside,opening,?_,?_⟩
    · intro asked same
      cases expects.symm.trans same
      exact ⟨rfl,Function.update_self ..,Nat.lt_succ_self _⟩
    · intro path copy chunk stage
      rw [show u.stage = .settling path copy chunk from stage] at expects
      cases expects
    · intro done
      rw [show u.stage = .done from done] at expects
      cases expects
  have settled := kept_moves posted low final
    (by
      dsimp only
      rw [Function.update_self]
      exact fun replaces => replaces)
    (by
      intro replaces
      apply posted.outside i
      dsimp only
      rw [Function.update_self]
      exact replaces)
  rw [Function.update_idem] at settled
  exact settled

end

def World.after (w : World) (i : Nat) (next : DesktopUploads.State) : World :=
  {w with host := next.host,uploads := Function.update w.uploads i next.upload}

def idle : DesktopUploads.Stage → Bool
  | .waiting | .failed _ | .skipped | .hashing => true
  | _ => false

theorem client_idle (held : ∀ saved, u.session = some saved → Known h.agent saved.id saved.chunkSize saved.totalChunks ∧ owner saved.id = i)
    (rests : idle u.stage = true) : Client sha256 remoteDir files h sender owner i u := by
  cases stage : u.stage with
  | waiting | failed | skipped | hashing =>
    refine ⟨held,?_,?_,?_,?_,?_,?_⟩ <;> rw [stage] <;> nofun
  | asking | opening | settling | sending | completing | retiring | done =>
    rw [stage] at rests
    cases rests

section
variable (kept : Kept sha256 remoteDir files before sender owner w) (low : i < w.queued)
include kept low

theorem kept_idle (rests : idle stage = true) (fewer : session = (w.uploads i).session ∨ session = none) :
    ∃ later, Kept sha256 remoteDir files before later owner
      (w.after i ⟨w.host,{w.uploads i with stage := stage,session := session,attempt := attempt}⟩) := by
  refine ⟨sender,kept_moves kept low (client_idle ?_ rests) (fun same => same) (kept.outside i)⟩
  intro saved stored
  rcases fewer with same | empty
  · exact (kept.clients i).held saved (same.symm.trans stored)
  · rw [show session = some saved from stored] at empty
    cases empty

theorem kept_goes (known : Known w.host.agent saved.id saved.chunkSize saved.totalChunks) (mine : owner saved.id = i)
    (stored : session = (w.uploads i).session ∨ session = some saved) :
    ∃ later, Kept sha256 remoteDir files before later owner (w.after i (DesktopUploads.State.sends ⟨w.host,w.uploads i⟩
      {w.uploads i with stage := (DesktopUploads.goOn sha256 (sourceOf files i) saved received n).1,session := session}
      (some (DesktopUploads.goOn sha256 (sourceOf files i) saved received n).2))) := by
  have held : ∀ again, session = some again → Known w.host.agent again.id again.chunkSize again.totalChunks ∧ owner again.id = i := by
    intro again same
    rcases stored with old | new
    · exact (kept.clients i).held again (old.symm.trans same)
    · cases new.symm.trans same
      exact ⟨known,mine⟩
  have cases : (∃ m, m < saved.totalChunks ∧ DesktopUploads.goOn sha256 (sourceOf files i) saved received n =
        (.sending saved received m 0,DesktopUploads.chunkRequest sha256 (sourceOf files i) saved m)) ∨
      DesktopUploads.goOn sha256 (sourceOf files i) saved received n = (.completing saved,.complete saved.id) :=
    DesktopUploads.goOn_cases saved received n
  rcases cases with ⟨m,inside,next⟩ | next
  · rw [next]
    refine ⟨_,kept_sends kept low held ?_ rfl ?_ nofun (fun same => same) (kept.outside i)⟩
    · intro again same
      cases same
      exact ⟨known,mine⟩
    · intro again _ _ _ same
      cases same
      exact inside
  · rw [next]
    refine ⟨_,kept_sends kept low held ?_ rfl nofun nofun (fun same => same) (kept.outside i)⟩
    intro again same
    cases same
    exact ⟨known,mine⟩

end

theorem kept_done {id : Nat} (kept : Kept sha256 remoteDir files before sender owner w) (low : i < w.queued) (placed : Placed w.host.agent id)
    (mine : owner id = i) : ∃ later, Kept sha256 remoteDir files before later owner
      (w.after i ⟨w.host,{w.uploads i with stage := .done,session := none}⟩) := by
  obtain ⟨placement,member,rfl⟩ := placed
  exact ⟨sender,kept_moves kept low ⟨nofun,nofun,nofun,nofun,nofun,nofun,fun _ => ⟨placement,member,mine⟩⟩ (fun same => same) (kept.outside i)⟩

section
variable (kept : Kept sha256 remoteDir files before sender owner w)
include kept

theorem hear_kept (low : i < w.queued)
    (heard : ((w.uploads i).awaits,reply) ∈ w.host.answers) :
    ∃ later, Kept sha256 remoteDir files before later owner (w.after i (DesktopUploads.State.sends ⟨w.host,w.uploads i⟩
      ((w.uploads i).hears sha256 (sourceOf files i) reply).1 ((w.uploads i).hears sha256 (sourceOf files i) reply).2)) := by
  have client := kept.clients i
  have tells := (kept.shared.answers _ _ heard).2
  have rests : ∀ stage : DesktopUploads.Stage, idle stage = true → ∃ later, Kept sha256 remoteDir files before later owner
      (w.after i ⟨w.host,{w.uploads i with stage := stage}⟩) := fun stage plain => kept_idle kept low plain (.inl rfl)
  have drops : ∀ stage : DesktopUploads.Stage, idle stage = true → ∃ later, Kept sha256 remoteDir files before later owner
      (w.after i ⟨w.host,{w.uploads i with stage := stage,session := none}⟩) := fun stage plain => kept_idle kept low plain (.inr rfl)
  unfold DesktopUploads.Upload.hears
  cases stage : (w.uploads i).stage with
  | waiting | failed | skipped | done | hashing | settling =>
    have same : w.after i ⟨w.host,w.uploads i⟩ = w := by
      unfold World.after
      rw [Function.update_eq_self]
    dsimp only [DesktopUploads.State.sends]
    rw [same]
    exact ⟨sender,kept⟩
  | asking saved =>
    obtain ⟨known,mine⟩ := client.works saved (by rw [stage]; rfl)
    obtain ⟨asked,_⟩ := client.asks _ (by rw [stage]; rfl)
    unfold Tells at tells
    rw [asked] at tells
    cases reply with
    | session other chunkSize total received status =>
      cases status with
      | isOpen =>
        dsimp only
        split
        · exact drops (.failed none) rfl
        · exact kept_goes kept low known mine (.inl rfl)
      | completed => exact kept_done kept low tells mine
      | failed => exact drops .hashing rfl
    | refused code =>
      cases code with
      | notFound => exact drops .hashing rfl
      | _ => exact rests (.failed (some _)) rfl
    | completed => exact drops .hashing rfl
    | noContent => exact rests (.failed none) rfl
  | opening path how copy chunk =>
    obtain ⟨named,first,_⟩ := client.opening path how copy chunk stage
    obtain ⟨asked,mine,_⟩ := client.asks _ (by rw [stage]; rfl)
    unfold Tells at tells
    rw [asked] at tells
    cases reply with
    | session id chunkSize total received status =>
      dsimp only
      split
      · exact rests (.failed none) rfl
      · rename_i good
        obtain ⟨known,owned⟩ := tells
        simp only [DesktopUploads.badSession,Bool.or_eq_true,decide_eq_true_eq,bne_iff_ne,not_or,ne_eq,not_not] at good
        have chunks : ((chunkSize.toNat : Nat) : Int) = chunkSize := by omega
        have counts : ((total.toNat : Nat) : Int) = total := by omega
        have knows : Known w.host.agent id ((chunkSize.toNat : Nat) : Int) ((total.toNat : Nat) : Int) := by
          rw [chunks,counts]
          exact known
        exact kept_goes kept low knows (owned.trans mine) (.inr rfl)
    | refused code =>
      cases code with
      | conflict =>
        refine ⟨sender,kept_moves kept low ⟨client.held,(fun _ has => by cases has),(fun _ asks => by cases asks),(fun _ _ _ _ same => by cases same),
          (fun _ _ _ _ same => by cases same),?_,(fun same => by cases same)⟩ (fun same => same) (kept.outside i)⟩
        intro other again also same
        cases same
        exact ⟨named,first⟩
      | _ => exact rests (.failed (some _)) rfl
    | noContent | completed => exact rests (.failed none) rfl
  | sending saved received n damaged =>
    obtain ⟨known,mine⟩ := client.works saved (by rw [stage]; rfl)
    cases reply with
    | noContent => exact kept_goes kept low known mine (.inl rfl)
    | refused code =>
      dsimp only
      split
      · refine ⟨_,kept_sends kept low client.held ?_ rfl ?_ (by simp) (fun same => same) (kept.outside i)⟩
        · intro again same
          cases same
          exact ⟨known,mine⟩
        · intro again _ _ _ same
          cases same
          exact client.inside saved received n damaged stage
      · exact rests (.failed (some code)) rfl
    | session | completed => exact rests (.failed none) rfl
  | completing saved =>
    obtain ⟨known,mine⟩ := client.works saved (by rw [stage]; rfl)
    obtain ⟨asked,_⟩ := client.asks _ (by rw [stage]; rfl)
    unfold Tells at tells
    rw [asked] at tells
    cases reply with
    | refused code =>
      dsimp only
      split
      · exact ⟨_,kept_sends kept low (by simp) (by simp [DesktopUploads.Stage.saved]) rfl (by simp) (by simp) (fun same => same) (kept.outside i)⟩
      · split
        · exact drops (.failed (some code)) rfl
        · exact rests (.failed (some code)) rfl
    | session | noContent | completed => exact kept_done kept low tells mine
  | retiring saved tries =>
    dsimp only
    split
    · exact ⟨_,kept_sends kept low client.held (by simp [DesktopUploads.Stage.saved]) rfl (by simp) (by simp) (fun same => same) (kept.outside i)⟩
    · exact rests (.failed (some .conflict)) rfl

theorem start_kept (low : i < w.queued)
    (stepped : DesktopUploads.step sha256 (sourceOf files i) (targetOf remoteDir files i) ⟨w.host,w.uploads i⟩ .start = some next) :
    ∃ later, Kept sha256 remoteDir files before later owner (w.after i next) := by
  have client := kept.clients i
  obtain ⟨_,stepped⟩ := Option.ite_none_left_eq_some.mp stepped
  split at stepped
  · rename_i saved stored
    cases stepped
    refine ⟨_,kept_sends kept low client.held ?_ rfl nofun nofun (fun same => same) (kept.outside i)⟩
    intro again same
    cases same
    exact client.held saved stored
  · cases stepped
    exact kept_idle kept low rfl (.inl rfl)

theorem settle_kept (low : i < w.queued) (sparing : Sparing remoteDir files before w (.upload i (.settle policy how)))
    (stepped : DesktopUploads.step sha256 (sourceOf files i) (targetOf remoteDir files i) ⟨w.host,w.uploads i⟩ (.settle policy how) = some next) :
    ∃ later, Kept sha256 remoteDir files before later owner (w.after i next) := by
  have client := kept.clients i
  simp only [DesktopUploads.step] at stepped
  split at stepped
  · rename_i path copy chunkSize stage
    obtain ⟨named,first⟩ := client.settling path copy chunkSize stage
    obtain ⟨chosen,stepped⟩ := Option.ite_none_right_eq_some.mp stepped
    have faithful : ∀ before, (w.uploads i).resolution = some before → how = before := by
      intro before decided
      unfold DesktopUploads.Upload.mayChoose at chosen
      rw [decided] at chosen
      exact of_decide_eq_true chosen
    have stays : (w.uploads i).resolution = some .replace → some how = some .replace := fun replaces => by rw [faithful _ replaces]
    split at stepped
    · cases stepped
      refine ⟨sender,kept_moves kept low (client_idle client.held rfl) stays (by simp)⟩
    · cases stepped
      refine ⟨_,kept_sends kept low client.held (by simp [DesktopUploads.Stage.saved]) rfl (by simp) ?_ stays (fun _ => sparing)⟩
      intro asked other again also same
      cases same
      refine ⟨named,?_,fun _ => rfl⟩
      rcases first with plain | both
      · exact .inl plain
      · exact absurd (faithful _ both) (by simp)
    · split at stepped
      · cases stepped
        exact ⟨sender,kept_moves kept low (client_idle client.held rfl) stays (by simp)⟩
      · cases stepped
        refine ⟨_,kept_sends kept low client.held (by simp [DesktopUploads.Stage.saved]) rfl (by simp) ?_ stays (by simp)⟩
        intro asked other again also same
        cases same
        exact ⟨.inr ⟨_,rfl⟩,.inr rfl,by simp⟩
  · cases stepped

theorem upload_kept (low : i < w.queued) (sparing : Sparing remoteDir files before w (.upload i event))
    (stepped : DesktopUploads.step sha256 (sourceOf files i) (targetOf remoteDir files i) ⟨w.host,w.uploads i⟩ event = some next) :
    ∃ later also, Kept sha256 remoteDir files before later also (w.after i next) := by
  have ends : ∀ stage : DesktopUploads.Stage, idle stage = true → ∃ later also, Kept sha256 remoteDir files before later also
      (w.after i ⟨w.host,{w.uploads i with stage := stage}⟩) := by
    intro stage rests
    obtain ⟨later,still⟩ := kept_idle kept low rests (.inl rfl)
    exact ⟨later,owner,still⟩
  cases event with
  | start =>
    obtain ⟨later,still⟩ := start_kept kept low stepped
    exact ⟨later,owner,still⟩
  | hear reply =>
    obtain ⟨allowed,⟨⟩⟩ := Option.ite_none_right_eq_some.mp stepped
    obtain ⟨later,still⟩ := hear_kept kept low allowed.2
    exact ⟨later,owner,still⟩
  | silence =>
    simp only [DesktopUploads.step] at stepped
    split at stepped
    · cases stepped
      exact ends (.failed (some .conflict)) rfl
    · obtain ⟨_,⟨⟩⟩ := Option.ite_none_right_eq_some.mp stepped
      exact ends (.failed none) rfl
  | pause =>
    obtain ⟨_,⟨⟩⟩ := Option.ite_none_right_eq_some.mp stepped
    exact ends .waiting rfl
  | hashed chunkSize =>
    obtain ⟨_,⟨⟩⟩ := Option.ite_none_right_eq_some.mp stepped
    refine ⟨_,owner,kept_sends kept low (kept.clients i).held (by simp [DesktopUploads.Stage.saved]) rfl (by simp) ?_ (fun same => same) (kept.outside i)⟩
    intro path how copy chunk same
    cases same
    exact ⟨.inl rfl,.inl rfl,fun replaces => replaces⟩
  | settle policy how =>
    obtain ⟨later,still⟩ := settle_kept kept low sparing stepped
    exact ⟨later,owner,still⟩
  | agent act =>
    simp only [DesktopUploads.step] at stepped
    split at stepped
    · rename_i host acted
      cases stepped
      obtain ⟨later,still⟩ := act_kept kept acted
      refine ⟨sender,later,?_⟩
      unfold World.after
      rw [Function.update_eq_self]
      exact still
    · cases stepped

theorem makes_kept :
    Kept sha256 remoteDir files before sender owner (w.makes remoteDir folder rest) := by
  unfold World.makes
  dsimp only
  split
  · exact ⟨kept.shared,kept.clients,kept.unqueued,kept.stays,kept.outside,kept.origin,kept.own⟩
  · exact ⟨kept.shared,kept.clients,kept.unqueued,kept.stays,kept.outside,kept.origin,kept.own⟩
  · rename_i free
    split
    · refine ⟨⟨⟨kept.shared.agent.fresh,kept.shared.agent.sessions,kept.shared.agent.completed,kept.shared.agent.leased,
        kept.shared.agent.published⟩,kept.shared.mails,kept.shared.busy,kept.shared.answers⟩,?_,kept.unqueued,?_,?_,kept.origin,own_beside kept.own free⟩
      · intro i
        have client := kept.clients i
        exact ⟨client.held,client.works,client.asks,client.inside,client.opening,client.settling,client.done⟩
      · intro place taken
        dsimp only
        by_cases equal : place = String.ofList (joinRemote (remoteFolder remoteDir folder.dropLast) (folder.getLast?.getD []))
        · rw [equal,Function.update_self]
          nofun
        · rw [Function.update_of_ne equal]
          exact kept.stays place taken
      · intro i replaces
        rcases kept.outside i replaces with there | apart
        · refine .inl ?_
          dsimp only
          by_cases equal : placeOf remoteDir files i = String.ofList (joinRemote (remoteFolder remoteDir folder.dropLast) (folder.getLast?.getD []))
          · rw [equal,Function.update_self]
          · rw [Function.update_of_ne equal]
            exact there
        · exact .inr apart
    · exact ⟨kept.shared,kept.clients,kept.unqueued,kept.stays,kept.outside,kept.origin,kept.own⟩

theorem walks_kept (walked : w.walks remoteDir files = some next) :
    Kept sha256 remoteDir files before sender owner next := by
  unfold World.walks at walked
  split at walked
  · cases walked
    exact makes_kept kept
  · cases walked
    exact ⟨kept.shared,kept.clients,kept.unqueued,kept.stays,kept.outside,kept.origin,kept.own⟩
  · split at walked
    · cases walked
      exact ⟨kept.shared,kept.clients,kept.unqueued,kept.stays,kept.outside,kept.origin,kept.own⟩
    · split at walked
      · cases walked
        refine ⟨kept.shared,kept.clients,?_,kept.stays,?_,kept.origin,kept.own⟩
        · intro i high
          exact kept.unqueued i (Nat.le_of_succ_le high)
        · intro i replaces
          rcases kept.outside i replaces with there | ⟨taken,others⟩
          · exact .inl there
          · refine .inr ⟨taken,?_⟩
            intro j bound different also
            refine others j ?_ different also
            by_contra high
            rw [kept.unqueued j (by omega)] at also
            cases also
      · cases walked
        exact ⟨kept.shared,kept.clients,kept.unqueued,kept.stays,kept.outside,kept.origin,kept.own⟩
  · cases walked
  · cases walked

theorem step_kept (sparing : Sparing remoteDir files before w event) (stepped : step sha256 remoteDir files w event = some next) :
    ∃ later also, Kept sha256 remoteDir files before later also next := by
  cases event with
  | walks => exact ⟨sender,owner,walks_kept kept stepped⟩
  | refuses =>
    obtain ⟨_,⟨⟩⟩ := Option.ite_none_left_eq_some.mp stepped
    exact ⟨sender,owner,kept.shared,kept.clients,kept.unqueued,kept.stays,kept.outside,kept.origin,kept.own⟩
  | upload i event =>
    obtain ⟨low,stepped⟩ := Option.ite_none_right_eq_some.mp stepped
    split at stepped
    · cases stepped
    · rename_i moved
      cases stepped
      exact upload_kept kept low sparing moved

end

theorem initial_kept (entries : String → Option Entry) (remoteDir : Text) (root : Tree) :
    Kept sha256 remoteDir (filesFor root) entries (fun _ => 0) (fun _ => 0) (initial entries remoteDir root) := by
  refine ⟨⟨serves_fresh entries,?_,?_,?_⟩,?_,fun _ _ => rfl,fun _ taken => taken,nofun,?_,⟨?_,?_⟩⟩
  · intro mail flies
    cases flies
  · intro id mail held
    cases held
  · intro mail reply member
    cases member
  · intro i
    exact client_idle nofun rfl
  · intro placement member
    cases member
  · rintro i entry place ⟨placement,member,_⟩
    cases member
  · rintro i j one other place ⟨placement,member,_⟩
    cases member

-- The files are queued in turn, and a walk that is refused stays refused.
structure Queuing (root : Tree) (w : World) : Prop where
  most : w.queued ≤ (filesFor root).length
  ended : w.walk = .ended → (filesFor root).length ≤ w.queued
  refused : walkAll root = none → w.walk = .refused

theorem step_queuing (queuing : Queuing root w)
    (stepped : step sha256 remoteDir (filesFor root) w event = some next) : Queuing root next := by
  have onward : w.walk ≠ .refused → walkAll root = none → next.walk = .refused := fun going gone => absurd (queuing.refused gone) going
  cases event with
  | walks =>
    simp only [step,World.walks] at stepped
    split at stepped
    · rename_i walk
      have going : w.walk ≠ .refused := by
        rw [walk]
        nofun
      cases stepped
      unfold World.makes at onward ⊢
      dsimp only at onward ⊢
      split
      · exact ⟨queuing.most,nofun,fun gone => absurd (queuing.refused gone) going⟩
      · exact ⟨queuing.most,nofun,fun _ => rfl⟩
      · split
        · exact ⟨queuing.most,nofun,fun gone => absurd (queuing.refused gone) going⟩
        · exact ⟨queuing.most,nofun,fun _ => rfl⟩
    · rename_i walk
      cases stepped
      exact ⟨queuing.most,nofun,onward (by rw [walk]; nofun)⟩
    · rename_i walk
      have going : w.walk ≠ .refused := by
        rw [walk]
        nofun
      split at stepped
      · rename_i none
        cases stepped
        exact ⟨queuing.most,fun _ => List.getElem?_eq_none_iff.mp none,onward going⟩
      · rename_i found some
        split at stepped
        · cases stepped
          have bound := (List.getElem?_eq_some_iff.mp some).1
          refine ⟨bound,?_,onward going⟩
          intro ended
          rw [show w.walk = .ended from ended] at walk
          cases walk
        · cases stepped
          exact ⟨queuing.most,nofun,fun _ => rfl⟩
    · cases stepped
    · cases stepped
  | refuses =>
    obtain ⟨_,⟨⟩⟩ := Option.ite_none_left_eq_some.mp stepped
    exact ⟨queuing.most,nofun,fun _ => rfl⟩
  | upload i event =>
    obtain ⟨_,stepped⟩ := Option.ite_none_right_eq_some.mp stepped
    split at stepped
    · cases stepped
    · cases stepped
      exact ⟨queuing.most,queuing.ended,queuing.refused⟩

theorem initial_queuing (entries : String → Option Entry) (remoteDir : Text) (root : Tree) : Queuing root (initial entries remoteDir root) := by
  refine ⟨Nat.zero_le _,?_,?_⟩
  · intro ended
    simp only [initial,begins] at ended
    repeat' split at ended
    all_goals cases ended
  · intro none
    simp only [initial,begins,none]
    split <;> rfl

theorem filesFor_perm (walked : walkAll root ≠ none) : (filesFor root).Perm (root.files []) := by
  unfold filesFor walkAll at *
  dsimp only at *
  split at walked
  · exact absurd rfl walked
  · rename_i small
    rw [if_neg small]
    exact List.perm_insertionSort _ _

end Clients

-- Every file of the local tree is queued once, and every finished upload has its
-- bytes in a remote file that no other one of the tree has.
structure OwnRemotes (remoteDir : Text) (root : Tree) (w : World) : Prop where
  all : w.walk = .ended → w.queued = (filesFor root).length ∧ (filesFor root).Perm (root.files [])
  own : ∃ place : Nat → String,
    (∀ i < w.queued, (w.uploads i).stage = .done → Named remoteDir (filesFor root) i (place i) ∧
      w.host.agent.entries (place i) = some (.file (sourceOf (filesFor root) i))) ∧
    ∀ i < w.queued, ∀ j < w.queued, (w.uploads i).stage = .done → (w.uploads j).stage = .done → place i = place j → i = j

theorem uploads_own
    (sparing : Every (step sha256 remoteDir (filesFor root)) (Sparing remoteDir (filesFor root) entries) (initial entries remoteDir root) events)
    (ran : run (step sha256 remoteDir (filesFor root)) (initial entries remoteDir root) events = some last) : OwnRemotes remoteDir root last := by
  obtain ⟨sender,owner,kept⟩ : ∃ sender owner, Kept sha256 remoteDir (filesFor root) entries sender owner last :=
    run_preserves_when (fun w => ∃ sender owner, Kept sha256 remoteDir (filesFor root) entries sender owner w)
      (fun _ _ _ ⟨_,_,kept⟩ meets stepped => step_kept kept meets stepped) ⟨_,_,initial_kept entries remoteDir root⟩ sparing ran
  have queuing : Queuing root last := run_preserves (fun _ _ _ queuing stepped => step_queuing queuing stepped)
    (initial_queuing entries remoteDir root) ran
  refine ⟨?_,?_⟩
  · intro ended
    refine ⟨Nat.le_antisymm queuing.most (queuing.ended ended),filesFor_perm ?_⟩
    intro gone
    rw [queuing.refused gone] at ended
    cases ended
  · have placed : ∀ i, ∃ place, (last.uploads i).stage = .done → Filed owner last.host.agent i (.file (sourceOf (filesFor root) i)) place ∧
        Named remoteDir (filesFor root) i place := by
      intro i
      by_cases done : (last.uploads i).stage = .done
      · obtain ⟨placement,member,mine⟩ := (kept.clients i).done done
        obtain ⟨_,bytes,_,named,_⟩ := kept.shared.agent.published placement member
        rw [mine] at bytes named
        exact ⟨placement.path,fun _ => ⟨⟨placement,member,mine,by rw [bytes],rfl⟩,named⟩⟩
      · exact ⟨"",fun also => absurd also done⟩
    choose place files using placed
    refine ⟨place,?_,?_⟩
    · intro i _ done
      obtain ⟨filed,named⟩ := files i done
      exact ⟨named,kept.own.held i _ _ filed⟩
    · intro i _ j _ first second same
      have mine := (files i first).1
      have theirs := (files j second).1
      rw [same] at mine
      exact kept.own.alone i j _ _ _ mine theirs

theorem trees_lose_no_file {Place : Type} [DecidableEq Place] (locate : List Text → Place) (below : Place → Option FolderDownloads.Entry)
    (policy : Policy) (picked : FolderDownloads.Remote) (sha256 : Bytes → String) (entries : String → Option Entry) (remoteDir : Text) (root : Tree) :
    (∀ events last, Every (FolderDownloads.step locate) (FolderDownloads.Sparing locate below) (FolderDownloads.initial below policy picked) events →
      run (FolderDownloads.step locate) (FolderDownloads.initial below policy picked) events = some last →
      FolderDownloads.OwnFiles locate picked.tree last) ∧
    ∀ events last, Every (step sha256 remoteDir (filesFor root)) (Sparing remoteDir (filesFor root) entries) (initial entries remoteDir root) events →
      run (step sha256 remoteDir (filesFor root)) (initial entries remoteDir root) events = some last → OwnRemotes remoteDir root last :=
  ⟨fun _ _ sparing ran => FolderDownloads.downloads_own sparing ran,fun _ _ sparing ran => uploads_own sparing ran⟩

-- Two remote names that one local name stands for, and two local names that one
-- remote name stands for.
def twoRemotes : FolderDownloads.Remote :=
  .folder ['/','r'] false [.file ['/','r','/','a',':','b'] [1],.file ['/','r','/','a','?','b'] [2]]
def twoLocals : Tree := .folder ['d'] [.file ['a','b'] [1],.file ['a',Char.ofNat 0x200b,'b'] [2]]

def emptyFolder : List Text → Option FolderDownloads.Entry := fun _ => none
def emptyHost : String → Option Entry := fun _ => none
def flatHash (_ : Bytes) : String := "h"

def downloadBoth : List FolderDownloads.Event :=
  [.walks,.walks,.walks,.walks,.walks,.looks 0,.fetches 0 5,.publishes 0,.looks 1,.settles 1,.fetches 1 5,.publishes 1]

def uploadFirst : List Event :=
  [.walks,.walks,.walks,.walks,.walks,.upload 0 .start,.upload 0 (.hashed 1),
    .upload 0 (.agent (.take ⟨0,1,.openSession "/r/d/ab" 1 "h" 1 false⟩ none)),.upload 0 (.hear (.session 0 1 1 [] .isOpen)),
    .upload 0 (.agent (.take ⟨1,1,.chunk 0 0 [1] "h"⟩ none)),.upload 0 (.hear .noContent),
    .upload 0 (.agent (.take ⟨2,1,.complete 0⟩ none)),.upload 0 (.agent (.finish 0)),.upload 0 (.hear .completed)]

def uploadSecond : List Event :=
  [.upload 1 .start,.upload 1 (.hashed 1),.upload 1 (.agent (.take ⟨3,1,.openSession "/r/d/ab" 1 "h" 1 false⟩ none)),
    .upload 1 (.hear (.refused .conflict)),.upload 1 (.settle (.act .both) .both),
    .upload 1 (.agent (.take ⟨4,1,.openSession "/r/d/ab (1)" 1 "h" 1 false⟩ none)),.upload 1 (.hear (.session 1 1 1 [] .isOpen)),
    .upload 1 (.agent (.take ⟨5,1,.chunk 1 0 [2] "h"⟩ none)),.upload 1 (.hear .noContent),
    .upload 1 (.agent (.take ⟨6,1,.complete 1⟩ none)),.upload 1 (.agent (.finish 1)),.upload 1 (.hear .completed)]

theorem both_trees_kept :
    (∃ last, run (FolderDownloads.step id) (FolderDownloads.initial emptyFolder (.act .both) twoRemotes) downloadBoth = some last ∧
      (∀ item ∈ last.items, ∃ place, item.stage = .done place) ∧ FolderDownloads.OwnFiles id twoRemotes.tree last) ∧
    ∃ last, run (step flatHash ['/','r'] (filesFor twoLocals)) (initial emptyHost ['/','r'] twoLocals) (uploadFirst ++ uploadSecond) = some last ∧
      (∀ i < last.queued, (last.uploads i).stage = .done) ∧ OwnRemotes ['/','r'] twoLocals last := by
  have both := trees_lose_no_file id emptyFolder (.act .both) twoRemotes flatHash emptyHost ['/','r'] twoLocals
  have sparing : Every (FolderDownloads.step id) (FolderDownloads.Sparing id emptyFolder)
      (FolderDownloads.initial emptyFolder (.act .both) twoRemotes) downloadBoth := by decide
  have spares : Every (step flatHash ['/','r'] (filesFor twoLocals)) (Sparing ['/','r'] (filesFor twoLocals) emptyHost)
      (initial emptyHost ['/','r'] twoLocals) (uploadFirst ++ uploadSecond) := by decide
  have downloaded : ∃ last, run (FolderDownloads.step id) (FolderDownloads.initial emptyFolder (.act .both) twoRemotes) downloadBoth = some last ∧
      (∀ item ∈ last.items, ∃ place, item.stage = .done place) := by
    refine ⟨_,rfl,?_⟩
    intro item present
    cases present with
    | head => exact ⟨_,rfl⟩
    | tail _ rest =>
      cases rest with
      | head => exact ⟨_,rfl⟩
      | tail _ none => cases none
  have uploaded : ∃ last, run (step flatHash ['/','r'] (filesFor twoLocals)) (initial emptyHost ['/','r'] twoLocals) (uploadFirst ++ uploadSecond) =
      some last ∧ ∀ i < last.queued, (last.uploads i).stage = .done := ⟨_,rfl,by decide⟩
  obtain ⟨first,ran,done⟩ := downloaded
  obtain ⟨second,also,finished⟩ := uploaded
  exact ⟨⟨first,ran,done,both.1 _ _ sparing ran⟩,second,also,finished,both.2 _ _ spares also⟩

theorem tree_download_replaces : ¬ ∀ (policy : Policy) (picked : FolderDownloads.Remote) (events : List FolderDownloads.Event)
    (last : FolderDownloads.State (List Text)), policy ≠ .act .skip →
    run (FolderDownloads.step id) (FolderDownloads.initial emptyFolder policy picked) events = some last →
    FolderDownloads.OwnFiles id picked.tree last := by
  intro always
  have ends : ∃ last, run (FolderDownloads.step id) (FolderDownloads.initial emptyFolder (.act .replace) twoRemotes) downloadBoth = some last ∧
      ∃ one other place, last.items[0]? = some one ∧ last.items[1]? = some other ∧ one.stage = .done place ∧ other.stage = .done place :=
    ⟨_,rfl,_,_,_,rfl,rfl,rfl,rfl⟩
  obtain ⟨last,ran,one,other,place,first,second,done,also⟩ := ends
  have same := (always (.act .replace) twoRemotes downloadBoth last nofun ran).alone 0 1 one other place first second done also
  cases same

end RemoteFileExplorer.FolderUploads
