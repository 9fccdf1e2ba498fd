import RemoteFileExplorer.Placings
import RemoteFileExplorer.UploadHosts

namespace RemoteFileExplorer.SharedHosts
open Transfers UploadAgent UploadHosts

section Sharing
variable {sha256 : Bytes → String} {source : Nat → Bytes} {aim : Nat → String → Bool → Prop} {sender owner later : Nat → Nat} {a b : Agent} {id : Nat}

-- Everything an agent can do when several uploads use it. Upload `owner id` has
-- opened session `id`.
inductive Moved (sha256 : Bytes → String) (source : Nat → Bytes) (aim : Nat → String → Bool → Prop) (owner : Nat → Nat) (a : Agent) :
    Agent → (Nat → Nat) → Prop where
  | same : Moved sha256 source aim owner a a owner
  | opened {i : Nat} {path : String} {chunkSize : Nat} {overwrite : Bool} : 0 < chunkSize → aim i path overwrite →
      Moved sha256 source aim owner a
        {a.put a.opened (some (openedSession path (source i).length (sha256 (source i)) chunkSize overwrite a.opened)) with opened := a.opened + 1}
        (Function.update owner a.opened i)
  | stored {id : Nat} {session next : Session} : a.sessions id = some session → next.row = session.row → Faithful sha256 (source (owner id)) next →
      Moved sha256 source aim owner a (a.put id (some next)) owner
  | leased {id : Nat} {mail : Mail} : mail.request = .complete id →
      Moved sha256 source aim owner a {a with completing := Function.update a.completing id (some mail)} owner
  | freed {id : Nat} : Moved sha256 source aim owner a (a.freed id) owner
  | placed {id : Nat} {session : Session} : a.sessions id = some session → session.temp = source (owner id) →
      a.entries session.row.targetPath ≠ some .folder → (session.row.overwrite = false → a.entries session.row.targetPath = none) →
      Moved sha256 source aim owner a (a.placed id session) owner
  | dropped {id : Nat} : Moved sha256 source aim owner a (a.put id none) owner

section
variable (moved : Moved sha256 source aim owner a b later)
include moved

theorem moved_grows : Grows a b := by
  cases moved with
  | same | leased | freed => exact grows_refl a
  | opened =>
    refine ⟨Nat.le_succ _,?_⟩
    intro id session low now
    rcases put_cases now with ⟨rfl,_⟩ | ⟨_,old⟩
    · exact absurd low (Nat.lt_irrefl _)
    · exact ⟨session,old,rfl⟩
  | stored found rows _ => exact grows_put rfl rfl found (by rw [rows])
  | placed found => exact grows_put rfl rfl found rfl
  | dropped => exact grows_drop a _

theorem moved_owner (low : id < a.opened) : later id = owner id := by
  cases moved with
  | opened => exact Function.update_of_ne (Nat.ne_of_lt low) ..
  | _ => rfl

theorem moved_placed (placed : Placed a id) : Placed b id := by
  obtain ⟨placement,member,same⟩ := placed
  cases moved with
  | placed => exact ⟨placement,List.mem_cons_of_mem _ member,same⟩
  | _ => exact ⟨placement,member,same⟩

end

structure Serves (sha256 : Bytes → String) (source : Nat → Bytes) (aim : Nat → String → Bool → Prop) (owner : Nat → Nat) (a : Agent) : Prop where
  fresh : ∀ id, a.opened ≤ id → a.sessions id = none
  sessions : ∀ id session, a.sessions id = some session →
    Faithful sha256 (source (owner id)) session ∧ aim (owner id) session.row.targetPath session.row.overwrite
  completed : ∀ id session, a.sessions id = some session → session.row.status = .completed → Placed a id
  leased : ∀ id mail, a.completing id = some mail → mail.request = .complete id
  published : ∀ placement ∈ a.published, placement.id < a.opened ∧ placement.bytes = source (owner placement.id) ∧
    ∃ overwrite, aim (owner placement.id) placement.path overwrite

theorem serves_below (serves : Serves sha256 source aim owner a) (found : a.sessions id = some session) : id < a.opened := by
  by_contra high
  rw [serves.fresh id (by omega)] at found
  cases found

theorem serves_fresh (entries : String → Option Entry) : Serves sha256 source aim owner (Agent.fresh entries) where
  fresh _ _ := rfl
  sessions _ _ found := by cases found
  completed _ _ found := by cases found
  leased _ _ held := by cases held
  published _ member := by cases member

theorem serves_put (serves : Serves sha256 source aim owner a) (found : a.sessions id = some session)
    (path : next.row.targetPath = session.row.targetPath) (choice : next.row.overwrite = session.row.overwrite)
    (faithful : Faithful sha256 (source (owner id)) next) (placed : next.row.status = .completed → Placed a id) :
    Serves sha256 source aim owner (a.put id (some next)) := by
  refine ⟨?_,?_,?_,serves.leased,serves.published⟩
  · intro other high
    have different : other ≠ id := by
      rintro rfl
      exact absurd (serves_below serves found) (Nat.not_lt.mpr high)
    rw [put_other different]
    exact serves.fresh other high
  · intro other current now
    rcases put_cases now with ⟨rfl,same⟩ | ⟨_,old⟩
    · cases same
      rw [path,choice]
      exact ⟨faithful,(serves.sessions other session found).2⟩
    · exact serves.sessions other current old
  · intro other current now done
    rcases put_cases now with ⟨rfl,same⟩ | ⟨_,old⟩
    · cases same
      exact placed done
    · exact serves.completed other current old done

theorem moved_serves (serves : Serves sha256 source aim owner a) (moved : Moved sha256 source aim owner a b later) :
    Serves sha256 source aim later b := by
  cases moved with
  | same => exact serves
  | @opened i path chunkSize overwrite positive aims =>
    have older : ∀ id, id < a.opened → Function.update owner a.opened i id = owner id :=
      fun id low => Function.update_of_ne (Nat.ne_of_lt low) ..
    refine ⟨?_,?_,?_,serves.leased,?_⟩
    · intro id high
      change a.opened + 1 ≤ id at high
      rw [put_other (by omega)]
      exact serves.fresh id (by omega)
    · intro id session now
      rcases put_cases now with ⟨rfl,same⟩ | ⟨_,old⟩
      · cases same
        rw [Function.update_self]
        exact ⟨faithful_opened positive,aims⟩
      · rw [older id (serves_below serves old)]
        exact serves.sessions id session old
    · intro id session now done
      rcases put_cases now with ⟨rfl,same⟩ | ⟨_,old⟩
      · cases same
        cases done
      · exact serves.completed id session old done
    · intro placement member
      obtain ⟨low,bytes,aimed⟩ := serves.published placement member
      rw [older placement.id low]
      exact ⟨Nat.lt_succ_of_lt low,bytes,aimed⟩
  | @stored id session next found rows faithful =>
    refine serves_put serves found (by rw [rows]) (by rw [rows]) faithful ?_
    rw [rows]
    exact serves.completed id session found
  | leased asks =>
    refine ⟨serves.fresh,serves.sessions,serves.completed,?_,serves.published⟩
    intro other mail held
    rcases update_cases held with ⟨rfl,same⟩ | ⟨_,old⟩
    · cases same
      exact asks
    · exact serves.leased other mail old
  | freed =>
    refine ⟨serves.fresh,serves.sessions,serves.completed,?_,serves.published⟩
    intro other mail held
    rcases update_cases held with ⟨_,same⟩ | ⟨_,old⟩
    · cases same
    · exact serves.leased other mail old
  | @placed id session found whole _ _ =>
    obtain ⟨faithful,aims⟩ := serves.sessions id session found
    refine ⟨?_,?_,?_,?_,?_⟩
    · intro other high
      have different : other ≠ id := by
        rintro rfl
        exact absurd (serves_below serves found) (Nat.not_lt.mpr high)
      change ((a.freed id).put id _).sessions other = none
      rw [put_other different]
      exact serves.fresh other high
    · intro other current now
      rcases put_cases now with ⟨rfl,same⟩ | ⟨_,old⟩
      · cases same
        exact ⟨faithful_settled faithful .completed,aims⟩
      · exact serves.sessions other current old
    · intro other current now done
      rcases put_cases now with ⟨rfl,_⟩ | ⟨_,old⟩
      · exact ⟨_,List.mem_cons_self ..,rfl⟩
      · obtain ⟨placement,member,same⟩ := serves.completed other current old done
        exact ⟨placement,List.mem_cons_of_mem _ member,same⟩
    · intro other mail held
      rcases update_cases held with ⟨_,same⟩ | ⟨_,old⟩
      · cases same
      · exact serves.leased other mail old
    · intro placement member
      rcases List.mem_cons.mp member with rfl | old
      · have low : id < a.opened := serves_below serves found
        exact ⟨low,whole,_,aims⟩
      · exact serves.published placement old
  | @dropped id =>
    refine ⟨?_,?_,?_,serves.leased,serves.published⟩
    · intro other high
      by_cases equal : other = id
      · subst other
        exact put_self ..
      · rw [put_other equal]
        exact serves.fresh other high
    · intro other session now
      rcases put_cases now with ⟨_,same⟩ | ⟨_,old⟩
      · cases same
      · exact serves.sessions other session old
    · intro other session now done
      rcases put_cases now with ⟨_,same⟩ | ⟨_,old⟩
      · cases same
      · exact serves.completed other session old done

def Tells (sender owner : Nat → Nat) (a : Agent) (mail : Mail) (reply : Reply) : Prop :=
  match mail.request,reply with
  | .openSession ..,.session id chunkSize total _ _ => Known a id chunkSize total ∧ owner id = sender mail.tag
  | .status id,.session _ _ _ _ .completed => Placed a id
  | .complete _,.refused _ => True
  | .complete id,_ => Placed a id
  | _,_ => True

theorem tells_refused (mail : Mail) : Tells sender owner a mail (.refused code) := by
  unfold Tells
  cases mail.request <;> trivial

theorem tells_moved (moved : Moved sha256 source aim owner a b later) (tells : Tells sender owner a mail reply) :
    Tells sender later b mail reply := by
  unfold Tells at tells ⊢
  cases asked : mail.request with
  | openSession =>
    rw [asked] at tells
    cases reply with
    | session id =>
      refine ⟨known_grows (moved_grows moved) tells.1,?_⟩
      rw [moved_owner moved tells.1.1]
      exact tells.2
    | _ => trivial
  | status =>
    rw [asked] at tells
    cases reply with
    | session _ _ _ _ status =>
      cases status with
      | completed => exact moved_placed moved tells
      | _ => trivial
    | _ => trivial
  | complete =>
    rw [asked] at tells
    cases reply with
    | refused => trivial
    | _ => exact moved_placed moved tells
  | chunk | delete => trivial

def keeper (sender owner : Nat → Nat) (mail : Mail) : Nat :=
  match mail.request with
  | .openSession .. => sender mail.tag
  | .status id | .chunk id _ _ _ | .complete id | .delete id => owner id

theorem handle_moved (serves : Serves sha256 source aim owner a) (right : Right sha256 (source (keeper sender owner mail)) a mail.request)
    (aims : ∀ path size sum chunkSize overwrite, mail.request = .openSession path size sum chunkSize overwrite → aim (sender mail.tag) path overwrite) :
    ∃ later, Moved sha256 source aim owner a (a.handle sha256 mail).1 later ∧
      ∀ reply, (a.handle sha256 mail).2 = some reply → Tells sender later (a.handle sha256 mail).1 mail reply := by
  unfold Agent.handle
  cases asked : mail.request with
  | status id =>
    have given : Tells sender owner a mail (statusHandler a id) := by
      unfold statusHandler
      cases found : a.sessions id with
      | none => exact tells_refused mail
      | some session =>
        dsimp only
        by_cases busy : session.row.status = .isOpen ∧ (a.completing id).isSome = true
        · rw [if_pos busy]
          exact tells_refused mail
        · rw [if_neg busy]
          unfold Tells
          rw [asked]
          cases status : session.row.status with
          | completed => exact serves.completed id session found status
          | _ => trivial
    refine ⟨owner,.same,?_⟩
    intro reply same
    cases same
    exact given
  | openSession path size sum chunkSize overwrite =>
    simp only [keeper,asked] at right
    obtain ⟨rfl,rfl⟩ := right
    rcases openHandler_cases path (source (sender mail.tag)).length (sha256 (source (sender mail.tag))) chunkSize overwrite a with
      ⟨code,refused,_⟩ | ⟨positive,_,opened⟩
    · simp only [refused]
      refine ⟨owner,.same,?_⟩
      intro reply same
      cases same
      exact tells_refused mail
    · simp only [opened]
      refine ⟨_,.opened positive (aims path _ _ chunkSize overwrite asked),?_⟩
      intro reply same
      cases same
      unfold Tells
      rw [asked]
      refine ⟨⟨Nat.lt_succ_self _,?_⟩,Function.update_self ..⟩
      intro session now
      cases (put_self a a.opened _).symm.trans now
      exact ⟨rfl,rfl⟩
  | chunk id n data sum =>
    simp only [keeper,asked] at right
    have plain : ∀ b reply, Tells sender owner b mail reply := by
      intro b reply
      unfold Tells
      rw [asked]
      trivial
    rcases chunkHandler_cases sha256 a id n data sum with ⟨reply,same,_⟩ | ⟨session,found,_,_,inside,sized,missing,stored⟩
    · simp only [same]
      exact ⟨owner,.same,fun _ _ => plain _ _⟩
    · simp only [stored]
      have faithful := (serves.sessions id session found).1
      exact ⟨owner,.stored found rfl (faithful_stored faithful inside sized missing (right.2 session found)),fun _ _ => plain _ _⟩
  | complete id =>
    rcases beginCompletion_cases a id mail with ⟨code,same,_⟩ | ⟨_,_,_,_,leased⟩
    · simp only [same]
      refine ⟨owner,.same,?_⟩
      intro reply equal
      cases equal
      exact tells_refused mail
    · simp only [leased]
      exact ⟨owner,.leased asked,nofun⟩
  | delete id =>
    have plain : ∀ b reply, Tells sender owner b mail reply := by
      intro b reply
      unfold Tells
      rw [asked]
      trivial
    rcases deleteHandler_cases a id with ⟨code,same,_⟩ | ⟨_,dropped⟩
    · simp only [same]
      exact ⟨owner,.same,fun _ _ => plain _ _⟩
    · simp only [dropped]
      exact ⟨owner,.dropped,fun _ _ => plain _ _⟩

theorem placed_taken (found : a.sessions id = some session)
    (ended : endCompletion sha256 a id = (a.placed id session,.completed)) :
    a.entries session.row.targetPath ≠ some .folder ∧ (session.row.overwrite = false → a.entries session.row.targetPath = none) := by
  unfold UploadAgent.endCompletion at ended
  simp only [found] at ended
  split at ended
  · cases congrArg Prod.snd ended
  · split at ended
    · cases congrArg Prod.snd ended
    · unfold publishReader at ended
      cases there : a.entries session.row.targetPath with
      | none => exact ⟨nofun,fun _ => rfl⟩
      | some entry =>
        cases choice : session.row.overwrite with
        | true =>
          cases entry with
          | file => exact ⟨nofun,nofun⟩
          | folder =>
            rw [there,choice] at ended
            cases congrArg Prod.snd ended
        | false =>
          rw [there,choice] at ended
          cases entry <;> cases congrArg Prod.snd ended

theorem endCompletion_moved (sender : Nat → Nat) (serves : Serves sha256 source aim owner a) (held : a.completing id = some mail) :
    Moved sha256 source aim owner a (endCompletion sha256 a id).1 owner ∧
    Tells sender owner (endCompletion sha256 a id).1 mail (endCompletion sha256 a id).2 := by
  have asks := serves.leased id mail held
  rcases endCompletion_cases sha256 a id with ⟨code,same,_⟩ | ⟨session,found,full,⟨differs,_⟩ | ⟨_,placed⟩⟩
  · rw [same]
    exact ⟨.freed,tells_refused mail⟩
  · have faithful := (serves.sessions id session found).1
    rw [faithful_whole faithful full,faithful.hash] at differs
    exact absurd rfl differs
  · obtain ⟨unfoldered,free⟩ := placed_taken found placed
    have whole := faithful_whole (serves.sessions id session found).1 full
    rw [placed]
    refine ⟨.placed found whole unfoldered free,?_⟩
    unfold Tells
    rw [asks]
    exact ⟨_,List.mem_cons_self ..,rfl⟩

structure Shared (sha256 : Bytes → String) (source : Nat → Bytes) (aim : Nat → String → Bool → Prop) (sender owner : Nat → Nat) (h : Host) :
    Prop where
  agent : Serves sha256 source aim owner h.agent
  mails : ∀ mail ∈ h.flying, mail.tag < h.sent ∧ Right sha256 (source (keeper sender owner mail)) h.agent mail.request ∧
    ∀ path size sum chunkSize overwrite, mail.request = .openSession path size sum chunkSize overwrite → aim (sender mail.tag) path overwrite
  busy : ∀ id mail, h.agent.completing id = some mail → mail.tag < h.sent
  answers : ∀ mail reply, (mail,reply) ∈ h.answers → mail.tag < h.sent ∧ Tells sender owner h.agent mail reply

theorem keeper_moved (moved : Moved sha256 source aim owner a b later) (right : Right sha256 (source (keeper sender owner mail)) a mail.request) :
    Right sha256 (source (keeper sender later mail)) b mail.request := by
  have grown := right_grows (moved_grows moved) right
  unfold keeper at grown ⊢
  cases asked : mail.request with
  | openSession =>
    rw [asked] at grown
    exact grown
  | chunk id n data sum =>
    rw [asked] at right grown
    dsimp only
    rw [moved_owner moved right.1]
    exact grown
  | status | complete | delete => trivial

theorem shared_moved (shared : Shared sha256 source aim sender owner h)
    (moved : Moved sha256 source aim owner h.agent b later) (fewer : ∀ mail ∈ flying, mail ∈ h.flying)
    (busy : ∀ id mail, b.completing id = some mail → mail.tag < h.sent)
    (told : ∀ mail reply, (mail,reply) ∈ answers → (mail,reply) ∈ h.answers ∨ (mail.tag < h.sent ∧ Tells sender later b mail reply)) :
    Shared sha256 source aim sender later {h with agent := b,flying := flying,answers := answers} := by
  refine ⟨moved_serves shared.agent moved,?_,busy,?_⟩
  · intro mail flies
    obtain ⟨low,right,aims⟩ := shared.mails mail (fewer mail flies)
    exact ⟨low,keeper_moved moved right,aims⟩
  · intro mail reply member
    rcases told mail reply member with old | new
    · obtain ⟨low,tells⟩ := shared.answers mail reply old
      exact ⟨low,tells_moved moved tells⟩
    · exact new

theorem act_shared (shared : Shared sha256 source aim sender owner h) (acted : h.act sha256 act = some next) :
    ∃ later, Moved sha256 source aim owner h.agent next.agent later ∧ next.sent = h.sent ∧ Shared sha256 source aim sender later next := by
  cases act_cases acted with
  | @turned mail code flies passing =>
    refine ⟨owner,.same,rfl,shared_moved shared .same (fun _ left => (List.mem_filter.mp left).1) shared.busy ?_⟩
    intro call reply member
    rcases List.mem_cons.mp member with same | old
    · cases same
      exact .inr ⟨(shared.mails mail flies).1,tells_refused mail⟩
    · exact .inl old
  | @answered mail reply flies given leases published =>
    obtain ⟨low,right,aims⟩ := shared.mails mail flies
    obtain ⟨later,moved,tells⟩ := handle_moved shared.agent right aims
    refine ⟨later,moved,rfl,shared_moved shared moved (fun _ left => (List.mem_filter.mp left).1) ?_ ?_⟩
    · rw [leases]
      exact shared.busy
    · intro call other member
      rcases List.mem_cons.mp member with same | old
      · cases same
        exact .inr ⟨low,tells reply given⟩
      · exact .inl old
  | @begun mail id session flies asks found isOpen free =>
    refine ⟨owner,.leased asks,rfl,shared_moved shared (.leased asks) (fun _ left => (List.mem_filter.mp left).1) ?_ (fun _ _ member => .inl member)⟩
    intro other call held
    rcases update_cases held with ⟨_,same⟩ | ⟨_,old⟩
    · cases same
      exact (shared.mails mail flies).1
    · exact shared.busy other call old
  | @finished mail id held =>
    obtain ⟨moved,tells⟩ := endCompletion_moved sender shared.agent held
    refine ⟨owner,moved,rfl,shared_moved shared moved (fun _ left => left) ?_ ?_⟩
    · intro other call now
      rw [endCompletion_leases] at now
      rcases update_cases now with ⟨_,same⟩ | ⟨_,old⟩
      · cases same
      · exact shared.busy other call old
    · intro call reply member
      rcases List.mem_cons.mp member with same | old
      · cases same
        exact .inr ⟨shared.busy id mail held,tells⟩
      · exact .inl old
  | forgotten free =>
    exact ⟨owner,.dropped,rfl,shared_moved shared .dropped (fun _ left => left) shared.busy (fun _ _ member => .inl member)⟩

theorem tells_sender (low : mail.tag < tag) (tells : Tells sender owner a mail reply) :
    Tells (Function.update sender tag i) owner a mail reply := by
  unfold Tells at tells ⊢
  rw [Function.update_of_ne (Nat.ne_of_lt low)]
  exact tells

theorem keeper_sender (low : mail.tag < tag) : keeper (Function.update sender tag i) owner mail = keeper sender owner mail := by
  unfold keeper
  rw [Function.update_of_ne (Nat.ne_of_lt low)]

theorem post_shared (shared : Shared sha256 source aim sender owner h) (i attempt : Nat)
    (right : Right sha256 (source i) h.agent request) (mine : ∀ id n data sum, request = .chunk id n data sum → owner id = i)
    (aims : ∀ path size sum chunkSize overwrite, request = .openSession path size sum chunkSize overwrite → aim i path overwrite) :
    Shared sha256 source aim (Function.update sender h.sent i) owner (h.post attempt request) := by
  refine ⟨shared.agent,?_,?_,?_⟩
  · intro mail flies
    rcases List.mem_append.mp flies with old | new
    · obtain ⟨low,fits,aimed⟩ := shared.mails mail old
      refine ⟨Nat.lt_succ_of_lt low,?_,?_⟩
      · rw [keeper_sender low]
        exact fits
      · rw [Function.update_of_ne (Nat.ne_of_lt low)]
        exact aimed
    · cases List.mem_singleton.mp new
      refine ⟨Nat.lt_succ_self _,?_,?_⟩
      · unfold keeper
        cases request with
        | openSession =>
          rw [Function.update_self]
          exact right
        | chunk id n data sum =>
          dsimp only
          rw [mine id n data sum rfl]
          exact right
        | status | complete | delete => trivial
      · rw [Function.update_self]
        exact aims
  · intro id mail held
    exact Nat.lt_succ_of_lt (shared.busy id mail held)
  · intro mail reply member
    obtain ⟨low,tells⟩ := shared.answers mail reply member
    exact ⟨Nat.lt_succ_of_lt low,tells_sender low tells⟩

theorem shared_weakens (shared : Shared sha256 source aim sender owner h)
    (weaker : ∀ i path overwrite, aim i path overwrite → wider i path overwrite) : Shared sha256 source wider sender owner h := by
  refine ⟨⟨shared.agent.fresh,?_,shared.agent.completed,shared.agent.leased,?_⟩,?_,shared.busy,shared.answers⟩
  · intro id session found
    obtain ⟨faithful,aims⟩ := shared.agent.sessions id session found
    exact ⟨faithful,weaker _ _ _ aims⟩
  · intro placement member
    obtain ⟨low,bytes,overwrite,aims⟩ := shared.agent.published placement member
    exact ⟨low,bytes,overwrite,weaker _ _ _ aims⟩
  · intro mail flies
    obtain ⟨low,right,aims⟩ := shared.mails mail flies
    exact ⟨low,right,fun path size sum chunkSize overwrite same => weaker _ _ _ (aims path size sum chunkSize overwrite same)⟩

end Sharing

end RemoteFileExplorer.SharedHosts
