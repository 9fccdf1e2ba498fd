import RemoteFileExplorer.UploadAgent
import Mathlib.Data.Int.Interval

namespace RemoteFileExplorer.UploadHosts
open Slices Transfers UploadSessions UploadFiles UploadAgent

section Faith
variable {sha256 : Bytes → String} {source : Bytes} {id : Nat} {session old : Session}

-- A session that was opened for the source and holds only pieces of it.
structure Faithful (sha256 : Bytes → String) (source : Bytes) (session : Session) : Prop where
  declared : Declared session.row
  size : session.row.totalSize = source.length
  hash : session.row.sha256 = sha256 source
  length : session.temp.length = source.length
  nodup : session.received.Nodup
  range : ∀ n ∈ session.received, 0 ≤ n ∧ n < session.row.totalChunks
  pieces : ∀ n ∈ session.received, piece session.row session.temp n = piece session.row source n

theorem faithful_opened (positive : 0 < chunkSize) :
    Faithful sha256 source (openedSession path source.length (sha256 source) chunkSize overwrite serial) := by
  refine ⟨⟨?_,?_,rfl⟩,rfl,rfl,by simp [openedSession],.nil,nofun,nofun⟩
  · exact Int.natCast_nonneg _
  · exact Int.natCast_pos.mpr positive

theorem faithful_settled (faithful : Faithful sha256 source session) (status : Status) :
    Faithful sha256 source (session.settled status) :=
  ⟨⟨faithful.declared.size,faithful.declared.chunk,faithful.declared.total⟩,faithful.size,faithful.hash,faithful.length,
    faithful.nodup,faithful.range,faithful.pieces⟩

theorem faithful_stored {n : Nat} (faithful : Faithful sha256 source session) (inside : (n : Int) < session.row.totalChunks)
    (sized : (data.length : Int) = expectedChunkLen session.row n) (missing : (n : Int) ∉ session.received)
    (right : data = piece session.row source n) :
    Faithful sha256 source {session with
      received := session.received ++ [(n : Int)]
      temp := writeAt 0 session.temp (n * session.row.chunkSize).toNat data} := by
  have low : 0 ≤ (n : Int) := Int.natCast_nonneg n
  have fits : ((n : Int) * session.row.chunkSize).toNat + data.length ≤ session.temp.length := by
    have accepted : Accepted ⟨session.row.id,n,data,""⟩ session.row := ⟨rfl,low,inside,sized⟩
    have bound := chunk_inside faithful.declared accepted
    have total := faithful.size
    have length := faithful.length
    simp only at bound
    omega
  refine ⟨faithful.declared,faithful.size,faithful.hash,?_,?_,?_,?_⟩
  · rw [writeAt_length fits]
    exact faithful.length
  · exact List.nodup_append.mpr ⟨faithful.nodup,List.nodup_singleton _,fun a member b single => by
      rintro rfl
      cases List.mem_singleton.mp single
      exact missing member⟩
  · intro m member
    rcases List.mem_append.mp member with old | single
    · exact faithful.range m old
    · cases List.mem_singleton.mp single
      exact ⟨low,inside⟩
  · intro m member
    rcases List.mem_append.mp member with old | single
    · have different : m ≠ n := fun same => missing (same ▸ old)
      have apart := chunks_apart faithful.declared (faithful.range m old).1 low different
      have known := faithful.pieces m old
      have length : data.length = (expectedChunkLen session.row n).toNat := by omega
      rw [← known]
      exact slice_writeAt_apart fits (by rw [length]; exact apart)
    · cases List.mem_singleton.mp single
      have length : (expectedChunkLen session.row n).toNat = data.length := by omega
      rw [← right]
      unfold piece
      rw [length]
      exact slice_writeAt_same fits

section
variable (faithful : Faithful sha256 source session) (full : session.row.totalChunks ≤ session.received.length)
include faithful full

theorem all_received (low : 0 ≤ n) (high : n < session.row.totalChunks) : n ∈ session.received := by
  have range : session.received.toFinset ⊆ Finset.Ico 0 session.row.totalChunks := by
    intro m member
    rw [List.mem_toFinset] at member
    exact Finset.mem_Ico.mpr (faithful.range m member)
  have card : (Finset.Ico 0 session.row.totalChunks).card ≤ session.received.toFinset.card := by
    rw [Int.card_Ico,List.toFinset_card_of_nodup faithful.nodup]
    omega
  have all := Finset.eq_of_subset_of_card_le range card
  rw [← List.mem_toFinset,all]
  exact Finset.mem_Ico.mpr ⟨low,high⟩

theorem faithful_whole :
    session.temp = source := by
  have begins : session.temp = source.take session.temp.length := by
    refine eq_take_of_slices (fun n => ((n * session.row.chunkSize).toNat,(expectedChunkLen session.row n).toNat)) ?_
    intro i inside
    have size := faithful.size
    have length := faithful.length
    obtain ⟨low,high,start,stop⟩ := chunks_cover faithful.declared (by omega : i < session.row.totalSize.toNat)
    have natural : (((i : Int) / session.row.chunkSize).toNat : Int) = (i : Int) / session.row.chunkSize := by omega
    refine ⟨((i : Int) / session.row.chunkSize).toNat,?_,?_,?_⟩
    · rw [natural]
      exact start
    · rw [natural]
      exact stop
    · rw [natural]
      exact faithful.pieces _ (all_received faithful full low high)
  rw [begins,faithful.length,List.take_length]

end

def Grows (a b : Agent) : Prop :=
  a.opened ≤ b.opened ∧ ∀ id session, id < a.opened → b.sessions id = some session →
    ∃ old, a.sessions id = some old ∧ core session.row = core old.row

theorem grows_refl (a : Agent) : Grows a a := ⟨Nat.le_refl _,fun _ session _ found => ⟨session,found,rfl⟩⟩

theorem grows_put (count : b.opened = a.opened) (sessions : b.sessions = Function.update a.sessions id (some session))
    (found : a.sessions id = some old) (same : core session.row = core old.row) : Grows a b := by
  refine ⟨Nat.le_of_eq count.symm,?_⟩
  intro other current _ now
  rw [sessions] at now
  by_cases equal : other = id
  · subst other
    rw [Function.update_self] at now
    cases now
    exact ⟨old,found,same⟩
  · rw [Function.update_of_ne equal] at now
    exact ⟨current,now,rfl⟩

theorem grows_drop (a : Agent) (id : Nat) : Grows a (a.put id none) := by
  refine ⟨Nat.le_refl _,?_⟩
  intro other current _ now
  by_cases equal : other = id
  · subst other
    rw [put_self] at now
    cases now
  · rw [put_other equal] at now
    exact ⟨current,now,rfl⟩

def Known (a : Agent) (id : Nat) (chunkSize totalChunks : Int) : Prop :=
  id < a.opened ∧ ∀ session, a.sessions id = some session → session.row.chunkSize = chunkSize ∧ session.row.totalChunks = totalChunks

theorem known_grows (grows : Grows a b) (known : Known a id chunkSize totalChunks) : Known b id chunkSize totalChunks := by
  refine ⟨Nat.lt_of_lt_of_le known.1 grows.1,?_⟩
  intro session now
  obtain ⟨old,before,same⟩ := grows.2 id session known.1 now
  obtain ⟨_,_,_,chunks,totals,_⟩ := core_parts same
  rw [chunks,totals]
  exact known.2 old before

def Right (sha256 : Bytes → String) (source : Bytes) (a : Agent) : Request → Prop
  | .openSession _ size sum _ _ => size = source.length ∧ sum = sha256 source
  | .chunk id n data _ => id < a.opened ∧ ∀ session, a.sessions id = some session → data = piece session.row source n
  | _ => True

theorem piece_core (same : core t = core u) (n : Int) : piece t source n = piece u source n := by
  obtain ⟨_,_,sizes,chunks,totals,_⟩ := core_parts same
  unfold piece expectedChunkLen
  rw [sizes,chunks,totals]

theorem right_grows (grows : Grows a b) (right : Right sha256 source a request) : Right sha256 source b request := by
  cases request with
  | status | complete | delete => trivial
  | openSession => exact right
  | chunk id n data sum =>
    refine ⟨Nat.lt_of_lt_of_le right.1 grows.1,?_⟩
    intro session now
    obtain ⟨old,before,same⟩ := grows.2 id session right.1 now
    rw [right.2 old before]
    exact (piece_core same n).symm

def Placed (a : Agent) (id : Nat) : Prop := ∃ placement ∈ a.published, placement.id = id

structure Honest (sha256 : Bytes → String) (source : Bytes) (a : Agent) : Prop where
  fresh : ∀ id, a.opened ≤ id → a.sessions id = none
  sessions : ∀ id session, a.sessions id = some session → Faithful sha256 source session
  unfailed : ∀ id session, a.sessions id = some session → session.row.status ≠ .failed
  completed : ∀ id session, a.sessions id = some session → session.row.status = .completed → Placed a id
  closed : ∀ placement ∈ a.published, ∀ session, a.sessions placement.id = some session → session.row.status = .completed
  bytes : ∀ placement ∈ a.published, placement.bytes = source ∧ placement.id < a.opened
  filed : ∀ placement ∈ a.published, a.entries placement.path = some (.file source)
  vacant : ∀ id session, a.sessions id = some session → session.row.overwrite = false →
    (a.entries session.row.targetPath).isSome → a.published ≠ []
  leased : ∀ id mail, a.completing id = some mail → mail.request = .complete id ∧
    ∃ session, a.sessions id = some session ∧ session.row.status = .isOpen

theorem session_below (honest : Honest sha256 source a) (found : a.sessions id = some session) : id < a.opened := by
  by_contra high
  rw [honest.fresh id (by omega)] at found
  cases found

inductive Changed (sha256 : Bytes → String) (source : Bytes) (a : Agent) : Agent → Prop where
  | same : Changed sha256 source a a
  | opened : 0 < chunkSize → (overwrite = false → a.entries path = none) →
      Changed sha256 source a {a.put a.opened
        (some (openedSession path source.length (sha256 source) chunkSize overwrite a.opened)) with opened := a.opened + 1}
  | stored {id : Nat} {session next : Session} : a.sessions id = some session → next.row = session.row → Faithful sha256 source next →
      Changed sha256 source a (a.put id (some next))
  | leased {id : Nat} {session : Session} : a.sessions id = some session → session.row.status = .isOpen → a.completing id = none →
      mail.request = .complete id → Changed sha256 source a {a with completing := Function.update a.completing id (some mail)}
  | freed {id : Nat} : Changed sha256 source a (a.freed id)
  | placed {id : Nat} {session : Session} : a.sessions id = some session → session.row.status = .isOpen → session.temp = source →
      a.completing id = some mail → Changed sha256 source a (a.placed id session)
  | dropped {id : Nat} : a.completing id = none → Changed sha256 source a (a.put id none)

theorem put_cases {a : Agent} (now : (a.put id put).sessions other = some session) :
    (other = id ∧ put = some session) ∨ (other ≠ id ∧ a.sessions other = some session) := by
  by_cases equal : other = id
  · subst other
    rw [put_self] at now
    exact .inl ⟨rfl,now⟩
  · rw [put_other equal] at now
    exact .inr ⟨equal,now⟩

theorem update_cases (now : Function.update f id put other = some mail) :
    (other = id ∧ put = some mail) ∨ (other ≠ id ∧ f other = some mail) := by
  by_cases equal : other = id
  · subst other
    rw [Function.update_self] at now
    exact .inl ⟨rfl,now⟩
  · rw [Function.update_of_ne equal] at now
    exact .inr ⟨equal,now⟩

theorem changed_grows {a b : Agent} (changed : Changed sha256 source a b) : Grows a b := by
  cases changed with
  | same | leased | freed => exact grows_refl a
  | opened =>
    refine ⟨Nat.le_succ _,?_⟩
    intro id session low now
    rcases put_cases now with ⟨rfl,_⟩ | ⟨_,old⟩
    · exact absurd low (Nat.lt_irrefl _)
    · exact ⟨session,old,rfl⟩
  | stored found rows _ => exact grows_put rfl rfl found (by rw [rows])
  | placed found => exact grows_put rfl rfl found rfl
  | dropped => exact grows_drop a _

section
variable (changed : Changed sha256 source a b)
include changed

theorem changed_published : a.published ⊆ b.published := by
  cases changed with
  | placed =>
    intro placement member
    exact List.mem_cons_of_mem _ member
  | _ => exact fun _ member => member

theorem changed_placed (placed : Placed a id) : Placed b id := by
  obtain ⟨placement,member,same⟩ := placed
  exact ⟨placement,changed_published changed member,same⟩

theorem changed_gone (low : id < a.opened) (gone : a.sessions id = none) :
    b.sessions id = none := by
  cases now : b.sessions id with
  | none => rfl
  | some session =>
    obtain ⟨old,before,_⟩ := (changed_grows changed).2 id session low now
    rw [gone] at before
    cases before

end

theorem honest_fresh (entries : String → Option Entry) : Honest sha256 source (Agent.fresh entries) where
  fresh _ _ := rfl
  sessions _ _ found := by cases found
  unfailed _ _ found := by cases found
  completed _ _ found := by cases found
  closed _ member := by cases member
  bytes _ member := by cases member
  filed _ member := by cases member
  vacant _ _ found := by cases found
  leased _ _ held := by cases held

theorem opened_honest {a : Agent} (honest : Honest sha256 source a) (positive : 0 < chunkSize)
    (free : overwrite = false → a.entries path = none) :
    Honest sha256 source {a.put a.opened (some (openedSession path source.length (sha256 source) chunkSize overwrite a.opened)) with
      opened := a.opened + 1} := by
  have below : ∀ placement ∈ a.published, placement.id ≠ a.opened := fun placement member => Nat.ne_of_lt (honest.bytes placement member).2
  refine ⟨?_,?_,?_,?_,?_,?_,honest.filed,?_,?_⟩
  · intro id high
    have above : a.opened + 1 ≤ id := high
    exact (put_other (by omega)).trans (honest.fresh id (by omega))
  · intro id session now
    rcases put_cases now with ⟨_,new⟩ | ⟨_,old⟩
    · cases new
      exact faithful_opened positive
    · exact honest.sessions id session old
  · intro id session now
    rcases put_cases now with ⟨_,new⟩ | ⟨_,old⟩
    · cases new
      nofun
    · exact honest.unfailed id session old
  · intro id session now ended
    rcases put_cases now with ⟨_,new⟩ | ⟨_,old⟩
    · cases new
      cases ended
    · exact honest.completed id session old ended
  · intro placement member session now
    rcases put_cases now with ⟨same,_⟩ | ⟨_,old⟩
    · exact absurd same (below placement member)
    · exact honest.closed placement member session old
  · intro placement member
    obtain ⟨bytes,low⟩ := honest.bytes placement member
    exact ⟨bytes,Nat.lt_succ_of_lt low⟩
  · intro id session now kept taken
    rcases put_cases now with ⟨_,new⟩ | ⟨_,old⟩
    · cases new
      have gone : a.entries path = none := free kept
      have there : (a.entries path).isSome := taken
      rw [gone] at there
      cases there
    · exact honest.vacant id session old kept taken
  · intro id mail held
    obtain ⟨asks,session,found,isOpen⟩ := honest.leased id mail held
    have low := session_below honest found
    exact ⟨asks,session,(put_other (Nat.ne_of_lt low)).trans found,isOpen⟩

theorem stored_honest {a : Agent} (honest : Honest sha256 source a) (found : a.sessions id = some session)
    (rows : next.row = session.row) (faithful : Faithful sha256 source next) : Honest sha256 source (a.put id (some next)) := by
  have before : ∀ other current, (a.put id (some next)).sessions other = some current →
      ∃ old, a.sessions other = some old ∧ current.row = old.row := by
    intro other current now
    rcases put_cases now with ⟨rfl,new⟩ | ⟨_,old⟩
    · cases new
      exact ⟨session,found,rows⟩
    · exact ⟨current,old,rfl⟩
  refine ⟨?_,?_,?_,?_,?_,honest.bytes,honest.filed,?_,?_⟩
  · intro other high
    have low := session_below honest found
    have above : a.opened ≤ other := high
    exact (put_other (by omega)).trans (honest.fresh other high)
  · intro other current now
    rcases put_cases now with ⟨_,new⟩ | ⟨_,old⟩
    · cases new
      exact faithful
    · exact honest.sessions other current old
  · intro other current now
    obtain ⟨old,was,same⟩ := before other current now
    rw [same]
    exact honest.unfailed other old was
  · intro other current now ended
    obtain ⟨old,was,same⟩ := before other current now
    rw [same] at ended
    exact honest.completed other old was ended
  · intro placement member current now
    obtain ⟨old,was,same⟩ := before placement.id current now
    rw [same]
    exact honest.closed placement member old was
  · intro other current now kept taken
    obtain ⟨old,was,same⟩ := before other current now
    rw [same] at kept taken
    exact honest.vacant other old was kept taken
  · intro other mail held
    obtain ⟨asks,current,was,isOpen⟩ := honest.leased other mail held
    refine ⟨asks,?_⟩
    by_cases equal : other = id
    · subst other
      cases found.symm.trans was
      exact ⟨next,put_self ..,by rw [rows]; exact isOpen⟩
    · exact ⟨current,(put_other equal).trans was,isOpen⟩

theorem leases_honest (honest : Honest sha256 source a) (completing : Nat → Option Mail)
    (kept : ∀ id mail, completing id = some mail → mail.request = .complete id ∧
      ∃ session, a.sessions id = some session ∧ session.row.status = .isOpen) : Honest sha256 source {a with completing := completing} :=
  ⟨honest.fresh,honest.sessions,honest.unfailed,honest.completed,honest.closed,honest.bytes,honest.filed,honest.vacant,kept⟩

theorem freed_honest (honest : Honest sha256 source a) (id : Nat) : Honest sha256 source (a.freed id) := by
  refine leases_honest honest _ ?_
  intro other mail held
  rcases update_cases held with ⟨_,new⟩ | ⟨_,old⟩
  · cases new
  · exact honest.leased other mail old

theorem placed_honest {a : Agent} (honest : Honest sha256 source a) (found : a.sessions id = some session)
    (whole : session.temp = source) : Honest sha256 source (a.placed id session) := by
  have low := session_below honest found
  have before : ∀ other current, (a.placed id session).sessions other = some current →
      (other = id ∧ current = session.settled .completed) ∨ (other ≠ id ∧ a.sessions other = some current) := by
    intro other current now
    rcases put_cases now with ⟨same,new⟩ | old
    · cases new
      exact .inl ⟨same,rfl⟩
    · exact .inr old
  refine ⟨?_,?_,?_,?_,?_,?_,?_,?_,?_⟩
  · intro other high
    have above : a.opened ≤ other := high
    exact (put_other (by omega)).trans (honest.fresh other above)
  · intro other current now
    rcases before other current now with ⟨_,rfl⟩ | ⟨_,old⟩
    · exact faithful_settled (honest.sessions id session found) .completed
    · exact honest.sessions other current old
  · intro other current now
    rcases before other current now with ⟨_,rfl⟩ | ⟨_,old⟩
    · nofun
    · exact honest.unfailed other current old
  · intro other current now ended
    rcases before other current now with ⟨rfl,rfl⟩ | ⟨_,old⟩
    · exact ⟨_,List.mem_cons_self ..,rfl⟩
    · obtain ⟨placement,member,same⟩ := honest.completed other current old ended
      exact ⟨placement,List.mem_cons_of_mem _ member,same⟩
  · intro placement member current now
    rcases before placement.id current now with ⟨_,rfl⟩ | ⟨different,old⟩
    · rfl
    · rcases List.mem_cons.mp member with rfl | earlier
      · exact absurd rfl different
      · exact honest.closed placement earlier current old
  · intro placement member
    rcases List.mem_cons.mp member with rfl | earlier
    · exact ⟨whole,low⟩
    · exact honest.bytes placement earlier
  · intro placement member
    change Function.update a.entries session.row.targetPath (some (.file session.temp)) placement.path = some (.file source)
    rw [whole]
    by_cases equal : placement.path = session.row.targetPath
    · rw [equal,Function.update_self]
    · rw [Function.update_of_ne equal]
      rcases List.mem_cons.mp member with rfl | earlier
      · exact absurd rfl equal
      · exact honest.filed placement earlier
  · intro _ _ _ _ _
    exact List.cons_ne_nil _ _
  · intro other mail held
    rcases update_cases held with ⟨_,new⟩ | ⟨different,old⟩
    · cases new
    · obtain ⟨asks,current,was,stays⟩ := honest.leased other mail old
      exact ⟨asks,current,(put_other different).trans was,stays⟩

theorem dropped_honest {a : Agent} (honest : Honest sha256 source a) (free : a.completing id = none) : Honest sha256 source (a.put id none) := by
  have before : ∀ other current, (a.put id none).sessions other = some current → a.sessions other = some current := by
    intro other current now
    rcases put_cases now with ⟨_,new⟩ | ⟨_,old⟩
    · cases new
    · exact old
  refine ⟨?_,fun _ _ now => honest.sessions _ _ (before _ _ now),fun _ _ now => honest.unfailed _ _ (before _ _ now),
    fun _ _ now => honest.completed _ _ (before _ _ now),fun _ member _ now => honest.closed _ member _ (before _ _ now),
    honest.bytes,honest.filed,fun _ _ now => honest.vacant _ _ (before _ _ now),?_⟩
  · intro other high
    cases now : (a.put id none).sessions other with
    | none => rfl
    | some current =>
      have was := before other current now
      rw [honest.fresh other high] at was
      cases was
  · intro other mail held
    obtain ⟨asks,current,was,isOpen⟩ := honest.leased other mail held
    have different : other ≠ id := by
      rintro rfl
      cases free.symm.trans held
    exact ⟨asks,current,(put_other different).trans was,isOpen⟩

theorem changed_honest (honest : Honest sha256 source a) (changed : Changed sha256 source a b) : Honest sha256 source b := by
  cases changed with
  | same => exact honest
  | opened positive free => exact opened_honest honest positive free
  | stored found rows faithful => exact stored_honest honest found rows faithful
  | @leased mail id session found isOpen _ asks =>
    refine leases_honest honest _ ?_
    intro other current held
    rcases update_cases held with ⟨rfl,new⟩ | ⟨_,old⟩
    · cases new
      exact ⟨asks,session,found,isOpen⟩
    · exact honest.leased other current old
  | freed => exact freed_honest honest _
  | placed found _ whole _ => exact placed_honest honest found whole
  | dropped free => exact dropped_honest honest free

def Truthful (a : Agent) (request : Request) (reply : Reply) : Prop :=
  match request,reply with
  | .status id,.session other _ total received status =>
    other = id ∧ status ≠ .failed ∧ (status = .completed → Placed a id) ∧ ∀ n ∈ received, n < total
  | .status id,.refused code => code ≠ .conflict ∧ (code = .notFound → a.sessions id = none)
  | .openSession _ _ _ _ overwrite,.refused code => code = .conflict → overwrite = false
  | .openSession ..,.session _ _ _ _ _ => True
  | .chunk ..,.noContent => True
  | .chunk ..,.refused code => code ≠ .conflict
  | .complete id,.completed => Placed a id
  | .complete id,.refused code =>
    code ≠ .hashMismatch ∧ (code = .transferNotOpen → Placed a id) ∧ (code = .conflict → a.published ≠ [])
  | .delete _,.noContent | .delete _,.refused _ => True
  | _,_ => False

def Opened (a : Agent) : Request → Prop
  | .status id | .complete id => id < a.opened
  | _ => True

theorem truthful_changed (changed : Changed sha256 source a b) (opened : Opened a request)
    (truthful : Truthful a request reply) : Truthful b request reply := by
  have grown : a.published ≠ [] → b.published ≠ [] := by
    intro some none
    obtain ⟨placement,rest,whole⟩ := List.exists_cons_of_ne_nil some
    have member : placement ∈ b.published := changed_published changed (by rw [whole]; exact List.mem_cons_self ..)
    rw [none] at member
    cases member
  cases request with
  | status id =>
    cases reply with
    | session other chunkSize total received status =>
      exact ⟨truthful.1,truthful.2.1,fun ended => changed_placed changed (truthful.2.2.1 ended),truthful.2.2.2⟩
    | refused code => exact ⟨truthful.1,fun missing => changed_gone changed opened (truthful.2 missing)⟩
    | noContent | completed => exact truthful
  | openSession | chunk | delete => cases reply <;> exact truthful
  | complete id =>
    cases reply with
    | completed => exact changed_placed changed truthful
    | refused code =>
      exact ⟨truthful.1,fun closed => changed_placed changed (truthful.2.1 closed),fun taken => grown (truthful.2.2 taken)⟩
    | session | noContent => exact truthful

theorem status_truthful (honest : Honest sha256 source a) (id : Nat) : Truthful a (.status id) (statusHandler a id) := by
  unfold statusHandler
  split
  · rename_i gone
    exact ⟨by decide,fun _ => gone⟩
  · rename_i session found
    split
    · exact ⟨nofun,nofun⟩
    · exact ⟨rfl,honest.unfailed id session found,honest.completed id session found,
        fun n member => ((honest.sessions id session found).range n member).2⟩

theorem passing_truthful (passing : code.passing = true) : Truthful a request (.refused code) := by
  have plain : code ≠ .notFound ∧ code ≠ .conflict ∧ code ≠ .hashMismatch ∧ code ≠ .transferNotOpen := by
    refine ⟨?_,?_,?_,?_⟩ <;> rintro rfl <;> cases passing
  cases request with
  | status => exact ⟨plain.2.1,fun same => absurd same plain.1⟩
  | openSession => exact fun same => absurd same plain.2.1
  | chunk => exact plain.2.1
  | delete => trivial
  | complete => exact ⟨plain.2.2.1,fun same => absurd same plain.2.2.2,fun same => absurd same plain.2.1⟩

theorem handle_changed (honest : Honest sha256 source a) (right : Right sha256 source a mail.request) :
    Changed sha256 source a (a.handle sha256 mail).1 ∧
    ∀ reply, (a.handle sha256 mail).2 = some reply → Truthful (a.handle sha256 mail).1 mail.request reply := by
  unfold Agent.handle
  cases asked : mail.request with
  | status id =>
    refine ⟨.same,?_⟩
    intro reply same
    cases same
    exact status_truthful honest id
  | openSession path size sum chunkSize overwrite =>
    rw [asked] at right
    obtain ⟨rfl,rfl⟩ := right
    rcases openHandler_cases path source.length (sha256 source) chunkSize overwrite a with ⟨code,refused,_,taken⟩ | ⟨positive,free,opened⟩
    · simp only [refused]
      refine ⟨.same,?_⟩
      intro reply same
      cases same
      exact fun conflict => (taken conflict).1
    · simp only [opened]
      refine ⟨.opened positive free,?_⟩
      intro reply same
      cases same
      trivial
  | chunk id n data sum =>
    rw [asked] at right
    rcases chunkHandler_cases sha256 a id n data sum with ⟨reply,same,noConflict,noneCompleted,never⟩ | ⟨session,found,_,_,inside,sized,missing,stored⟩
    · simp only [same]
      refine ⟨.same,?_⟩
      intro other equal
      cases equal
      cases reply with
      | session => exact absurd rfl (never _ _ _ _ _)
      | completed => exact absurd rfl noneCompleted
      | noContent => trivial
      | refused code =>
        rintro rfl
        exact noConflict rfl
    · simp only [stored]
      refine ⟨.stored found rfl ?_,?_⟩
      · exact faithful_stored (honest.sessions id session found) inside sized missing (right.2 session found)
      · intro reply same
        cases same
        trivial
  | complete id =>
    rcases beginCompletion_cases a id mail with ⟨code,same,conflict,mismatch,closed⟩ | ⟨session,found,isOpen,free,leased⟩
    · simp only [same]
      refine ⟨.same,?_⟩
      intro reply equal
      cases equal
      refine ⟨mismatch,?_,fun taken => absurd taken conflict⟩
      intro shut
      obtain ⟨session,found,ended⟩ := closed shut
      refine honest.completed id session found ?_
      have unfailed := honest.unfailed id session found
      cases status : session.row.status with
      | isOpen => exact absurd status ended
      | completed => rfl
      | failed => exact absurd status unfailed
    · simp only [leased]
      exact ⟨.leased found isOpen free asked,nofun⟩
  | delete id =>
    rcases deleteHandler_cases a id with ⟨code,same,_⟩ | ⟨free,dropped⟩
    · simp only [same]
      refine ⟨.same,?_⟩
      intro reply equal
      cases equal
      trivial
    · simp only [dropped]
      refine ⟨.dropped free,?_⟩
      intro reply equal
      cases equal
      trivial

theorem endCompletion_changed (honest : Honest sha256 source a) (held : a.completing id = some mail) :
    Changed sha256 source a (endCompletion sha256 a id).1 ∧ Truthful (endCompletion sha256 a id).1 mail.request (endCompletion sha256 a id).2 := by
  obtain ⟨asks,session,found,isOpen⟩ := honest.leased id mail held
  rw [asks]
  rcases endCompletion_cases sha256 a id with ⟨code,same,mismatch,closed,taken⟩ | ⟨current,here,full,rest⟩
  · rw [same]
    refine ⟨.freed,mismatch,fun shut => absurd shut closed,?_⟩
    intro conflict
    obtain ⟨current,here,kept,there⟩ := taken conflict
    exact honest.vacant id current here kept there
  · cases found.symm.trans here
    have faithful := honest.sessions id session found
    have whole := faithful_whole faithful full
    rcases rest with ⟨differs,_⟩ | ⟨_,placed⟩
    · rw [whole,faithful.hash] at differs
      exact absurd rfl differs
    · rw [placed]
      exact ⟨.placed found isOpen whole held,_,List.mem_cons_self ..,rfl⟩

structure Sound (sha256 : Bytes → String) (source : Bytes) (h : Host) : Prop where
  agent : Honest sha256 source h.agent
  mails : ∀ mail ∈ h.flying, Right sha256 source h.agent mail.request ∧ Opened h.agent mail.request
  known : ∀ mail id chunkSize total received status, (mail,Reply.session id chunkSize total received status) ∈ h.answers →
    Known h.agent id chunkSize total
  truthful : ∀ mail reply, (mail,reply) ∈ h.answers → Truthful h.agent mail.request reply ∧ Opened h.agent mail.request
  flown : ∀ mail ∈ h.flying, mail.tag < h.sent
  busy : ∀ id mail, h.agent.completing id = some mail → mail.tag < h.sent ∧ mail ∉ h.flying
  answered : ∀ mail reply, (mail,reply) ∈ h.answers → mail.tag < h.sent ∧ mail ∉ h.flying ∧ ∀ id, h.agent.completing id ≠ some mail
  once : ∀ mail reply other, (mail,reply) ∈ h.answers → (mail,other) ∈ h.answers → reply = other

theorem sound_fresh (entries : String → Option Entry) : Sound sha256 source (Host.fresh entries) where
  agent := honest_fresh entries
  mails _ member := by cases member
  known _ _ _ _ _ _ member := by cases member
  truthful _ _ member := by cases member
  flown _ member := by cases member
  busy _ _ held := by cases held
  answered _ _ member := by cases member
  once _ _ _ member := by cases member

theorem opened_grows (grows : Grows a b) (opened : Opened a request) : Opened b request := by
  cases request with
  | status | complete => exact Nat.lt_of_lt_of_le opened grows.1
  | _ => trivial

theorem sound_post (sound : Sound sha256 source h) (right : Right sha256 source h.agent request)
    (opened : Opened h.agent request) (attempt : Nat) : Sound sha256 source (h.post attempt request) := by
  have older : ∀ mail : Mail, mail.tag < h.sent → mail ∉ h.flying → mail ∉ (h.post attempt request).flying := by
    intro mail low away member
    rcases List.mem_append.mp member with old | new
    · exact away old
    · cases List.mem_singleton.mp new
      exact Nat.lt_irrefl _ low
  refine ⟨sound.agent,?_,sound.known,sound.truthful,?_,?_,?_,sound.once⟩
  · intro mail member
    rcases List.mem_append.mp member with old | new
    · exact sound.mails mail old
    · cases List.mem_singleton.mp new
      exact ⟨right,opened⟩
  · intro mail member
    rcases List.mem_append.mp member with old | new
    · exact Nat.lt_succ_of_lt (sound.flown mail old)
    · cases List.mem_singleton.mp new
      exact Nat.lt_succ_self _
  · intro id mail held
    obtain ⟨low,away⟩ := sound.busy id mail held
    exact ⟨Nat.lt_succ_of_lt low,older mail low away⟩
  · intro mail reply member
    obtain ⟨low,away,free⟩ := sound.answered mail reply member
    exact ⟨Nat.lt_succ_of_lt low,older mail low away,free⟩

theorem handle_known (honest : Honest sha256 source a)
    (answered : (a.handle sha256 mail).2 = some (.session id chunkSize total received status)) :
    Known (a.handle sha256 mail).1 id chunkSize total := by
  unfold Agent.handle at answered ⊢
  cases asked : mail.request with
  | status other =>
    simp only [asked,statusHandler,Option.some.injEq] at answered ⊢
    split at answered
    · cases answered
    · rename_i session found
      split at answered
      · cases answered
      · cases answered
        refine ⟨session_below honest found,?_⟩
        intro current now
        cases found.symm.trans now
        exact ⟨rfl,rfl⟩
  | openSession path size sum chunk overwrite =>
    rcases openHandler_cases path size sum chunk overwrite a with ⟨code,refused,_⟩ | ⟨_,_,opened⟩
    · simp only [asked,refused] at answered
      cases answered
    · simp only [asked,opened] at answered ⊢
      cases answered
      refine ⟨Nat.lt_succ_self _,?_⟩
      intro current now
      cases (put_self a a.opened _).symm.trans now
      exact ⟨rfl,rfl⟩
  | chunk other n data sum =>
    rcases chunkHandler_cases sha256 a other n data sum with ⟨reply,same,_,_,never⟩ | ⟨_,_,_,_,_,_,_,stored⟩
    · simp only [asked,same,Option.some.injEq] at answered
      exact absurd answered (never _ _ _ _ _)
    · simp only [asked,stored] at answered
      cases answered
  | complete other =>
    rcases beginCompletion_cases a other mail with ⟨code,same,_⟩ | ⟨_,_,_,_,leased⟩
    · simp only [asked,same] at answered
      cases answered
    · simp only [asked,leased] at answered
      cases answered
  | delete other =>
    rcases deleteHandler_cases a other with ⟨code,same,_⟩ | ⟨_,dropped⟩
    · simp only [asked,same] at answered
      cases answered
    · simp only [asked,dropped] at answered
      cases answered

-- Only a completion that gets the lease goes to work, and every other request
-- leaves the leases alone.
theorem handle_leases (sha256 : Bytes → String) (a : Agent) (mail : Mail) :
    (∃ id session, mail.request = .complete id ∧ a.sessions id = some session ∧ session.row.status = .isOpen ∧ a.completing id = none ∧
      a.handle sha256 mail = ({a with completing := Function.update a.completing id (some mail)},none)) ∨
    ((a.handle sha256 mail).1.completing = a.completing ∧ (a.handle sha256 mail).1.published = a.published ∧
      ∃ reply, (a.handle sha256 mail).2 = some reply) := by
  unfold Agent.handle
  cases asked : mail.request with
  | status id => exact .inr ⟨rfl,rfl,_,rfl⟩
  | openSession path size sum chunk overwrite =>
    rcases openHandler_cases path size sum chunk overwrite a with ⟨code,refused,_⟩ | ⟨_,_,opened⟩
    · simp only [refused]
      exact .inr ⟨trivial,trivial,_,rfl⟩
    · simp only [opened]
      exact .inr ⟨rfl,rfl,_,rfl⟩
  | chunk id n data sum =>
    rcases chunkHandler_cases sha256 a id n data sum with ⟨reply,same,_⟩ | ⟨_,_,_,_,_,_,_,stored⟩
    · simp only [same]
      exact .inr ⟨trivial,trivial,_,rfl⟩
    · simp only [stored]
      exact .inr ⟨rfl,rfl,_,rfl⟩
  | complete id =>
    rcases beginCompletion_cases a id mail with ⟨code,same,_⟩ | ⟨session,found,isOpen,free,leased⟩
    · simp only [same]
      exact .inr ⟨trivial,trivial,_,rfl⟩
    · simp only [leased]
      exact .inl ⟨id,session,rfl,found,isOpen,free,rfl⟩
  | delete id =>
    rcases deleteHandler_cases a id with ⟨code,same,_⟩ | ⟨_,dropped⟩
    · simp only [same]
      exact .inr ⟨trivial,trivial,_,rfl⟩
    · simp only [dropped]
      exact .inr ⟨rfl,rfl,_,rfl⟩

theorem endCompletion_leases (sha256 : Bytes → String) (a : Agent) (id : Nat) : (endCompletion sha256 a id).1.completing = Function.update a.completing id none := by
  rcases endCompletion_cases sha256 a id with ⟨_,same,_⟩ | ⟨_,_,_,⟨_,same⟩ | ⟨_,same⟩⟩ <;> rw [same] <;> rfl

inductive Acted (sha256 : Bytes → String) (h : Host) : Act → Host → Prop where
  | turned : mail ∈ h.flying → code.passing = true →
      Acted sha256 h (.take mail (some code))
        {h with flying := h.flying.filter (· ≠ mail),answers := (mail,.refused code)::h.answers}
  | answered : mail ∈ h.flying → (h.agent.handle sha256 mail).2 = some reply →
      (h.agent.handle sha256 mail).1.completing = h.agent.completing → (h.agent.handle sha256 mail).1.published = h.agent.published →
      Acted sha256 h (.take mail none)
        {h with agent := (h.agent.handle sha256 mail).1,flying := h.flying.filter (· ≠ mail),answers := (mail,reply)::h.answers}
  | begun {id : Nat} {session : Session} : mail ∈ h.flying → mail.request = .complete id → h.agent.sessions id = some session →
      session.row.status = .isOpen → h.agent.completing id = none →
      Acted sha256 h (.take mail none)
        {h with agent := {h.agent with completing := Function.update h.agent.completing id (some mail)},flying := h.flying.filter (· ≠ mail)}
  | finished {id : Nat} : h.agent.completing id = some mail →
      Acted sha256 h (.finish id)
        {h with agent := (endCompletion sha256 h.agent id).1,answers := (mail,(endCompletion sha256 h.agent id).2)::h.answers}
  | forgotten {id : Nat} : h.agent.completing id = none → Acted sha256 h (.forget id) {h with agent := h.agent.put id none}

theorem act_cases (acted : h.act sha256 act = some next) : Acted sha256 h act next := by
  cases act with
  | take mail turnedAway =>
    obtain ⟨flies,acted⟩ := Option.ite_none_right_eq_some.mp acted
    split at acted
    · obtain ⟨passing,⟨⟩⟩ := Option.ite_none_right_eq_some.mp acted
      exact .turned flies passing
    · rcases handle_leases sha256 h.agent mail with ⟨id,session,asks,found,isOpen,free,begun⟩ | ⟨leases,published,reply,given⟩
      · rw [begun] at acted
        cases acted
        exact .begun flies asks found isOpen free
      · rw [← Prod.mk.eta (p := h.agent.handle sha256 mail),given] at acted
        cases acted
        exact .answered flies given leases published
  | finish id =>
    simp only [Host.act] at acted
    split at acted
    · cases acted
    · rename_i call held
      cases acted
      exact .finished held
  | forget id =>
    obtain ⟨free,⟨⟩⟩ := Option.ite_none_left_eq_some.mp acted
    exact .forgotten (by simpa using free)

theorem acted_changed (sound : Sound sha256 source h) (acted : Acted sha256 h act next) :
    Changed sha256 source h.agent next.agent := by
  cases acted with
  | turned => exact .same
  | @answered mail _ flies _ _ _ => exact (handle_changed sound.agent (sound.mails mail flies).1).1
  | begun _ asks found isOpen free => exact .leased found isOpen free asks
  | finished held => exact (endCompletion_changed sound.agent held).1
  | forgotten free => exact .dropped free

theorem acted_flying (acted : Acted sha256 h act next) (member : mail ∈ next.flying) :
    mail ∈ h.flying ∧ ∀ turned, act ≠ .take mail turned := by
  cases acted with
  | @turned taken _ _ _ | @answered taken _ _ _ _ _ | @begun taken _ _ _ _ _ _ _ =>
    obtain ⟨flies,other⟩ := List.mem_filter.mp member
    refine ⟨flies,?_⟩
    intro turned same
    cases same
    simp at other
  | finished | forgotten => exact ⟨member,nofun⟩

theorem sound_agent (sound : Sound sha256 source h) (changed : Changed sha256 source h.agent b)
    (fewer : ∀ mail ∈ flying, mail ∈ h.flying)
    (leases : ∀ id mail, b.completing id = some mail → h.agent.completing id = some mail ∨ (mail ∈ h.flying ∧ mail ∉ flying)) :
    Sound sha256 source {h with agent := b,flying := flying} := by
  have grows := changed_grows changed
  refine ⟨changed_honest sound.agent changed,?_,?_,?_,?_,?_,?_,sound.once⟩
  · intro mail member
    obtain ⟨right,opened⟩ := sound.mails mail (fewer mail member)
    exact ⟨right_grows grows right,opened_grows grows opened⟩
  · intro mail id chunkSize total received status member
    exact known_grows grows (sound.known mail id chunkSize total received status member)
  · intro mail reply member
    obtain ⟨truthful,opened⟩ := sound.truthful mail reply member
    exact ⟨truthful_changed changed opened truthful,opened_grows grows opened⟩
  · intro mail member
    exact sound.flown mail (fewer mail member)
  · intro id mail held
    rcases leases id mail held with old | ⟨flies,gone⟩
    · obtain ⟨low,away⟩ := sound.busy id mail old
      exact ⟨low,fun member => away (fewer mail member)⟩
    · exact ⟨sound.flown mail flies,gone⟩
  · intro mail reply member
    obtain ⟨low,away,free⟩ := sound.answered mail reply member
    refine ⟨low,fun flies => away (fewer mail flies),?_⟩
    intro id held
    rcases leases id mail held with old | ⟨flies,_⟩
    · exact free id old
    · exact away flies

theorem sound_answer (sound : Sound sha256 source h) (low : mail.tag < h.sent)
    (away : mail ∉ h.flying) (free : ∀ id, h.agent.completing id ≠ some mail) (fresh : ∀ other, (mail,other) ∉ h.answers)
    (truthful : Truthful h.agent mail.request reply) (opened : Opened h.agent mail.request)
    (known : ∀ id chunkSize total received status, reply = .session id chunkSize total received status → Known h.agent id chunkSize total) :
    Sound sha256 source {h with answers := (mail,reply)::h.answers} := by
  refine ⟨sound.agent,sound.mails,?_,?_,sound.flown,sound.busy,?_,?_⟩
  · intro call id chunkSize total received status member
    rcases List.mem_cons.mp member with same | old
    · cases same
      exact known id chunkSize total received status rfl
    · exact sound.known call id chunkSize total received status old
  · intro call other member
    rcases List.mem_cons.mp member with same | old
    · cases same
      exact ⟨truthful,opened⟩
    · exact sound.truthful call other old
  · intro call other member
    rcases List.mem_cons.mp member with same | old
    · cases same
      exact ⟨low,away,free⟩
    · exact sound.answered call other old
  · intro call one other first second
    rcases List.mem_cons.mp first with same | old
    · cases same
      rcases List.mem_cons.mp second with also | earlier
      · cases also
        rfl
      · exact absurd earlier (fresh other)
    · rcases List.mem_cons.mp second with also | earlier
      · cases also
        exact absurd old (fresh one)
      · exact sound.once call one other old earlier

theorem act_sound (sound : Sound sha256 source h) (acted : h.act sha256 act = some next) : Sound sha256 source next := by
  have changed := acted_changed sound (act_cases acted)
  have fewer : ∀ mail : Mail, ∀ other ∈ h.flying.filter (· ≠ mail), other ∈ h.flying := fun _ _ member => (List.mem_filter.mp member).1
  have gone : ∀ mail : Mail, mail ∉ h.flying.filter (· ≠ mail) := fun mail member => by simp at member
  have taken : ∀ mail ∈ h.flying, (∀ id, h.agent.completing id ≠ some mail) ∧ ∀ other, (mail,other) ∉ h.answers := by
    intro mail flies
    exact ⟨fun id held => (sound.busy id mail held).2 flies,fun other member => (sound.answered mail other member).2.1 flies⟩
  cases act_cases acted with
  | @turned mail code flies passing =>
    have moved := sound_agent sound .same (fewer mail) (fun id call held => .inl held)
    exact sound_answer moved (sound.flown mail flies) (gone mail) (taken mail flies).1 (taken mail flies).2
      (passing_truthful passing) (sound.mails mail flies).2 nofun
  | @answered mail reply flies given leases _ =>
    obtain ⟨right,opened⟩ := sound.mails mail flies
    have moved := sound_agent sound changed (fewer mail) (fun id call held => .inl (by rw [← leases]; exact held))
    refine sound_answer moved (sound.flown mail flies) (gone mail) ?_ (taken mail flies).2
      ((handle_changed sound.agent right).2 reply given) (opened_grows (changed_grows changed) opened) ?_
    · intro id held
      rw [leases] at held
      exact (taken mail flies).1 id held
    · intro id chunkSize total received status same
      exact handle_known sound.agent (given.trans (congrArg some same))
  | @begun mail id session flies asks found isOpen free =>
    refine sound_agent sound changed (fewer mail) ?_
    intro other call held
    rcases update_cases held with ⟨_,new⟩ | ⟨_,old⟩
    · cases new
      exact .inr ⟨flies,gone mail⟩
    · exact .inl old
  | @finished mail id held =>
    have leases := endCompletion_leases sha256 h.agent id
    have old : ∀ other call, (endCompletion sha256 h.agent id).1.completing other = some call → other ≠ id ∧ h.agent.completing other = some call := by
      intro other call now
      rw [leases] at now
      rcases update_cases now with ⟨_,new⟩ | ⟨different,old⟩
      · cases new
      · exact ⟨different,old⟩
    obtain ⟨asks,session,found,_⟩ := sound.agent.leased id mail held
    obtain ⟨low,away⟩ := sound.busy id mail held
    have moved := sound_agent sound changed (fun _ member => member) (fun other call now => .inl (old other call now).2)
    refine sound_answer moved low away ?_ (fun other member => (sound.answered mail other member).2.2 id held)
      (endCompletion_changed sound.agent held).2 ?_ ?_
    · intro other now
      obtain ⟨different,was⟩ := old other mail now
      have also := (sound.agent.leased other mail was).1
      rw [asks] at also
      cases also
      exact different rfl
    · rw [asks]
      exact Nat.lt_of_lt_of_le (session_below sound.agent found) (changed_grows changed).1
    · intro other chunkSize total received status same
      rcases endCompletion_cases sha256 h.agent id with ⟨_,ended,_⟩ | ⟨_,_,_,⟨_,ended⟩ | ⟨_,ended⟩⟩ <;>
        rw [ended] at same <;> cases same
  | forgotten => exact sound_agent sound changed (fun _ member => member) (fun id call held => .inl held)

-- The end of a completion on an honest agent: the file is placed, or nothing
-- but the lease changes.
theorem finish_cases (honest : Honest sha256 source a) (held : a.completing id = some mail) :
    (∃ code, endCompletion sha256 a id = (a.freed id,.refused code)) ∨
    ∃ session, a.sessions id = some session ∧ endCompletion sha256 a id = (a.placed id session,.completed) := by
  obtain ⟨_,session,found,_⟩ := honest.leased id mail held
  rcases endCompletion_cases sha256 a id with ⟨code,same,_⟩ | ⟨current,here,full,⟨differs,_⟩ | ⟨_,placed⟩⟩
  · exact .inl ⟨code,same⟩
  · have faithful := honest.sessions id current here
    rw [faithful_whole faithful full,faithful.hash] at differs
    exact absurd rfl differs
  · exact .inr ⟨current,here,placed⟩

theorem handle_stays {a : Agent} (spared : ∀ other, mail.request ≠ .delete other)
    (there : (a.sessions id).isSome) : ((a.handle sha256 mail).1.sessions id).isSome := by
  have put : ∀ other session, ((a.put other (some session)).sessions id).isSome := by
    intro other session
    by_cases equal : id = other
    · subst other
      rw [put_self]
      rfl
    · rw [put_other equal]
      exact there
  unfold Agent.handle
  cases asked : mail.request with
  | status other => exact there
  | openSession path size sum chunk overwrite =>
    rcases openHandler_cases path size sum chunk overwrite a with ⟨code,refused,_⟩ | ⟨_,_,opened⟩
    · simp only [refused]
      exact there
    · simp only [opened]
      exact put a.opened _
  | chunk other n data sum =>
    rcases chunkHandler_cases sha256 a other n data sum with ⟨reply,same,_⟩ | ⟨_,_,_,_,_,_,_,stored⟩
    · simp only [same]
      exact there
    · simp only [stored]
      exact put other _
  | complete other =>
    rcases beginCompletion_cases a other mail with ⟨code,same,_⟩ | ⟨_,_,_,_,leased⟩
    · simp only [same]
      exact there
    · simp only [leased]
      exact there
  | delete other => exact absurd asked (spared other)

theorem handle_origin {a : Agent} (now : (a.handle sha256 mail).1.sessions id = some session) :
    (∃ old, a.sessions id = some old ∧ core session.row = core old.row) ∨
    ∃ path size sum chunkSize overwrite serial, mail.request = .openSession path size sum chunkSize overwrite ∧
      session = openedSession path size sum chunkSize overwrite serial := by
  unfold Agent.handle at now
  cases asked : mail.request with
  | status other =>
    rw [asked] at now
    exact .inl ⟨session,now,rfl⟩
  | openSession path size sum chunk overwrite =>
    rw [asked] at now
    rcases openHandler_cases path size sum chunk overwrite a with ⟨code,refused,_⟩ | ⟨_,_,opened⟩
    · simp only [refused] at now
      exact .inl ⟨session,now,rfl⟩
    · simp only [opened] at now
      rcases put_cases now with ⟨_,new⟩ | ⟨_,old⟩
      · cases new
        exact .inr ⟨path,size,sum,chunk,overwrite,a.opened,rfl,rfl⟩
      · exact .inl ⟨session,old,rfl⟩
  | chunk other n data sum =>
    rw [asked] at now
    rcases chunkHandler_cases sha256 a other n data sum with ⟨reply,same,_⟩ | ⟨old,found,_,_,_,_,_,stored⟩
    · simp only [same] at now
      exact .inl ⟨session,now,rfl⟩
    · simp only [stored] at now
      rcases put_cases now with ⟨rfl,new⟩ | ⟨_,old⟩
      · cases new
        exact .inl ⟨old,found,rfl⟩
      · exact .inl ⟨session,old,rfl⟩
  | complete other =>
    rw [asked] at now
    rcases beginCompletion_cases a other mail with ⟨code,same,_⟩ | ⟨_,_,_,_,leased⟩
    · simp only [same] at now
      exact .inl ⟨session,now,rfl⟩
    · simp only [leased] at now
      exact .inl ⟨session,now,rfl⟩
  | delete other =>
    rw [asked] at now
    rcases deleteHandler_cases a other with ⟨code,same,_⟩ | ⟨_,dropped⟩
    · simp only [same] at now
      exact .inl ⟨session,now,rfl⟩
    · simp only [dropped] at now
      rcases put_cases now with ⟨_,new⟩ | ⟨_,old⟩
      · cases new
      · exact .inl ⟨session,old,rfl⟩

theorem handle_conflict {a : Agent} (given : (a.handle sha256 mail).2 = some (.refused .conflict)) :
    ∃ path size sum chunkSize, mail.request = .openSession path size sum chunkSize false := by
  unfold Agent.handle at given
  cases asked : mail.request with
  | status other =>
    simp only [asked,Option.some.injEq] at given
    unfold statusHandler at given
    split at given
    · cases given
    · split at given <;> cases given
  | openSession path size sum chunk overwrite =>
    rw [asked] at given
    rcases openHandler_cases path size sum chunk overwrite a with ⟨code,refused,_,taken⟩ | ⟨_,_,opened⟩
    · simp only [refused] at given
      cases given
      obtain ⟨rfl,_⟩ := taken rfl
      exact ⟨path,size,sum,chunk,rfl⟩
    · simp only [opened] at given
      cases given
  | chunk other n data sum =>
    rw [asked] at given
    rcases chunkHandler_cases sha256 a other n data sum with ⟨reply,same,calm,_⟩ | ⟨_,_,_,_,_,_,_,stored⟩
    · simp only [same,Option.some.injEq] at given
      exact absurd given calm
    · simp only [stored] at given
      cases given
  | complete other =>
    rw [asked] at given
    rcases beginCompletion_cases a other mail with ⟨code,same,calm,_⟩ | ⟨_,_,_,_,leased⟩
    · simp only [same] at given
      cases given
      exact absurd rfl calm
    · simp only [leased] at given
      cases given
  | delete other =>
    rw [asked] at given
    rcases deleteHandler_cases a other with ⟨code,same,calm⟩ | ⟨_,dropped⟩
    · simp only [same] at given
      cases given
      exact absurd rfl calm
    · simp only [dropped] at given
      cases given

structure Aimed (path : String) (overwrite : Bool) (h : Host) : Prop where
  rows : ∀ id session, h.agent.sessions id = some session → session.row.targetPath = path ∧ session.row.overwrite = overwrite
  mails : ∀ mail ∈ h.flying, ∀ other size sum chunkSize also, mail.request = .openSession other size sum chunkSize also →
    other = path ∧ also = overwrite
  published : ∀ placement ∈ h.agent.published, placement.path = path
  conflicts : ∀ mail, (mail,Reply.refused .conflict) ∈ h.answers → overwrite = false

theorem aimed_post (aimed : Aimed path overwrite h) (attempt : Nat)
    (right : ∀ other size sum chunkSize also, request = .openSession other size sum chunkSize also → other = path ∧ also = overwrite) :
    Aimed path overwrite (h.post attempt request) := by
  refine ⟨aimed.rows,?_,aimed.published,aimed.conflicts⟩
  intro mail member
  rcases List.mem_append.mp member with old | new
  · exact aimed.mails mail old
  · cases List.mem_singleton.mp new
    exact right

theorem act_aimed {h next : Host} (sound : Sound sha256 source h) (aimed : Aimed path overwrite h)
    (acted : h.act sha256 act = some next) : Aimed path overwrite next := by
  have kept : ∀ old current : Session, old.row.targetPath = path ∧ old.row.overwrite = overwrite → core current.row = core old.row →
      current.row.targetPath = path ∧ current.row.overwrite = overwrite := by
    intro old current right same
    have targets := congrArg Transfer.targetPath same
    have choices := congrArg Transfer.overwrite same
    exact ⟨targets.trans right.1,choices.trans right.2⟩
  have mails : ∀ mail ∈ next.flying, ∀ other size sum chunkSize also, mail.request = .openSession other size sum chunkSize also →
      other = path ∧ also = overwrite := fun mail member => aimed.mails mail (acted_flying (act_cases acted) member).1
  cases act_cases acted with
  | @turned mail code flies passing =>
    refine ⟨aimed.rows,mails,aimed.published,?_⟩
    intro call member
    rcases List.mem_cons.mp member with same | old
    · cases same
      cases passing
    · exact aimed.conflicts call old
  | @answered mail reply flies given leases published =>
    refine ⟨?_,mails,?_,?_⟩
    · intro id session now
      rcases handle_origin now with ⟨old,found,same⟩ | ⟨other,size,sum,chunkSize,also,serial,asked,rfl⟩
      · exact kept old session (aimed.rows id old found) same
      · exact aimed.mails mail flies other size sum chunkSize also asked
    · intro placement member
      exact aimed.published placement (by rw [← published]; exact member)
    · intro call member
      rcases List.mem_cons.mp member with same | old
      · cases same
        obtain ⟨other,size,sum,chunkSize,asked⟩ := handle_conflict given
        exact (aimed.mails mail flies other size sum chunkSize false asked).2.symm
      · exact aimed.conflicts call old
  | begun => exact ⟨aimed.rows,mails,aimed.published,aimed.conflicts⟩
  | @finished mail id held =>
    have changed := (endCompletion_changed sound.agent held).1
    refine ⟨?_,mails,?_,?_⟩
    · intro other session now
      have low : other < h.agent.opened := by
        have bound := session_below (changed_honest sound.agent changed) now
        rcases finish_cases sound.agent held with ⟨_,ended⟩ | ⟨_,_,ended⟩ <;> rw [ended] at bound <;> exact bound
      obtain ⟨old,found,same⟩ := (changed_grows changed).2 other session low now
      exact kept old session (aimed.rows other old found) same
    · intro placement member
      rcases finish_cases sound.agent held with ⟨_,ended⟩ | ⟨session,found,ended⟩
      · rw [ended] at member
        exact aimed.published placement member
      · rw [ended] at member
        rcases List.mem_cons.mp member with rfl | old
        · exact (aimed.rows id session found).1
        · exact aimed.published placement old
    · intro call member
      rcases List.mem_cons.mp member with same | old
      · rcases endCompletion_cases sha256 h.agent id with ⟨code,ended,_,_,taken⟩ | ⟨_,_,_,⟨_,ended⟩ | ⟨_,ended⟩⟩
        · rw [ended] at same
          cases same
          obtain ⟨session,found,choice,_⟩ := taken rfl
          rw [← (aimed.rows id session found).2]
          exact choice
        all_goals
          rw [ended] at same
          cases same
      · exact aimed.conflicts call old
  | @forgotten id free =>
    refine ⟨?_,mails,aimed.published,aimed.conflicts⟩
    intro other session now
    rcases put_cases now with ⟨_,new⟩ | ⟨_,old⟩
    · cases new
    · exact aimed.rows other session old

end Faith

end RemoteFileExplorer.UploadHosts
