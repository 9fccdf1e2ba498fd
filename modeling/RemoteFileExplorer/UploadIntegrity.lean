import Mathlib.Data.Int.Interval
import RemoteFileExplorer.UploadFiles

namespace RemoteFileExplorer.UploadIntegrity
open Runs Tables Slices Transfers UploadLeases UploadSessions UploadEffects UploadFiles

def InFlight (s : State) (serial : Nat) (n : Int) (data : Bytes) : Prop :=
  ∃ p call u i, s.procs p = .chunkWritten call u i ∧ u.serial = serial ∧ call.n = n ∧ call.data = data

def Acked (s : State) (serial : Nat) (n : Int) : Prop := ∃ data, (⟨serial,n,data⟩ : Ack) ∈ s.acks

-- The bytes of a written chunk are those of one upload that was answered with
-- success, or will be, unless an upload after its write could not be recorded.
def Text (s : State) (t : Transfer) (n : Int) : Prop :=
  t.serial ∈ s.spoiled ∨ (⟨t.serial,n,piece t (s.inodes t.serial).content n⟩ : Ack) ∈ s.acks ∨
    InFlight s t.serial n (piece t (s.inodes t.serial).content n)

def Settled (s : State) (t : Transfer) (bytes : Bytes) (n : Int) : Prop :=
  Acked s t.serial n ∧ (t.serial ∈ s.spoiled ∨ (⟨t.serial,n,piece t bytes n⟩ : Ack) ∈ s.acks)

def Covered (s : State) (t : Transfer) (bytes : Bytes) : Prop := ∀ n, 0 ≤ n → n < t.totalChunks → Settled s t bytes n

section Integrity
variable (sha256 : Bytes → String)

def Ready (s : State) : Stage → Prop
  | .chunkWritten call t _ => Text s t call.n
  | .completeCounted t => Covered s t (s.inodes t.serial).content
  | .hashing t inode since bytes =>
    Covered s t (s.inodes t.serial).content ∧ since = s.writes inode ∧ bytes <+: (s.inodes inode).content
  | .verified t inode since =>
    Covered s t (s.inodes t.serial).content ∧ since = s.writes inode ∧ sha256 (s.inodes inode).content = t.sha256
  | .copying t inode since bytes =>
    Covered s t (s.inodes t.serial).content ∧ since = s.writes inode ∧ sha256 (s.inodes inode).content = t.sha256 ∧
      bytes <+: (s.inodes inode).content
  | _ => True

structure Good (s : State) (entry : Publication) : Prop where
  declared : Declared entry.transfer
  length : entry.bytes.length = entry.transfer.totalSize.toNat
  hashed : sha256 entry.bytes = entry.transfer.sha256
  covered : Covered s entry.transfer entry.bytes
  still : entry.writesAtHash = entry.writesAtPlace

structure Contents (s : State) : Prop where
  chunks : ∀ t n, Listed s t → (t.id,n) ∈ s.chunks.rows → 0 ≤ n ∧ n < t.totalChunks ∧ Acked s t.serial n ∧ Text s t n
  stages : ∀ p, Ready sha256 s (s.procs p)
  published : ∀ entry ∈ s.published, Good sha256 s entry

-- What the file of one session owes to a step: its bytes stay, and an upload
-- in flight on it stays in flight, is answered, or spoils it.
structure Frame (s next : State) (serial : Nat) : Prop where
  content : (next.inodes serial).content = (s.inodes serial).content
  writes : next.writes serial = s.writes serial
  acks : ∀ ack ∈ s.acks, ack ∈ next.acks
  spoiled : ∀ i ∈ s.spoiled, i ∈ next.spoiled
  flight : ∀ n data, InFlight s serial n data →
    serial ∈ next.spoiled ∨ (⟨serial,n,data⟩ : Ack) ∈ next.acks ∨ InFlight next serial n data

variable {sha256} {s next : State} {t : Transfer} {stage : Stage}

theorem text_frame (frame : Frame s next t.serial) (text : Text s t n) : Text next t n := by
  unfold Text at text ⊢
  rw [frame.content]
  rcases text with spoiled | acked | flying
  · exact .inl (frame.spoiled _ spoiled)
  · exact .inr (.inl (frame.acks _ acked))
  · exact frame.flight n _ flying

theorem settled_grows (acks : ∀ ack ∈ s.acks, ack ∈ next.acks) (spoiled : ∀ i ∈ s.spoiled, i ∈ next.spoiled)
    (settled : Settled s t bytes n) : Settled next t bytes n := by
  obtain ⟨⟨data,acked⟩,text⟩ := settled
  refine ⟨⟨data,acks _ acked⟩,?_⟩
  rcases text with lost | known
  · exact .inl (spoiled _ lost)
  · exact .inr (acks _ known)

theorem covered_frame (frame : Frame s next t.serial) (covered : Covered s t (s.inodes t.serial).content) :
    Covered next t (next.inodes t.serial).content := by
  rw [frame.content]
  exact fun n low high => settled_grows frame.acks frame.spoiled (covered n low high)

theorem ready_frame (serial : ∀ t i, handleOf stage = some (t,i) → i = t.serial)
    (frame : ∀ t, loaded stage = some t → Frame s next t.serial) (ready : Ready sha256 s stage) : Ready sha256 next stage := by
  cases stage with
  | chunkWritten call t inode => exact text_frame (frame t rfl) ready
  | completeCounted t => exact covered_frame (frame t rfl) ready
  | hashing t inode since bytes =>
    have same : inode = t.serial := serial t inode rfl
    subst same
    obtain ⟨covered,writes,read⟩ := ready
    have kept := frame t rfl
    exact ⟨covered_frame kept covered,by rw [kept.writes,writes],by rw [kept.content]; exact read⟩
  | verified t inode since =>
    have same : inode = t.serial := serial t inode rfl
    subst same
    obtain ⟨covered,writes,hashed⟩ := ready
    have kept := frame t rfl
    exact ⟨covered_frame kept covered,by rw [kept.writes,writes],by rw [kept.content]; exact hashed⟩
  | copying t inode since bytes =>
    have same : inode = t.serial := serial t inode rfl
    subst same
    obtain ⟨covered,writes,hashed,read⟩ := ready
    have kept := frame t rfl
    exact ⟨covered_frame kept covered,by rw [kept.writes,writes],by rw [kept.content]; exact hashed,by rw [kept.content]; exact read⟩
  | _ => trivial

theorem good_grows (good : Good sha256 s entry) (acks : ∀ ack ∈ s.acks, ack ∈ next.acks)
    (spoiled : ∀ i ∈ s.spoiled, i ∈ next.spoiled) : Good sha256 next entry :=
  ⟨good.declared,good.length,good.hashed,fun n low high => settled_grows acks spoiled (good.covered n low high),good.still⟩

theorem same_session (left : Genuine s t) (right : Genuine s u) (same : u.serial = t.serial) : u.id = t.id := by
  rw [← right.own,← left.own,same]

theorem alone_writes (leases : Leases s.active s.completing s.procs) (calls : Calls s) (files : Files s)
    (completing : completes (s.procs p) = some t.id) (own : loaded (s.procs p) = some t)
    (uploads : loaded (s.procs q) = some u) (shared : completes (s.procs q) = none) : u.serial ≠ t.serial := by
  intro same
  have mine := files.genuine t (standing_listed (calls.stands p t own))
  have theirs := files.genuine u (standing_listed (calls.stands q u uploads))
  have held := loaded_holds calls uploads
  rw [same_session mine theirs same] at held
  have equal := leases.exclusive p t.id completing q held
  rw [equal,completing] at shared
  cases shared

theorem chunkNumbers_nodup (s : State) (sessionId : String) : (chunkNumbers s sessionId).Nodup := by
  have distinct : s.chunks.rows.Nodup := s.chunks.unique.imp fun clear same => by simp [chunkKeys,same] at clear
  apply List.Nodup.map_on
  · intro a left b right same
    simp only [List.mem_filter,beq_iff_eq] at left right
    exact Prod.ext (left.2.trans right.2.symm) same
  · exact distinct.filter _

theorem mem_chunkNumbers : n ∈ chunkNumbers s sessionId ↔ (sessionId,n) ∈ s.chunks.rows := by
  simp [chunkNumbers]

theorem counted_covers (contents : Contents sha256 s) (listed : Listed s t)
    (enough : t.totalChunks ≤ (chunkNumbers s t.id).length) (low : 0 ≤ n) (high : n < t.totalChunks) : (t.id,n) ∈ s.chunks.rows := by
  have range : (chunkNumbers s t.id).toFinset ⊆ Finset.Ico 0 t.totalChunks := by
    intro m member
    rw [List.mem_toFinset,mem_chunkNumbers] at member
    obtain ⟨least,most,_⟩ := contents.chunks t m listed member
    exact Finset.mem_Ico.mpr ⟨least,most⟩
  have card : (Finset.Ico 0 t.totalChunks).card ≤ (chunkNumbers s t.id).toFinset.card := by
    rw [Int.card_Ico,List.toFinset_card_of_nodup (chunkNumbers_nodup s t.id)]
    omega
  have all := Finset.eq_of_subset_of_card_le range card
  have member : n ∈ Finset.Ico 0 t.totalChunks := Finset.mem_Ico.mpr ⟨low,high⟩
  rw [← all,List.mem_toFinset,mem_chunkNumbers] at member
  exact member

theorem counted_ready (leases : Leases s.active s.completing s.procs) (calls : Calls s) (files : Files s) (contents : Contents sha256 s)
    (stands : s.procs p = .completeLoaded t) (enough : t.totalChunks ≤ (chunkNumbers s t.id).length) :
    Covered s t (s.inodes t.serial).content := by
  have own : loaded (s.procs p) = some t := by rw [stands]; rfl
  have only : completes (s.procs p) = some t.id := by rw [stands]; rfl
  have listed := standing_listed (calls.stands p t own)
  intro n low high
  obtain ⟨_,_,acked,text⟩ := contents.chunks t n listed (counted_covers contents listed enough low high)
  refine ⟨acked,?_⟩
  rcases text with spoiled | known | ⟨q,call,u,i,flying,same,_⟩
  · exact .inl spoiled
  · exact .inr known
  · exact absurd same (alone_writes leases calls files only own (by rw [flying]; rfl) (by rw [flying]; rfl))

theorem prefix_slice (read : bytes <+: content) (count : Nat) :
    bytes ++ slice content bytes.length count <+: content := by
  obtain ⟨rest,rfl⟩ := read
  unfold slice
  rw [List.drop_left]
  exact (List.prefix_append_right_inj bytes).mpr (List.take_prefix count rest)

theorem prefix_whole (read : bytes <+: content) (whole : content.length ≤ bytes.length) : bytes = content :=
  read.eq_of_length_le whole

theorem advance_ready (leases : Leases s.active s.completing s.procs) (calls : Calls s) (files : Files s) (contents : Contents sha256 s)
    (advanced : Advance sha256 s p stage) : Ready sha256 s stage := by
  have ready := contents.stages p
  have handle := files.handle p
  have standing := calls.stands p
  cases advanced with
  | refused | gaveUp | quit | checked | missing | chunkOpened | loaded | mismatched => trivial
  | counted stands enough => exact counted_ready leases calls files contents stands enough
  | hashing stands named =>
    rw [stands] at ready
    exact ⟨ready,rfl,List.nil_prefix⟩
  | readHash count stands =>
    rw [stands] at ready
    obtain ⟨covered,writes,read⟩ := ready
    exact ⟨covered,writes,prefix_slice read count⟩
  | readCopy count stands =>
    rw [stands] at ready
    obtain ⟨covered,writes,hashed,read⟩ := ready
    exact ⟨covered,writes,hashed,prefix_slice read count⟩
  | verified stands whole hashed =>
    rw [stands] at ready
    obtain ⟨covered,writes,read⟩ := ready
    rw [prefix_whole read whole] at hashed
    exact ⟨covered,writes,hashed⟩
  | stream stands source =>
    rw [stands] at ready handle standing
    obtain ⟨covered,writes,hashed⟩ := ready
    rcases source with rfl | named
    · exact ⟨covered,writes,hashed,List.nil_prefix⟩
    · rw [handle _ _ rfl] at writes hashed
      rw [files.temp _ _ (standing _ rfl) named]
      exact ⟨covered,writes,hashed,List.nil_prefix⟩

theorem silent_ready (quiet : silent stage = true ∨ ∃ t, stage = .placed t ∨ stage = .tempRemoved t) : Ready sha256 s stage := by
  rcases quiet with quiet | ⟨t,rfl | rfl⟩
  · cases stage <;> trivial
  · trivial
  · trivial

theorem quiet_frame (quiet : Quiet s next) (kept : ∀ q, written (s.procs q) = true → next.procs q = s.procs q) (serial : Nat) :
    Frame s next serial := by
  refine ⟨by rw [quiet.inodes],by rw [quiet.writes],quiet.acks,fun i lost => by rwa [quiet.spoiled],?_⟩
  rintro n data ⟨p,call,u,i,flying,rest⟩
  refine .inr (.inr ⟨p,call,u,i,?_,rest⟩)
  rw [kept p (by rw [flying]; rfl),flying]

theorem quiet_contents (contents : Contents sha256 s) (quiet : Quiet s next)
    (kept : ∀ q, written (s.procs q) = true → next.procs q = s.procs q) (stages : ∀ p, Ready sha256 next (next.procs p)) :
    Contents sha256 next := by
  refine ⟨?_,stages,?_⟩
  · intro t n listed member
    obtain ⟨low,high,⟨data,acked⟩,text⟩ := contents.chunks t n (quiet_listed quiet listed) (quiet.chunks _ member)
    exact ⟨low,high,⟨data,quiet.acks _ acked⟩,text_frame (quiet_frame quiet kept t.serial) text⟩
  · intro entry member
    rw [quiet.published] at member
    exact good_grows (contents.published entry member) quiet.acks (fun i lost => by rwa [quiet.spoiled])

theorem opened_contents (files : Files created)
    (contents : Contents sha256 created) (known : ∀ p t, loaded (created.procs p) = some t → t.serial < created.nextInode)
    (stored : created.transfers.insert (sessionRow request created.nextInode) = some transfers) :
    Contents sha256 {created with
      transfers := transfers
      inodes := Function.update created.inodes created.nextInode ⟨List.replicate request.size.toNat 0,created.now,request.id⟩
      temps := Function.update created.temps request.id temp
      nextInode := created.nextInode + 1} := by
  have frame : ∀ t : Transfer, t.serial < created.nextInode → Frame created {created with
      transfers := transfers
      inodes := Function.update created.inodes created.nextInode ⟨List.replicate request.size.toNat 0,created.now,request.id⟩
      temps := Function.update created.temps request.id temp
      nextInode := created.nextInode + 1} t.serial := by
    intro t earlier
    have other : t.serial ≠ created.nextInode := Nat.ne_of_lt earlier
    exact ⟨by simp [Function.update_of_ne other],rfl,fun _ => id,fun _ => id,fun _ _ flying => .inr (.inr flying)⟩
  refine ⟨?_,?_,?_⟩
  · intro t n listed member
    obtain ⟨row,stand,same⟩ := listed
    rcases (Table.mem_insert stored).mp stand with old | rfl
    · obtain ⟨low,high,acked,text⟩ := contents.chunks t n ⟨row,old,same⟩ member
      exact ⟨low,high,acked,text_frame (frame t (files.genuine t ⟨row,old,same⟩).known) text⟩
    · obtain ⟨owner,old,named⟩ := files.owned _ member
      have clear := (Table.insert_parts stored).1 owner old
      simp only [transferKeys,Schema.key_clash,decide_eq_false_iff_not] at clear
      exact absurd (named.trans (core_parts same).1.symm) clear
  · intro p
    exact ready_frame (files.handle p) (fun t has => frame t (known p t has)) (contents.stages p)
  · intro entry member
    exact good_grows (contents.published entry member) (fun _ => id) (fun _ => id)

theorem text_core (same : core t = core u) (text : Text s t n) : Text s u n := by
  obtain ⟨_,serials,sizes,chunks,totals,_⟩ := core_parts same
  have lengths : expectedChunkLen t n = expectedChunkLen u n := by
    unfold expectedChunkLen
    rw [sizes,chunks,totals]
  unfold Text piece at text ⊢
  rwa [serials,lengths,chunks] at text

theorem written_text (calls : Calls s) (files : Files s) (stands : s.procs p = .chunkOpened call t inode)
    (written : next = {move s p (.chunkWritten call t inode) with
      inodes := Function.update s.inodes inode {s.inodes inode with
        content := writeAt 0 (s.inodes inode).content (call.n * t.chunkSize).toNat call.data,modTime := s.now}
      writes := Function.update s.writes inode (s.writes inode + 1)}) :
    Text next t call.n ∧ ∀ n, 0 ≤ n → Text s t n → Text next t n := by
  obtain ⟨serial,genuine,accepted,inside⟩ := opened_range calls files stands
  obtain ⟨_,least,_,sized⟩ := accepted
  have content : (next.inodes t.serial).content =
      writeAt 0 (s.inodes t.serial).content (call.n * t.chunkSize).toNat call.data := by
    rw [written,← serial]
    simp
  have flying : next.procs p = .chunkWritten call t inode := by
    rw [written]
    simp [move]
  have length : (expectedChunkLen t call.n).toNat = call.data.length := by omega
  rw [serial] at inside
  have mine : piece t (next.inodes t.serial).content call.n = call.data := by
    unfold piece
    rw [content,length,slice_writeAt_same inside]
  refine ⟨.inr (.inr ⟨p,call,t,inode,flying,rfl,rfl,mine.symm⟩),?_⟩
  intro n low text
  by_cases equal : n = call.n
  · subst equal
    exact .inr (.inr ⟨p,call,t,inode,flying,rfl,rfl,mine.symm⟩)
  · have untouched : piece t (next.inodes t.serial).content n = piece t (s.inodes t.serial).content n := by
      rw [content]
      apply slice_writeAt_apart inside
      rw [← length]
      exact chunks_apart genuine.declared low least equal
    unfold Text at text ⊢
    rw [untouched]
    rcases text with spoiled | known | ⟨q,other,w,i,stage,rest⟩
    · exact .inl (by rw [written]; exact spoiled)
    · exact .inr (.inl (by rw [written]; exact known))
    · refine .inr (.inr ⟨q,other,w,i,?_,rest⟩)
      rw [written]
      rcases update_stage s.procs p (.chunkWritten call t inode) q with ⟨rfl,_⟩ | ⟨_,moved⟩
      · rw [stands] at stage
        cases stage
      · exact moved.trans stage

theorem same_core (files : Files s) (left : Listed s t) (right : Listed s u) (same : u.serial = t.serial) : core t = core u := by
  have ids := same_session (files.genuine t left) (files.genuine u right) same
  obtain ⟨row,member,one⟩ := left
  obtain ⟨other,also,two⟩ := right
  have equal : row = other := same_row member also (by rw [(core_parts one).1,(core_parts two).1,ids])
  rw [← one,← two,equal]

theorem written_contents (leases : Leases s.active s.completing s.procs) (calls : Calls s) (files : Files s)
    (contents : Contents sha256 s) (stands : s.procs p = .chunkOpened call t inode)
    (written : next = {move s p (.chunkWritten call t inode) with
      inodes := Function.update s.inodes inode {s.inodes inode with
        content := writeAt 0 (s.inodes inode).content (call.n * t.chunkSize).toNat call.data,modTime := s.now}
      writes := Function.update s.writes inode (s.writes inode + 1)}) : Contents sha256 next := by
  have uploads : loaded (s.procs p) = some t := by rw [stands]; rfl
  have shared : completes (s.procs p) = none := by rw [stands]; rfl
  have listed := standing_listed (calls.stands p t uploads)
  have serial := (opened_range calls files stands).1
  obtain ⟨own,others⟩ := written_text calls files stands written
  have rows : next.transfers = s.transfers := by rw [written]; rfl
  have chunks : next.chunks = s.chunks := by rw [written]; rfl
  have acks : next.acks = s.acks := by rw [written]; rfl
  have spoiled : next.spoiled = s.spoiled := by rw [written]; rfl
  have procs : next.procs = Function.update s.procs p (.chunkWritten call t inode) := by rw [written]; rfl
  -- Another session's file is not touched at all.
  have frame : ∀ u : Transfer, u.serial ≠ t.serial → Frame s next u.serial := by
    intro u apart
    rw [← serial] at apart
    refine ⟨by rw [written]; simp [Function.update_of_ne apart],by rw [written]; simp [Function.update_of_ne apart],
      fun ack => by rw [acks]; exact id,fun i => by rw [spoiled]; exact id,?_⟩
    rintro n data ⟨q,other,w,i,flying,rest⟩
    refine .inr (.inr ⟨q,other,w,i,?_,rest⟩)
    rw [procs]
    rcases update_stage s.procs p (.chunkWritten call t inode) q with ⟨rfl,_⟩ | ⟨_,moved⟩
    · rw [stands] at flying
      cases flying
    · exact moved.trans flying
  have text : ∀ u n, Listed s u → 0 ≤ n → Text s u n → Text next u n := by
    intro u n known low before
    by_cases same : u.serial = t.serial
    · have equal := same_core files listed known same
      exact text_core equal (others n low (text_core equal.symm before))
    · exact text_frame (frame u same) before
  refine ⟨?_,?_,?_⟩
  · intro u n known member
    unfold Listed at known
    rw [rows] at known
    rw [chunks] at member
    obtain ⟨low,high,⟨data,acked⟩,before⟩ := contents.chunks u n known member
    exact ⟨low,high,⟨data,by rw [acks]; exact acked⟩,text u n known low before⟩
  · intro q
    rw [procs]
    rcases update_stage s.procs p (.chunkWritten call t inode) q with ⟨_,moved⟩ | ⟨different,moved⟩
    · rw [moved]
      exact own
    · rw [moved]
      have ready := contents.stages q
      have alone : ∀ u, completes (s.procs q) = some u.id → loaded (s.procs q) = some u → Frame s next u.serial :=
        fun u only has => frame u (alone_writes leases calls files only has uploads shared).symm
      have handle := files.handle q
      have standing := calls.stands q
      have accepted := calls.accepted q
      cases stage : s.procs q with
      | chunkWritten other u i =>
        rw [stage] at ready standing accepted
        exact text u other.n (standing_listed (standing u rfl)) (accepted other u rfl).2.1 ready
      | completeCounted u | hashing u | verified u | copying u =>
        rw [stage] at ready handle alone
        refine ready_frame handle (fun w has => ?_) ready
        cases has
        exact alone u rfl rfl
      | _ => trivial
  · intro entry member
    have before : entry ∈ s.published := by
      rw [written] at member
      exact member
    exact good_grows (contents.published entry before) (fun ack => by rw [acks]; exact id) (fun i => by rw [spoiled]; exact id)

theorem moved_contents (files : Files s) (contents : Contents sha256 s) (p : Nat)
    (plain : silent stage = true ∨ ∃ t, stage = .placed t ∨ stage = .tempRemoved t)
    (procs : next.procs = Function.update s.procs p stage) (frame : ∀ serial, Frame s next serial)
    (published : ∀ entry ∈ next.published, entry ∈ s.published ∨ Good sha256 s entry) (rows : ∀ u, Listed next u → Listed s u)
    (chunks : ∀ u n, Listed next u → (u.id,n) ∈ next.chunks.rows →
      (u.id,n) ∈ s.chunks.rows ∨ (0 ≤ n ∧ n < u.totalChunks ∧ Acked next u.serial n ∧ Text s u n)) : Contents sha256 next := by
  refine ⟨?_,?_,?_⟩
  · intro u n listed member
    rcases chunks u n listed member with old | ⟨low,high,acked,text⟩
    · obtain ⟨low,high,⟨data,acked⟩,text⟩ := contents.chunks u n (rows u listed) old
      exact ⟨low,high,⟨data,(frame 0).acks _ acked⟩,text_frame (frame u.serial) text⟩
    · exact ⟨low,high,acked,text_frame (frame u.serial) text⟩
  · intro q
    rw [procs]
    rcases update_stage s.procs p stage q with ⟨_,moved⟩ | ⟨_,moved⟩
    · rw [moved]
      exact silent_ready plain
    · rw [moved]
      exact ready_frame (files.handle q) (fun u _ => frame u.serial) (contents.stages q)
  · intro entry member
    rcases published entry member with old | good
    · exact good_grows (contents.published entry old) (frame 0).acks (frame 0).spoiled
    · exact good_grows good (frame 0).acks (frame 0).spoiled

theorem recorded_contents (calls : Calls s) (files : Files s) (contents : Contents sha256 s)
    (stands : s.procs p = .chunkWritten call t inode) (marked : markChunkReceived s call.id call.n = some recorded) :
    Contents sha256 {move recorded p (.leaving call.id) with acks := ⟨t.serial,call.n,call.data⟩::s.acks} := by
  have own : loaded (s.procs p) = some t := by rw [stands]; rfl
  have listed := standing_listed (calls.stands p t own)
  have accepted := calls.accepted p
  have text := contents.stages p
  rw [stands] at accepted text
  obtain ⟨named,low,high,_⟩ := accepted call t rfl
  have before : ∀ u, Listed recorded u → Listed s u := by
    rintro u ⟨row,member,same⟩
    obtain ⟨old,stored,also,_⟩ := mark_origin marked member
    exact ⟨old,stored,also.symm.trans same⟩
  have chunks : ∀ u n, Listed recorded u → (u.id,n) ∈ recorded.chunks.rows → (u.id,n) ∈ s.chunks.rows ∨ (n = call.n ∧ core t = core u) := by
    intro u n known member
    rcases mark_chunks marked member with old | fresh
    · exact .inl old
    · obtain ⟨row,stored,one⟩ := listed
      obtain ⟨other,also,two⟩ := before u known
      have ids : u.id = t.id := (congrArg Prod.fst fresh).trans named
      have equal : row = other := same_row stored also (by rw [(core_parts one).1,(core_parts two).1,ids])
      exact .inr ⟨congrArg Prod.snd fresh,by rw [← one,← two,equal]⟩
  cases markChunkReceived_parts marked
  refine moved_contents files contents p (.inl rfl) rfl ?_ (fun _ => .inl) before ?_
  · intro serial
    refine ⟨rfl,rfl,fun _ => List.mem_cons_of_mem _,fun _ => id,?_⟩
    rintro n data ⟨q,other,u,i,flying,rfl,rfl,rfl⟩
    by_cases same : q = p
    · rw [same,stands] at flying
      cases flying
      exact .inr (.inl List.mem_cons_self)
    · refine .inr (.inr ⟨q,other,u,i,?_,rfl,rfl,rfl⟩)
      exact (Function.update_of_ne same _ _).trans flying
  · intro u n known member
    rcases chunks u n known member with old | ⟨rfl,same⟩
    · exact .inl old
    · obtain ⟨_,serials,_,_,totals,_⟩ := core_parts same
      refine .inr ⟨low,by rw [← totals]; exact high,⟨call.data,?_⟩,text_core same text⟩
      rw [← serials]
      exact List.mem_cons_self

theorem spoiled_contents (files : Files s) (contents : Contents sha256 s)
    (stands : s.procs p = .chunkWritten call t inode) :
    Contents sha256 {move s p (.leaving call.id) with spoiled := inode::s.spoiled} := by
  have handle := files.handle p
  rw [stands] at handle
  have serial : inode = t.serial := handle t inode rfl
  refine moved_contents files contents p (.inl rfl) rfl ?_ (fun _ => .inl) (fun u listed => listed) (fun u n _ member => .inl member)
  intro other
  refine ⟨rfl,rfl,fun _ => id,fun _ => List.mem_cons_of_mem _,?_⟩
  rintro n data ⟨q,call',u,i,flying,rfl,rest⟩
  by_cases same : q = p
  · rw [same,stands] at flying
    cases flying
    rw [← serial]
    exact .inl List.mem_cons_self
  · exact .inr (.inr ⟨q,call',u,i,(Function.update_of_ne same _ _).trans flying,rfl,rest⟩)

theorem placed_good (calls : Calls s) (files : Files s) (contents : Contents sha256 s)
    (how : (∃ inode, s.procs p = .verified t inode since ∧ s.temps t.id = some source ∧ bytes = (s.inodes source).content) ∨
      (s.procs p = .copying t source since bytes ∧ (s.inodes source).content.length ≤ bytes.length)) :
    Good sha256 s ⟨t,bytes,since,s.writes source⟩ := by
  have ready := contents.stages p
  have handle := files.handle p
  have standing := calls.stands p
  rcases how with ⟨inode,stands,named,rfl⟩ | ⟨stands,whole⟩
  · rw [stands] at ready handle standing
    have serial : inode = t.serial := handle t inode rfl
    have genuine := files.genuine t (standing_listed (standing t rfl))
    have same : source = t.serial := files.temp t source (standing t rfl) named
    subst serial same
    obtain ⟨covered,writes,hashed⟩ := ready
    exact ⟨genuine.declared,genuine.length,hashed,covered,writes⟩
  · rw [stands] at ready handle standing
    have serial : source = t.serial := handle t source rfl
    have genuine := files.genuine t (standing_listed (standing t rfl))
    subst serial
    obtain ⟨covered,writes,hashed,read⟩ := ready
    rw [prefix_whole read whole]
    exact ⟨genuine.declared,genuine.length,hashed,covered,writes⟩

theorem step_contents (leases : Leases s.active s.completing s.procs) (calls : Calls s) (files : Files s) (contents : Contents sha256 s)
    (effect : Effect sha256 s event next) : Contents sha256 next := by
  cases effect with
  | quiet quiet turns =>
    have kept : ∀ q, written (s.procs q) = true → next.procs q = s.procs q := by
      intro q writing
      rcases turns q with same | ⟨idle,_⟩
      · exact same
      · rw [writing] at idle
        cases idle
    refine quiet_contents contents quiet kept ?_
    intro q
    rcases turns q with same | ⟨_,plain | plain | advanced⟩
    · rw [same]
      exact ready_frame (files.handle q) (fun u _ => quiet_frame quiet kept u.serial) (contents.stages q)
    · exact silent_ready (.inl plain)
    · exact silent_ready (.inr plain)
    · exact ready_frame (fun t i held => advance_handle calls files advanced held) (fun u _ => quiet_frame quiet kept u.serial)
        (advance_ready leases calls files contents advanced)
  | opened created _ _ quiet procs _ stored =>
    have same : ∀ q, written (s.procs q) = true → created.procs q = s.procs q := fun q _ => by rw [procs]
    have filesBefore : Files created := quiet_files files quiet (by rw [procs]; exact files.handle)
    have before : Contents sha256 created := by
      refine quiet_contents contents quiet same ?_
      intro q
      rw [procs]
      exact ready_frame (files.handle q) (fun u _ => quiet_frame quiet same u.serial) (contents.stages q)
    refine opened_contents filesBefore before ?_ stored
    intro q u has
    rw [procs] at has
    rw [quiet.nextInode]
    exact (files.genuine u (standing_listed (calls.stands q u has))).known
  | chunkWritten stands => exact written_contents leases calls files contents stands rfl
  | chunkRecorded stands marked => exact recorded_contents calls files contents stands marked
  | chunkSpoiled stands _ => exact spoiled_contents files contents stands
  | placed how =>
    have good := placed_good calls files contents how
    refine moved_contents files contents _ (.inr ⟨_,.inl rfl⟩) rfl ?_ ?_ (fun u listed => listed) (fun u n _ member => .inl member)
    · intro serial
      refine ⟨rfl,rfl,fun _ => id,fun _ => id,?_⟩
      rintro n data ⟨q,call,u,i,flying,rest⟩
      refine .inr (.inr ⟨q,call,u,i,?_,rest⟩)
      refine (Function.update_of_ne ?_ _ _).trans flying
      rintro rfl
      rcases how with ⟨_,stands,_⟩ | ⟨stands,_⟩ <;> rw [stands] at flying <;> cases flying
    · intro entry member
      rcases List.mem_cons.mp member with rfl | old
      · exact .inr good
      · exact .inl old

structure Sound (sha256 : Bytes → String) (s : State) : Prop where
  leases : Leases s.active s.completing s.procs
  calls : Calls s
  files : Files s
  contents : Contents sha256 s

theorem initial_sound (now : Int) : Sound sha256 (initial now) :=
  ⟨initial_leases,⟨by simp [initial,chunkOf],by simp [initial,loaded]⟩,
    ⟨by simp [initial,Listed],by simp [initial],by simp [initial],by simp [initial,handleOf]⟩,
    ⟨by simp [initial],by simp [initial,Ready],by simp [initial]⟩⟩

theorem step_sound (sound : Sound sha256 s) (stepped : step sha256 s event = some next) : Sound sha256 next := by
  have inverted := step_cases stepped
  have effect := step_effect inverted
  exact ⟨step_leases sound.leases inverted,step_calls sound.leases sound.calls inverted,step_files sound.calls sound.files effect,
    step_contents sound.leases sound.calls sound.files sound.contents effect⟩

theorem run_sound (ran : run (step sha256) (initial now) events = some last) : Sound sha256 last :=
  run_preserves (fun _ _ _ sound stepped => step_sound sound stepped) (initial_sound now) ran

theorem step_spoils (sound : Sound sha256 s) (effect : Effect sha256 s event next) (before : i ∉ s.spoiled) (after : i ∈ next.spoiled) :
    ∃ p, event = .chunkRecord p false := by
  cases effect with
  | quiet quiet _ =>
    rw [quiet.spoiled] at after
    exact absurd after before
  | opened created _ _ quiet _ _ _ =>
    have same : i ∈ created.spoiled := after
    rw [quiet.spoiled] at same
    exact absurd same before
  | chunkWritten _ | placed _ => exact absurd after before
  | chunkRecorded _ marked =>
    cases markChunkReceived_parts marked
    exact absurd after before
  | @chunkSpoiled p call t inode works stands lost =>
    rcases lost with rfl | unmarked
    · exact ⟨p,rfl⟩
    · have accepted := sound.calls.accepted p
      have standing := sound.calls.stands p
      rw [stands] at accepted standing
      obtain ⟨row,member,same,_⟩ := standing t rfl
      have named : row.id = call.id := (core_parts same).1.trans (accepted call t rfl).1.symm
      unfold markChunkReceived at unmarked
      split at unmarked
      · rename_i empty
        have counted := List.countP_eq_zero.mp empty row member
        rw [named] at counted
        simp at counted
      · cases unmarked

theorem run_spoils (ran : run (step sha256) (initial now) events = some last) (lost : i ∈ last.spoiled) :
    ∃ p, Event.chunkRecord p false ∈ events := by
  obtain ⟨past,event,rest,middle,next,split,ranPast,stepped,_,before,after⟩ :=
    run_begins (fun s => i ∈ s.spoiled) (by simp [initial]) ran lost
  obtain ⟨p,rfl⟩ := step_spoils (run_sound ranPast) (step_effect (step_cases stepped)) before after
  exact ⟨p,by rw [split]; simp⟩

theorem listed_opened (ran : run (step sha256) (initial now) events = some last) (listed : Listed last t) :
    ∃ request found allocates, Event.openSession request found allocates ∈ events ∧ core t = sessionRow request t.serial := by
  obtain ⟨past,event,rest,middle,next,split,_,stepped,_,before,row,member,same⟩ :=
    run_begins (fun s => Listed s t) (by simp [initial,Listed]) ran listed
  rcases step_rows (step_cases stepped) member with ⟨old,stored,also,_⟩ | ⟨request,found,allocates,rfl,rfl,_⟩
  · exact absurd ⟨old,stored,also.symm.trans same⟩ before
  · refine ⟨request,found,allocates,by rw [split]; simp,?_⟩
    rw [← same,← (core_parts same).2.1]
    rfl

theorem step_publishes (sound : Sound sha256 s) (effect : Effect sha256 s event next) (before : entry ∉ s.published)
    (after : entry ∈ next.published) : Listed s entry.transfer := by
  cases effect with
  | quiet quiet _ =>
    rw [quiet.published] at after
    exact absurd after before
  | opened created _ _ quiet _ _ _ =>
    have same : entry ∈ created.published := after
    rw [quiet.published] at same
    exact absurd same before
  | chunkWritten _ | chunkSpoiled _ _ => exact absurd after before
  | chunkRecorded _ marked =>
    cases markChunkReceived_parts marked
    exact absurd after before
  | @placed p t since source bytes _ how =>
    rcases List.mem_cons.mp after with rfl | old
    · refine standing_listed (sound.calls.stands p t ?_)
      rcases how with ⟨_,stands,_⟩ | ⟨stands,_⟩ <;> rw [stands] <;> rfl
    · exact absurd old before

theorem published_opened (ran : run (step sha256) (initial now) events = some last) (member : entry ∈ last.published) :
    ∃ request found allocates, Event.openSession request found allocates ∈ events ∧
      core entry.transfer = sessionRow request entry.transfer.serial := by
  obtain ⟨past,event,rest,middle,next,split,ranPast,stepped,_,before,after⟩ :=
    run_begins (fun s => entry ∈ s.published) (by simp [initial]) ran member
  have listed := step_publishes (run_sound ranPast) (step_effect (step_cases stepped)) before after
  obtain ⟨request,found,allocates,asked,same⟩ := listed_opened ranPast listed
  exact ⟨request,found,allocates,by rw [split]; exact List.mem_append_left _ asked,same⟩

-- When every answered chunk carried its part of one file, the placed bytes are
-- the beginning of that file.
theorem covered_file (declared : Declared t) (length : bytes.length = t.totalSize.toNat) (covered : Covered s t bytes)
    (clean : t.serial ∉ s.spoiled) (carried : ∀ ack ∈ s.acks, ack.serial = t.serial → ack.data = piece t file ack.n) :
    bytes = file.take bytes.length := by
  refine eq_take_of_slices (fun n => ((n * t.chunkSize).toNat,(expectedChunkLen t n).toNat)) ?_
  intro i inside
  rw [length] at inside
  obtain ⟨low,high,start,stop⟩ := chunks_cover declared inside
  have natural : (((i : Int) / t.chunkSize).toNat : Int) = (i : Int) / t.chunkSize := by omega
  refine ⟨((i : Int) / t.chunkSize).toNat,?_,?_,?_⟩
  · rw [natural]
    exact start
  · rw [natural]
    exact stop
  · rw [natural]
    rcases (covered _ low high).2 with lost | known
    · exact absurd lost clean
    · exact carried _ known rfl

theorem upload_integrity (sha256 : Bytes → String) (now : Int) (events : List Event) (ran : run (step sha256) (initial now) events = some last) (member : entry ∈ last.published) :
    ∃ request found allocates, Event.openSession request found allocates ∈ events ∧
      core entry.transfer = sessionRow request entry.transfer.serial ∧
      (entry.bytes.length : Int) = request.size ∧ sha256 entry.bytes = request.sha256 ∧
      (∀ n, 0 ≤ n → n < totalChunksOf request.size request.chunkSize → ∃ data, (⟨entry.transfer.serial,n,data⟩ : Ack) ∈ last.acks) ∧
      entry.writesAtHash = entry.writesAtPlace ∧
      ((∀ p, Event.chunkRecord p false ∉ events) → ∀ file : Bytes, sha256 file = request.sha256 →
        (sha256 (file.take request.size.toNat) = sha256 file → file.take request.size.toNat = file) →
        (∀ ack ∈ last.acks, ack.serial = entry.transfer.serial →
          ack.data = slice file (ack.n * request.chunkSize).toNat (expectedChunkLen entry.transfer ack.n).toNat) →
        entry.bytes = file) := by
  obtain ⟨declared,length,hashed,covered,still⟩ := (run_sound ran).contents.published entry member
  obtain ⟨request,found,allocates,asked,same⟩ := published_opened ran member
  have size : entry.transfer.totalSize = request.size := congrArg Transfer.totalSize same
  have chunk : entry.transfer.chunkSize = request.chunkSize := congrArg Transfer.chunkSize same
  have total : entry.transfer.totalChunks = totalChunksOf request.size request.chunkSize := congrArg Transfer.totalChunks same
  have hash : entry.transfer.sha256 = request.sha256 := congrArg Transfer.sha256 same
  have positive := declared.size
  refine ⟨request,found,allocates,asked,same,by omega,by rw [hashed,hash],?_,still,?_⟩
  · intro n low high
    exact (covered n low (by rw [total]; exact high)).1
  · intro recorded file hashes apart carried
    have clean : entry.transfer.serial ∉ last.spoiled := by
      intro lost
      obtain ⟨p,failed⟩ := run_spoils ran lost
      exact recorded p failed
    have begins : entry.bytes = file.take entry.bytes.length :=
      covered_file declared length covered clean (fun ack known mine => by
        unfold piece
        rw [chunk]
        exact carried ack known mine)
    rw [length,size] at begins
    rw [begins]
    apply apart
    rw [← begins,hashed,hash,hashes]

end Integrity

def twoChunkHash (bytes : Bytes) : String :=
  if bytes = [7,8] then "front" else if bytes = [9] then "back" else if bytes = [7,8,9] then "whole" else "other"

def twoChunks : List Event :=
  [.openSession ⟨"u1","/home/report.pdf",3,2,"whole",false,"d1"⟩ false .made,
    .chunkBegin 0 ⟨"u1",1,[9],"back"⟩,.chunkBegin 1 ⟨"u1",0,[7,8],"front"⟩,.completeBegin 2 "u1",
    .chunkCheck 1,.chunkCheck 0,.chunkLookup 0,.chunkOpen 0,.chunkLookup 1,.chunkWrite 0,.chunkOpen 1,.chunkWrite 1,
    .chunkRecord 1 true,.chunkRecord 0 true,.leave 0,.leave 1,
    .completeBegin 3 "u1",.completeLoad 3,.completeCount 3,.completeOpen 3,.read 3 2,.read 3 2,.verify 3,.placeRename 3]

theorem two_chunks_placed_whole : ∃ last entry, run (step twoChunkHash) (initial 0) twoChunks = some last ∧ last.published = [entry] ∧
    entry.writesAtHash = entry.writesAtPlace ∧ entry.bytes = [7,8,9] := by
  have outcome : ∃ last entry, run (step twoChunkHash) (initial 0) twoChunks = some last ∧ last.published = [entry] ∧
      last.acks = [⟨0,1,[9]⟩,⟨0,0,[7,8]⟩] := ⟨_,_,rfl,rfl,rfl⟩
  obtain ⟨last,entry,ran,placed,acks⟩ := outcome
  obtain ⟨request,found,allocates,asked,same,_,_,_,still,exactly⟩ := upload_integrity twoChunkHash 0 twoChunks ran
    (by rw [placed]; exact List.mem_cons_self)
  simp only [twoChunks,List.mem_cons,reduceCtorEq,List.not_mem_nil,or_false,Event.openSession.injEq] at asked
  obtain ⟨rfl,_,_⟩ := asked
  have lengths : ∀ n, expectedChunkLen entry.transfer n = expectedChunkLen (core entry.transfer) n := fun _ => rfl
  refine ⟨last,entry,ran,placed,still,exactly (by simp [twoChunks]) [7,8,9] rfl (fun _ => rfl) ?_⟩
  intro ack member _
  rw [lengths,same]
  rw [acks] at member
  simp only [List.mem_cons,List.not_mem_nil,or_false] at member
  rcases member with rfl | rfl <;> rfl

-- What a session has on record as received is in its file, and a completion is
-- alone with its session.
theorem received_stands (ran : run (step sha256) (initial now) events = some last) :
    (∀ t n, Listed last t → (t.id,n) ∈ last.chunks.rows → 0 ≤ n ∧ n < t.totalChunks ∧ Acked last t.serial n ∧ Text last t n) ∧
    Leases last.active last.completing last.procs :=
  ⟨(run_sound ran).contents.chunks,(run_sound ran).leases⟩

theorem two_chunks_lease : ∃ last, run (step twoChunkHash) (initial 0) twoChunks = some last ∧ Leases last.active last.completing last.procs :=
  ⟨_,rfl,(received_stands (show run (step twoChunkHash) (initial 0) twoChunks = some _ from rfl)).2⟩

end RemoteFileExplorer.UploadIntegrity
