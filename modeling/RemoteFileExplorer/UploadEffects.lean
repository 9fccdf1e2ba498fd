import RemoteFileExplorer.UploadSessions

namespace RemoteFileExplorer.UploadEffects
open Tables Slices Transfers UploadLeases UploadSessions

def silent : Stage → Bool
  | .chunkLeased _ | .leaving _ | .completing _ | .failedRecorded _ | .completeLeaving _ | .finished => true
  | _ => false

def written : Stage → Bool
  | .chunkWritten _ _ _ => true
  | _ => false

-- A step that only takes rows, chunks and temp names away, apart from moving
-- calls to stages that say nothing new about files.
structure Quiet (s next : State) : Prop where
  inodes : next.inodes = s.inodes
  nextInode : next.nextInode = s.nextInode
  writes : next.writes = s.writes
  acks : ∀ ack ∈ s.acks, ack ∈ next.acks
  spoiled : next.spoiled = s.spoiled
  published : next.published = s.published
  temps : ∀ sessionId i, next.temps sessionId = some i → s.temps sessionId = some i
  rows : ∀ r ∈ next.transfers.rows, ∃ t ∈ s.transfers.rows, core r = core t ∧ (r.status = .isOpen → t.status = .isOpen)
  chunks : ∀ c ∈ next.chunks.rows, c ∈ s.chunks.rows
  owned : ∀ c ∈ next.chunks.rows, ∀ t ∈ s.transfers.rows, t.id = c.1 → ∃ r ∈ next.transfers.rows, r.id = c.1

def Turns (sha256 : Bytes → String) (s next : State) : Prop :=
  ∀ q, next.procs q = s.procs q ∨ (written (s.procs q) = false ∧
    (silent (next.procs q) = true ∨ (∃ t, next.procs q = .placed t ∨ next.procs q = .tempRemoved t) ∨ Advance sha256 s q (next.procs q)))

inductive Effect (sha256 : Bytes → String) (s : State) : Event → State → Prop where
  | quiet : Quiet s next → Turns sha256 s next → Effect sha256 s event next
  | opened (created : State) : 0 ≤ request.size → 0 < request.chunkSize → Quiet s created → created.procs = s.procs →
      (temp = none ∨ temp = some created.nextInode) →
      created.transfers.insert (sessionRow request created.nextInode) = some transfers →
      Effect sha256 s (.openSession request found allocation) {created with
        transfers := transfers
        inodes := Function.update created.inodes created.nextInode ⟨List.replicate request.size.toNat 0,created.now,request.id⟩
        temps := Function.update created.temps request.id temp
        nextInode := created.nextInode + 1}
  | chunkWritten : s.procs p = .chunkOpened call t inode → Effect sha256 s (.chunkWrite p) {move s p (.chunkWritten call t inode) with
      inodes := Function.update s.inodes inode {s.inodes inode with
        content := writeAt 0 (s.inodes inode).content (call.n * t.chunkSize).toNat call.data,modTime := s.now}
      writes := Function.update s.writes inode (s.writes inode + 1)}
  | chunkRecorded : s.procs p = .chunkWritten call t inode → markChunkReceived s call.id call.n = some recorded →
      Effect sha256 s (.chunkRecord p works) {move recorded p (.leaving call.id) with acks := ⟨t.serial,call.n,call.data⟩::s.acks}
  | chunkSpoiled : s.procs p = .chunkWritten call t inode → works = false ∨ markChunkReceived s call.id call.n = none →
      Effect sha256 s (.chunkRecord p works) {move s p (.leaving call.id) with spoiled := inode::s.spoiled}
  | placed : (∃ inode, s.procs p = .verified t inode since ∧ s.temps t.id = some source ∧ bytes = (s.inodes source).content) ∨
        (s.procs p = .copying t source since bytes ∧ (s.inodes source).content.length ≤ bytes.length) →
      Effect sha256 s event {move s p (.placed t) with published := ⟨t,bytes,since,s.writes source⟩::s.published}

theorem Quiet.refl (s : State) : Quiet s s :=
  ⟨rfl,rfl,rfl,fun _ => id,rfl,rfl,fun _ _ => id,fun r member => ⟨r,member,rfl,id⟩,fun _ => id,fun _ _ t member same => ⟨t,member,same⟩⟩

theorem Quiet.trans (first : Quiet s middle) (second : Quiet middle next) : Quiet s next := by
  refine ⟨second.inodes.trans first.inodes,second.nextInode.trans first.nextInode,second.writes.trans first.writes,
    fun ack member => second.acks ack (first.acks ack member),second.spoiled.trans first.spoiled,second.published.trans first.published,
    fun sessionId i named => first.temps sessionId i (second.temps sessionId i named),?_,
    fun c member => first.chunks c (second.chunks c member),?_⟩
  · intro r member
    obtain ⟨t,stored,same,isOpen⟩ := second.rows r member
    obtain ⟨u,before,also,wasOpen⟩ := first.rows t stored
    exact ⟨u,before,same.trans also,fun standing => wasOpen (isOpen standing)⟩
  · intro c member t stored same
    obtain ⟨u,kept,named⟩ := first.owned c (second.chunks c member) t stored same
    exact second.owned c member u kept named

-- The clock, the leases and the stages are not what a quiet step is about.
theorem Quiet.aside (quiet : Quiet s next) (now : Int) (active : String → Nat) (completing : String → Bool)
    (procs : Nat → Stage) : Quiet s {next with now := now,active := active,completing := completing,procs := procs} :=
  ⟨quiet.inodes,quiet.nextInode,quiet.writes,quiet.acks,quiet.spoiled,quiet.published,quiet.temps,quiet.rows,quiet.chunks,quiet.owned⟩

theorem update_shrinks {temps : String → Option Nat} (named : Function.update temps doomed none sessionId = some i) :
    temps sessionId = some i := by
  by_cases same : sessionId = doomed
  · rw [same,Function.update_self] at named
    cases named
  · rwa [Function.update_of_ne same] at named

theorem Quiet.unnamed {s next : State} (quiet : Quiet s next) (doomed : String) :
    Quiet s {next with temps := Function.update next.temps doomed none} :=
  ⟨quiet.inodes,quiet.nextInode,quiet.writes,quiet.acks,quiet.spoiled,quiet.published,
    fun sessionId i named => quiet.temps sessionId i (update_shrinks named),quiet.rows,quiet.chunks,quiet.owned⟩

section
variable (s : State)
include s

theorem purge_quiet (doomed : List String) (temps : String → Option Nat)
    (fewer : ∀ sessionId i, temps sessionId = some i → s.temps sessionId = some i) :
    Quiet s {s with transfers := s.transfers.delete (fun t => doomed.contains t.id)
                    chunks := s.chunks.delete (fun c => doomed.contains c.1)
                    temps := temps} := by
  refine ⟨rfl,rfl,rfl,fun _ => id,rfl,rfl,fewer,fun r member => ⟨r,(Table.mem_delete.mp member).1,rfl,id⟩,
    fun c member => (Table.mem_delete.mp member).1,?_⟩
  intro c member t stored same
  have spared := (Table.mem_delete.mp member).2
  exact ⟨t,Table.mem_delete.mpr ⟨stored,by rw [same]; exact spared⟩,same⟩

theorem orphans_quiet : Quiet s (sweepOrphanTemps s) := by
  refine ⟨rfl,rfl,rfl,fun _ => id,rfl,rfl,?_,fun r member => ⟨r,member,rfl,id⟩,fun _ => id,fun _ _ t member same => ⟨t,member,same⟩⟩
  intro sessionId i named
  unfold sweepOrphanTemps at named
  dsimp only at named
  split at named
  · cases named
  · split at named
    · cases named
    · rename_i kept _
      rw [kept,named]

theorem cleanup_quiet : Quiet s (cleanupStale s) := by
  have sessions : Quiet s (sweepStaleSessions s) := by
    refine purge_quiet s _ _ ?_
    intro sessionId i named
    split at named
    · cases named
    · exact named
  have terminal : Quiet (sweepStaleSessions s) (pruneTerminalTransfers (sweepStaleSessions s)) := purge_quiet _ _ _ fun _ _ => id
  exact sessions.trans (terminal.trans (orphans_quiet _))

theorem delete_quiet (sessionId : String) : Quiet s (deleteTransfer s sessionId) := by
  refine ⟨rfl,rfl,rfl,fun _ => id,rfl,rfl,fun _ _ => id,fun r member => ⟨r,(delete_mem.mp member).1,rfl,id⟩,
    fun c member => (Table.mem_delete.mp member).1,?_⟩
  intro c member t stored same
  have other := (Table.mem_delete.mp member).2
  refine ⟨t,delete_mem.mpr ⟨stored,?_⟩,same⟩
  rw [same]
  simpa using other

theorem rollback_quiet (request : OpenRequest) {serial : Nat}
    (stored : s.transfers.insert (sessionRow request serial) = some transfers) :
    Quiet s (deleteTransfer {s with transfers := transfers,temps := Function.update s.temps request.id none} request.id) := by
  have clear : ∀ t ∈ s.transfers.rows, t.id ≠ request.id := by
    intro t member
    simpa [transferKeys,sessionRow] using (Table.insert_parts stored).1 t member
  refine ⟨rfl,rfl,rfl,fun _ => id,rfl,rfl,fun sessionId i named => update_shrinks named,?_,fun c member => (Table.mem_delete.mp member).1,?_⟩
  · intro r member
    obtain ⟨kept,other⟩ := delete_mem.mp member
    rcases (Table.mem_insert stored).mp kept with old | rfl
    · exact ⟨r,old,rfl,id⟩
    · exact absurd rfl other
  · intro c member t old same
    exact ⟨t,delete_mem.mpr ⟨(Table.mem_insert stored).mpr (.inl old),clear t old⟩,same⟩

theorem touch_quiet (sessionId : String) : Quiet s (touchOpenTransfer s sessionId) := by
  refine ⟨rfl,rfl,rfl,fun _ => id,rfl,rfl,fun _ _ => id,fun r member => touch_origin member,fun _ => id,?_⟩
  intro c _ t stored same
  refine ⟨_,patch_mem.mpr ⟨t,stored,rfl⟩,?_⟩
  split
  · split <;> exact same
  · exact same

theorem setStatus_quiet (sessionId : String) (ends : status ≠ .isOpen) :
    Quiet s (setTransferStatus s sessionId status) := by
  refine ⟨rfl,rfl,rfl,fun _ => id,rfl,rfl,fun _ _ => id,fun r member => setStatus_origin ends member,fun _ => id,?_⟩
  intro c _ t stored same
  refine ⟨_,patch_mem.mpr ⟨t,stored,rfl⟩,?_⟩
  split <;> exact same

theorem turns_move (next : State) (p : Nat) (stage : Stage) (procs : next.procs = Function.update s.procs p stage)
    (before : written (s.procs p) = false)
    (after : silent stage = true ∨ (∃ t, stage = .placed t ∨ stage = .tempRemoved t) ∨ Advance sha256 s p stage) :
    Turns sha256 s next := by
  intro q
  rcases update_stage s.procs p stage q with ⟨rfl,moved⟩ | ⟨_,moved⟩
  · rw [procs,moved]
    exact .inr ⟨before,after⟩
  · rw [procs,moved]
    exact .inl rfl

end

theorem advance_unwritten (advanced : Advance sha256 s p stage) : written (s.procs p) = false := by
  cases advanced with
  | refused stands | missing stands _ | chunkOpened stands _ | checked stands _ _ | counted stands _ | hashing stands _
  | readHash _ stands | readCopy _ stands | verified stands _ _ | mismatched stands | stream stands _ | loaded stands _ _ =>
    rw [stands]
    rfl
  | gaveUp lease | quit lease => cases stage : s.procs p <;> rw [stage] at lease <;> first | rfl | cases lease

theorem step_effect (stepped : Stepped sha256 s event next) : Effect sha256 s event next := by
  cases stepped with
  | unchanged => exact .quiet (.refl s) (fun q => .inl rfl)
  | clock => exact .quiet ((Quiet.refl s).aside ..) (fun q => .inl rfl)
  | swept => exact .quiet (cleanup_quiet s) (fun q => .inl rfl)
  | opened admission sized inserted temp =>
    obtain ⟨transfers,stored,rfl⟩ := created_parts inserted
    simp only [admitted,Bool.and_eq_true,decide_eq_true_eq] at admission
    refine Effect.opened (cleanupStale s) sized admission.1 (cleanup_quiet s) rfl ?_ stored
    rcases temp with made | ⟨gone,_⟩
    · exact .inr made
    · exact .inl gone
  | rolledBack inserted =>
    obtain ⟨transfers,stored,rfl⟩ := created_parts inserted
    refine .quiet ((cleanup_quiet s).trans ?_) (fun q => .inl rfl)
    exact rollback_quiet _ _ stored
  | deleted _ => exact .quiet ((delete_quiet s _).unnamed _) (fun q => .inl rfl)
  | @advance p stage _ advanced =>
    exact .quiet ((Quiet.refl s).aside ..) (turns_move s _ p stage rfl (advance_unwritten advanced) (.inr (.inr advanced)))
  | @chunkLeased p _ stage _ idle _ _ _ fresh =>
    refine .quiet ((touch_quiet s _).aside ..) (turns_move s _ p stage rfl (by rw [idle]; rfl) (.inl ?_))
    rcases fresh with ⟨_,rfl⟩ | rfl <;> rfl
  | @duplicate p call t stands _ =>
    have quiet := Quiet.refl s
    refine .quiet ⟨rfl,rfl,rfl,fun _ => List.mem_cons_of_mem _,rfl,rfl,quiet.temps,quiet.rows,quiet.chunks,quiet.owned⟩
      (turns_move s _ p (.leaving call.id) rfl (by rw [stands]; rfl) (.inl rfl))
  | chunkWritten stands => exact .chunkWritten stands
  | chunkRecorded stands marked => exact .chunkRecorded stands marked
  | chunkSpoiled stands lost => exact .chunkSpoiled stands lost
  | left stands | completionLeft stands =>
    exact .quiet ((Quiet.refl s).aside ..) (turns_move s _ _ .finished rfl (by rw [stands]; rfl) (.inl rfl))
  | completionBegun idle _ =>
    exact .quiet ((touch_quiet s _).aside ..) (turns_move s _ _ (.completing _) rfl (by rw [idle]; rfl) (.inl rfl))
  | failedStatus stands | completedStatus stands =>
    exact .quiet ((setStatus_quiet s _ (by simp)).aside ..) (turns_move s _ _ _ rfl (by rw [stands]; rfl) (.inl rfl))
  | failedDeleted stands | completedDeleted stands =>
    exact .quiet ((delete_quiet s _).aside ..) (turns_move s _ _ _ rfl (by rw [stands]; rfl) (.inl rfl))
  | failedNeither stands | completedNeither stands | failedKept stands =>
    exact .quiet ((Quiet.refl s).aside ..) (turns_move s _ _ _ rfl (by rw [stands]; rfl) (.inl rfl))
  | failedRemoved stands =>
    exact .quiet (((Quiet.refl s).unnamed _).aside ..) (turns_move s _ _ _ rfl (by rw [stands]; rfl) (.inl rfl))
  | placedRemoved stands =>
    exact .quiet (((Quiet.refl s).unnamed _).aside ..) (turns_move s _ _ _ rfl (by rw [stands]; rfl) (.inr (.inl ⟨_,.inr rfl⟩)))
  | placedKept stands =>
    exact .quiet ((Quiet.refl s).aside ..) (turns_move s _ _ _ rfl (by rw [stands]; rfl) (.inr (.inl ⟨_,.inr rfl⟩)))
  | renamed stands named => exact .placed (.inl ⟨_,stands,named,rfl⟩)
  | copied stands read => exact .placed (.inr ⟨stands,read⟩)

end RemoteFileExplorer.UploadEffects
