import RemoteFileExplorer.UploadLeases

namespace RemoteFileExplorer.UploadSessions
open Tables Transfers UploadLeases

def core (t : Transfer) : Transfer := {t with status := .isOpen,updatedAt := 0,terminalAt := 0}

-- The row a call has read and relies on until it gives the lease back or has
-- recorded the outcome.
def loaded : Stage → Option Transfer
  | .chunkChecked _ t | .chunkMissing _ t | .chunkOpened _ t _ | .chunkWritten _ t _ | .completeLoaded t | .completeCounted t
  | .hashing t _ _ _ | .mismatched t | .verified t _ _ | .copying t _ _ _ | .placed t | .tempRemoved t => some t
  | _ => none

def chunkOf : Stage → Option (ChunkCall × Transfer)
  | .chunkChecked call t | .chunkMissing call t | .chunkOpened call t _ | .chunkWritten call t _ => some (call,t)
  | _ => none

def handleOf : Stage → Option (Transfer × Nat)
  | .chunkOpened _ t inode | .chunkWritten _ t inode | .hashing t inode _ _ | .verified t inode _ | .copying t inode _ _ => some (t,inode)
  | _ => none

theorem core_parts (same : core a = core b) : a.id = b.id ∧ a.serial = b.serial ∧ a.totalSize = b.totalSize ∧
    a.chunkSize = b.chunkSize ∧ a.totalChunks = b.totalChunks ∧ a.sha256 = b.sha256 := by
  have ids := congrArg Transfer.id same
  have serials := congrArg Transfer.serial same
  have sizes := congrArg Transfer.totalSize same
  have chunks := congrArg Transfer.chunkSize same
  have totals := congrArg Transfer.totalChunks same
  have hashes := congrArg Transfer.sha256 same
  exact ⟨ids,serials,sizes,chunks,totals,hashes⟩

theorem same_row {s : State} (left : a ∈ s.transfers.rows) (right : b ∈ s.transfers.rows) (same : a.id = b.id) : a = b :=
  Table.same_of_clash left right (by simp [transferKeys,same])

def Accepted (call : ChunkCall) (t : Transfer) : Prop :=
  call.id = t.id ∧ 0 ≤ call.n ∧ call.n < t.totalChunks ∧ (call.data.length : Int) = expectedChunkLen t call.n

structure Calls (s : State) : Prop where
  accepted : ∀ p call t, chunkOf (s.procs p) = some (call,t) → Accepted call t
  stands : ∀ p t, loaded (s.procs p) = some t → ∃ row ∈ s.transfers.rows, core row = core t ∧ row.status = .isOpen

theorem loaded_holds {s : State} (calls : Calls s) (has : loaded (s.procs p) = some t) : holds (s.procs p) = some t.id := by
  have accepted := calls.accepted p
  cases stage : s.procs p <;> rw [stage] at has accepted <;> cases has
  case chunkChecked | chunkMissing | chunkOpened | chunkWritten => exact congrArg some (accepted _ _ rfl).1
  all_goals rfl

theorem patch_mem {s : State} {set : Transfer → Transfer} {keeps : ∀ t, (set t).id = t.id} :
    r ∈ (patchTransfer s sessionId set keeps).transfers.rows ↔ ∃ t ∈ s.transfers.rows, (if t.id == sessionId then set t else t) = r := by
  simp [patchTransfer]

theorem patch_stands {s : State} (set : Transfer → Transfer) (keeps : ∀ t, (set t).id = t.id)
    (cores : ∀ t, core (set t) = core t ∧ (set t).status = t.status)
    (row : ∃ row ∈ s.transfers.rows, core row = core t ∧ row.status = .isOpen) :
    ∃ row ∈ (patchTransfer s sessionId set keeps).transfers.rows, core row = core t ∧ row.status = .isOpen := by
  obtain ⟨old,member,same,isOpen⟩ := row
  refine ⟨_,patch_mem.mpr ⟨old,member,rfl⟩,?_⟩
  split
  · exact ⟨(cores old).1.trans same,(cores old).2.trans isOpen⟩
  · exact ⟨same,isOpen⟩

theorem patch_origin {s : State} (set : Transfer → Transfer) {keeps : ∀ t, (set t).id = t.id}
    (cores : ∀ t, core (set t) = core t ∧ ((set t).status = .isOpen → t.status = .isOpen))
    (member : r ∈ (patchTransfer s sessionId set keeps).transfers.rows) :
    ∃ t ∈ s.transfers.rows, core r = core t ∧ (r.status = .isOpen → t.status = .isOpen) := by
  obtain ⟨t,stored,rfl⟩ := patch_mem.mp member
  refine ⟨t,stored,?_⟩
  split
  · exact cores t
  · exact ⟨rfl,id⟩

theorem touch_cores (now : Int) (t : Transfer) :
    core (if t.status = .isOpen then {t with updatedAt := now} else t) = core t ∧
    (if t.status = .isOpen then {t with updatedAt := now} else t).status = t.status := by
  split <;> exact ⟨rfl,rfl⟩

theorem status_cores {status : Status} (ends : status ≠ .isOpen) (at_ : Int) (t : Transfer) :
    core {t with status := status,terminalAt := at_} = core t ∧
    (({t with status := status,terminalAt := at_} : Transfer).status = .isOpen → t.status = .isOpen) :=
  ⟨rfl,fun same => absurd same ends⟩

theorem setStatus_keeps {s : State} (member : row ∈ s.transfers.rows) (other : row.id ≠ sessionId) :
    row ∈ (setTransferStatus s sessionId status).transfers.rows := by
  exact patch_mem.mpr ⟨row,member,by simp [other]⟩

theorem delete_mem : r ∈ (deleteTransfer s sessionId).transfers.rows ↔ r ∈ s.transfers.rows ∧ r.id ≠ sessionId := by
  simp [deleteTransfer]

theorem sweep_mem (member : r ∈ (sweepStaleSessions s).transfers.rows) : r ∈ s.transfers.rows :=
  (Table.mem_delete.mp member).1
theorem prune_mem (member : r ∈ (pruneTerminalTransfers s).transfers.rows) : r ∈ s.transfers.rows :=
  (Table.mem_delete.mp member).1
theorem cleanup_mem (member : r ∈ (cleanupStale s).transfers.rows) : r ∈ s.transfers.rows :=
  sweep_mem (prune_mem member)

theorem sweep_keeps (member : r ∈ s.transfers.rows) (busy : s.active r.id ≠ 0) : r ∈ (sweepStaleSessions s).transfers.rows := by
  refine Table.mem_delete.mpr ⟨member,?_⟩
  rw [← Bool.not_eq_true,List.contains_iff_mem,List.mem_map]
  rintro ⟨stale,listed,same⟩
  obtain ⟨_,chosen⟩ := List.mem_filter.mp listed
  rw [same] at chosen
  simp [busy] at chosen

theorem prune_keeps {s : State} (member : r ∈ s.transfers.rows) (isOpen : r.status = .isOpen) :
    r ∈ (pruneTerminalTransfers s).transfers.rows := by
  refine Table.mem_delete.mpr ⟨member,?_⟩
  rw [← Bool.not_eq_true,List.contains_iff_mem,List.mem_map]
  rintro ⟨old,listed,same⟩
  obtain ⟨stored,chosen⟩ := List.mem_filter.mp listed
  rw [same_row stored member same] at chosen
  simp [isOpen] at chosen

theorem cleanup_keeps (member : r ∈ s.transfers.rows) (busy : s.active r.id ≠ 0) (isOpen : r.status = .isOpen) :
    r ∈ (cleanupStale s).transfers.rows :=
  prune_keeps (sweep_keeps member busy) isOpen

def Standing (s : State) (t : Transfer) : Prop := ∃ row ∈ s.transfers.rows, core row = core t ∧ row.status = .isOpen

theorem standing_id {s : State} (stands : ∃ row ∈ s.transfers.rows, core row = core t ∧ row.status = .isOpen) :
    ∃ row ∈ s.transfers.rows, row.id = t.id ∧ core row = core t ∧ row.status = .isOpen := by
  obtain ⟨row,member,same,isOpen⟩ := stands
  exact ⟨row,member,(core_parts same).1,same,isOpen⟩

theorem touch_standing (sessionId : String) (stands : Standing s t) : Standing (touchOpenTransfer s sessionId) t := by
  exact patch_stands _ _ (fun t => touch_cores s.now t) stands

theorem markChunkReceived_parts {s recorded : State} (marked : markChunkReceived s sessionId n = some recorded) :
    recorded = patchTransfer {s with chunks := (s.chunks.insert (sessionId,n)).getD s.chunks} sessionId
      (fun t => {t with updatedAt := s.now}) (fun _ => rfl) := by
  unfold markChunkReceived at marked
  split at marked
  · cases marked
  · exact (Option.some.inj marked).symm

theorem mark_standing (marked : markChunkReceived s sessionId n = some recorded) (stands : Standing s t) :
    Standing recorded t := by
  cases markChunkReceived_parts marked
  have untouched : Standing {s with chunks := (s.chunks.insert (sessionId,n)).getD s.chunks} t := stands
  exact patch_stands (fun t => {t with updatedAt := s.now}) (fun _ => rfl) (fun _ => ⟨rfl,rfl⟩) untouched

theorem calls_rule (calls : Calls s) (p : Nat) (stage : Stage) (procs : next.procs = Function.update s.procs p stage)
    (accepted : ∀ call t, chunkOf stage = some (call,t) → Accepted call t) (own : ∀ t, loaded stage = some t → Standing next t)
    (others : ∀ q t, q ≠ p → loaded (s.procs q) = some t → Standing next t) : Calls next := by
  refine ⟨?_,?_⟩
  · intro q call t chunk
    rw [procs] at chunk
    rcases update_stage s.procs p stage q with ⟨_,moved⟩ | ⟨_,moved⟩
    · rw [moved] at chunk
      exact accepted call t chunk
    · rw [moved] at chunk
      exact calls.accepted q call t chunk
  · intro q t has
    rw [procs] at has
    rcases update_stage s.procs p stage q with ⟨_,moved⟩ | ⟨different,moved⟩
    · rw [moved] at has
      exact own t has
    · rw [moved] at has
      exact others q t different has

theorem calls_idle (calls : Calls s) (p : Nat) (stage : Stage) (procs : next.procs = Function.update s.procs p stage) (unread : chunkOf stage = none)
    (empty : loaded stage = none) (others : ∀ q t, q ≠ p → loaded (s.procs q) = some t → Standing next t) : Calls next :=
  calls_rule calls p stage procs (fun call t has => by rw [unread] at has; cases has)
    (fun t has => by rw [empty] at has; cases has) others

theorem acceptsChunk_parts (good : acceptsChunk sha256 t call = true) :
    t.status = .isOpen ∧ 0 ≤ call.n ∧ call.n < t.totalChunks ∧ (call.data.length : Int) = expectedChunkLen t call.n := by
  simp only [acceptsChunk,Bool.and_eq_true,decide_eq_true_eq] at good
  exact ⟨good.1.1.1.1,good.1.1.1.2,good.1.1.2,good.1.2⟩

theorem advance_loaded (advanced : Advance sha256 s p stage) (has : loaded stage = some t) :
    loaded (s.procs p) = some t ∨ (t ∈ s.transfers.rows ∧ t.status = .isOpen) := by
  cases advanced with
  | refused | gaveUp | quit => cases has
  | missing stands _ | chunkOpened stands _ | counted stands _ | hashing stands _ | readHash _ stands | readCopy _ stands
  | verified stands _ _ | mismatched stands | stream stands _ =>
    rw [stands]
    exact .inl has
  | checked _ found good =>
    cases has
    exact .inr ⟨(getTransfer_row found).1,(acceptsChunk_parts good).1⟩
  | loaded _ found isOpen =>
    cases has
    exact .inr ⟨(getTransfer_row found).1,isOpen⟩

theorem advance_accepted (calls : Calls s) (advanced : Advance sha256 s p stage)
    (chunk : chunkOf stage = some (call,t)) : Accepted call t := by
  have accepted := calls.accepted p
  cases advanced with
  | refused | gaveUp | quit | loaded | counted | hashing | readHash | readCopy | verified | mismatched | stream => cases chunk
  | missing stands _ | chunkOpened stands _ =>
    rw [stands] at accepted
    exact accepted call t chunk
  | checked _ found good =>
    cases chunk
    exact ⟨(getTransfer_row found).2.symm,(acceptsChunk_parts good).2⟩

theorem others_standing (leases : Leases s.active s.completing s.procs) (calls : Calls s)
    (alone : completes (s.procs p) = some sessionId)
    (kept : ∀ row ∈ s.transfers.rows, row.id ≠ sessionId → row ∈ next.transfers.rows) :
    ∀ q t, q ≠ p → loaded (s.procs q) = some t → Standing next t := by
  intro q t different has
  obtain ⟨row,member,named,same,isOpen⟩ := standing_id (calls.stands q t has)
  refine ⟨row,kept row member ?_,same,isOpen⟩
  intro mine
  have held := loaded_holds calls has
  rw [← named,mine] at held
  exact different (leases.exclusive p sessionId alone q held)

theorem step_calls (leases : Leases s.active s.completing s.procs) (calls : Calls s)
    (stepped : Stepped sha256 s event next) : Calls next := by
  have cleaned : ∀ q t, loaded (s.procs q) = some t → Standing (cleanupStale s) t := by
    intro q t has
    obtain ⟨row,member,named,same,isOpen⟩ := standing_id (calls.stands q t has)
    refine ⟨row,cleanup_keeps member ?_ isOpen,same,isOpen⟩
    rw [named]
    exact leased leases (loaded_holds calls has)
  cases stepped with
  | unchanged => exact calls
  | clock => exact ⟨calls.accepted,calls.stands⟩
  | swept => exact ⟨calls.accepted,cleaned⟩
  | opened _ _ inserted _ =>
    obtain ⟨transfers,stored,rfl⟩ := created_parts inserted
    refine ⟨calls.accepted,fun q t has => ?_⟩
    obtain ⟨row,member,rest⟩ := cleaned q t has
    exact ⟨row,(Table.mem_insert stored).mpr (.inl member),rest⟩
  | @rolledBack request _ _ created inserted =>
    obtain ⟨transfers,stored,rfl⟩ := created_parts inserted
    refine ⟨calls.accepted,fun q t has => ?_⟩
    obtain ⟨row,member,rest⟩ := cleaned q t has
    refine ⟨row,delete_mem.mpr ⟨(Table.mem_insert stored).mpr (.inl member),?_⟩,rest⟩
    have clear := (Table.insert_parts stored).1 row member
    simpa [transferKeys,sessionRow] using clear
  | deleted free =>
    refine ⟨calls.accepted,fun q t has => ?_⟩
    obtain ⟨row,member,named,same,isOpen⟩ := standing_id (calls.stands q t has)
    refine ⟨row,delete_mem.mpr ⟨member,?_⟩,same,isOpen⟩
    rintro rfl
    exact leased leases (loaded_holds calls has) (named ▸ free)
  | @advance p stage _ advanced =>
    refine calls_rule calls p stage rfl (fun call t chunk => advance_accepted calls advanced chunk) ?_ (fun q t _ has => calls.stands q t has)
    intro t has
    rcases advance_loaded advanced has with before | ⟨member,isOpen⟩
    · exact calls.stands p t before
    · exact ⟨t,member,rfl,isOpen⟩
  | @chunkLeased p _ stage _ _ _ _ _ fresh =>
    refine calls_rule calls p stage rfl ?_ ?_ (fun q t _ has => touch_standing _ (calls.stands q t has))
    · rcases fresh with ⟨_,rfl⟩ | rfl <;> exact fun _ _ chunk => by cases chunk
    · rcases fresh with ⟨_,rfl⟩ | rfl <;> exact fun _ has => by cases has
  | @duplicate p call t stands _ | @chunkSpoiled p call t inode _ stands _ =>
    exact calls_idle calls p (.leaving call.id) rfl rfl rfl
      (fun q t _ has => calls.stands q t has)
  | @chunkWritten p call t inode stands =>
    have accepted := calls.accepted p
    have standing := calls.stands p
    rw [stands] at accepted standing
    exact calls_rule calls p (.chunkWritten call t inode) rfl accepted standing (fun q t _ has => calls.stands q t has)
  | @chunkRecorded p call t inode recorded _ stands marked =>
    have procs : recorded.procs = s.procs := by
      cases markChunkReceived_parts marked
      rfl
    have standing : ∀ q t, loaded (s.procs q) = some t → Standing recorded t := fun q t has => mark_standing marked (calls.stands q t has)
    exact calls_idle calls p (.leaving call.id) (by simp [move,procs]) rfl rfl
      (fun q t _ has => standing q t has)
  | @left p sessionId stands | @completionLeft p sessionId stands =>
    exact calls_idle calls p .finished rfl rfl rfl
      (fun q t _ has => calls.stands q t has)
  | @completionBegun p sessionId idle _ =>
    exact calls_idle calls p (.completing sessionId) rfl rfl rfl
      (fun q t _ has => touch_standing _ (calls.stands q t has))
  | @failedStatus p t _ stands =>
    exact calls_idle calls p (.failedRecorded t) rfl rfl rfl
      (others_standing leases calls (by rw [stands]; rfl) (fun row member other => setStatus_keeps member other))
  | @failedDeleted p t _ stands =>
    exact calls_idle calls p (.failedRecorded t) rfl rfl rfl
      (others_standing leases calls (by rw [stands]; rfl) (fun row member other => delete_mem.mpr ⟨member,other⟩))
  | @failedNeither p t stands =>
    exact calls_idle calls p (.failedRecorded t) rfl rfl rfl
      (fun q t _ has => calls.stands q t has)
  | @completedStatus p t _ stands =>
    exact calls_idle calls p (.completeLeaving t.id) rfl rfl rfl
      (others_standing leases calls (by rw [stands]; rfl) (fun row member other => setStatus_keeps member other))
  | @completedDeleted p t _ stands =>
    exact calls_idle calls p (.completeLeaving t.id) rfl rfl rfl
      (others_standing leases calls (by rw [stands]; rfl) (fun row member other => delete_mem.mpr ⟨member,other⟩))
  | @completedNeither p t stands | @failedRemoved p t _ stands | @failedKept p t _ stands =>
    exact calls_idle calls p (.completeLeaving t.id) rfl rfl rfl
      (fun q t _ has => calls.stands q t has)
  | @renamed p t _ _ _ stands _ | @copied p t _ _ _ stands _ =>
    have standing := calls.stands p
    rw [stands] at standing
    exact calls_rule calls p (.placed t) rfl (fun _ _ chunk => by cases chunk) standing (fun q t _ has => calls.stands q t has)
  | @placedRemoved p t _ stands | @placedKept p t _ stands =>
    have standing := calls.stands p
    rw [stands] at standing
    exact calls_rule calls p (.tempRemoved t) rfl (fun _ _ chunk => by cases chunk) standing (fun q t _ has => calls.stands q t has)

def RowOrigin (s : State) (event : Event) (next : State) (r : Transfer) : Prop :=
  (∃ t ∈ s.transfers.rows, core r = core t ∧ (r.status = .isOpen → t.status = .isOpen)) ∨
    ∃ request destination allocation, event = .openSession request destination allocation ∧
      r = sessionRow request s.nextInode ∧ 0 ≤ request.size ∧ 0 < request.chunkSize ∧ next.nextInode = s.nextInode + 1 ∧
      next.inodes s.nextInode = ⟨List.replicate request.size.toNat 0,s.now,request.id⟩

theorem touch_origin {s : State} (member : r ∈ (touchOpenTransfer s sessionId).transfers.rows) :
    ∃ t ∈ s.transfers.rows, core r = core t ∧ (r.status = .isOpen → t.status = .isOpen) := by
  exact patch_origin _ (fun t => ⟨(touch_cores s.now t).1,fun isOpen => (touch_cores s.now t).2 ▸ isOpen⟩) member

theorem setStatus_origin {status : Status} (ends : status ≠ .isOpen)
    (member : r ∈ (setTransferStatus s sessionId status).transfers.rows) :
    ∃ t ∈ s.transfers.rows, core r = core t ∧ (r.status = .isOpen → t.status = .isOpen) := by
  exact patch_origin _ (fun t => status_cores ends _ t) member

theorem mark_origin {s recorded : State} (marked : markChunkReceived s sessionId n = some recorded)
    (member : r ∈ recorded.transfers.rows) : ∃ t ∈ s.transfers.rows, core r = core t ∧ (r.status = .isOpen → t.status = .isOpen) := by
  cases markChunkReceived_parts marked
  exact patch_origin (s := {s with chunks := (s.chunks.insert (sessionId,n)).getD s.chunks}) (fun t => {t with updatedAt := s.now})
    (fun _ => ⟨rfl,id⟩) member

theorem step_rows (stepped : Stepped sha256 s event next)
    (member : r ∈ next.transfers.rows) : RowOrigin s event next r := by
  have same : r ∈ s.transfers.rows → RowOrigin s event next r := fun old => .inl ⟨r,old,rfl,id⟩
  cases stepped with
  | unchanged | clock | advance _ | duplicate _ _ | chunkSpoiled _ _ | chunkWritten _ | left _ | completionLeft _ | failedNeither _
  | completedNeither _ | failedRemoved _ | failedKept _ | renamed _ _ | copied _ _ | placedRemoved _ | placedKept _ => exact same member
  | swept => exact same (cleanup_mem member)
  | @opened request created _ _ _ admission sized inserted _ =>
    obtain ⟨transfers,stored,rfl⟩ := created_parts inserted
    rcases (Table.mem_insert stored).mp member with old | rfl
    · exact same (cleanup_mem old)
    · have positive : 0 < request.chunkSize := by
        simp only [admitted,Bool.and_eq_true,decide_eq_true_eq] at admission
        exact admission.1
      exact .inr ⟨request,_,_,rfl,rfl,sized,positive,rfl,Function.update_self ..⟩
  | rolledBack inserted =>
    obtain ⟨transfers,stored,rfl⟩ := created_parts inserted
    obtain ⟨kept,other⟩ := delete_mem.mp member
    rcases (Table.mem_insert stored).mp kept with old | rfl
    · exact same (cleanup_mem old)
    · exact absurd rfl other
  | deleted _ | failedDeleted _ | completedDeleted _ => exact same (delete_mem.mp member).1
  | chunkLeased _ _ _ _ _ | completionBegun _ _ => exact .inl (touch_origin member)
  | chunkRecorded _ marked =>
    exact .inl (mark_origin marked member)
  | failedStatus _ | completedStatus _ => exact .inl (setStatus_origin (by simp) member)

end RemoteFileExplorer.UploadSessions
