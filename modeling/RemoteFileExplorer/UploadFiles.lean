import RemoteFileExplorer.UploadEffects

namespace RemoteFileExplorer.UploadFiles
open Tables Slices Transfers UploadLeases UploadSessions UploadEffects

def piece (t : Transfer) (content : Bytes) (n : Int) : Bytes :=
  slice content (n * t.chunkSize).toNat (expectedChunkLen t n).toNat

structure Declared (t : Transfer) : Prop where
  size : 0 ≤ t.totalSize
  chunk : 0 < t.chunkSize
  total : t.totalChunks = totalChunksOf t.totalSize t.chunkSize

section Ranges
variable {t : Transfer} {n m : Int}

theorem expectedChunkLen_bound : expectedChunkLen t n ≤ t.chunkSize ∨ expectedChunkLen t n = -1 := by
  unfold expectedChunkLen
  dsimp only
  repeat' split
  all_goals omega

theorem expectedChunkLen_remaining (known : 0 ≤ expectedChunkLen t n) : n * t.chunkSize + expectedChunkLen t n ≤ t.totalSize := by
  unfold expectedChunkLen at known ⊢
  dsimp only at known ⊢
  repeat' split at known
  all_goals omega

section
variable (declared : Declared t)
include declared

theorem chunk_inside (accepted : Accepted call t) :
    (call.n * t.chunkSize).toNat + call.data.length ≤ t.totalSize.toNat := by
  obtain ⟨_,low,_,sized⟩ := accepted
  have start : 0 ≤ call.n * t.chunkSize := Int.mul_nonneg low (Int.le_of_lt declared.chunk)
  have fits : call.n * t.chunkSize + expectedChunkLen t call.n ≤ t.totalSize := expectedChunkLen_remaining (by omega)
  omega

theorem chunks_before (low : 0 ≤ n) (before : n < m) :
    (n * t.chunkSize).toNat + (expectedChunkLen t n).toNat ≤ (m * t.chunkSize).toNat := by
  have start : 0 ≤ n * t.chunkSize := Int.mul_nonneg low (Int.le_of_lt declared.chunk)
  have next : (n + 1) * t.chunkSize ≤ m * t.chunkSize := Int.mul_le_mul_of_nonneg_right before (Int.le_of_lt declared.chunk)
  have expand : (n + 1) * t.chunkSize = n * t.chunkSize + t.chunkSize := by
    rw [Int.add_mul,Int.one_mul]
  have chunk := declared.chunk
  rcases expectedChunkLen_bound (t := t) (n := n) with bound | unknown <;> omega

theorem chunks_apart (left : 0 ≤ n) (right : 0 ≤ m) (different : n ≠ m) :
    (n * t.chunkSize).toNat + (expectedChunkLen t n).toNat ≤ (m * t.chunkSize).toNat ∨
    (m * t.chunkSize).toNat + (expectedChunkLen t m).toNat ≤ (n * t.chunkSize).toNat := by
  rcases Int.lt_or_gt_of_ne different with before | after
  · exact .inl (chunks_before declared left before)
  · exact .inr (chunks_before declared right after)

theorem chunks_cover (inside : i < t.totalSize.toNat) :
    0 ≤ (i : Int) / t.chunkSize ∧ (i : Int) / t.chunkSize < t.totalChunks ∧
    (((i : Int) / t.chunkSize) * t.chunkSize).toNat ≤ i ∧
    i < (((i : Int) / t.chunkSize) * t.chunkSize).toNat + (expectedChunkLen t ((i : Int) / t.chunkSize)).toNat := by
  have chunk := declared.chunk
  have low : 0 ≤ (i : Int) / t.chunkSize := Int.ediv_nonneg (by omega) (by omega)
  have division := Int.mul_ediv_add_emod (i : Int) t.chunkSize
  have rest := Int.emod_lt_of_pos (i : Int) chunk
  have positive := Int.emod_nonneg (i : Int) (by omega : t.chunkSize ≠ 0)
  have swap : t.chunkSize * ((i : Int) / t.chunkSize) = (i : Int) / t.chunkSize * t.chunkSize := Int.mul_comm ..
  have below : (i : Int) / t.chunkSize < (t.totalSize + t.chunkSize - 1) / t.chunkSize := by
    have shifted : ((i : Int) + t.chunkSize) / t.chunkSize = (i : Int) / t.chunkSize + 1 := by
      have := Int.add_mul_ediv_right (i : Int) 1 (by omega : t.chunkSize ≠ 0)
      simpa using this
    have grows : ((i : Int) + t.chunkSize) / t.chunkSize ≤ (t.totalSize + t.chunkSize - 1) / t.chunkSize :=
      Int.ediv_le_ediv chunk (by omega)
    omega
  have range : (i : Int) / t.chunkSize < t.totalChunks := by
    rw [declared.total]
    unfold totalChunksOf
    dsimp only
    split <;> omega
  refine ⟨low,range,by omega,?_⟩
  unfold expectedChunkLen
  dsimp only
  repeat' split
  all_goals omega

end

end Ranges

def Listed (s : State) (t : Transfer) : Prop := ∃ row ∈ s.transfers.rows, core row = core t

-- The temp file numbered by a session's serial is that session's file.
structure Genuine (s : State) (t : Transfer) : Prop where
  declared : Declared t
  known : t.serial < s.nextInode
  own : (s.inodes t.serial).createdFor = t.id
  length : (s.inodes t.serial).content.length = t.totalSize.toNat

structure Files (s : State) : Prop where
  genuine : ∀ t, Listed s t → Genuine s t
  owned : ∀ c ∈ s.chunks.rows, ∃ row ∈ s.transfers.rows, row.id = c.1
  temp : ∀ t i, Standing s t → s.temps t.id = some i → i = t.serial
  handle : ∀ p t i, handleOf (s.procs p) = some (t,i) → i = t.serial

theorem standing_listed (stands : Standing s t) : Listed s t := by
  obtain ⟨row,member,same,_⟩ := stands
  exact ⟨row,member,same⟩

theorem quiet_listed (quiet : Quiet s next) (listed : Listed next t) : Listed s t := by
  obtain ⟨row,member,same⟩ := listed
  obtain ⟨old,stored,also,_⟩ := quiet.rows row member
  exact ⟨old,stored,also.symm.trans same⟩

theorem quiet_standing (quiet : Quiet s next) (stands : Standing next t) : Standing s t := by
  obtain ⟨row,member,same,isOpen⟩ := stands
  obtain ⟨old,stored,also,wasOpen⟩ := quiet.rows row member
  exact ⟨old,stored,also.symm.trans same,wasOpen isOpen⟩

theorem genuine_frame (genuine : Genuine s t) (inodes : next.inodes = s.inodes)
    (count : next.nextInode = s.nextInode) : Genuine next t := by
  obtain ⟨declared,known,own,length⟩ := genuine
  exact ⟨declared,by rwa [count],by rwa [inodes],by rwa [inodes]⟩

theorem quiet_owned (files : Files s) (quiet : Quiet s next) :
    ∀ c ∈ next.chunks.rows, ∃ row ∈ next.transfers.rows, row.id = c.1 := by
  intro c member
  obtain ⟨row,stored,same⟩ := files.owned c (quiet.chunks c member)
  exact quiet.owned c member row stored same

theorem advance_handle (calls : Calls s) (files : Files s) (advanced : Advance sha256 s p stage)
    (held : handleOf stage = some (t,i)) : i = t.serial := by
  have before := files.handle p
  have standing := calls.stands p
  have accepted := calls.accepted p
  cases advanced with
  | refused | gaveUp | quit | loaded | checked | missing | counted | mismatched => cases held
  | chunkOpened stands named =>
    cases held
    rw [stands] at standing accepted
    rw [(accepted _ _ rfl).1] at named
    exact files.temp t i (standing t rfl) named
  | hashing stands named =>
    cases held
    rw [stands] at standing
    exact files.temp t i (standing t rfl) named
  | readHash _ stands | readCopy _ stands | verified stands _ _ =>
    rw [stands] at before
    exact before t i held
  | stream stands source =>
    cases held
    rw [stands] at before standing
    rcases source with rfl | named
    · exact before t i rfl
    · exact files.temp t i (standing t rfl) named

theorem silent_handle (quiet : silent stage = true ∨ ∃ t, stage = .placed t ∨ stage = .tempRemoved t) : handleOf stage = none := by
  rcases quiet with quiet | ⟨t,rfl | rfl⟩
  · cases stage <;> first | rfl | cases quiet
  · rfl
  · rfl

theorem handle_rule (files : Files s) (p : Nat) (own : ∀ t i, handleOf stage = some (t,i) → i = t.serial) :
    ∀ q t i, handleOf (Function.update s.procs p stage q) = some (t,i) → i = t.serial := by
  intro q t i held
  rcases update_stage s.procs p stage q with ⟨_,moved⟩ | ⟨_,moved⟩
  · rw [moved] at held
    exact own t i held
  · rw [moved] at held
    exact files.handle q t i held

theorem quiet_files (files : Files s) (quiet : Quiet s next)
    (handle : ∀ p t i, handleOf (next.procs p) = some (t,i) → i = t.serial) : Files next :=
  ⟨fun t listed => genuine_frame (files.genuine t (quiet_listed quiet listed)) quiet.inodes quiet.nextInode,quiet_owned files quiet,
    fun t i stands named => files.temp t i (quiet_standing quiet stands) (quiet.temps t.id i named),handle⟩

theorem opened_files (files : Files created)
    (sized : 0 ≤ request.size) (chunked : 0 < request.chunkSize) (named : temp = none ∨ temp = some created.nextInode)
    (stored : created.transfers.insert (sessionRow request created.nextInode) = some transfers) :
    Files {created with
      transfers := transfers
      inodes := Function.update created.inodes created.nextInode ⟨List.replicate request.size.toNat 0,created.now,request.id⟩
      temps := Function.update created.temps request.id temp
      nextInode := created.nextInode + 1} := by
  have clear : ∀ row ∈ created.transfers.rows, row.id ≠ request.id := by
    intro row member
    simpa [transferKeys,sessionRow] using (Table.insert_parts stored).1 row member
  refine ⟨?_,?_,?_,files.handle⟩
  · intro t listed
    obtain ⟨row,member,same⟩ := listed
    rcases (Table.mem_insert stored).mp member with old | rfl
    · obtain ⟨declared,known,own,length⟩ := files.genuine t ⟨row,old,same⟩
      have other : t.serial ≠ created.nextInode := Nat.ne_of_lt known
      exact ⟨declared,Nat.lt_succ_of_lt known,by simpa [Function.update_of_ne other] using own,
        by simpa [Function.update_of_ne other] using length⟩
    · obtain ⟨ids,serials,sizes,chunks,totals,_⟩ := core_parts same
      have serial : t.serial = created.nextInode := serials.symm
      refine ⟨⟨by rw [← sizes]; exact sized,by rw [← chunks]; exact chunked,by rw [← totals,← sizes,← chunks]; rfl⟩,?_,?_,?_⟩
      · rw [serial]
        exact Nat.lt_succ_self _
      · rw [serial,← ids]
        simp [sessionRow]
      · rw [serial,← sizes]
        simp [sessionRow]
  · intro c member
    obtain ⟨row,old,same⟩ := files.owned c member
    exact ⟨row,(Table.mem_insert stored).mpr (.inl old),same⟩
  · intro t i stands held
    obtain ⟨row,member,same,isOpen⟩ := stands
    have ids := (core_parts same).1
    rcases (Table.mem_insert stored).mp member with old | rfl
    · have other : t.id ≠ request.id := by
        rw [← ids]
        exact clear row old
      dsimp only at held
      rw [Function.update_of_ne other] at held
      exact files.temp t i ⟨row,old,same,isOpen⟩ held
    · have mine : t.id = request.id := ids.symm
      dsimp only at held
      rw [mine,Function.update_self] at held
      rcases named with rfl | rfl
      · cases held
      · cases held
        exact (core_parts same).2.1

section
variable (calls : Calls s) (files : Files s) (stands : s.procs p = .chunkOpened call t inode)
include calls files stands

theorem opened_range :
    inode = t.serial ∧ Genuine s t ∧ Accepted call t ∧
      (call.n * t.chunkSize).toNat + call.data.length ≤ (s.inodes inode).content.length := by
  have handle := files.handle p
  have standing := calls.stands p
  have accepted := calls.accepted p
  rw [stands] at handle standing accepted
  have serial : inode = t.serial := handle t inode rfl
  have genuine := files.genuine t (standing_listed (standing t rfl))
  have good := accepted call t rfl
  refine ⟨serial,genuine,good,?_⟩
  rw [serial,genuine.length]
  exact chunk_inside genuine.declared good

theorem written_files :
    Files {move s p (.chunkWritten call t inode) with
      inodes := Function.update s.inodes inode {s.inodes inode with
        content := writeAt 0 (s.inodes inode).content (call.n * t.chunkSize).toNat call.data,modTime := s.now}
      writes := Function.update s.writes inode (s.writes inode + 1)} := by
  obtain ⟨serial,_,_,inside⟩ := opened_range calls files stands
  refine ⟨?_,files.owned,files.temp,handle_rule files p (fun u i held => ?_)⟩
  · intro u listed
    obtain ⟨declared,known,own,length⟩ := files.genuine u listed
    by_cases mine : u.serial = inode
    · refine ⟨declared,known,?_,?_⟩
      · simp only [mine,Function.update_self]
        rw [← mine,own]
      · simp only [mine,Function.update_self]
        rw [writeAt_length inside,← mine,length]
    · refine ⟨declared,known,?_,?_⟩
      · simp only [Function.update_of_ne mine]
        exact own
      · simp only [Function.update_of_ne mine]
        exact length
  · cases held
    exact serial

end

theorem mark_chunks (marked : markChunkReceived s sessionId n = some recorded) (member : c ∈ recorded.chunks.rows) :
    c ∈ s.chunks.rows ∨ c = (sessionId,n) := by
  cases markChunkReceived_parts marked
  cases inserted : s.chunks.insert (sessionId,n) with
  | none =>
    rw [inserted] at member
    exact .inl member
  | some chunks =>
    rw [inserted] at member
    exact (Table.mem_insert inserted).mp member

theorem recorded_files (calls : Calls s) (files : Files s) (stands : s.procs p = .chunkWritten call t inode)
    (marked : markChunkReceived s call.id call.n = some recorded) :
    Files {move recorded p (.leaving call.id) with acks := ⟨t.serial,call.n,call.data⟩::s.acks} := by
  have standing := calls.stands p
  have accepted := calls.accepted p
  rw [stands] at standing accepted
  have listedBefore : ∀ u, Listed recorded u → Listed s u := by
    rintro u ⟨row,member,same⟩
    obtain ⟨old,stored,also,_⟩ := mark_origin marked member
    exact ⟨old,stored,also.symm.trans same⟩
  have standingBefore : ∀ u, Standing recorded u → Standing s u := by
    rintro u ⟨row,member,same,isOpen⟩
    obtain ⟨old,stored,also,wasOpen⟩ := mark_origin marked member
    exact ⟨old,stored,also.symm.trans same,wasOpen isOpen⟩
  have kept : ∀ row ∈ s.transfers.rows, ∃ r ∈ recorded.transfers.rows, r.id = row.id := by
    intro row member
    cases markChunkReceived_parts marked
    refine ⟨_,patch_mem.mpr ⟨row,member,rfl⟩,?_⟩
    split <;> rfl
  have owned : ∀ c ∈ recorded.chunks.rows, ∃ row ∈ s.transfers.rows, row.id = c.1 := by
    intro c member
    rcases mark_chunks marked member with old | rfl
    · exact files.owned c old
    · obtain ⟨row,member,same,_⟩ := standing t rfl
      exact ⟨row,member,(core_parts same).1.trans (accepted call t rfl).1.symm⟩
  cases markChunkReceived_parts marked
  refine ⟨?_,?_,?_,handle_rule files p fun t i held => by cases held⟩
  · intro u listed
    exact genuine_frame (files.genuine u (listedBefore u listed)) rfl rfl
  · intro c member
    obtain ⟨row,old,same⟩ := owned c member
    obtain ⟨r,now,also⟩ := kept row old
    exact ⟨r,now,also.trans same⟩
  · intro u i stand named
    exact files.temp u i (standingBefore u stand) named

theorem step_files (calls : Calls s) (files : Files s)
    (effect : Effect sha256 s event next) : Files next := by
  cases effect with
  | quiet quiet turns =>
    refine quiet_files files quiet ?_
    intro q t i held
    rcases turns q with same | ⟨_,plain | plain | advanced⟩
    · rw [same] at held
      exact files.handle q t i held
    · rw [silent_handle (.inl plain)] at held
      cases held
    · rw [silent_handle (.inr plain)] at held
      cases held
    · exact advance_handle calls files advanced held
  | opened created sized chunked quiet procs named stored =>
    refine opened_files (quiet_files files quiet ?_) sized chunked named stored
    rw [procs]
    exact files.handle
  | chunkWritten stands => exact written_files calls files stands
  | chunkRecorded stands marked => exact recorded_files calls files stands marked
  | chunkSpoiled _ _ | placed _ =>
    exact ⟨fun u listed => genuine_frame (files.genuine u listed) rfl rfl,files.owned,files.temp,handle_rule files _ fun t i held => by cases held⟩

end RemoteFileExplorer.UploadFiles
