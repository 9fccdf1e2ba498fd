import Mathlib.Algebra.Order.BigOperators.Group.List
import RemoteFileExplorer.UploadIntegrity

namespace RemoteFileExplorer.UploadQuota
open Runs Tables Transfers UploadLeases UploadSessions UploadEffects UploadIntegrity

abbrev Load := String × Int

def load (t : Transfer) : Load := (t.deviceId,t.totalSize)

def loads (s : State) : List Load := (openRows s).map load

def bytesOf (loads : List Load) : Int := (loads.map Prod.snd).sum
def ofDevice (loads : List Load) (device : String) : List Load := loads.filter (fun l => l.1 == device)

structure Within (loads : List Load) : Prop where
  sizes : ∀ l ∈ loads, 0 ≤ l.2
  hostSessions : loads.length ≤ maxActiveTransfersPerHost
  hostBytes : bytesOf loads ≤ maxReservedBytesPerHost
  deviceSessions : ∀ device, (ofDevice loads device).length ≤ maxActiveTransfersPerDevice
  deviceBytes : ∀ device, bytesOf (ofDevice loads device) ≤ maxReservedBytesPerDevice

theorem bytesOf_sublist (part : fewer.Sublist more) (sizes : ∀ l ∈ more, 0 ≤ l.2) :
    bytesOf fewer ≤ bytesOf more := by
  refine (part.map Prod.snd).sum_le_sum ?_
  intro size member
  obtain ⟨l,listed,rfl⟩ := List.mem_map.mp member
  exact sizes l listed

theorem within_sublist (within : Within more) (part : fewer.Sublist more) : Within fewer := by
  obtain ⟨sizes,hostSessions,hostBytes,deviceSessions,deviceBytes⟩ := within
  refine ⟨fun l member => sizes l (part.subset member),part.length_le.trans hostSessions,?_,?_,?_⟩
  · exact (bytesOf_sublist part sizes).trans hostBytes
  · intro device
    exact (part.filter _).length_le.trans (deviceSessions device)
  · intro device
    refine (bytesOf_sublist (part.filter _) ?_).trans (deviceBytes device)
    intro l member
    exact sizes l (List.mem_filter.mp member).1

-- The four comparisons of the INSERT are made on what it will add to.
structure Admits (loads : List Load) (l : Load) : Prop where
  hostSessions : loads.length < maxActiveTransfersPerHost
  hostBytes : bytesOf loads ≤ maxReservedBytesPerHost - l.2
  deviceSessions : (ofDevice loads l.1).length < maxActiveTransfersPerDevice
  deviceBytes : bytesOf (ofDevice loads l.1) ≤ maxReservedBytesPerDevice - l.2

theorem bytesOf_append (front back : List Load) : bytesOf (front ++ back) = bytesOf front + bytesOf back := by
  simp [bytesOf]

theorem within_admitted (within : Within old) (admits : Admits old l) (size : 0 ≤ l.2) :
    Within (old ++ [l]) := by
  have one : bytesOf [l] = l.2 := by simp [bytesOf]
  have bytes := admits.hostBytes
  refine ⟨?_,?_,?_,?_,?_⟩
  · intro other member
    rcases List.mem_append.mp member with before | new
    · exact within.sizes other before
    · cases List.mem_singleton.mp new; exact size
  · rw [List.length_append]
    exact admits.hostSessions
  · rw [bytesOf_append,one]
    omega
  · intro device
    by_cases mine : l.1 = device
    · subst mine
      simpa [ofDevice] using Nat.succ_le_of_lt admits.deviceSessions
    · simpa [ofDevice,mine] using within.deviceSessions device
  · intro device
    unfold ofDevice
    rw [List.filter_append,bytesOf_append]
    by_cases mine : l.1 = device
    · subst mine
      have own := admits.deviceBytes
      simp only [ofDevice] at own
      simp only [beq_self_eq_true,List.filter_cons_of_pos,List.filter_nil,one]
      omega
    · simpa [ofDevice,mine,bytesOf] using within.deviceBytes device

theorem loads_map (rows : List Transfer) (set : Transfer → Transfer)
    (keeps : ∀ t, load (set t) = load t ∧ ((set t).status = .isOpen → t.status = .isOpen)) :
    (((rows.map set).filter (fun t => t.status = .isOpen)).map load).Sublist
      ((rows.filter (fun t => t.status = .isOpen)).map load) := by
  induction rows with
  | nil => exact .slnil
  | cons t rest ih =>
    obtain ⟨same,opens⟩ := keeps t
    by_cases now : (set t).status = .isOpen
    · simpa [now,opens now,same] using ih
    · by_cases before : t.status = .isOpen
      · simpa [now,before] using ih.cons (load t)
      · simpa [now,before] using ih

theorem patch_loads (set : Transfer → Transfer) (keepsId : ∀ t, (set t).id = t.id)
    (keeps : ∀ t, load (set t) = load t ∧ ((set t).status = .isOpen → t.status = .isOpen)) :
    (loads (patchTransfer s sessionId set keepsId)).Sublist (loads s) := by
  refine loads_map s.transfers.rows _ ?_
  intro t
  split
  · exact keeps t
  · exact ⟨rfl,id⟩

theorem delete_loads (doomed : Transfer → Bool) (rows : next.transfers = s.transfers.delete doomed) :
    (loads next).Sublist (loads s) := by
  unfold loads openRows
  rw [rows,Table.delete_rows]
  exact (List.filter_sublist.filter _).map _

theorem cleanup_loads (s : State) : (loads (cleanupStale s)).Sublist (loads s) :=
  (delete_loads (s := sweepStaleSessions s) _ rfl).trans (delete_loads _ rfl)

theorem touch_loads (s : State) (sessionId : String) : (loads (touchOpenTransfer s sessionId)).Sublist (loads s) := by
  refine patch_loads _ _ ?_
  intro t
  split
  · exact ⟨rfl,id⟩
  · exact ⟨rfl,id⟩

theorem setStatus_loads (s : State) (sessionId : String) (ends : status ≠ .isOpen) :
    (loads (setTransferStatus s sessionId status)).Sublist (loads s) := by
  refine patch_loads _ _ ?_
  intro t
  exact ⟨rfl,fun opened => absurd opened ends⟩

theorem mark_loads (marked : markChunkReceived s sessionId n = some recorded) :
    (loads recorded).Sublist (loads s) := by
  cases markChunkReceived_parts marked
  have kept : loads {s with chunks := (s.chunks.insert (sessionId,n)).getD s.chunks} = loads s := rfl
  exact patch_loads _ _ fun t => ⟨rfl,id⟩

theorem bytesOf_loads (rows : List Transfer) : bytesOf (rows.map load) = reserved rows := by
  simp [bytesOf,reserved,load,Function.comp_def]

theorem ofDevice_loads (rows : List Transfer) (device : String) :
    ofDevice (rows.map load) device = (rows.filter (fun t => t.deviceId == device)).map load := by
  simp [ofDevice,List.filter_map,Function.comp_def,load]

theorem created_admits (inserted : createTransferWithinLimits clean t = .ok created)
    (isOpen : t.status = .isOpen) : Admits (loads clean) (load t) ∧ loads created = loads clean ++ [load t] := by
  obtain ⟨transfers,stored,rfl⟩ := created_parts inserted
  unfold createTransferWithinLimits at inserted
  dsimp only at inserted
  split at inserted
  · rename_i limits
    obtain ⟨hostSessions,hostBytes,deviceSessions,deviceBytes⟩ := limits
    refine ⟨⟨?_,?_,?_,?_⟩,?_⟩
    · simpa [loads] using hostSessions
    · rw [loads,bytesOf_loads]; exact hostBytes
    · rw [loads,ofDevice_loads,List.length_map]; exact deviceSessions
    · rw [loads,ofDevice_loads,bytesOf_loads]; exact deviceBytes
    · simp [loads,openRows,(Table.insert_parts stored).2,isOpen]
  · cases inserted

theorem step_loads (stepped : Stepped sha256 s event next) :
    (loads next).Sublist (loads s) ∨ ∃ kept l, kept.Sublist (loads s) ∧ 0 ≤ l.2 ∧ Admits kept l ∧ loads next = kept ++ [l] := by
  cases stepped with
  | unchanged | clock | advance _ | duplicate _ _ | chunkSpoiled _ _ | chunkWritten _ | left _ | completionLeft _ | failedNeither _
  | completedNeither _ | failedRemoved _ | failedKept _ | renamed _ _ | copied _ _ | placedRemoved _ | placedKept _ =>
    exact .inl (.refl _)
  | swept => exact .inl (cleanup_loads s)
  | opened _ sized inserted _ =>
    obtain ⟨admits,rows⟩ := created_admits inserted rfl
    exact .inr ⟨_,_,cleanup_loads s,sized,admits,rows⟩
  | @rolledBack request _ _ created inserted =>
    obtain ⟨transfers,stored,rfl⟩ := created_parts inserted
    refine .inl (List.Sublist.trans ?_ (cleanup_loads s))
    refine List.Sublist.map _ (List.Sublist.filter _ ?_)
    simp only [deleteTransfer,Table.delete_rows,(Table.insert_parts stored).2,List.filter_append]
    simp [sessionRow,List.filter_sublist]
  | deleted _ | failedDeleted _ | completedDeleted _ => exact .inl (delete_loads _ rfl)
  | chunkLeased _ _ _ _ _ | completionBegun _ _ => exact .inl (touch_loads s _)
  | chunkRecorded _ marked =>
    have freed := mark_loads marked
    exact .inl freed
  | failedStatus _ | completedStatus _ => exact .inl (setStatus_loads s _ (by simp))

def Bounded (s : State) : Prop := Within (loads s)

theorem initial_bounded (now : Int) : Bounded (initial now) := by
  refine ⟨?_,?_,?_,?_,?_⟩ <;> simp [loads,openRows,initial,bytesOf,ofDevice,maxReservedBytesPerHost,maxReservedBytesPerDevice]

theorem step_bounded (bounded : Bounded s) (stepped : step sha256 s event = some next) :
    Bounded next := by
  unfold Bounded
  rcases step_loads (step_cases stepped) with frees | ⟨kept,l,part,size,admits,rows⟩
  · exact within_sublist bounded frees
  · rw [rows]
    exact within_admitted (within_sublist bounded part) admits size

theorem run_bounded (ran : run (step sha256) (initial now) events = some last) : Bounded last :=
  run_preserves (fun _ _ _ => step_bounded) (initial_bounded now) ran

def fitsInt64 (n : Int) : Prop := -2^63 ≤ n ∧ n < 2^63

-- The sums the INSERT computes, over any of the open rows, with the new size on
-- either side of the comparison.
theorem sums_fit {loads part : List Load} (within : Within loads) (some : part.Sublist loads) (low : 0 ≤ size)
    (high : size ≤ maxTransferSize) : fitsInt64 (bytesOf part) ∧ fitsInt64 (bytesOf part + size) ∧
      fitsInt64 (maxReservedBytesPerHost - size) ∧ fitsInt64 (maxReservedBytesPerDevice - size) := by
  have inside := within_sublist within some
  have total := inside.hostBytes
  have positive : 0 ≤ bytesOf part := by
    refine List.sum_nonneg ?_
    intro bytes member
    obtain ⟨l,listed,rfl⟩ := List.mem_map.mp member
    exact inside.sizes l listed
  simp only [fitsInt64,maxReservedBytesPerHost,maxReservedBytesPerDevice,maxTransferSize] at *
  omega

def isOpenSession (s : State) (serial : Nat) : Bool := (openRows s).any (fun t => t.serial == serial)

-- How many steps of a run take a session's row out of the open state.
def leavings (sha256 : Bytes → String) (serial : Nat) : State → List Event → Nat
  | _,[] => 0
  | s,event::rest =>
    match step sha256 s event with
    | none => 0
    | some next => (if isOpenSession s serial && !isOpenSession next serial then 1 else 0) + leavings sha256 serial next rest

theorem isOpenSession_iff : isOpenSession s serial = true ↔ ∃ t ∈ s.transfers.rows, t.serial = serial ∧ t.status = .isOpen := by
  simp only [isOpenSession,openRows,List.any_eq_true,List.mem_filter,decide_eq_true_eq,beq_iff_eq]
  constructor
  · rintro ⟨t,⟨stored,isOpen⟩,same⟩
    exact ⟨t,stored,same,isOpen⟩
  · rintro ⟨t,stored,same,isOpen⟩
    exact ⟨t,⟨stored,isOpen⟩,same⟩

theorem step_serials (stepped : Stepped sha256 s event next) : s.nextInode ≤ next.nextInode := by
  cases step_effect stepped with
  | quiet quiet _ => rw [quiet.nextInode]
  | opened created _ _ quiet _ _ _ =>
    have before := quiet.nextInode
    exact before ▸ Nat.le_succ _
  | chunkWritten _ | chunkSpoiled _ _ | placed _ => exact Nat.le_refl _
  | chunkRecorded _ marked =>
    cases markChunkReceived_parts marked
    exact Nat.le_refl _

section
variable (known : serial < s.nextInode) (ended : isOpenSession s serial = false)
include known ended

theorem step_ended (stepped : Stepped sha256 s event next) : serial < next.nextInode ∧ isOpenSession next serial = false := by
  refine ⟨Nat.lt_of_lt_of_le known (step_serials stepped),?_⟩
  rw [Bool.eq_false_iff]
  intro opened
  obtain ⟨r,member,same,isOpen⟩ := isOpenSession_iff.mp opened
  rcases step_rows stepped member with ⟨t,stored,core,wasOpen⟩ | ⟨request,_,_,_,rfl,_⟩
  · have before := isOpenSession_iff.mpr ⟨t,stored,(core_parts core).2.1.symm.trans same,wasOpen isOpen⟩
    rw [ended] at before
    cases before
  · have new : s.nextInode = serial := same
    omega

theorem leavings_ended :
    leavings sha256 serial s events = 0 := by
  induction events generalizing s with
  | nil => rfl
  | cons event rest ih =>
    unfold leavings
    split
    · rfl
    · rename_i next stepped
      obtain ⟨later,still⟩ := step_ended known ended (step_cases stepped)
      simp [ended,ih later still]

end

theorem leavings_le (sound : Sound sha256 s) : leavings sha256 serial s events ≤ 1 := by
  induction events generalizing s with
  | nil => exact Nat.zero_le _
  | cons event rest ih =>
    unfold leavings
    split
    · exact Nat.zero_le _
    · rename_i next stepped
      have after := step_sound sound stepped
      by_cases leaves : (isOpenSession s serial && !isOpenSession next serial) = true
      · obtain ⟨was,gone⟩ := (Bool.and_eq_true ..).mp leaves
        obtain ⟨t,stored,same,_⟩ := isOpenSession_iff.mp was
        have known : serial < next.nextInode := by
          rw [←same]
          exact Nat.lt_of_lt_of_le (sound.files.genuine t ⟨t,stored,rfl⟩).known (step_serials (step_cases stepped))
        rw [if_pos leaves,leavings_ended known (by simpa using gone)]
      · rw [if_neg leaves,Nat.zero_add]
        exact ih after

theorem upload_quota (sha256 : Bytes → String) (now : Int) (events : List Event) (last : State)
    (ran : run (step sha256) (initial now) events = some last) :
    (openRows last).length ≤ maxActiveTransfersPerHost ∧ reserved (openRows last) ≤ maxReservedBytesPerHost ∧
    (∀ device, ((openRows last).filter (fun t => t.deviceId == device)).length ≤ maxActiveTransfersPerDevice ∧
      reserved ((openRows last).filter (fun t => t.deviceId == device)) ≤ maxReservedBytesPerDevice) ∧
    (∀ part, part.Sublist (openRows last) → ∀ size, 0 ≤ size → size ≤ maxTransferSize →
      fitsInt64 (reserved part) ∧ fitsInt64 (reserved part + size) ∧
      fitsInt64 (maxReservedBytesPerHost - size) ∧ fitsInt64 (maxReservedBytesPerDevice - size)) ∧
    ∀ serial, leavings sha256 serial (initial now) events ≤ 1 := by
  have within : Within (loads last) := run_bounded ran
  refine ⟨?_,?_,?_,?_,fun serial => leavings_le (initial_sound now)⟩
  · simpa [loads] using within.hostSessions
  · simpa only [loads,bytesOf_loads] using within.hostBytes
  · intro device
    have sessions := within.deviceSessions device
    have bytes := within.deviceBytes device
    rw [loads,ofDevice_loads] at sessions bytes
    rw [bytesOf_loads] at bytes
    exact ⟨by simpa using sessions,bytes⟩
  · intro part some size low high
    have fits := sums_fit within (some.map load) low high
    rwa [bytesOf_loads] at fits

def completedBeside : List Event :=
  twoChunks ++ [.openSession ⟨"u2","/home/film.mkv",5,2,"other",false,"d2"⟩ false .made,
    .removeTemp 3 true,.recordCompleted 3 .done,.leave 3]

theorem completed_beside_within : ∃ last, run (step twoChunkHash) (initial 0) completedBeside = some last ∧
    reserved (openRows last) = 5 ∧ (openRows last).length ≤ maxActiveTransfersPerHost ∧
    leavings twoChunkHash 0 (initial 0) completedBeside = 1 ∧ leavings twoChunkHash 1 (initial 0) completedBeside ≤ 1 := by
  obtain ⟨last,ran,bytes⟩ : ∃ last, run (step twoChunkHash) (initial 0) completedBeside = some last ∧ reserved (openRows last) = 5 :=
    ⟨_,rfl,rfl⟩
  obtain ⟨sessions,_,_,_,once⟩ := upload_quota twoChunkHash 0 completedBeside last ran
  exact ⟨last,ran,bytes,sessions,rfl,once 1⟩

end RemoteFileExplorer.UploadQuota
