import Mathlib.Data.List.Nodup
import RemoteFileExplorer.Transfers

namespace RemoteFileExplorer.UploadLeases
open Slices Transfers

def holds : Stage → Option String
  | .chunkLeased call | .chunkChecked call _ | .chunkMissing call _ | .chunkOpened call _ _ | .chunkWritten call _ _ => some call.id
  | .leaving id | .completing id | .completeLeaving id => some id
  | .completeLoaded t | .completeCounted t | .hashing t _ _ _ | .mismatched t | .failedRecorded t | .verified t _ _
  | .copying t _ _ _ | .placed t | .tempRemoved t => some t.id
  | .idle | .finished => none

def completes : Stage → Option String
  | .completing id | .completeLeaving id => some id
  | .completeLoaded t | .completeCounted t | .hashing t _ _ _ | .mismatched t | .failedRecorded t | .verified t _ _
  | .copying t _ _ _ | .placed t | .tempRemoved t => some t.id
  | _ => none

-- A chunk upload that has not written yet can be given up without a trace.
def unwritten : Stage → Option String
  | .chunkLeased call | .chunkChecked call _ | .chunkMissing call _ | .chunkOpened call _ _ => some call.id
  | _ => none

def unrecorded : Stage → Option String
  | .completing id => some id
  | .completeLoaded t | .completeCounted t | .hashing t _ _ _ | .verified t _ _ | .copying t _ _ _ | .placed t => some t.id
  | _ => none

theorem completes_holds (exclusive : completes stage = some sessionId) : holds stage = some sessionId := by
  cases stage <;> first | exact exclusive | cases exclusive

theorem unwritten_holds (leased : unwritten stage = some sessionId) : holds stage = some sessionId ∧ completes stage = none := by
  cases stage <;> first | exact ⟨leased,rfl⟩ | cases leased

theorem unrecorded_completes (leased : unrecorded stage = some sessionId) : completes stage = some sessionId := by
  cases stage <;> first | exact leased | cases leased

section Inversion
variable (sha256 : Bytes → String)

inductive Advance (s : State) (p : Nat) : Stage → Prop where
  | refused : s.procs p = .idle → Advance s p .finished
  | gaveUp : unwritten (s.procs p) = some sessionId → Advance s p (.leaving sessionId)
  | quit : unrecorded (s.procs p) = some sessionId → Advance s p (.completeLeaving sessionId)
  | checked : s.procs p = .chunkLeased call → getTransfer s call.id = some t → acceptsChunk sha256 t call = true →
      Advance s p (.chunkChecked call t)
  | missing : s.procs p = .chunkChecked call t → hasChunk s call.id call.n = false → Advance s p (.chunkMissing call t)
  | chunkOpened : s.procs p = .chunkMissing call t → s.temps call.id = some inode → Advance s p (.chunkOpened call t inode)
  | loaded : s.procs p = .completing sessionId → getTransfer s sessionId = some t → t.status = .isOpen →
      Advance s p (.completeLoaded t)
  | counted : s.procs p = .completeLoaded t → t.totalChunks ≤ (chunkNumbers s t.id).length → Advance s p (.completeCounted t)
  | hashing : s.procs p = .completeCounted t → s.temps t.id = some inode → Advance s p (.hashing t inode (s.writes inode) [])
  | readHash (count : Nat) : s.procs p = .hashing t inode since bytes →
      Advance s p (.hashing t inode since (bytes ++ slice (s.inodes inode).content bytes.length count))
  | readCopy (count : Nat) : s.procs p = .copying t inode since bytes →
      Advance s p (.copying t inode since (bytes ++ slice (s.inodes inode).content bytes.length count))
  | verified : s.procs p = .hashing t inode since bytes → (s.inodes inode).content.length ≤ bytes.length →
      sha256 bytes = t.sha256 → Advance s p (.verified t inode since)
  | mismatched : s.procs p = .hashing t inode since bytes → Advance s p (.mismatched t)
  | stream : s.procs p = .verified t inode since → source = inode ∨ s.temps t.id = some source →
      Advance s p (.copying t source since [])

inductive Stepped (s : State) : Event → State → Prop where
  | unchanged : Stepped s event s
  | clock (seconds : Nat) : Stepped s (.clock seconds) {s with now := s.now + seconds}
  | swept : Stepped s event (cleanupStale s)
  | opened : admitted request = true → 0 ≤ request.size →
      createTransferWithinLimits (cleanupStale s) (sessionRow request (cleanupStale s).nextInode) = .ok created →
      (temp = some created.nextInode ∨ (temp = none ∧ allocation = .stuck)) →
      Stepped s (.openSession request destination allocation) {created with
        inodes := Function.update created.inodes created.nextInode
          ⟨List.replicate request.size.toNat 0,created.now,request.id⟩
        temps := Function.update created.temps request.id temp
        nextInode := created.nextInode + 1}
  | rolledBack : createTransferWithinLimits (cleanupStale s) (sessionRow request (cleanupStale s).nextInode) = .ok created →
      Stepped s (.openSession request destination allocation)
        (deleteTransfer {created with temps := Function.update created.temps request.id none} request.id)
  | deleted : s.active sessionId = 0 → Stepped s (.deleteSession sessionId)
      {deleteTransfer s sessionId with temps := Function.update s.temps sessionId none}
  | advance : Advance sha256 s p stage → Stepped s event (move s p stage)
  | chunkLeased : s.procs p = .idle → s.completing sessionId = false → holds stage = some sessionId → completes stage = none →
      (∃ call, stage = .chunkLeased call) ∨ stage = .leaving sessionId →
      Stepped s event (move {touchOpenTransfer s sessionId with
        active := Function.update s.active sessionId (s.active sessionId + 1)} p stage)
  | duplicate : s.procs p = .chunkChecked call t → hasChunk s call.id call.n = true →
      Stepped s (.chunkLookup p) {move s p (.leaving call.id) with acks := ⟨t.serial,call.n,call.data⟩::s.acks}
  | chunkWritten : s.procs p = .chunkOpened call t inode → Stepped s (.chunkWrite p) {move s p (.chunkWritten call t inode) with
      inodes := Function.update s.inodes inode {s.inodes inode with
        content := writeAt 0 (s.inodes inode).content (call.n * t.chunkSize).toNat call.data,modTime := s.now}
      writes := Function.update s.writes inode (s.writes inode + 1)}
  | chunkRecorded : s.procs p = .chunkWritten call t inode → markChunkReceived s call.id call.n = some recorded →
      Stepped s (.chunkRecord p works) {move recorded p (.leaving call.id) with acks := ⟨t.serial,call.n,call.data⟩::s.acks}
  | chunkSpoiled : s.procs p = .chunkWritten call t inode → works = false ∨ markChunkReceived s call.id call.n = none →
      Stepped s (.chunkRecord p works) {move s p (.leaving call.id) with spoiled := inode::s.spoiled}
  | left : s.procs p = .leaving sessionId → Stepped s (.leave p) (move (endActivity s sessionId) p .finished)
  | completionBegun : s.procs p = .idle → s.active sessionId = 0 →
      Stepped s (.completeBegin p sessionId) (move {touchOpenTransfer s sessionId with
        active := Function.update s.active sessionId 1,completing := Function.update s.completing sessionId true} p (.completing sessionId))
  | completionLeft : s.procs p = .completeLeaving sessionId → Stepped s (.leave p) (move (endCompletion s sessionId) p .finished)
  | failedStatus : s.procs p = .mismatched t → Stepped s event (move (setTransferStatus s t.id .failed) p (.failedRecorded t))
  | failedDeleted : s.procs p = .mismatched t → Stepped s event (move (deleteTransfer s t.id) p (.failedRecorded t))
  | failedNeither : s.procs p = .mismatched t → Stepped s (.recordFailed p .neither) (move s p (.failedRecorded t))
  | renamed : s.procs p = .verified t inode since → s.temps t.id = some source →
      Stepped s (.placeRename p) {move s p (.placed t) with
        published := ⟨t,(s.inodes source).content,since,s.writes source⟩::s.published}
  | copied : s.procs p = .copying t source since bytes → (s.inodes source).content.length ≤ bytes.length →
      Stepped s (.placeCopy p) {move s p (.placed t) with published := ⟨t,bytes,since,s.writes source⟩::s.published}
  | failedRemoved : s.procs p = .failedRecorded t →
      Stepped s event (move {s with temps := Function.update s.temps t.id none} p (.completeLeaving t.id))
  | failedKept : s.procs p = .failedRecorded t → Stepped s event (move s p (.completeLeaving t.id))
  | placedRemoved : s.procs p = .placed t →
      Stepped s event (move {s with temps := Function.update s.temps t.id none} p (.tempRemoved t))
  | placedKept : s.procs p = .placed t → Stepped s event (move s p (.tempRemoved t))
  | completedStatus : s.procs p = .tempRemoved t →
      Stepped s event (move (setTransferStatus s t.id .completed) p (.completeLeaving t.id))
  | completedDeleted : s.procs p = .tempRemoved t → Stepped s event (move (deleteTransfer s t.id) p (.completeLeaving t.id))
  | completedNeither : s.procs p = .tempRemoved t → Stepped s (.recordCompleted p .neither) (move s p (.completeLeaving t.id))

variable {sha256}

theorem openSession_cases (allowed : admitted request = true) :
    Stepped sha256 s (.openSession request destination allocation) (openSession s request destination allocation).1 := by
  unfold openSession
  split
  · exact .unchanged
  · split
    · exact .unchanged
    · split
      · exact .unchanged
      · split
        · exact .unchanged
        · dsimp only
          split
          · exact .swept
          · rename_i created inserted
            split
            · exact .opened allowed (by omega) inserted (.inl rfl)
            · split
              · exact .opened allowed (by omega) inserted (.inr ⟨rfl,‹_›⟩)
              · exact .rolledBack inserted

theorem beginActivity_parts (begun : beginActivity s sessionId requireOpen = some (leased,true)) :
    s.completing sessionId = false ∧ leased = {touchOpenTransfer s sessionId with
      active := Function.update s.active sessionId (s.active sessionId + 1)} := by
  unfold beginActivity at begun
  split at begun
  · cases begun
  · split at begun
    · split at begun <;> cases begun
    · obtain ⟨allowed,⟨⟩⟩ := Option.ite_none_left_eq_some.mp begun
      exact ⟨eq_false_of_ne_true allowed,rfl⟩

theorem beginActivity_open (begun : beginActivity s sessionId true = some (leased,counted)) : counted = true := by
  unfold beginActivity at begun
  split at begun
  · cases begun
  · obtain ⟨_,begun⟩ := Option.ite_none_left_eq_some.mp begun
    split at begun <;> cases begun
    rfl

theorem chunk_cases (stepped : stepChunk sha256 s p event = some next)
    (own : (∃ call, event = .chunkBegin p call) ∨ event = .chunkCheck p ∨ event = .chunkLookup p ∨ event = .chunkOpen p ∨
      event = .chunkWrite p ∨ (∃ works, event = .chunkRecord p works) ∨ (∃ sessionId, event = .status p sessionId) ∨ event = .leave p) :
    Stepped sha256 s event next := by
  rcases own with ⟨call,rfl⟩ | rfl | rfl | rfl | rfl | ⟨works,rfl⟩ | ⟨sessionId,rfl⟩ | rfl
  · obtain ⟨idle,stepped⟩ := Option.ite_none_right_eq_some.mp stepped
    split at stepped
    · rename_i leased counted begun
      cases beginActivity_open begun
      obtain ⟨free,rfl⟩ := beginActivity_parts begun
      cases stepped
      exact .chunkLeased idle free rfl rfl (.inl ⟨call,rfl⟩)
    · cases stepped
      exact .advance (.refused idle)
  · simp only [stepChunk] at stepped
    split at stepped
    · rename_i call leased
      have lease : unwritten (s.procs p) = some call.id := by rw [leased]; rfl
      split at stepped
      · cases stepped
        exact .advance (.gaveUp lease)
      · rename_i t found
        cases stepped
        split
        · exact .advance (.checked leased found ‹_›)
        · exact .advance (.gaveUp lease)
    · cases stepped
  · simp only [stepChunk] at stepped
    split at stepped
    · rename_i call t checked
      split at stepped
      · cases stepped
        exact .duplicate checked ‹_›
      · cases stepped
        exact .advance (.missing checked (eq_false_of_ne_true ‹_›))
    · cases stepped
  · simp only [stepChunk] at stepped
    split at stepped
    · rename_i call t missing
      split at stepped
      · cases stepped
        exact .advance (.gaveUp (by rw [missing]; rfl))
      · cases stepped
        exact .advance (.chunkOpened missing ‹_›)
    · cases stepped
  · simp only [stepChunk] at stepped
    split at stepped
    · cases stepped
      exact .chunkWritten ‹_›
    · cases stepped
  · simp only [stepChunk] at stepped
    split at stepped
    · rename_i call t inode written
      split at stepped
      · rename_i recorded marked
        cases stepped
        cases works with
        | true => exact .chunkRecorded written marked
        | false => cases marked
      · rename_i unmarked
        cases stepped
        cases works with
        | true => exact .chunkSpoiled written (.inr unmarked)
        | false => exact .chunkSpoiled written (.inl rfl)
    · cases stepped
  · obtain ⟨idle,stepped⟩ := Option.ite_none_right_eq_some.mp stepped
    split at stepped
    · rename_i leased begun
      obtain ⟨free,rfl⟩ := beginActivity_parts begun
      cases stepped
      exact .chunkLeased idle free rfl rfl (.inr rfl)
    · cases stepped
      exact .advance (.refused idle)
  · simp only [stepChunk] at stepped
    split at stepped
    · cases stepped
      exact .left ‹_›
    · cases stepped
      exact .completionLeft ‹_›
    · cases stepped

theorem beginCompletion_parts (begun : beginCompletion s sessionId = some leased) :
    s.active sessionId = 0 ∧ leased = {touchOpenTransfer s sessionId with
      active := Function.update s.active sessionId 1,completing := Function.update s.completing sessionId true} := by
  unfold beginCompletion at begun
  split at begun
  · cases begun
  · obtain ⟨allowed,⟨⟩⟩ := Option.ite_none_left_eq_some.mp begun
    exact ⟨by omega,rfl⟩

theorem complete_cases (stepped : stepComplete sha256 s p event = some next)
    (own : (∃ sessionId, event = .completeBegin p sessionId) ∨ event = .completeLoad p ∨ event = .completeCount p ∨
      event = .completeOpen p ∨ (∃ count, event = .read p count) ∨ event = .verify p ∨ (∃ outcome, event = .recordFailed p outcome) ∨
      (∃ again, event = .stream p again) ∨ event = .placeRename p ∨ event = .placeCopy p ∨ (∃ works, event = .removeTemp p works) ∨
      ∃ outcome, event = .recordCompleted p outcome) : Stepped sha256 s event next := by
  rcases own with ⟨sessionId,rfl⟩ | rfl | rfl | rfl | ⟨count,rfl⟩ | rfl | ⟨outcome,rfl⟩ | ⟨again,rfl⟩ | rfl | rfl | ⟨works,rfl⟩ | ⟨outcome,rfl⟩
  · obtain ⟨idle,stepped⟩ := Option.ite_none_right_eq_some.mp stepped
    split at stepped
    · rename_i leased begun
      obtain ⟨free,rfl⟩ := beginCompletion_parts begun
      cases stepped
      exact .completionBegun idle free
    · cases stepped
      exact .advance (.refused idle)
  · simp only [stepComplete] at stepped
    split at stepped
    · rename_i sessionId leased
      have lease : unrecorded (s.procs p) = some sessionId := by rw [leased]; rfl
      split at stepped
      · cases stepped
        exact .advance (.quit lease)
      · rename_i t found
        cases stepped
        split
        · exact .advance (.loaded leased found ‹_›)
        · exact .advance (.quit lease)
    · cases stepped
  · simp only [stepComplete] at stepped
    split at stepped
    · rename_i t loaded
      cases stepped
      split
      · exact .advance (.quit (by rw [loaded]; rfl))
      · exact .advance (.counted loaded (by omega))
    · cases stepped
  · simp only [stepComplete] at stepped
    split at stepped
    · rename_i t counted
      split at stepped
      · cases stepped
        exact .advance (.quit (by rw [counted]; rfl))
      · cases stepped
        exact .advance (.hashing counted ‹_›)
    · cases stepped
  · simp only [stepComplete] at stepped
    split at stepped
    · cases stepped
      exact .advance (.readHash count ‹_›)
    · cases stepped
      exact .advance (.readCopy count ‹_›)
    · cases stepped
  · simp only [stepComplete] at stepped
    split at stepped
    · rename_i t inode since bytes hashing
      split at stepped
      · cases stepped
      · cases stepped
        split
        · exact .advance (.verified hashing (by omega) ‹_›)
        · exact .advance (.mismatched hashing)
    · cases stepped
  · simp only [stepComplete] at stepped
    split at stepped
    · rename_i t mismatched
      cases outcome <;> cases stepped
      · exact .failedStatus mismatched
      · exact .failedDeleted mismatched
      · exact .failedNeither mismatched
    · cases stepped
  · simp only [stepComplete] at stepped
    split at stepped
    · rename_i t inode since verified
      split at stepped
      · cases stepped
        exact .advance (.quit (by rw [verified]; rfl))
      · rename_i source found
        cases stepped
        cases again with
        | true => exact .advance (.stream verified (.inr found))
        | false => exact .advance (.stream verified (.inl (Option.some.inj found).symm))
    · cases stepped
  · simp only [stepComplete] at stepped
    split at stepped
    · rename_i t inode since verified
      split at stepped
      · cases stepped
        exact .advance (.quit (by rw [verified]; rfl))
      · cases stepped
        exact .renamed verified ‹_›
    · cases stepped
  · simp only [stepComplete] at stepped
    split at stepped
    · rename_i t source since bytes copying
      obtain ⟨_,⟨⟩⟩ := Option.ite_none_left_eq_some.mp stepped
      exact .copied copying (by omega)
    · cases stepped
  · simp only [stepComplete] at stepped
    split at stepped
    · rename_i t recorded
      cases works <;> cases stepped
      · exact .failedKept recorded
      · exact .failedRemoved recorded
    · rename_i t placed
      cases works <;> cases stepped
      · exact .placedKept placed
      · exact .placedRemoved placed
    · cases stepped
  · simp only [stepComplete] at stepped
    split at stepped
    · rename_i t removed
      cases outcome <;> cases stepped
      · exact .completedStatus removed
      · exact .completedDeleted removed
      · exact .completedNeither removed
    · cases stepped

theorem abandon_cases (stepped : abandon s p = some next) : Stepped sha256 s event next := by
  unfold abandon at stepped
  split at stepped <;> cases stepped <;> rename_i stage
  all_goals first
    | exact .advance (.gaveUp (by rw [stage]; rfl))
    | exact .advance (.quit (by rw [stage]; rfl))

theorem step_cases (stepped : step sha256 s event = some next) : Stepped sha256 s event next := by
  cases event with
  | clock seconds => cases stepped; exact .clock seconds
  | openSession request destination allocation =>
    obtain ⟨allowed,⟨⟩⟩ := Option.ite_none_right_eq_some.mp stepped
    exact openSession_cases allowed
  | deleteSession sessionId =>
    cases stepped
    unfold deleteSession
    split
    · exact .unchanged
    · split
      · exact .unchanged
      · exact .deleted (by omega)
  | sweep => cases stepped; exact .swept
  | abandon p => exact abandon_cases stepped
  | chunkBegin p call => exact chunk_cases stepped (.inl ⟨call,rfl⟩)
  | chunkCheck p | chunkLookup p | chunkOpen p | chunkWrite p | leave p => exact chunk_cases stepped (by simp)
  | chunkRecord p works | status p sessionId => exact chunk_cases stepped (by simp)
  | completeBegin p sessionId => exact complete_cases stepped (.inl ⟨sessionId,rfl⟩)
  | completeLoad p | completeCount p | completeOpen p | verify p | placeRename p | placeCopy p => exact complete_cases stepped (by simp)
  | read p count | recordFailed p outcome | stream p again | removeTemp p works | recordCompleted p outcome => exact complete_cases stepped (by simp)

end Inversion

-- The in-memory maps count the calls that hold a lease, and a call that holds
-- the exclusive one is alone.
structure Leases (active : String → Nat) (completing : String → Bool) (procs : Nat → Stage) : Prop where
  counted : ∀ sessionId, ∃ holders : List Nat, holders.Nodup ∧ (∀ p, p ∈ holders ↔ holds (procs p) = some sessionId) ∧
    active sessionId = holders.length
  exclusive : ∀ p sessionId, completes (procs p) = some sessionId → ∀ q, holds (procs q) = some sessionId → q = p
  flagged : ∀ p sessionId, completes (procs p) = some sessionId → completing sessionId = true

section Leases
variable {active : String → Nat} {completing : String → Bool} {procs : Nat → Stage}

theorem initial_leases : Leases (fun _ => 0) (fun _ => false) (fun _ => .idle) :=
  ⟨fun _ => ⟨[],List.nodup_nil,by simp [holds],rfl⟩,by simp [completes],by simp [completes]⟩

theorem unleased (leases : Leases active completing procs) (none : active sessionId = 0) : holds (procs p) ≠ some sessionId := by
  obtain ⟨holders,_,listed,count⟩ := leases.counted sessionId
  intro held
  have member := (listed p).mpr held
  rw [none] at count
  rw [List.eq_nil_of_length_eq_zero count.symm] at member
  cases member

theorem leased (leases : Leases active completing procs) (held : holds (procs p) = some sessionId) : active sessionId ≠ 0 :=
  fun none => unleased leases none held

theorem update_stage (procs : Nat → Stage) (p : Nat) (stage : Stage) (q : Nat) :
    (q = p ∧ Function.update procs p stage q = stage) ∨ (q ≠ p ∧ Function.update procs p stage q = procs q) := by
  by_cases same : q = p
  · exact .inl ⟨same,by rw [same,Function.update_self]⟩
  · exact .inr ⟨same,Function.update_of_ne same stage procs⟩

section
variable (leases : Leases active completing procs)
include leases

theorem stays_leases (p : Nat) (same : holds stage = holds (procs p))
    (level : completes stage = completes (procs p)) : Leases active completing (Function.update procs p stage) := by
  have held : ∀ q, holds (Function.update procs p stage q) = holds (procs q) := by
    intro q
    rcases update_stage procs p stage q with ⟨rfl,moved⟩ | ⟨_,moved⟩
    · rw [moved,same]
    · rw [moved]
  have levels : ∀ q, completes (Function.update procs p stage q) = completes (procs q) := by
    intro q
    rcases update_stage procs p stage q with ⟨rfl,moved⟩ | ⟨_,moved⟩
    · rw [moved,level]
    · rw [moved]
  refine ⟨?_,?_,?_⟩
  · intro sessionId
    obtain ⟨holders,nodup,listed,count⟩ := leases.counted sessionId
    exact ⟨holders,nodup,fun q => by rw [listed q,held q],count⟩
  · intro q sessionId only r also
    rw [levels] at only
    rw [held] at also
    exact leases.exclusive q sessionId only r also
  · intro q sessionId only
    rw [levels] at only
    exact leases.flagged q sessionId only

theorem joins_leases (idle : procs p = .idle) (free : completing sessionId = false)
    (joins : holds stage = some sessionId) (shared : completes stage = none) :
    Leases (Function.update active sessionId (active sessionId + 1)) completing (Function.update procs p stage) := by
  have out : holds (procs p) = none := by rw [idle]; rfl
  have levels : ∀ q other, completes (Function.update procs p stage q) = some other → q ≠ p ∧ completes (procs q) = some other := by
    intro q other only
    rcases update_stage procs p stage q with ⟨rfl,moved⟩ | ⟨different,moved⟩
    · rw [moved,shared] at only
      cases only
    · rw [moved] at only
      exact ⟨different,only⟩
  refine ⟨?_,?_,?_⟩
  · intro other
    obtain ⟨holders,nodup,listed,count⟩ := leases.counted other
    by_cases mine : other = sessionId
    · subst mine
      refine ⟨p::holders,List.nodup_cons.mpr ⟨fun member => ?_,nodup⟩,fun q => ?_,by simp [count]⟩
      · have held := (listed p).mp member
        rw [out] at held
        cases held
      · rw [List.mem_cons,listed]
        rcases update_stage procs p stage q with ⟨rfl,moved⟩ | ⟨different,moved⟩
        · simp [joins]
        · simp [different]
    · refine ⟨holders,nodup,fun q => ?_,by simp [mine,count]⟩
      rw [listed]
      rcases update_stage procs p stage q with ⟨rfl,moved⟩ | ⟨_,moved⟩
      · rw [moved,joins,out]
        simp [Ne.symm mine]
      · rw [moved]
  · intro q other only r also
    obtain ⟨_,before⟩ := levels q other only
    rcases update_stage procs p stage r with ⟨rfl,moved⟩ | ⟨_,moved⟩
    · rw [moved,joins] at also
      cases also
      have busy := leases.flagged q sessionId before
      rw [free] at busy
      cases busy
    · rw [moved] at also
      exact leases.exclusive q other before r also
  · intro q other only
    exact leases.flagged q other (levels q other only).2

theorem completion_leases (idle : procs p = .idle) (none : active sessionId = 0) :
    Leases (Function.update active sessionId 1) (Function.update completing sessionId true)
      (Function.update procs p (.completing sessionId)) := by
  have out : holds (procs p) = Option.none := by rw [idle]; rfl
  refine ⟨?_,?_,?_⟩
  · intro other
    by_cases mine : other = sessionId
    · subst mine
      refine ⟨[p],List.nodup_singleton p,fun q => ?_,by simp⟩
      rw [List.mem_singleton]
      rcases update_stage procs p (.completing other) q with ⟨rfl,moved⟩ | ⟨different,moved⟩
      · simp [holds]
      · rw [moved]
        exact ⟨fun same => absurd same different,fun held => absurd held (unleased leases none)⟩
    · obtain ⟨holders,nodup,listed,count⟩ := leases.counted other
      refine ⟨holders,nodup,fun q => ?_,by simp [mine,count]⟩
      rw [listed]
      rcases update_stage procs p (.completing sessionId) q with ⟨rfl,moved⟩ | ⟨_,moved⟩
      · rw [moved,out]
        simp [holds,Ne.symm mine]
      · rw [moved]
  · intro q other only r also
    rcases update_stage procs p (.completing sessionId) q with ⟨rfl,moved⟩ | ⟨different,moved⟩
    · rw [moved] at only
      cases only
      rcases update_stage procs q (.completing sessionId) r with ⟨same,_⟩ | ⟨_,other⟩
      · exact same
      · rw [other] at also
        exact absurd also (unleased leases none)
    · rw [moved] at only
      rcases update_stage procs p (.completing sessionId) r with ⟨rfl,moved'⟩ | ⟨_,moved'⟩
      · rw [moved'] at also
        cases also
        exact absurd (completes_holds only) (unleased leases none)
      · rw [moved'] at also
        exact leases.exclusive q other only r also
  · intro q other only
    by_cases mine : other = sessionId
    · simp [mine]
    · rw [Function.update_of_ne mine]
      rcases update_stage procs p (.completing sessionId) q with ⟨_,moved⟩ | ⟨_,moved⟩
      · rw [moved] at only
        cases only
        exact absurd rfl mine
      · rw [moved] at only
        exact leases.flagged q other only

theorem leaves_leases (leaving : procs p = .leaving sessionId) :
    Leases (Function.update active sessionId (if active sessionId ≤ 1 then 0 else active sessionId - 1)) completing
      (Function.update procs p .finished) := by
  have held : holds (procs p) = some sessionId := by rw [leaving]; rfl
  have levels : ∀ q other, completes (Function.update procs p .finished q) = some other → completes (procs q) = some other := by
    intro q other only
    rcases update_stage procs p .finished q with ⟨rfl,moved⟩ | ⟨_,moved⟩
    · rw [moved] at only
      cases only
    · rwa [moved] at only
  refine ⟨?_,?_,fun q other only => leases.flagged q other (levels q other only)⟩
  · intro other
    obtain ⟨holders,nodup,listed,count⟩ := leases.counted other
    by_cases mine : other = sessionId
    · subst mine
      refine ⟨holders.erase p,nodup.erase p,fun q => ?_,?_⟩
      · rw [nodup.mem_erase_iff,listed]
        rcases update_stage procs p .finished q with ⟨rfl,moved⟩ | ⟨different,moved⟩
        · simp [holds]
        · simp [different]
      · rw [List.length_erase_of_mem ((listed p).mpr held),Function.update_self,count]
        split <;> omega
    · refine ⟨holders,nodup,fun q => ?_,by simp [mine,count]⟩
      rw [listed]
      rcases update_stage procs p .finished q with ⟨rfl,moved⟩ | ⟨_,moved⟩
      · rw [moved,held]
        simp [holds,Ne.symm mine]
      · rw [moved]
  · intro q other only r also
    rcases update_stage procs p .finished r with ⟨_,moved⟩ | ⟨_,moved⟩
    · rw [moved] at also
      cases also
    · rw [moved] at also
      exact leases.exclusive q other (levels q other only) r also

theorem completed_leases (leaving : procs p = .completeLeaving sessionId) :
    Leases (Function.update active sessionId 0) (Function.update completing sessionId false)
      (Function.update procs p .finished) := by
  have only : completes (procs p) = some sessionId := by rw [leaving]; rfl
  have before : ∀ q other, holds (Function.update procs p .finished q) = some other → holds (procs q) = some other ∧ other ≠ sessionId := by
    intro q other held
    rcases update_stage procs p .finished q with ⟨rfl,moved⟩ | ⟨different,moved⟩
    · rw [moved] at held
      cases held
    · rw [moved] at held
      exact ⟨held,by rintro rfl; exact different (leases.exclusive p other only q held)⟩
  have levels : ∀ q other, completes (Function.update procs p .finished q) = some other → completes (procs q) = some other := by
    intro q other level
    rcases update_stage procs p .finished q with ⟨rfl,moved⟩ | ⟨_,moved⟩
    · rw [moved] at level
      cases level
    · rwa [moved] at level
  refine ⟨?_,?_,?_⟩
  · intro other
    by_cases mine : other = sessionId
    · subst mine
      refine ⟨[],List.nodup_nil,fun q => ?_,by simp⟩
      constructor
      · intro member
        cases member
      · intro held
        exact absurd rfl (before q other held).2
    · obtain ⟨holders,nodup,listed,count⟩ := leases.counted other
      refine ⟨holders,nodup,fun q => ?_,by simp [mine,count]⟩
      rw [listed]
      rcases update_stage procs p .finished q with ⟨rfl,moved⟩ | ⟨_,moved⟩
      · rw [moved,completes_holds only]
        simp [holds,Ne.symm mine]
      · rw [moved]
  · intro q other level r also
    exact leases.exclusive q other (levels q other level) r (before r other also).1
  · intro q other level
    have mine := (before q other (completes_holds level)).2
    rw [Function.update_of_ne mine]
    exact leases.flagged q other (levels q other level)

end

end Leases

theorem getTransfer_row (found : getTransfer s sessionId = some t) : t ∈ s.transfers.rows ∧ t.id = sessionId := by
  refine ⟨List.mem_of_find?_eq_some found,?_⟩
  simpa using List.find?_some found

theorem advance_keeps (advanced : Advance sha256 s p stage) :
    holds stage = holds (s.procs p) ∧ completes stage = completes (s.procs p) := by
  cases advanced with
  | refused stands | missing stands _ | chunkOpened stands _ | checked stands _ _ | counted stands _ | hashing stands _
  | readHash _ stands | readCopy _ stands | verified stands _ _ | mismatched stands | stream stands _ =>
    rw [stands]
    exact ⟨rfl,rfl⟩
  | gaveUp lease =>
    obtain ⟨held,level⟩ := unwritten_holds lease
    exact ⟨held.symm,level.symm⟩
  | quit lease =>
    have level := unrecorded_completes lease
    exact ⟨(completes_holds level).symm,level.symm⟩
  | loaded stands found _ =>
    rw [stands,← (getTransfer_row found).2]
    exact ⟨rfl,rfl⟩

theorem created_parts (inserted : createTransferWithinLimits clean t = .ok created) :
    ∃ transfers, clean.transfers.insert t = some transfers ∧ created = {clean with transfers := transfers} := by
  unfold createTransferWithinLimits at inserted
  dsimp only at inserted
  split at inserted
  · split at inserted
    · cases inserted
    · rename_i transfers stored
      cases inserted
      exact ⟨transfers,stored,rfl⟩
  · cases inserted

theorem step_leases (leases : Leases s.active s.completing s.procs)
    (stepped : Stepped sha256 s event next) : Leases next.active next.completing next.procs := by
  cases stepped with
  | unchanged | clock | swept | deleted _ => exact leases
  | opened _ _ inserted _ | rolledBack inserted =>
    obtain ⟨transfers,_,rfl⟩ := created_parts inserted
    exact leases
  | advance advanced => exact stays_leases leases _ (advance_keeps advanced).1 (advance_keeps advanced).2
  | chunkLeased idle free joins shared _ => exact joins_leases leases idle free joins shared
  | duplicate stands _ | chunkWritten stands | chunkSpoiled stands _ | failedStatus stands | failedDeleted stands | failedNeither stands
  | renamed stands _ | copied stands _ | failedRemoved stands | failedKept stands | placedRemoved stands | placedKept stands
  | completedStatus stands | completedDeleted stands | completedNeither stands =>
    exact stays_leases leases _ (by rw [stands]; rfl) (by rw [stands]; rfl)
  | chunkRecorded stands marked =>
    obtain ⟨_,⟨⟩⟩ := Option.ite_none_left_eq_some.mp marked
    exact stays_leases leases _ (by rw [stands]; rfl) (by rw [stands]; rfl)
  | left stands => exact leaves_leases leases stands
  | completionBegun idle free => exact completion_leases leases idle free
  | completionLeft stands => exact completed_leases leases stands

end RemoteFileExplorer.UploadLeases
