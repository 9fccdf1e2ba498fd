import RemoteFileExplorer.UploadIntegrity

namespace RemoteFileExplorer.UploadSweeps
open Runs Tables Transfers UploadLeases UploadSessions UploadIntegrity

def Leased (s : State) (id : String) : Prop := ∃ p, holds (s.procs p) = some id

-- A row that was never touched is as old as its temp file.
def lastActivity (s : State) (t : Transfer) : Option Int :=
  if t.updatedAt ≤ 0 then (s.temps t.id).map (fun inode => (s.inodes inode).modTime) else some t.updatedAt

def Recent (s : State) (t : Transfer) : Prop := ∃ time, lastActivity s t = some time ∧ s.now - transferStaleAfter ≤ time

theorem recent_fresh (recent : Recent s t) : isStale s (s.now - transferStaleAfter) t = false := by
  obtain ⟨time,active,newer⟩ := recent
  unfold lastActivity at active
  unfold isStale
  split
  · rename_i untouched
    rw [if_pos untouched] at active
    obtain ⟨inode,named,rfl⟩ := Option.map_eq_some_iff.mp active
    simp only [named,decide_eq_false_iff_not,Int.not_lt]
    exact newer
  · rename_i touched
    rw [if_neg touched] at active
    cases active
    simpa using newer

def staleIds (s : State) : List String :=
  (s.transfers.rows.filter fun t =>
    t.status = .isOpen && s.active t.id == 0 && isStale s (s.now - transferStaleAfter) t).map Transfer.id

theorem stale_row (doomed : sessionId ∈ staleIds s) :
    ∃ t ∈ s.transfers.rows, t.id = sessionId ∧ t.status = .isOpen ∧ s.active t.id = 0 ∧ isStale s (s.now - transferStaleAfter) t = true := by
  obtain ⟨t,chosen,named⟩ := List.mem_map.mp doomed
  obtain ⟨stored,stale⟩ := List.mem_filter.mp chosen
  simp only [Bool.and_eq_true,decide_eq_true_eq,beq_iff_eq] at stale
  exact ⟨t,stored,named,stale.1.1,stale.1.2,stale.2⟩

theorem sweep_temps (spared : sessionId ∉ staleIds s) : (sweepStaleSessions s).temps sessionId = s.temps sessionId := by
  change (if (staleIds s).contains sessionId then none else s.temps sessionId) = s.temps sessionId
  rw [if_neg]
  rwa [List.contains_iff_mem]

theorem spared_ids (stored : t ∈ s.transfers.rows) (live : s.active t.id ≠ 0 ∨ Recent s t) : t.id ∉ staleIds s := by
  intro doomed
  obtain ⟨u,member,same,_,idle,stale⟩ := stale_row doomed
  have equal : u = t := same_row member stored same
  rw [equal] at idle stale
  rcases live with busy | recent
  · exact busy idle
  · rw [recent_fresh recent] at stale
    cases stale

theorem spared_row (stored : t ∈ s.transfers.rows) (isOpen : t.status = .isOpen) (live : s.active t.id ≠ 0 ∨ Recent s t) :
    t ∈ (cleanupStale s).transfers.rows := by
  refine prune_keeps (Table.mem_delete.mpr ⟨stored,?_⟩) isOpen
  rw [Bool.eq_false_iff]
  intro doomed
  exact spared_ids stored live (List.contains_iff_mem.mp doomed)

theorem orphans_spare {s : State} (id : String) (owned : s.active id ≠ 0 ∨ ∃ t ∈ s.transfers.rows, t.id = id ∧ t.status = .isOpen) :
    (sweepOrphanTemps s).temps id = s.temps id := by
  simp only [sweepOrphanTemps]
  split
  · exact Eq.symm ‹_›
  · rename_i inode named
    rw [if_neg]
    · exact named.symm
    · rintro ⟨idle,unnamed,_⟩
      rcases owned with busy | ⟨t,stored,same,isOpen⟩
      · exact busy idle
      · simp only [Bool.not_eq_true',List.any_eq_false,openRows,List.mem_filter,decide_eq_true_eq] at unnamed
        exact unnamed t ⟨stored,isOpen⟩ (by simpa using same)

theorem cleanup_open_temps (stored : t ∈ (cleanupStale s).transfers.rows) (isOpen : t.status = .isOpen) :
    (cleanupStale s).temps t.id = s.temps t.id := by
  have kept : t ∈ (pruneTerminalTransfers (sweepStaleSessions s)).transfers.rows := stored
  unfold cleanupStale
  rw [orphans_spare t.id (.inr ⟨t,kept,rfl,isOpen⟩)]
  have spared : t.id ∉ staleIds s := by
    intro doomed
    have swept := (Table.mem_delete.mp (prune_mem kept)).2
    have listed : (staleIds s).contains t.id = true := List.contains_iff_mem.mpr doomed
    rw [show (staleIds s).contains t.id = false from swept] at listed
    cases listed
  exact sweep_temps spared

theorem leased_temps (leases : Leases s.active s.completing s.procs) (lease : Leased s sessionId) :
    (cleanupStale s).temps sessionId = s.temps sessionId := by
  obtain ⟨p,held⟩ := lease
  have busy : s.active sessionId ≠ 0 := leased leases held
  have still : (pruneTerminalTransfers (sweepStaleSessions s)).active sessionId ≠ 0 := busy
  unfold cleanupStale
  rw [orphans_spare sessionId (.inl still)]
  refine sweep_temps ?_
  intro doomed
  obtain ⟨t,_,same,_,idle,_⟩ := stale_row doomed
  rw [same] at idle
  exact busy idle

theorem pruned_row (stored : t ∈ s.transfers.rows) (ended : t.status ≠ .isOpen) (gone : t ∉ (cleanupStale s).transfers.rows) :
    t.terminalAt < s.now - transferHistoryRetention := by
  by_contra young
  apply gone
  refine Table.mem_delete.mpr ⟨Table.mem_delete.mpr ⟨stored,?_⟩,?_⟩
  · rw [Bool.eq_false_iff]
    intro doomed
    obtain ⟨u,member,same,isOpen,_⟩ := stale_row (List.contains_iff_mem.mp doomed)
    rw [same_row member stored same] at isOpen
    exact ended isOpen
  · rw [Bool.eq_false_iff]
    intro doomed
    obtain ⟨u,chosen,same⟩ := List.mem_map.mp (List.contains_iff_mem.mp doomed)
    obtain ⟨member,old⟩ := List.mem_filter.mp chosen
    rw [same_row (sweep_mem member) stored same] at old
    simp only [Bool.and_eq_true,decide_eq_true_eq] at old
    exact young old.2

section Steps
variable {sha256 : Bytes → String} {s next : State} {event : Event}

theorem advance_ends (advanced : Advance sha256 s p stage) : (∀ u, stage ≠ .failedRecorded u) ∧ ∀ u, s.procs p ≠ .tempRemoved u := by
  cases advanced with
  | refused stands | missing stands _ | chunkOpened stands _ | checked stands _ _ | counted stands _ | hashing stands _
  | readHash _ stands | readCopy _ stands | verified stands _ _ | mismatched stands | stream stands _ | loaded stands _ _ =>
    rw [stands]
    exact ⟨by simp,by simp⟩
  | gaveUp lease | quit lease =>
    refine ⟨by simp,?_⟩
    intro u stands
    rw [stands] at lease
    cases lease

theorem moved_failing {procs : Nat → Stage} (other : ∀ u, stage ≠ .failedRecorded u)
    (failing : Function.update procs q stage p = .failedRecorded u) : procs p = .failedRecorded u := by
  rcases update_stage procs q stage p with ⟨_,moved⟩ | ⟨_,moved⟩
  · rw [moved] at failing; exact absurd failing (other u)
  · rwa [moved] at failing

theorem moved_removed {procs : Nat → Stage} (other : ∀ u, procs q ≠ .tempRemoved u) (removed : procs p = .tempRemoved u) :
    Function.update procs q stage p = .tempRemoved u := by
  rcases update_stage procs q stage p with ⟨same,_⟩ | ⟨_,moved⟩
  · rw [same] at removed; exact absurd removed (other u)
  · rw [moved]; exact removed

theorem other_removed (stands : s.procs q = before) (other : ∀ u, before ≠ .tempRemoved u) (removed : s.procs p = .tempRemoved u) :
    Function.update s.procs q stage p = .tempRemoved u := by
  refine moved_removed ?_ removed
  rw [stands]
  exact other

theorem setStatus_ended (ends : status ≠ .isOpen) (member : r ∈ (setTransferStatus s sessionId status).transfers.rows)
    (named : r.id = sessionId) : r.status ≠ .isOpen := by
  obtain ⟨t,_,rfl⟩ := patch_mem.mp member
  by_cases mine : t.id = sessionId
  · simpa [mine] using ends
  · simp [mine] at named

section
variable (stepped : Stepped sha256 s event next)
include stepped

theorem step_failing (failing : next.procs p = .failedRecorded u) :
    s.procs p = .failedRecorded u ∨ (s.procs p = .mismatched u ∧
      ((∀ r ∈ next.transfers.rows, r.id = u.id → r.status ≠ .isOpen) ∨ event = .recordFailed p .neither)) := by
  cases stepped with
  | unchanged | clock | swept | deleted _ => exact .inl failing
  | opened _ _ inserted _ | rolledBack inserted =>
    obtain ⟨transfers,_,rfl⟩ := created_parts inserted
    exact .inl failing
  | advance advanced => exact .inl (moved_failing (advance_ends advanced).1 failing)
  | chunkLeased _ _ joins _ _ =>
    refine .inl (moved_failing ?_ failing)
    intro u stage
    rcases ‹_ ∨ _› with ⟨call,chunk⟩ | leaving
    · rw [chunk] at stage; cases stage
    · rw [leaving] at stage; cases stage
  | chunkRecorded _ marked =>
    cases markChunkReceived_parts marked
    exact .inl (moved_failing (by simp) failing)
  | duplicate _ _ | chunkSpoiled _ _ | chunkWritten _ | left _ | completionLeft _ | completionBegun _ _ | completedNeither _
  | completedStatus _ | completedDeleted _ | failedRemoved _ | failedKept _ | renamed _ _ | copied _ _ | placedRemoved _ | placedKept _ =>
    exact .inl (moved_failing (by simp) failing)
  | @failedStatus q t _ stands =>
    rcases update_stage s.procs q (.failedRecorded t) p with ⟨rfl,moved⟩ | ⟨_,moved⟩
    · cases moved.symm.trans failing
      exact .inr ⟨stands,.inl fun r member named => setStatus_ended (by simp) member named⟩
    · exact .inl (moved.symm.trans failing)
  | @failedDeleted q t _ stands =>
    rcases update_stage s.procs q (.failedRecorded t) p with ⟨rfl,moved⟩ | ⟨_,moved⟩
    · cases moved.symm.trans failing
      exact .inr ⟨stands,.inl fun r member named => absurd named (delete_mem.mp member).2⟩
    · exact .inl (moved.symm.trans failing)
  | @failedNeither q t stands =>
    rcases update_stage s.procs q (.failedRecorded t) p with ⟨rfl,moved⟩ | ⟨_,moved⟩
    · cases moved.symm.trans failing
      exact .inr ⟨stands,.inr rfl⟩
    · exact .inl (moved.symm.trans failing)

theorem step_removed (removed : s.procs p = .tempRemoved u) :
    next.procs p = .tempRemoved u ∨ (∀ r ∈ next.transfers.rows, r.id = u.id → r.status ≠ .isOpen) ∨
      event = .recordCompleted p .neither := by
  cases stepped with
  | unchanged | clock | swept | deleted _ => exact .inl removed
  | opened _ _ inserted _ | rolledBack inserted =>
    obtain ⟨transfers,_,rfl⟩ := created_parts inserted
    exact .inl removed
  | advance advanced => exact .inl (moved_removed (advance_ends advanced).2 removed)
  | chunkRecorded stands marked =>
    cases markChunkReceived_parts marked
    exact .inl (other_removed stands (by simp) removed)
  | chunkLeased stands _ _ _ _ | duplicate stands _ | chunkSpoiled stands _ | chunkWritten stands | left stands | completionLeft stands
  | completionBegun stands _ | failedStatus stands | failedDeleted stands | failedNeither stands | failedRemoved stands
  | failedKept stands | renamed stands _ | copied stands _ | placedRemoved stands | placedKept stands =>
    exact .inl (other_removed stands (by simp) removed)
  | @completedStatus q t _ stands =>
    rcases update_stage s.procs q (.completeLeaving t.id) p with ⟨rfl,_⟩ | ⟨_,moved⟩
    · cases stands.symm.trans removed
      exact .inr (.inl fun r member named => setStatus_ended (by simp) member named)
    · exact .inl (moved.trans removed)
  | @completedDeleted q t _ stands =>
    rcases update_stage s.procs q (.completeLeaving t.id) p with ⟨rfl,_⟩ | ⟨_,moved⟩
    · cases stands.symm.trans removed
      exact .inr (.inl fun r member named => absurd named (delete_mem.mp member).2)
    · exact .inl (moved.trans removed)
  | @completedNeither q t stands =>
    rcases update_stage s.procs q (.completeLeaving t.id) p with ⟨rfl,_⟩ | ⟨_,moved⟩
    · exact .inr (.inr rfl)
    · exact .inl (moved.trans removed)

theorem step_temps (member : r ∈ next.transfers.rows) (isOpen : r.status = .isOpen)
    (gone : next.temps r.id = none) :
    (∃ t ∈ s.transfers.rows, t.id = r.id ∧ t.status = .isOpen ∧ s.temps t.id = none) ∨
    (∃ p u, next.procs p = .tempRemoved u ∧ u.id = r.id) ∨
    (∃ p u, s.procs p = .failedRecorded u ∧ u.id = r.id ∧ r ∈ s.transfers.rows) ∨
    ∃ request destination, event = .openSession request destination .stuck ∧ request.id = r.id := by
  -- Where the step keeps every name of a temp file, the row was without one before.
  have before : (∀ t ∈ s.transfers.rows, t.id = r.id → s.temps t.id = none) →
      (∃ t ∈ s.transfers.rows, core r = core t ∧ (r.status = .isOpen → t.status = .isOpen)) →
      ∃ t ∈ s.transfers.rows, t.id = r.id ∧ t.status = .isOpen ∧ s.temps t.id = none := by
    rintro missing ⟨t,stored,same,wasOpen⟩
    have named := (core_parts same).1.symm
    exact ⟨t,stored,named,wasOpen isOpen,missing t stored named⟩
  have still : s.temps r.id = none → ∀ t ∈ s.transfers.rows, t.id = r.id → s.temps t.id = none := by
    intro missing t _ named
    rwa [named]
  cases stepped with
  | unchanged | clock | advance _ | duplicate _ _ | chunkSpoiled _ _ | chunkWritten _ | left _ | completionLeft _ | failedNeither _
  | completedNeither _ | failedKept _ | renamed _ _ | copied _ _ | placedKept _ =>
    exact .inl (before (still gone) ⟨r,member,rfl,id⟩)
  | swept =>
    rw [cleanup_open_temps member isOpen] at gone
    exact .inl (before (still gone) ⟨r,cleanup_mem member,rfl,id⟩)
  | @opened request created temp allocation destination _ _ inserted names =>
    obtain ⟨transfers,stored,rfl⟩ := created_parts inserted
    rcases (Table.mem_insert stored).mp member with old | rfl
    · have other : r.id ≠ request.id := by
        have clear := (Table.insert_parts stored).1 r old
        simpa [transferKeys,sessionRow] using clear
      have kept : (cleanupStale s).temps r.id = none := by
        rw [←gone]
        exact (Function.update_of_ne other ..).symm
      rw [cleanup_open_temps old isOpen] at kept
      exact .inl (before (still kept) ⟨r,cleanup_mem old,rfl,id⟩)
    · rcases names with made | ⟨_,stuck⟩
      · rw [made] at gone
        simp [sessionRow] at gone
      · rw [stuck]
        exact .inr (.inr (.inr ⟨request,destination,rfl,rfl⟩))
  | @rolledBack request _ _ created inserted =>
    obtain ⟨transfers,stored,rfl⟩ := created_parts inserted
    obtain ⟨present,other⟩ := delete_mem.mp member
    rcases (Table.mem_insert stored).mp present with old | rfl
    · have kept : (cleanupStale s).temps r.id = none := by
        rw [←gone]
        exact (Function.update_of_ne other ..).symm
      rw [cleanup_open_temps old isOpen] at kept
      exact .inl (before (still kept) ⟨r,cleanup_mem old,rfl,id⟩)
    · exact absurd rfl other
  | deleted _ =>
    obtain ⟨present,other⟩ := delete_mem.mp member
    have kept : s.temps r.id = none := by
      rw [←gone]
      exact (Function.update_of_ne other ..).symm
    exact .inl (before (still kept) ⟨r,present,rfl,id⟩)
  | failedDeleted _ | completedDeleted _ => exact .inl (before (still gone) ⟨r,(delete_mem.mp member).1,rfl,id⟩)
  | chunkLeased _ _ _ _ _ | completionBegun _ _ => exact .inl (before (still gone) (touch_origin member))
  | chunkRecorded _ marked =>
    have origin := mark_origin marked member
    cases markChunkReceived_parts marked
    exact .inl (before (still gone) origin)
  | failedStatus _ | completedStatus _ => exact .inl (before (still gone) (setStatus_origin (by simp) member))
  | @failedRemoved p u _ stands =>
    by_cases mine : r.id = u.id
    · exact .inr (.inr (.inl ⟨p,u,stands,mine.symm,member⟩))
    · have kept : s.temps r.id = none := by
        rw [←gone]
        exact (Function.update_of_ne mine ..).symm
      exact .inl (before (still kept) ⟨r,member,rfl,id⟩)
  | @placedRemoved p u _ stands =>
    by_cases mine : r.id = u.id
    · exact .inr (.inl ⟨p,u,Function.update_self ..,mine.symm⟩)
    · have kept : s.temps r.id = none := by
        rw [←gone]
        exact (Function.update_of_ne mine ..).symm
      exact .inl (before (still kept) ⟨r,member,rfl,id⟩)

end

end Steps

section History
variable (sha256 : Bytes → String) (now : Int)

def openedId : Event → Option String
  | .openSession request _ _ => some request.id
  | _ => none

-- The database refuses both to record how the session ended and to let its
-- row go.
def Refuses (s : State) (sessionId : String) : Event → Prop
  | .openSession request _ .stuck => request.id = sessionId
  | .recordFailed p .neither => ∃ u, s.procs p = .mismatched u ∧ u.id = sessionId
  | .recordCompleted p .neither => ∃ u, s.procs p = .tempRemoved u ∧ u.id = sessionId
  | _ => False

def Refused (events : List Event) (sessionId : String) : Prop :=
  ∃ early event late s, events = early ++ event::late ∧ run (step sha256) (initial now) early = some s ∧ Refuses s sessionId event

structure Accounted (events : List Event) (s : State) : Prop where
  rows : ∀ t ∈ s.transfers.rows, t.id ∈ events.filterMap openedId
  failing : ∀ p u, s.procs p = .failedRecorded u → u.id ∈ events.filterMap openedId ∧
    ∀ t ∈ s.transfers.rows, t.id = u.id → t.status = .isOpen → Refused sha256 now events u.id
  temp : ∀ t ∈ s.transfers.rows, t.status = .isOpen → s.temps t.id = none →
    (∃ p u, s.procs p = .tempRemoved u ∧ u.id = t.id) ∨ Refused sha256 now events t.id

variable {sha256 now} {s next : State} {event : Event} {events : List Event}

theorem refused_later (refused : Refused sha256 now events sessionId) : Refused sha256 now (events ++ [event]) sessionId := by
  obtain ⟨early,refusal,late,middle,split,ran,refuses⟩ := refused
  exact ⟨early,refusal,late ++ [event],middle,by rw [split]; simp,ran,refuses⟩

theorem refused_now (ran : run (step sha256) (initial now) events = some s) (refuses : Refuses s sessionId event) :
    Refused sha256 now (events ++ [event]) sessionId :=
  ⟨events,event,[],s,rfl,ran,refuses⟩

theorem opened_later (listed : sessionId ∈ events.filterMap openedId) : sessionId ∈ (events ++ [event]).filterMap openedId := by
  rw [List.filterMap_append]
  exact List.mem_append_left _ listed

theorem opened_fresh (fresh : ((events ++ [Event.openSession request destination allocation]).filterMap openedId).Nodup)
    (listed : sessionId ∈ events.filterMap openedId) : sessionId ≠ request.id := by
  rw [List.filterMap_append,List.nodup_append] at fresh
  exact fresh.2.2 sessionId listed request.id (by simp [openedId])

theorem step_accounted (sound : Sound sha256 s) (accounted : Accounted sha256 now events s)
    (fresh : ((events ++ [event]).filterMap openedId).Nodup) (ran : run (step sha256) (initial now) events = some s)
    (stepped : Stepped sha256 s event next) : Accounted sha256 now (events ++ [event]) next := by
  refine ⟨?_,?_,?_⟩
  · intro r member
    rcases step_rows stepped member with ⟨t,stored,same,_⟩ | ⟨request,_,_,rfl,rfl,_⟩
    · rw [(core_parts same).1]
      exact opened_later (accounted.rows t stored)
    · simp [openedId,sessionRow]
  · intro p u failing
    rcases step_failing stepped failing with before | ⟨mismatched,outcome⟩
    · obtain ⟨listed,refused⟩ := accounted.failing p u before
      refine ⟨opened_later listed,?_⟩
      intro r member named isOpen
      rcases step_rows stepped member with ⟨t,stored,same,wasOpen⟩ | ⟨request,_,_,rfl,rfl,_⟩
      · exact refused_later (refused t stored ((core_parts same).1.symm.trans named) (wasOpen isOpen))
      · exact absurd named.symm (opened_fresh fresh listed)
    · have standing : Standing s u := sound.calls.stands p u (by rw [mismatched]; rfl)
      obtain ⟨row,stored,named,_⟩ := standing_id standing
      refine ⟨opened_later (named ▸ accounted.rows row stored),?_⟩
      intro r member same isOpen
      rcases outcome with ended | rfl
      · exact absurd isOpen (ended r member same)
      · exact refused_now ran ⟨u,mismatched,rfl⟩
  · intro r member isOpen gone
    rcases step_temps stepped member isOpen gone with ⟨t,stored,named,wasOpen,missing⟩ | taken | ⟨p,u,failing,named,stored⟩ | ⟨request,destination,rfl,named⟩
    · rcases accounted.temp t stored wasOpen missing with ⟨p,u,removed,same⟩ | refused
      · have mine : u.id = r.id := same.trans named
        rcases step_removed stepped removed with stays | ended | rfl
        · exact .inl ⟨p,u,stays,mine⟩
        · exact absurd isOpen (ended r member mine.symm)
        · exact .inr (refused_now ran ⟨u,removed,mine⟩)
      · rw [←named]
        exact .inr (refused_later refused)
    · exact .inl taken
    · rw [←named]
      exact .inr (refused_later ((accounted.failing p u failing).2 r stored named.symm isOpen))
    · exact .inr (refused_now ran named)

theorem run_accounted (fresh : (events.filterMap openedId).Nodup) (ran : run (step sha256) (initial now) events = some s) :
    Accounted sha256 now events s := by
  refine run_history (Accounted sha256 now) ?_ ⟨by simp [initial],by simp [initial],by simp [initial]⟩ ran
  intro past middle event next before accounted stepped front
  refine step_accounted (run_sound before) accounted ?_ before (step_cases stepped)
  exact fresh.sublist (front.sublist.filterMap openedId)

end History

theorem sweeps_spare_live_uploads (sha256 : Bytes → String) (now : Int) (events : List Event) (last : State)
    (fresh : (events.filterMap openedId).Nodup) (ran : run (step sha256) (initial now) events = some last) :
    (∀ t ∈ last.transfers.rows, t.status = .isOpen → Leased last t.id ∨ Recent last t →
      t ∈ (cleanupStale last).transfers.rows ∧ (cleanupStale last).temps t.id = last.temps t.id) ∧
    (∀ t ∈ last.transfers.rows, Leased last t.id → (cleanupStale last).temps t.id = last.temps t.id) ∧
    (∀ t ∈ last.transfers.rows, t.status ≠ .isOpen → t ∉ (cleanupStale last).transfers.rows →
      t.terminalAt < last.now - transferHistoryRetention) ∧
    (∀ t ∈ last.transfers.rows, t.status = .isOpen → last.temps t.id = none →
      (∃ p u, last.procs p = .tempRemoved u ∧ u.id = t.id) ∨ Refused sha256 now events t.id) ∧
    ∀ c ∈ last.chunks.rows, ∃ t ∈ last.transfers.rows, t.id = c.1 := by
  have sound := run_sound ran
  refine ⟨?_,?_,?_,(run_accounted fresh ran).temp,sound.files.owned⟩
  · intro t stored isOpen live
    have busy : last.active t.id ≠ 0 ∨ Recent last t := by
      rcases live with ⟨p,held⟩ | recent
      · exact .inl (leased sound.leases held)
      · exact .inr recent
    have kept := spared_row stored isOpen busy
    exact ⟨kept,cleanup_open_temps kept isOpen⟩
  · intro t _ lease
    exact leased_temps sound.leases lease
  · intro t stored ended gone
    exact pruned_row stored ended gone

theorem resumed_upload_spared : ∃ last t, run (step twoChunkHash) (initial 1)
      [.openSession ⟨"u1","/home/report.pdf",3,2,"whole",false,"d1"⟩ false .made,.clock 700000,.status 0 "u1",.leave 0,.clock 3600] = some last ∧
    last.transfers.rows = [t] ∧ t ∈ (cleanupStale last).transfers.rows := by
  obtain ⟨last,t,ran,rows,isOpen,stamp,clock⟩ : ∃ last t, run (step twoChunkHash) (initial 1)
      [.openSession ⟨"u1","/home/report.pdf",3,2,"whole",false,"d1"⟩ false .made,.clock 700000,.status 0 "u1",.leave 0,.clock 3600] = some last ∧
      last.transfers.rows = [t] ∧ t.status = .isOpen ∧ t.updatedAt = 700001 ∧ last.now = 703601 := ⟨_,_,rfl,rfl,rfl,rfl,rfl⟩
  have stored : t ∈ last.transfers.rows := by rw [rows]; exact List.mem_singleton_self t
  obtain ⟨spared,_⟩ := sweeps_spare_live_uploads twoChunkHash 1 _ last (by decide) ran
  refine ⟨last,t,ran,rows,(spared t stored isOpen (.inr ⟨700001,?_,?_⟩)).1⟩
  · simp [lastActivity,stamp]
  · simp [clock,transferStaleAfter]

theorem published_row_without_temp : ∃ last t, run (step twoChunkHash) (initial 0) (twoChunks ++ [.removeTemp 3 true]) = some last ∧
    last.transfers.rows = [t] ∧ t.status = .isOpen ∧ last.temps t.id = none := ⟨_,_,rfl,rfl,rfl,rfl⟩

end RemoteFileExplorer.UploadSweeps
