import RemoteFileExplorer.Rewrites

namespace RemoteFileExplorer.RecordStores
open Rewrites

structure SyncRule where
  id : String
  hostId : String
  remotePath : String
  localPath : String
  enabled : Bool
  lastSync : Option Int
  deriving DecidableEq, Repr

-- `synced` is the save that ends a run of syncRule, with the rule the run was
-- started with.
inductive RuleOp where
  | save (rule : SyncRule)
  | remove (id : String)
  | removeForHost (hostId : String)
  | synced (rule : SyncRule) (time : Int)
  deriving DecidableEq, Repr

def saved (rules : List SyncRule) (rule : SyncRule) : List SyncRule := rules.filter (fun r => r.id != rule.id) ++ [rule]

def applyRule (rules : List SyncRule) : RuleOp → List SyncRule
  | .save rule => saved rules rule
  | .remove id => rules.filter (fun r => r.id != id)
  | .removeForHost hostId => rules.filter (fun r => r.hostId != hostId)
  | .synced rule time => saved rules {rule with lastSync := some time}

def intendRule (rules : List SyncRule) : RuleOp → List SyncRule
  | .synced rule time => (rules.find? (fun r => r.id == rule.id)).elim rules (fun r => saved rules {r with lastSync := some time})
  | op => applyRule rules op

def byUser : RuleOp → Bool
  | .synced _ _ => false
  | _ => true

def applyMark (done ids : List String) : List String := ids.foldl (fun done id => if id ∈ done then done else done ++ [id]) done
def skipsMark (done ids : List String) : Bool := ids.all (· ∈ done)

structure State where
  rules : Store (List SyncRule) RuleOp
  syncs : List SyncRule
  photos : Store (List String) (List String)
  deriving DecidableEq

inductive Event where
  | rules (action : Action RuleOp)
  | syncStarts (rule : SyncRule)
  | syncEnds (k : Nat) (failed : Bool) (time : Int)
  | photos (action : Action (List String))
  deriving DecidableEq

def initial (rules : List SyncRule) (done : List String) : State := ⟨Rewrites.fresh rules,[],Rewrites.fresh done⟩

def actRules (s : State) (action : Action RuleOp) : Option State :=
  (act applyRule (fun _ _ => false) s.rules action).map (fun rules => {s with rules := rules})

-- A run that failed or was cancelled ends without the save.
def step (s : State) : Event → Option State
  | .rules (.call op) => if byUser op then actRules s (.call op) else none
  | .rules action => actRules s action
  | .syncStarts rule => some {s with syncs := s.syncs ++ [rule]}
  | .syncEnds k failed time =>
    match s.syncs[k]? with
    | none => none
    | some rule =>
      let ended := {s with syncs := s.syncs.eraseIdx k}
      if failed then some ended else actRules ended (.call (.synced rule time))
  | .photos action => (act applyMark skipsMark s.photos action).map (fun photos => {s with photos := photos})

def agrees (rules : List SyncRule) : RuleOp → Bool
  | .synced rule _ => (rules.find? (fun r => r.id == rule.id)).any (fun r => {r with lastSync := rule.lastSync} == rule)
  | _ => true

-- Nobody else has written since the writer read, and the rule of a sync that
-- ends has not been changed since the sync began.
def undisturbed (s : State) : Event → Bool
  | .rules (.write k) =>
    match s.rules.jobs[k]? with
    | some ⟨op,.read value⟩ => value == s.rules.stored && agrees s.rules.stored op
    | _ => true
  | .photos (.write k) =>
    match s.photos.jobs[k]? with
    | some ⟨_,.read value⟩ => value == s.photos.stored
    | _ => true
  | _ => true

section Marks
variable {done ids : List String}

theorem applyMark_mem : own ∈ applyMark done ids ↔ own ∈ done ∨ own ∈ ids := by
  unfold applyMark
  induction ids generalizing done with
  | nil => simp
  | cons first rest ih =>
    rw [List.foldl_cons,ih,List.mem_cons]
    split
    · rename_i known
      constructor
      · rintro (old | later)
        · exact .inl old
        · exact .inr (.inr later)
      · rintro (old | rfl | later)
        · exact .inl old
        · exact .inl known
        · exact .inr later
    · rw [List.mem_append,List.mem_singleton,or_assoc]

theorem skipsMark_same (skipped : skipsMark done ids = true) : applyMark done ids = done := by
  unfold applyMark
  induction ids with
  | nil => rfl
  | cons first rest ih =>
    simp only [skipsMark,List.all_cons,Bool.and_eq_true,decide_eq_true_eq] at skipped
    rw [List.foldl_cons,if_pos skipped.1]
    exact ih skipped.2

theorem marks_kept (marks : List (List String)) : own ∈ marks.foldl applyMark done ↔ own ∈ done ∨ ∃ ids ∈ marks, own ∈ ids := by
  induction marks generalizing done with
  | nil => simp
  | cons first rest ih =>
    rw [List.foldl_cons,ih,applyMark_mem,or_assoc]
    simp

end Marks

theorem agrees_meant (agreed : agrees rules op = true) : applyRule rules op = intendRule rules op := by
  cases op with
  | save | remove | removeForHost => rfl
  | synced rule time =>
    simp only [agrees] at agreed
    cases found : rules.find? (fun r => r.id == rule.id) with
    | none => simp [found] at agreed
    | some r =>
      simp only [found,Option.any_some,beq_iff_eq] at agreed
      have same : {r with lastSync := some time} = {rule with lastSync := some time} := by rw [← agreed]
      simp only [applyRule,intendRule,found,Option.elim,same]

section Runs
variable {s next last : State} {event : Event} {events : List Event} {start : List SyncRule} {done : List String}

def Kept (start : List SyncRule) (done : List String) (s : State) : Prop :=
  Reflects intendRule start s.rules ∧ Reflects applyMark done s.photos

theorem act_rules (held : Reflects intendRule start s.rules) (meets : undisturbed s (.rules action) = true) (acted : actRules s action = some next) :
    Reflects intendRule start next.rules ∧ next.photos = s.photos := by
  obtain ⟨rules,moved,rfl⟩ := Option.map_eq_some_iff.mp acted
  refine ⟨?_,rfl⟩
  apply act_reflects held (by simp) _ moved
  intro k op value same known
  subst same
  simp only [undisturbed,known,Bool.and_eq_true,beq_iff_eq] at meets
  exact ⟨meets.1,agrees_meant meets.2⟩

theorem step_reflects (kept : Kept start done s) (meets : undisturbed s event = true) (stepped : step s event = some next) : Kept start done next := by
  obtain ⟨rules,photos⟩ := kept
  cases event with
  | rules action =>
    have acted : actRules s action = some next := by
      cases action with
      | call op =>
        obtain ⟨_,stepped⟩ := Option.ite_none_right_eq_some.mp stepped
        exact stepped
      | read k | write k => exact stepped
    obtain ⟨reflects,same⟩ := act_rules rules meets acted
    exact ⟨reflects,same ▸ photos⟩
  | syncStarts rule =>
    cases stepped
    exact ⟨rules,photos⟩
  | syncEnds k failed time =>
    simp only [step] at stepped
    split at stepped
    · cases stepped
    · split at stepped
      · cases stepped
        exact ⟨rules,photos⟩
      · have before : Reflects intendRule start ({s with syncs := s.syncs.eraseIdx k} : State).rules := rules
        obtain ⟨reflects,same⟩ := act_rules before rfl stepped
        exact ⟨reflects,same ▸ photos⟩
  | photos action =>
    obtain ⟨moved,acted,rfl⟩ := Option.map_eq_some_iff.mp stepped
    refine ⟨rules,?_⟩
    apply act_reflects photos (fun _ _ skipped => skipsMark_same skipped) _ acted
    intro k ids value same known
    subst same
    simp only [undisturbed,known,beq_iff_eq] at meets
    exact ⟨meets,rfl⟩

theorem record_stores_reflect (start : List SyncRule) (done : List String)
    (meets : Runs.Every step (fun s event => undisturbed s event = true) (initial start done) events)
    (ran : Runs.run step (initial start done) events = some last) :
    last.rules.stored = last.rules.completed.foldl intendRule start ∧ ∀ ids ∈ last.photos.completed, ∀ own ∈ ids, own ∈ last.photos.stored := by
  have begun : Kept start done (initial start done) := ⟨rfl,rfl⟩
  have kept : Kept start done last :=
    Runs.run_preserves_when (Kept start done) (fun s event next held ok stepped => step_reflects held ok stepped) begun meets ran
  refine ⟨kept.1,?_⟩
  intro ids member own within
  rw [kept.2,marks_kept]
  exact .inr ⟨ids,member,within⟩

def documents : SyncRule := ⟨"r1","pc","/Documents","content://tree/docs",true,none⟩

def editedThenSynced : List Event :=
  [.rules (.call (.save {documents with enabled := false})),.rules (.read 0),.rules (.write 0),
    .syncStarts {documents with enabled := false},.syncEnds 0 false 7,.rules (.read 1),.rules (.write 1),
    .photos (.call ["a"]),.photos (.read 0),.photos (.write 0)]

theorem changes_in_turn_kept : ∃ last, Runs.run step (initial [documents] []) editedThenSynced = some last ∧
    last.rules.stored = last.rules.completed.foldl intendRule [documents] ∧ ∀ ids ∈ last.photos.completed, ∀ own ∈ ids, own ∈ last.photos.stored := by
  refine ⟨_,rfl,?_⟩
  exact record_stores_reflect [documents] [] (show Runs.Every step _ _ editedThenSynced by decide) rfl

-- The rule is removed while its sync runs and comes back when the sync ends;
-- of two overlapping markDone calls the later write drops the ids of the other.
theorem removed_rule_returns :
    (∃ last, Runs.run step (initial [documents] [])
      [.syncStarts documents,.rules (.call (.remove "r1")),.rules (.read 0),.rules (.write 0),.syncEnds 0 false 7,.rules (.read 1),.rules (.write 1)] = some last ∧
      last.rules.completed = [.remove "r1",.synced documents 7] ∧ last.rules.stored = [{documents with lastSync := some 7}]) ∧
    ∃ last, Runs.run step (initial [documents] [])
      [.photos (.call ["a"]),.photos (.call ["b"]),.photos (.read 0),.photos (.read 1),.photos (.write 0),.photos (.write 1)] = some last ∧
      ["a"] ∈ last.photos.completed ∧ "a" ∉ last.photos.stored := by
  constructor
  · exact ⟨_,rfl,rfl,rfl⟩
  · refine ⟨_,rfl,?_,?_⟩ <;> decide

end Runs

end RemoteFileExplorer.RecordStores
