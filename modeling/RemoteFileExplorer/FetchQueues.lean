import Mathlib.Data.List.Nodup
import RemoteFileExplorer.Runs

namespace RemoteFileExplorer.FetchQueues
open Runs

variable {Key Value Error : Type} [DecidableEq Key]

-- `throws` is set for a load that throws before it returns a promise; `outcome`
-- is how the load ended, once it has.
structure Job (Key Value Error : Type) where
  key : Key
  throws : Option Error
  started : Bool
  abandoned : Bool
  aborted : Bool
  subs : List Nat
  outcome : Option (Except Error Value)

-- `settled` holds every call of resolve or reject, in order.
structure Sub (Value Error : Type) where
  job : Nat
  done : Bool
  settled : List (Except Error Value)

-- Jobs and subscribers are numbered in the order in which they are made, and
-- `running` are the runs whose load is under way.
structure Queue (Key Value Error : Type) where
  inFlight : Key → Option Nat
  pending : List Nat
  active : Nat
  running : List Nat
  jobs : Nat → Option (Job Key Value Error)
  subs : Nat → Option (Sub Value Error)
  nextJob : Nat
  nextSub : Nat

def empty : Queue Key Value Error := ⟨fun _ => none,[],0,[],fun _ => none,fun _ => none,0,0⟩

def alter {α : Type} (f : Nat → Option α) (n : Nat) (g : α → α) : Nat → Option α := fun k => if k = n then (f k).map g else f k

def put {α : Type} (f : Nat → Option α) (n : Nat) (a : α) : Nat → Option α := fun k => if k = n then some a else f k

def Sub.settle (sub : Sub Value Error) (r : Except Error Value) : Sub Value Error := { sub with done := true,settled := sub.settled ++ [r] }

def settle (s : Queue Key Value Error) (i : Nat) (sub : Sub Value Error) (r : Except Error Value) : Queue Key Value Error :=
  { s with subs := put s.subs i (sub.settle r),jobs := alter s.jobs sub.job fun job => { job with subs := job.subs.erase i } }

def finish (r : Except Error Value) (s : Queue Key Value Error) (i : Nat) : Queue Key Value Error :=
  match s.subs i with
  | none => s
  | some sub => if sub.done then s else settle s i sub r

def unlist (s : Queue Key Value Error) (key : Key) (j : Nat) : Queue Key Value Error :=
  { s with inFlight := fun other => if other = key ∧ s.inFlight key = some j then none else s.inFlight other }

def ended (s : Queue Key Value Error) (j : Nat) (r : Except Error Value) : Queue Key Value Error :=
  match s.jobs j with
  | none => s
  | some job =>
    let told := if job.abandoned then s else job.subs.foldl (finish r) s
    { unlist told job.key j with
      jobs := alter told.jobs j fun job => { job with outcome := some r }
      active := told.active - 1
      running := told.running.erase j }

def begun (s : Queue Key Value Error) (j : Nat) : Queue Key Value Error :=
  { s with
    jobs := alter s.jobs j fun job => { job with started := true }
    active := s.active + 1
    running := s.running ++ [j] }

section Calls
variable (maxConcurrent : Nat) (cancelledValue : Value)

def pumpWith : Nat → Queue Key Value Error → Queue Key Value Error
  | 0,s => s
  | rounds + 1,s =>
    if maxConcurrent ≤ s.active then s else
    match s.pending with
    | [] => s
    | j::rest =>
      let s := { s with pending := rest }
      match s.jobs j with
      | none => pumpWith rounds s
      | some job =>
        if job.abandoned || job.subs.isEmpty then pumpWith rounds s else
        match job.throws with
        | none => pumpWith rounds (begun s j)
        | some e => pumpWith rounds (pumpWith rounds (ended (begun s j) j (.error e)))

def pump (s : Queue Key Value Error) : Queue Key Value Error := pumpWith maxConcurrent s.pending.length s

def enlist (s : Queue Key Value Error) (key : Key) (throws : Option Error) : Queue Key Value Error :=
  { s with
    inFlight := fun other => if other = key then some s.nextJob else s.inFlight other
    pending := s.pending ++ [s.nextJob]
    jobs := put s.jobs s.nextJob ⟨key,throws,false,false,false,[s.nextSub],none⟩
    subs := put s.subs s.nextSub ⟨s.nextJob,false,[]⟩
    nextJob := s.nextJob + 1
    nextSub := s.nextSub + 1 }

def join (s : Queue Key Value Error) (j : Nat) : Queue Key Value Error :=
  { s with
    jobs := alter s.jobs j fun job => { job with subs := job.subs ++ [s.nextSub] }
    subs := put s.subs s.nextSub ⟨j,false,[]⟩
    nextSub := s.nextSub + 1 }

def request (s : Queue Key Value Error) (key : Key) (throws : Option Error) : Queue Key Value Error :=
  pump maxConcurrent ((s.inFlight key).elim (enlist s key throws) (join s))

def abandon (s : Queue Key Value Error) (j : Nat) (job : Job Key Value Error) : Queue Key Value Error :=
  { unlist s job.key j with
    jobs := alter s.jobs j fun job => { job with abandoned := true,aborted := job.started || job.aborted }
    pending := if job.started then s.pending else s.pending.filter (· ≠ j) }

def cancel (s : Queue Key Value Error) (i : Nat) : Queue Key Value Error :=
  match s.subs i with
  | none => s
  | some sub =>
    if sub.done then s else
    let s := settle s i sub (.ok cancelledValue)
    match s.jobs sub.job with
    | none => s
    | some job => if job.subs = [] then pump maxConcurrent (abandon s sub.job job) else s

inductive Event (Key Value Error : Type) where
  | request (key : Key) (throws : Option Error)
  | cancel (sub : Nat)
  | completes (job : Nat) (value : Value)
  | fails (job : Nat) (error : Error)

def step (s : Queue Key Value Error) : Event Key Value Error → Option (Queue Key Value Error)
  | .request key throws => some (request maxConcurrent s key throws)
  | .cancel i => if i < s.nextSub then some (cancel maxConcurrent cancelledValue s i) else none
  | .completes j value => if j ∈ s.running then some (pump maxConcurrent (ended s j (.ok value))) else none
  | .fails j error => if j ∈ s.running then some (pump maxConcurrent (ended s j (.error error))) else none

end Calls

-- Where a subscriber stands: waiting among its job's subscribers, or settled by
-- one call, with the cancelled value after its own cancel or as the load ended.
def Stands (cancelledValue : Value) (past : List (Event Key Value Error)) (job : Job Key Value Error) (i : Nat) (sub : Sub Value Error) : Prop :=
  (sub.done = false ∧ sub.settled = [] ∧ i ∈ job.subs) ∨
    (sub.done = true ∧ i ∉ job.subs ∧ ∃ r, sub.settled = [r] ∧ ((r = .ok cancelledValue ∧ .cancel i ∈ past) ∨ job.outcome = some r))

structure Sound (cancelledValue : Value) (past : List (Event Key Value Error)) (s : Queue Key Value Error) : Prop where
  newJob : ∀ j, s.nextJob ≤ j → s.jobs j = none
  newSub : ∀ i, s.nextSub ≤ i → s.subs i = none
  counted : s.active = s.running.length
  runningOnce : s.running.Nodup
  pendingOnce : s.pending.Nodup
  running : ∀ j, j ∈ s.running ↔ ∃ job, s.jobs j = some job ∧ job.started = true ∧ job.outcome = none
  waiting : ∀ j ∈ s.pending, ∃ job, s.jobs j = some job ∧ job.started = false ∧ job.subs ≠ []
  listed : ∀ j job, s.jobs j = some job → (s.inFlight job.key = some j ↔ job.subs ≠ [])
  known : ∀ key j, s.inFlight key = some j → ∃ job, s.jobs j = some job ∧ job.key = key
  wanted : ∀ j job, s.jobs j = some job → job.subs ≠ [] →
    job.abandoned = false ∧ job.aborted = false ∧ job.outcome = none ∧ (job.started = false → j ∈ s.pending)
  once : ∀ j job, s.jobs j = some job → job.subs.Nodup
  member : ∀ j job, s.jobs j = some job → ∀ i ∈ job.subs, ∃ sub, s.subs i = some sub ∧ sub.job = j ∧ sub.done = false
  stands : ∀ i sub, s.subs i = some sub → ∃ job, s.jobs sub.job = some job ∧ Stands cancelledValue past job i sub

section Loads
variable {cancelledValue : Value} {past : List (Event Key Value Error)} {s : Queue Key Value Error} {job : Job Key Value Error}
  {maxConcurrent : Nat} {j : Nat} {r : Except Error Value}

theorem alter_alter {α : Type} (f : Nat → Option α) (n : Nat) (g h : α → α) : alter (alter f n g) n h = alter f n (h ∘ g) := by
  funext k
  unfold alter
  split
  · rw [Option.map_map]
  · rfl

theorem alter_id {α : Type} (f : Nat → Option α) (n : Nat) {g : α → α} (same : ∀ a, f n = some a → g a = a) : alter f n g = f := by
  funext k
  unfold alter
  split
  · rename_i at_
    subst at_
    cases found : f k with
    | none => rfl
    | some a => rw [Option.map_some,same a found]
  · rfl

omit [DecidableEq Key] in
theorem finish_all (list : List Nat) (waits : ∀ i ∈ list, ∃ sub, s.subs i = some sub ∧ sub.job = j ∧ sub.done = false) (once : list.Nodup) :
    list.foldl (finish r) s = { s with
      subs := fun i => if i ∈ list then (s.subs i).map (·.settle r) else s.subs i
      jobs := alter s.jobs j fun job => { job with subs := job.subs.diff list } } := by
  induction list generalizing s with
  | nil =>
    simp only [List.foldl_nil,List.not_mem_nil,if_false,List.diff_nil]
    rw [alter_id s.jobs j fun _ _ => rfl]
  | cons i rest ih =>
    obtain ⟨apart,distinct⟩ := List.nodup_cons.mp once
    obtain ⟨sub,found,same,open_⟩ := waits i (List.mem_cons_self ..)
    have told : finish r s i = settle s i sub r := by
      unfold finish
      rw [found]
      simp [open_]
    have later : ∀ k ∈ rest, ∃ other, (settle s i sub r).subs k = some other ∧ other.job = j ∧ other.done = false := by
      intro k member
      have differs : k ≠ i := fun equal => apart (equal ▸ member)
      obtain ⟨other,known,rest⟩ := waits k (List.mem_cons_of_mem _ member)
      exact ⟨other,by simp [settle,put,differs,known],rest⟩
    rw [List.foldl_cons,told,ih (s := settle s i sub r) later distinct]
    simp only [settle,same,alter_alter,Queue.mk.injEq,true_and,and_true]
    refine ⟨by simp only [Function.comp_def,List.diff_cons],?_⟩
    funext k
    by_cases at_ : k = i
    · subst at_
      simp [put,apart,found]
    · simp [put,at_]

theorem diff_all (list : List Nat) : list.diff list = [] := by
  induction list with
  | nil => rfl
  | cons i rest ih => rw [List.diff_cons,List.erase_cons_head,ih]

theorem ended_eq (sound : Sound cancelledValue past s) (found : s.jobs j = some job) : ended s j r = { s with
    inFlight := fun key => if key = job.key ∧ s.inFlight job.key = some j then none else s.inFlight key
    jobs := alter s.jobs j fun job => { job with subs := [],outcome := some r }
    subs := fun i => if i ∈ job.subs then (s.subs i).map (·.settle r) else s.subs i
    active := s.active - 1
    running := s.running.erase j } := by
  unfold ended
  rw [found]
  dsimp only
  by_cases left : job.abandoned = true
  · have none : job.subs = [] := by
      by_contra some_
      have kept := (sound.wanted j job found some_).1
      rw [left] at kept
      cases kept
    rw [if_pos left]
    simp only [unlist,Queue.mk.injEq,true_and,and_true,none,List.not_mem_nil,if_false]
    funext k
    unfold alter
    split
    · rename_i at_
      subst at_
      rw [found,Option.map_some,Option.map_some,none]
    · rfl
  · rw [if_neg left,finish_all job.subs (sound.member j job found) (sound.once j job found)]
    simp only [unlist,alter_alter,Queue.mk.injEq,true_and,and_true]
    funext k
    unfold alter
    split
    · rename_i at_
      subst at_
      rw [found,Option.map_some,Option.map_some]
      simp [Function.comp,diff_all]
    · rfl

theorem alter_parts {α : Type} {f : Nat → Option α} {n k : Nat} {g : α → α} {b : α} (found : alter f n g k = some b) :
    (k = n ∧ ∃ a, f n = some a ∧ b = g a) ∨ (k ≠ n ∧ f k = some b) := by
  unfold alter at found
  split at found
  · rename_i at_
    subst at_
    obtain ⟨a,known,same⟩ := Option.map_eq_some_iff.mp found
    exact .inl ⟨rfl,a,known,same.symm⟩
  · exact .inr ⟨‹_›,found⟩

theorem put_same {α : Type} (f : Nat → Option α) (n : Nat) (a : α) : put f n a n = some a := by simp [put]

theorem put_fresh {α : Type} {f : Nat → Option α} {n k : Nat} {b : α} (fresh : f n = none) (a : α) (found : f k = some b) :
    put f n a k = some b := by
  have differs : k ≠ n := by
    rintro rfl
    rw [fresh] at found
    cases found
  rw [put,if_neg differs,found]

omit [DecidableEq Key] in
theorem begun_sound (sound : Sound cancelledValue past s) (front : s.pending = j::rest) :
    Sound cancelledValue past (begun { s with pending := rest } j) := by
  obtain ⟨newJob,newSub,counted,runningOnce,pendingOnce,running,waiting,listed,known,wanted,once,member,stands⟩ := sound
  rw [front] at pendingOnce
  obtain ⟨apart,distinct⟩ := List.nodup_cons.mp pendingOnce
  obtain ⟨job,found,fresh,some_⟩ := waiting j (by rw [front]; exact List.mem_cons_self ..)
  have idle : j ∉ s.running := by
    intro inside
    obtain ⟨other,same,started,_⟩ := (running j).mp inside
    rw [found] at same
    cases same
    rw [fresh] at started
    cases started
  refine ⟨?_,newSub,?_,?_,distinct,?_,?_,?_,?_,?_,?_,?_,?_⟩ <;> dsimp only [begun]
  · grind [alter]
  · simp [counted]
  · grind
  · grind [alter]
  · grind [alter]
  · grind [alter]
  · grind [alter]
  · grind [alter]
  · grind [alter]
  · grind [alter]
  · grind [alter,Stands]

theorem ended_sound (sound : Sound cancelledValue past s) (inside : j ∈ s.running) : Sound cancelledValue past (ended s j r) := by
  obtain ⟨job,found,started,open_⟩ := (sound.running j).mp inside
  rw [ended_eq sound found]
  obtain ⟨newJob,newSub,counted,runningOnce,pendingOnce,running,waiting,listed,known,wanted,once,member,stands⟩ := sound
  have told : ∀ i sub, s.subs i = some sub → i ∈ job.subs → sub.job = j ∧ sub.done = false := by
    intro i sub same mine
    obtain ⟨other,again,belongs⟩ := member j job found i mine
    rw [same] at again
    cases again
    exact belongs
  refine ⟨?_,?_,?_,runningOnce.erase j,pendingOnce,?_,?_,?_,?_,?_,?_,?_,?_⟩ <;> dsimp only
  · grind [alter]
  · grind
  · rw [List.length_erase_of_mem inside,counted]
  · grind [alter]
  · grind [alter]
  · grind [alter]
  · grind [alter]
  · grind [alter]
  · grind [alter]
  · grind [alter]
  · intro i sub same
    by_cases mine : i ∈ job.subs
    · rw [if_pos mine] at same
      obtain ⟨before,had,rfl⟩ := Option.map_eq_some_iff.mp same
      obtain ⟨own,waits⟩ := told i before had mine
      obtain ⟨_,again,stood⟩ := stands i before had
      rw [own,found] at again
      cases again
      refine ⟨{ job with subs := [],outcome := some r },?_,.inr ⟨rfl,List.not_mem_nil,r,?_,.inr rfl⟩⟩
      · change alter s.jobs j _ before.job = _
        rw [own]
        simp [alter,found]
      · rcases stood with ⟨_,none,_⟩ | ⟨done,_⟩
        · rw [Sub.settle,none,List.nil_append]
        · rw [waits] at done
          cases done
    · grind [alter,Stands]

theorem enlist_sound (sound : Sound cancelledValue past s) (key : Key) (throws : Option Error) (absent : s.inFlight key = none) :
    Sound cancelledValue past (enlist s key throws) := by
  obtain ⟨newJob,newSub,counted,runningOnce,pendingOnce,running,waiting,listed,known,wanted,once,member,stands⟩ := sound
  have unborn := newJob s.nextJob (Nat.le_refl _)
  have untold := newSub s.nextSub (Nat.le_refl _)
  have unlisted : s.nextJob ∉ s.pending := by
    intro inside
    obtain ⟨job,found,_⟩ := waiting _ inside
    rw [unborn] at found
    cases found
  refine ⟨?_,?_,counted,runningOnce,?_,?_,?_,?_,?_,?_,?_,?_,?_⟩ <;> dsimp only [enlist]
  · grind [put]
  · grind [put]
  · grind
  · grind [put]
  · intro j inside
    rcases List.mem_append.mp inside with old | new
    · obtain ⟨job,found,rest⟩ := waiting j old
      exact ⟨job,put_fresh unborn _ found,rest⟩
    · rw [List.mem_singleton.mp new]
      exact ⟨_,put_same .. ,rfl,List.cons_ne_nil _ _⟩
  · grind [put]
  · intro other j found
    split at found
    · cases found
      exact ⟨_,put_same ..,by simp [*]⟩
    · obtain ⟨job,stored,same⟩ := known other j found
      exact ⟨job,put_fresh unborn _ stored,same⟩
  · grind [put]
  · grind [put]
  · intro j job found i mine
    by_cases at_ : j = s.nextJob
    · subst at_
      rw [put_same] at found
      cases found
      rw [List.mem_singleton.mp mine]
      exact ⟨_,put_same ..,rfl,rfl⟩
    · rw [put,if_neg at_] at found
      obtain ⟨sub,told,rest⟩ := member j job found i mine
      exact ⟨sub,put_fresh untold _ told,rest⟩
  · intro i sub found
    by_cases at_ : i = s.nextSub
    · subst at_
      rw [put_same] at found
      cases found
      exact ⟨_,put_same ..,.inl ⟨rfl,rfl,List.mem_cons_self ..⟩⟩
    · rw [put,if_neg at_] at found
      obtain ⟨job,stored,stood⟩ := stands i sub found
      exact ⟨job,put_fresh unborn _ stored,stood⟩

omit [DecidableEq Key] in
theorem join_sound (sound : Sound cancelledValue past s) (listedAt : s.inFlight key = some j) : Sound cancelledValue past (join s j) := by
  obtain ⟨newJob,newSub,counted,runningOnce,pendingOnce,running,waiting,listed,known,wanted,once,member,stands⟩ := sound
  have untold := newSub s.nextSub (Nat.le_refl _)
  obtain ⟨job,found,rfl⟩ := known key j listedAt
  have unmet : ∀ k other, s.jobs k = some other → s.nextSub ∉ other.subs := by
    intro k other same mine
    obtain ⟨_,again,_⟩ := member k other same _ mine
    rw [untold] at again
    cases again
  refine ⟨?_,?_,counted,runningOnce,pendingOnce,?_,?_,?_,?_,?_,?_,?_,?_⟩ <;> dsimp only [join]
  · grind [alter]
  · grind [put]
  · grind [alter]
  · grind [alter]
  · grind [alter]
  · grind [alter]
  · grind [alter]
  · grind [alter]
  · intro k other same i mine
    rcases alter_parts same with ⟨rfl,before,had,rfl⟩ | ⟨_,had⟩
    · rcases List.mem_append.mp mine with old | new
      · obtain ⟨sub,told,rest⟩ := member k before had i old
        exact ⟨sub,put_fresh untold _ told,rest⟩
      · rw [List.mem_singleton.mp new]
        exact ⟨_,put_same ..,rfl,rfl⟩
    · obtain ⟨sub,told,rest⟩ := member k other had i mine
      exact ⟨sub,put_fresh untold _ told,rest⟩
  · intro i sub same
    by_cases at_ : i = s.nextSub
    · subst at_
      rw [put_same] at same
      cases same
      refine ⟨_,by rw [alter,if_pos rfl,found]; rfl,.inl ⟨rfl,rfl,?_⟩⟩
      exact List.mem_append_right _ (List.mem_cons_self ..)
    · rw [put,if_neg at_] at same
      grind [alter,Stands]

omit [DecidableEq Key] in
theorem sound_later (sound : Sound cancelledValue past s) (more : List (Event Key Value Error)) : Sound cancelledValue (past ++ more) s := by
  obtain ⟨newJob,newSub,counted,runningOnce,pendingOnce,running,waiting,listed,known,wanted,once,member,stands⟩ := sound
  refine ⟨newJob,newSub,counted,runningOnce,pendingOnce,running,waiting,listed,known,wanted,once,member,?_⟩
  intro i sub found
  obtain ⟨job,same,stood⟩ := stands i sub found
  refine ⟨job,same,?_⟩
  rcases stood with waits | ⟨done,left,r,told,⟨value,asked⟩ | result⟩
  · exact .inl waits
  · exact .inr ⟨done,left,r,told,.inl ⟨value,List.mem_append_left _ asked⟩⟩
  · exact .inr ⟨done,left,r,told,.inr result⟩

omit [DecidableEq Key] in
theorem settle_sound (sound : Sound cancelledValue past s) (asked : .cancel i ∈ past) (found : s.subs i = some sub) (waits : sub.done = false)
    (at_ : s.jobs sub.job = some job) (left : job.subs.erase i ≠ []) :
    Sound cancelledValue past (settle s i sub (.ok cancelledValue)) := by
  obtain ⟨newJob,newSub,counted,runningOnce,pendingOnce,running,waiting,listed,known,wanted,once,member,stands⟩ := sound
  have mine : i ∈ job.subs := by grind [Stands]
  refine ⟨?_,?_,counted,runningOnce,pendingOnce,?_,?_,?_,?_,?_,?_,?_,?_⟩ <;> dsimp only [settle]
  · grind [alter]
  · grind [put]
  · grind [alter]
  · grind [alter]
  · grind [alter]
  · grind [alter]
  · grind [alter]
  · grind [alter]
  · grind [alter,put]
  · grind [alter,put,Stands,Sub.settle]

theorem abandon_sound (sound : Sound cancelledValue past s) (asked : .cancel i ∈ past) (found : s.subs i = some sub) (waits : sub.done = false)
    (at_ : s.jobs sub.job = some job) (left : job.subs.erase i = []) :
    Sound cancelledValue past (abandon (settle s i sub (.ok cancelledValue)) sub.job { job with subs := job.subs.erase i }) := by
  obtain ⟨newJob,newSub,counted,runningOnce,pendingOnce,running,waiting,listed,known,wanted,once,member,stands⟩ := sound
  have mine : i ∈ job.subs := by grind [Stands]
  have only : ∀ k ∈ job.subs, k = i := by
    intro k inside
    by_contra differs
    have kept : k ∈ job.subs.erase i := (List.mem_erase_of_ne differs).mpr inside
    rw [left] at kept
    cases kept
  refine ⟨?_,?_,counted,runningOnce,?_,?_,?_,?_,?_,?_,?_,?_,?_⟩ <;> dsimp only [abandon,unlist,settle]
  · grind [alter]
  · grind [put]
  · split
    · exact pendingOnce
    · exact pendingOnce.filter _
  · grind [alter]
  · grind [alter]
  · grind [alter]
  · grind [alter]
  · grind [alter]
  · grind [alter]
  · grind [alter,put]
  · grind [alter,put,Stands,Sub.settle]

-- What the loop does to a queue: the jobs that wait and the loads that run get
-- no more, and it goes on until nothing waits or every place is taken.
structure Pumped (maxConcurrent : Nat) (cancelledValue : Value) (past : List (Event Key Value Error)) (s t : Queue Key Value Error) : Prop where
  sound : Sound cancelledValue past t
  places : t.active ≤ maxConcurrent
  shorter : t.pending.length ≤ s.pending.length
  fewer : t.pending.length + t.running.length ≤ s.pending.length + s.running.length

theorem pumpWith_pumped (rounds : Nat) (sound : Sound cancelledValue past s) (places : s.active ≤ maxConcurrent) :
    Pumped maxConcurrent cancelledValue past s (pumpWith maxConcurrent rounds s) ∧
      (s.pending.length ≤ rounds → (pumpWith maxConcurrent rounds s).pending = [] ∨ (pumpWith maxConcurrent rounds s).active = maxConcurrent) := by
  induction rounds generalizing s with
  | zero => exact ⟨⟨sound,places,Nat.le_refl _,Nat.le_refl _⟩,fun none => .inl (List.length_eq_zero_iff.mp (Nat.le_zero.mp none))⟩
  | succ rounds ih =>
    unfold pumpWith
    by_cases full : maxConcurrent ≤ s.active
    · rw [if_pos full]
      exact ⟨⟨sound,places,Nat.le_refl _,Nat.le_refl _⟩,fun _ => .inr (Nat.le_antisymm places full)⟩
    · rw [if_neg full]
      cases front : s.pending with
      | nil => exact ⟨⟨sound,places,Nat.le_refl _,Nat.le_refl _⟩,fun _ => .inl front⟩
      | cons j rest =>
        obtain ⟨job,found,_,some_⟩ := sound.waiting j (by rw [front]; exact List.mem_cons_self ..)
        have kept := (sound.wanted j job found some_).1
        have going := begun_sound sound front
        have room : (begun { s with pending := rest } j).active ≤ maxConcurrent := by
          change s.active + 1 ≤ maxConcurrent
          omega
        have length : s.pending.length = rest.length + 1 := by rw [front,List.length_cons]
        have started : (begun { s with pending := rest } j).running.length = s.running.length + 1 := List.length_append
        have taken : (begun { s with pending := rest } j).pending = rest := rfl
        simp only [found,kept,List.isEmpty_eq_false_iff.mpr some_,Bool.false_or,Bool.false_eq_true,if_false]
        cases thrown : job.throws with
        | none =>
          obtain ⟨⟨after,few,short,less⟩,filled⟩ := ih going room
          refine ⟨⟨after,few,?_,?_⟩,?_⟩
          · rw [taken] at short
            dsimp only
            omega
          · rw [taken,started] at less
            dsimp only
            omega
          · intro enough
            exact filled (by rw [taken]; rw [List.length_cons] at enough; omega)
        | some e =>
          have inside : j ∈ (begun { s with pending := rest } j).running := List.mem_append_right _ (List.mem_cons_self ..)
          have closed := ended_sound (r := .error e) going inside
          obtain ⟨own,stored,_⟩ := (going.running j).mp inside
          have shape := ended_eq (r := .error e) going stored
          have roomy : (ended (begun { s with pending := rest } j) j (.error e)).active ≤ maxConcurrent := by
            rw [shape]
            dsimp only
            omega
          have waitsOn : (ended (begun { s with pending := rest } j) j (.error e)).pending = rest := by rw [shape]; rfl
          have ran : (ended (begun { s with pending := rest } j) j (.error e)).running.length = s.running.length := by
            rw [shape]
            rw [List.length_erase_of_mem inside,started,Nat.add_sub_cancel]
          obtain ⟨⟨one,few,short,less⟩,_⟩ := ih closed roomy
          obtain ⟨⟨two,fewer,shorter,lesser⟩,filled⟩ := ih one few
          rw [waitsOn] at short less
          refine ⟨⟨two,fewer,?_,?_⟩,?_⟩
          · dsimp only
            omega
          · dsimp only
            omega
          · intro enough
            rw [List.length_cons] at enough
            exact filled (by omega)

structure Settled (maxConcurrent : Nat) (cancelledValue : Value) (past : List (Event Key Value Error)) (s : Queue Key Value Error) : Prop where
  sound : Sound cancelledValue past s
  places : s.active ≤ maxConcurrent
  full : s.pending = [] ∨ s.active = maxConcurrent

theorem pump_settled (sound : Sound cancelledValue past s) (places : s.active ≤ maxConcurrent) :
    Settled maxConcurrent cancelledValue past (pump maxConcurrent s) := by
  obtain ⟨pumped,filled⟩ := pumpWith_pumped s.pending.length sound places
  exact ⟨pumped.sound,pumped.places,filled (Nat.le_refl _)⟩

omit [DecidableEq Key] in
theorem empty_settled : Settled maxConcurrent cancelledValue [] (empty : Queue Key Value Error) :=
  ⟨⟨fun _ _ => rfl,fun _ _ => rfl,rfl,.nil,.nil,by simp [empty],nofun,nofun,nofun,nofun,nofun,nofun,nofun⟩,Nat.zero_le _,.inl rfl⟩

section
variable (settled : Settled maxConcurrent cancelledValue past s)
include settled

theorem request_settled (key : Key) (throws : Option Error) :
    Settled maxConcurrent cancelledValue past (request maxConcurrent s key throws) := by
  unfold request
  cases found : s.inFlight key with
  | none => exact pump_settled (enlist_sound settled.sound key throws found) settled.places
  | some j => exact pump_settled (join_sound settled.sound found) settled.places

theorem cancel_settled (asked : .cancel i ∈ past) :
    Settled maxConcurrent cancelledValue past (cancel maxConcurrent cancelledValue s i) := by
  unfold cancel
  split
  · exact settled
  · rename_i sub found
    by_cases closed : sub.done = true
    · rw [if_pos closed]
      exact settled
    · rw [if_neg closed]
      have waits : sub.done = false := by simpa using closed
      obtain ⟨job,stored,_⟩ := settled.sound.stands i sub found
      have told : (settle s i sub (.ok cancelledValue)).jobs sub.job = some { job with subs := job.subs.erase i } := by
        simp [settle,alter,stored]
      dsimp only
      rw [told]
      dsimp only
      split
      · rename_i last
        exact pump_settled (abandon_sound settled.sound asked found waits stored last) settled.places
      · rename_i others
        exact ⟨settle_sound settled.sound asked found waits stored others,settled.places,settled.full⟩

theorem ends_settled (inside : j ∈ s.running) :
    Settled maxConcurrent cancelledValue past (pump maxConcurrent (ended s j r)) := by
  refine pump_settled (ended_sound settled.sound inside) ?_
  obtain ⟨job,found,_⟩ := (settled.sound.running j).mp inside
  rw [ended_eq settled.sound found]
  exact Nat.le_trans (Nat.sub_le ..) settled.places

theorem step_settled (stepped : step maxConcurrent cancelledValue s event = some next) : Settled maxConcurrent cancelledValue (past ++ [event]) next := by
  have later : Settled maxConcurrent cancelledValue (past ++ [event]) s := ⟨sound_later settled.sound _,settled.places,settled.full⟩
  cases event with
  | request key throws =>
    cases stepped
    exact request_settled later key throws
  | cancel i =>
    obtain ⟨_,same⟩ := Option.ite_none_right_eq_some.mp stepped
    cases same
    exact cancel_settled later (List.mem_append_right _ (List.mem_cons_self ..))
  | completes j value | fails j error =>
    obtain ⟨inside,same⟩ := Option.ite_none_right_eq_some.mp stepped
    cases same
    exact ends_settled later inside

end

theorem run_settled (ran : run (step maxConcurrent cancelledValue) empty events = some s) :
    Settled maxConcurrent cancelledValue events s :=
  run_history (fun past s => Settled maxConcurrent cancelledValue past s) (fun _ _ _ _ _ settled stepped _ => step_settled settled stepped) empty_settled ran

theorem ends_fewer (settled : Settled maxConcurrent cancelledValue past s) (inside : j ∈ s.running) :
    (pump maxConcurrent (ended s j r)).pending.length + (pump maxConcurrent (ended s j r)).running.length <
      s.pending.length + s.running.length := by
  obtain ⟨job,found,_⟩ := (settled.sound.running j).mp inside
  have shape := ended_eq (r := r) settled.sound found
  have roomy : (ended s j r).active ≤ maxConcurrent := by
    rw [shape]
    exact Nat.le_trans (Nat.sub_le ..) settled.places
  have pumped := (pumpWith_pumped (ended s j r).pending.length (ended_sound (r := r) settled.sound inside) roomy).1.fewer
  have gone : (ended s j r).running.length + 1 = s.running.length := by
    rw [shape]
    rw [List.length_erase_of_mem inside]
    exact Nat.sub_add_cancel (List.length_pos_of_mem inside)
  have waits : (ended s j r).pending = s.pending := by rw [shape]
  rw [waits] at pumped
  unfold pump
  rw [waits]
  omega

def Event.Ends : Event Key Value Error → Prop
  | .completes _ _ | .fails _ _ => True
  | .request _ _ | .cancel _ => False

def ends (j : Nat) : Except Error Value → Event Key Value Error
  | .ok value => .completes j value
  | .error error => .fails j error

theorem step_ends (inside : j ∈ s.running) :
    step maxConcurrent cancelledValue s (ends j r) = some (pump maxConcurrent (ended s j r)) := by
  cases r <;> simp [step,ends,inside]

theorem ends_bounded
    (settled : Settled maxConcurrent cancelledValue past s) (all : ∀ event ∈ events, event.Ends)
    (ran : run (step maxConcurrent cancelledValue) s events = some last) :
    events.length + (last.pending.length + last.running.length) ≤ s.pending.length + s.running.length := by
  induction events generalizing s past with
  | nil =>
    cases ran
    exact Nat.le_of_eq (Nat.zero_add _)
  | cons event rest ih =>
    obtain ⟨next,stepped,tail⟩ := run_cons.mp ran
    have after := ih (step_settled settled stepped) (fun later member => all later (List.mem_cons_of_mem _ member)) tail
    have less : next.pending.length + next.running.length < s.pending.length + s.running.length := by
      cases event with
      | request key throws | cancel i => exact absurd (all _ (List.mem_cons_self ..)) id
      | completes j value | fails j error =>
        obtain ⟨inside,same⟩ := Option.ite_none_right_eq_some.mp stepped
        cases same
        exact ends_fewer settled inside
    rw [List.length_cons]
    omega

theorem ends_reach (settled : Settled maxConcurrent cancelledValue past s) (how : Nat → Except Error Value) :
    ∃ events last, (∀ event ∈ events, ∃ j, event = ends j (how j)) ∧ run (step maxConcurrent cancelledValue) s events = some last ∧ last.running = [] := by
  induction left : s.pending.length + s.running.length using Nat.strongRecOn generalizing s past with
  | _ left ih =>
    cases runs : s.running with
    | nil => exact ⟨[],s,nofun,rfl,runs⟩
    | cons j rest =>
      have inside : j ∈ s.running := by
        rw [runs]
        exact List.mem_cons_self ..
      have stepped : step maxConcurrent cancelledValue s (ends j (how j)) = some (pump maxConcurrent (ended s j (how j))) := step_ends inside
      have less := ends_fewer (r := how j) settled inside
      obtain ⟨events,last,all,ran,closed⟩ := ih _ (left ▸ less) (step_settled settled stepped) rfl
      refine ⟨ends j (how j)::events,last,?_,run_cons.mpr ⟨_,stepped,ran⟩,closed⟩
      intro event member
      rcases List.mem_cons.mp member with rfl | later
      · exact ⟨j,rfl⟩
      · exact all event later

-- A job that is loading, a subscriber that waits, and one that has been told
-- once: the cancelled value after its own cancel, else what the load gave.
def Loading (s : Queue Key Value Error) (j : Nat) : Prop := ∃ job, s.jobs j = some job ∧ job.started = true ∧ job.outcome = none

def Waits (s : Queue Key Value Error) (i : Nat) (sub : Sub Value Error) : Prop :=
  sub.settled = [] ∧ (sub.job ∈ s.pending ∨ Loading s sub.job) ∧ ∃ job, s.jobs sub.job = some job ∧ i ∈ job.subs

def Told (cancelledValue : Value) (past : List (Event Key Value Error)) (s : Queue Key Value Error) (i : Nat) (sub : Sub Value Error) : Prop :=
  ∃ r, sub.settled = [r] ∧
    ((r = .ok cancelledValue ∧ .cancel i ∈ past) ∨ ∃ job, s.jobs sub.job = some job ∧ job.outcome = some r)

structure Consistent (maxConcurrent : Nat) (cancelledValue : Value) (past : List (Event Key Value Error)) (s : Queue Key Value Error) : Prop where
  places : s.active ≤ maxConcurrent
  counted : ∃ loads : List Nat, loads.Nodup ∧ (∀ j, j ∈ loads ↔ Loading s j) ∧ s.active = loads.length
  full : s.pending ≠ [] → s.active = maxConcurrent
  stands : ∀ i sub, s.subs i = some sub → Waits s i sub ∨ Told cancelledValue past s i sub
  kept : ∀ j job i sub, s.jobs j = some job → s.subs i = some sub → sub.job = j → sub.settled = [] → job.aborted = false ∧ job.abandoned = false
  onePerKey : ∀ i other sub rival job peer, s.subs i = some sub → s.subs other = some rival → sub.settled = [] → rival.settled = [] →
    s.jobs sub.job = some job → s.jobs rival.job = some peer → job.key = peer.key → sub.job = rival.job
  done : 0 < maxConcurrent → (∀ j, ¬ Loading s j) → ∀ i sub, s.subs i = some sub → Told cancelledValue past s i sub

omit [DecidableEq Key] in
theorem settled_member (settled : Settled maxConcurrent cancelledValue past s) (found : s.subs i = some sub) (waits : sub.settled = []) :
    ∃ job, s.jobs sub.job = some job ∧ i ∈ job.subs := by
  obtain ⟨job,stored,⟨_,_,mine⟩ | ⟨_,_,r,told,_⟩⟩ := settled.sound.stands i sub found
  · exact ⟨job,stored,mine⟩
  · rw [waits] at told
    cases told

omit [DecidableEq Key] in
theorem settled_stands (settled : Settled maxConcurrent cancelledValue past s) (found : s.subs i = some sub) :
    Waits s i sub ∨ Told cancelledValue past s i sub := by
  obtain ⟨job,stored,⟨_,none,mine⟩ | ⟨_,_,r,told,how⟩⟩ := settled.sound.stands i sub found
  · obtain ⟨_,_,open_,queued⟩ := settled.sound.wanted _ job stored (List.ne_nil_of_mem mine)
    refine .inl ⟨none,?_,job,stored,mine⟩
    cases begun : job.started with
    | false => exact .inl (queued begun)
    | true => exact .inr ⟨job,stored,begun,open_⟩
  · refine .inr ⟨r,told,?_⟩
    rcases how with cancelled | result
    · exact .inl cancelled
    · exact .inr ⟨job,stored,result⟩

omit [DecidableEq Key] in
theorem settled_consistent (settled : Settled maxConcurrent cancelledValue past s) : Consistent maxConcurrent cancelledValue past s := by
  have sound := settled.sound
  refine ⟨settled.places,⟨s.running,sound.runningOnce,sound.running,sound.counted⟩,?_,fun i sub found => settled_stands settled found,?_,?_,?_⟩
  · intro waits
    exact settled.full.resolve_left waits
  · intro j job i sub stored found own waits
    obtain ⟨other,again,mine⟩ := settled_member settled found waits
    rw [own,stored] at again
    cases again
    obtain ⟨kept,whole,_⟩ := sound.wanted j job stored (List.ne_nil_of_mem mine)
    exact ⟨whole,kept⟩
  · intro i other sub rival job peer found theirs waits open_ stored kept same
    obtain ⟨own,again,mine⟩ := settled_member settled found waits
    obtain ⟨second,twice,also⟩ := settled_member settled theirs open_
    rw [stored] at again
    rw [kept] at twice
    cases again
    cases twice
    have first := (sound.listed _ job stored).mpr (List.ne_nil_of_mem mine)
    have last := (sound.listed _ peer kept).mpr (List.ne_nil_of_mem also)
    rw [same,last] at first
    exact (Option.some.inj first).symm
  · intro some_ closed i sub found
    have idle : s.running = [] := List.eq_nil_iff_forall_not_mem.mpr fun j inside => closed j ((sound.running j).mp inside)
    have none : s.active = 0 := by rw [sound.counted,idle,List.length_nil]
    have empty : s.pending = [] := settled.full.resolve_right (by omega)
    rcases settled_stands settled found with ⟨_,place,_⟩ | told
    · rcases place with queued | loading
      · rw [empty] at queued
        cases queued
      · exact absurd loading (closed _)
    · exact told

-- After any run the queue is consistent; and from there, however the loads that
-- run and the ones that follow them end, they all end within a bounded number
-- of ends, and then everybody has been told.
theorem queue_consistent {events : List (Event Key Value Error)} (ran : run (step maxConcurrent cancelledValue) empty events = some s) :
    Consistent maxConcurrent cancelledValue events s ∧
      (∀ rest last, (∀ event ∈ rest, event.Ends) → run (step maxConcurrent cancelledValue) s rest = some last →
        rest.length ≤ s.pending.length + s.active) ∧
      (0 < maxConcurrent → ∀ how : Nat → Except Error Value, ∃ rest last, (∀ event ∈ rest, ∃ j, event = ends j (how j)) ∧
        run (step maxConcurrent cancelledValue) s rest = some last ∧ (∀ j, ¬ Loading last j) ∧
        ∀ i sub, last.subs i = some sub → Told cancelledValue (events ++ rest) last i sub) := by
  have settled := run_settled ran
  refine ⟨settled_consistent settled,?_,?_⟩
  · intro rest last all ranOn
    have bounded := ends_bounded settled all ranOn
    rw [settled.sound.counted]
    omega
  · intro some_ how
    obtain ⟨rest,last,all,ranOn,closed⟩ := ends_reach settled how
    have after := run_settled (run_append.mpr ⟨s,ran,ranOn⟩)
    have idle : ∀ j, ¬ Loading last j := by
      intro j loading
      have inside := (after.sound.running j).mpr loading
      rw [closed] at inside
      cases inside
    exact ⟨rest,last,all,ranOn,idle,(settled_consistent after).done some_ idle⟩

def shared : List (Event String Nat String) :=
  [.request "a" none,.request "a" none,.request "b" none,.cancel 0,.completes 0 7]

theorem queue_consistent_shared : ∃ s, run (step 1 0) empty shared = some s ∧ Consistent 1 0 shared s ∧
    (s.subs 0).map (·.settled.length) = some 1 ∧ (s.subs 1).map (·.settled.length) = some 1 ∧ s.running = [1] := by
  have ran : ∃ s, run (step 1 0) empty shared = some s := ⟨_,rfl⟩
  obtain ⟨s,reached⟩ := ran
  refine ⟨s,reached,(queue_consistent reached).1,?_⟩
  cases reached
  exact ⟨rfl,rfl,rfl⟩

end Loads

end RemoteFileExplorer.FetchQueues
