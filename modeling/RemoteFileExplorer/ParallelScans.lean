import RemoteFileExplorer.Runs

namespace RemoteFileExplorer.ParallelScans

-- What a scan does next: look at the shared cell, or read one entry.
inductive Instr (α : Type) where
  | check
  | entry (a : α)
  deriving DecidableEq, Repr

inductive Stage where
  | running
  | reaching
  | stopped
  deriving DecidableEq, Repr

structure Thread (α β : Type) where
  todo : List (Instr α)
  out : List β
  stage : Stage
  deriving DecidableEq, Repr

structure State (α β : Type) where
  threads : List (Thread α β)
  values : List Nat
  deriving DecidableEq, Repr

structure Event where
  group : Nat
  seen : Nat
  deriving DecidableEq, Repr

section Steps
variable {α β : Type} (limit : Nat) (matched : α → Option β)

-- A relaxed load may return any value the cell has held; the update of a group
-- that has its limit is atomic and reads the newest.
def advance (values : List Nat) (event : Event) (t : Thread α β) : Option (Thread α β × List Nat) :=
  match t.stage with
  | .stopped => none
  | .reaching => some ({t with stage := .stopped},values ++ [min (values.getLastD event.group) event.group])
  | .running =>
    match t.todo with
    | [] => some ({t with stage := .stopped},values)
    | .check::rest =>
      if event.seen ∈ values then
        if event.seen < event.group then some ({t with stage := .stopped},values) else some ({t with todo := rest},values)
      else none
    | .entry a::rest =>
      match matched a with
      | none => some ({t with todo := rest},values)
      | some b => some (⟨rest,t.out ++ [b],if limit ≤ (t.out ++ [b]).length then .reaching else .running⟩,values)

def step (s : State α β) (event : Event) : Option (State α β) :=
  (s.threads[event.group]?).bind fun t => (advance limit matched s.values event t).map fun after =>
    ⟨s.threads.set event.group after.1,after.2⟩

def start (top : Nat) (works : List (List (Instr α))) : State α β := ⟨works.map fun work => ⟨work,[],.running⟩,[top]⟩

def found (work : List (Instr α)) : List β :=
  work.filterMap fun
    | .check => none
    | .entry a => matched a

def join : List β → List β → List β × Bool
  | [],out => (out,false)
  | e::rest,out => if limit ≤ (out ++ [e]).length then (out ++ [e],true) else join rest (out ++ [e])

end Steps

section Joined
variable {β : Type} {limit : Nat} {out : List β}

theorem join_eq (short : out.length < limit) (parts : List β) :
    join limit parts out = ((out ++ parts).take limit,decide (limit ≤ (out ++ parts).length)) := by
  induction parts generalizing out with
  | nil =>
    have whole : out.take limit = out := List.take_of_length_le (Nat.le_of_lt short)
    have few : ¬ limit ≤ out.length := Nat.not_le_of_lt short
    simp only [join,List.append_nil,whole,few,decide_false]
  | cons e rest ih =>
    have longer : (out ++ [e]).length = out.length+1 := by rw [List.length_append,List.length_singleton]
    have split : out ++ e::rest = (out ++ [e]) ++ rest := by rw [List.append_assoc]; rfl
    unfold join
    split
    · have exactly : (out ++ [e]).length = limit := by omega
      have many : limit ≤ ((out ++ [e]) ++ rest).length := by
        rw [List.length_append]
        omega
      rw [split,List.take_left' exactly,decide_eq_true many]
    · rename_i open_
      rw [split]
      exact ih (Nat.lt_of_not_le open_)

-- Every group's result is the front of what it has to find, unless an earlier
-- group alone has the limit: the joined front is that of everything.
theorem joined_take (outs wholes : List (List β)) (same : outs.length = wholes.length)
    (each : ∀ (n : Nat) (found whole : List β), outs[n]? = some found → wholes[n]? = some whole →
      found = whole.take limit ∨ ∃ v < n, ∃ early, wholes[v]? = some early ∧ limit ≤ early.length) :
    outs.flatten.take limit = wholes.flatten.take limit := by
  induction wholes generalizing outs with
  | nil => rw [List.length_eq_zero_iff.mp same]
  | cons whole rest ih =>
    cases outs with
    | nil => simp at same
    | cons found others =>
      have first : found = whole.take limit := by
        rcases each 0 found whole rfl rfl with front | ⟨v,below,_⟩
        · exact front
        · exact absurd below (Nat.not_lt_zero v)
      by_cases full : limit ≤ whole.length
      · have exactly : (whole.take limit).length = limit := by
          rw [List.length_take]
          omega
        rw [List.flatten_cons,List.flatten_cons,first,List.take_left' exactly,List.take_append_of_le_length full]
      · have kept : whole.take limit = whole := List.take_of_length_le (by omega)
        have tail : others.flatten.take limit = rest.flatten.take limit := by
          refine ih others (by simpa using same) ?_
          intro n piece later listed needed
          rcases each (n+1) piece later listed needed with front | ⟨v,below,early,placed,many⟩
          · exact Or.inl front
          · cases v with
            | zero =>
              cases placed
              exact absurd many full
            | succ v => exact Or.inr ⟨v,Nat.lt_of_succ_lt_succ below,early,placed,many⟩
        have shorter : others.flatten.take (limit - whole.length) = rest.flatten.take (limit - whole.length) := by
          have both := congrArg (List.take (limit - whole.length)) tail
          rwa [List.take_take,List.take_take,Nat.min_eq_left (Nat.sub_le ..)] at both
        rw [List.flatten_cons,List.flatten_cons,first,kept,List.take_append,List.take_append,shorter]

theorem length_of_take {one other : List β} (same : one.take limit = other.take limit) : limit ≤ one.length ↔ limit ≤ other.length := by
  have lengths := congrArg List.length same
  rw [List.length_take,List.length_take] at lengths
  omega

end Joined

section Runs
variable {α β : Type} {limit top : Nat} {matched : α → Option β} {works : List (List (Instr α))} {s next last : State α β}
  {event : Event} {t after : Thread α β} {values later : List Nat}

def Reached (limit : Nat) (matched : α → Option β) (works : List (List (Instr α))) (n : Nat) : Prop :=
  ∃ work, works[n]? = some work ∧ limit ≤ (found matched work).length

def Served (limit : Nat) (matched : α → Option β) (works : List (List (Instr α))) (n : Nat) (whole : List β) (t : Thread α β) : Prop :=
  match t.stage with
  | .running => t.out ++ found matched t.todo = whole ∧ t.out.length < limit
  | .reaching => t.out = whole.take limit ∧ limit ≤ whole.length
  | .stopped => t.out = whole.take limit ∨ ∃ v < n, Reached limit matched works v

-- The cell holds its first value or the number of a group that finds the limit
-- by itself, whichever of them a load returns.
structure Kept (limit top : Nat) (matched : α → Option β) (works : List (List (Instr α))) (s : State α β) : Prop where
  same : s.threads.length = works.length
  each : ∀ n t work, s.threads[n]? = some t → works[n]? = some work → Served limit matched works n (found matched work) t
  cell : ∀ v ∈ s.values, v = top ∨ Reached limit matched works v
  held : top ∈ s.values

theorem start_kept (positive : 0 < limit) : Kept limit top matched works (start top works) := by
  refine ⟨List.length_map _,?_,?_,List.mem_singleton_self top⟩
  · intro n t work placed needed
    unfold start at placed
    rw [List.getElem?_map,needed] at placed
    cases placed
    exact ⟨rfl,positive⟩
  · intro v mem
    exact Or.inl (List.mem_singleton.mp mem)

theorem step_parts (moved : step limit matched s event = some next) :
    ∃ t after later, s.threads[event.group]? = some t ∧ advance limit matched s.values event t = some (after,later) ∧
      next = ⟨s.threads.set event.group after,later⟩ := by
  obtain ⟨t,placed,rest⟩ := Option.bind_eq_some_iff.mp moved
  obtain ⟨⟨after,later⟩,advanced,same⟩ := Option.map_eq_some_iff.mp rest
  exact ⟨t,after,later,placed,advanced,same.symm⟩

theorem advance_cases (advanced : advance limit matched values event t = some (after,later)) :
    (t.stage = .reaching ∧ after = {t with stage := .stopped} ∧ later = values ++ [min (values.getLastD event.group) event.group]) ∨
    (t.stage = .running ∧ later = values ∧
      ((t.todo = [] ∧ after = {t with stage := .stopped}) ∨
        (∃ rest, t.todo = .check::rest ∧ event.seen ∈ values ∧
          ((event.seen < event.group ∧ after = {t with stage := .stopped}) ∨ after = {t with todo := rest})) ∨
        (∃ a rest, t.todo = .entry a::rest ∧
          ((matched a = none ∧ after = {t with todo := rest}) ∨
            ∃ b, matched a = some b ∧ after = ⟨rest,t.out ++ [b],if limit ≤ (t.out ++ [b]).length then .reaching else .running⟩)))) := by
  unfold advance at advanced
  split at advanced
  · cases advanced
  · rename_i reaching
    cases advanced
    exact Or.inl ⟨reaching,rfl,rfl⟩
  · rename_i running
    split at advanced
    · rename_i done
      cases advanced
      exact Or.inr ⟨running,rfl,Or.inl ⟨done,rfl⟩⟩
    · rename_i rest looks
      obtain ⟨seen,advanced⟩ := Option.ite_none_right_eq_some.mp advanced
      split at advanced
      · rename_i lower
        cases advanced
        exact Or.inr ⟨running,rfl,Or.inr (Or.inl ⟨rest,looks,seen,Or.inl ⟨lower,rfl⟩⟩)⟩
      · cases advanced
        exact Or.inr ⟨running,rfl,Or.inr (Or.inl ⟨rest,looks,seen,Or.inr rfl⟩)⟩
    · rename_i a rest reads
      split at advanced
      · rename_i unmatched
        cases advanced
        exact Or.inr ⟨running,rfl,Or.inr (Or.inr ⟨a,rest,reads,Or.inl ⟨unmatched,rfl⟩⟩)⟩
      · rename_i b hit
        cases advanced
        exact Or.inr ⟨running,rfl,Or.inr (Or.inr ⟨a,rest,reads,Or.inr ⟨b,hit,rfl⟩⟩)⟩

theorem advance_served (inside : event.group < works.length) (fits : works.length ≤ top)
    (cell : ∀ v ∈ s.values, v = top ∨ Reached limit matched works v)
    (served : Served limit matched works event.group whole t) (advanced : advance limit matched s.values event t = some (after,later)) :
    Served limit matched works event.group whole after := by
  rcases advance_cases advanced with ⟨reaching,rfl,_⟩ | ⟨running,_,ends | ⟨rest,looks,seen,lower | rfl⟩ | ⟨a,rest,reads,⟨unmatched,rfl⟩ | ⟨b,hit,rfl⟩⟩⟩
  · simp only [Served,reaching] at served ⊢
    exact Or.inl served.1
  · obtain ⟨done,rfl⟩ := ends
    simp only [Served,running,done] at served ⊢
    obtain ⟨all,short⟩ := served
    left
    rw [← all]
    simpa [found] using (List.take_of_length_le (Nat.le_of_lt short)).symm
  · obtain ⟨lower,rfl⟩ := lower
    rcases cell _ seen with rfl | reached
    · omega
    · exact Or.inr ⟨_,lower,reached⟩
  · simpa only [Served,running,looks,found,List.filterMap_cons] using served
  · simpa only [Served,running,reads,found,List.filterMap_cons,unmatched] using served
  · simp only [Served,running,reads,found,List.filterMap_cons,hit] at served
    obtain ⟨all,short⟩ := served
    have rest_all : (t.out ++ [b]) ++ found matched rest = whole := by
      rw [List.append_assoc]
      exact all
    have longer : (t.out ++ [b]).length = t.out.length+1 := by rw [List.length_append,List.length_singleton]
    by_cases full : limit ≤ (t.out ++ [b]).length
    · have exactly : (t.out ++ [b]).length = limit := by omega
      simp only [Served,if_pos full]
      refine ⟨?_,?_⟩
      · rw [← rest_all,List.take_left' exactly]
      · rw [← rest_all,List.length_append]
        omega
    · simp only [Served,if_neg full]
      exact ⟨rest_all,by omega⟩

theorem step_kept (fits : works.length ≤ top) (kept : Kept limit top matched works s) (moved : step limit matched s event = some next) :
    Kept limit top matched works next := by
  obtain ⟨t,after,later,placed,advanced,rfl⟩ := step_parts moved
  have within : event.group < s.threads.length := (List.getElem?_eq_some_iff.mp placed).1
  have inside : event.group < works.length := by
    rw [← kept.same]
    exact within
  have needed : works[event.group]? = some works[event.group] := List.getElem?_eq_getElem inside
  have served := kept.each _ _ _ placed needed
  refine ⟨?_,?_,?_,?_⟩
  · rw [List.length_set]
    exact kept.same
  · intro n u work listed asked
    by_cases own : n = event.group
    · subst own
      rw [List.getElem?_set_self within] at listed
      cases listed
      rw [needed] at asked
      cases asked
      exact advance_served inside fits kept.cell served advanced
    · rw [List.getElem?_set_ne (fun same => own same.symm)] at listed
      exact kept.each n u work listed asked
  · rcases advance_cases advanced with ⟨reaching,_,rfl⟩ | ⟨_,rfl,_⟩
    · intro v mem
      rcases List.mem_append.mp mem with old | new
      · exact kept.cell v old
      · simp only [Served,reaching] at served
        have own : Reached limit matched works event.group := ⟨_,needed,served.2⟩
        have newest : s.values.getLastD event.group = event.group ∨ s.values.getLastD event.group ∈ s.values :=
          List.mem_cons.mp List.getLastD_mem_cons
        rw [List.mem_singleton] at new
        rcases Nat.le_total (s.values.getLastD event.group) event.group with before | behind
        · rw [Nat.min_eq_left before] at new
          rcases newest with absent | stored
          · rw [new,absent]
            exact Or.inr own
          · exact new ▸ kept.cell _ stored
        · rw [Nat.min_eq_right behind] at new
          rw [new]
          exact Or.inr own
    · exact kept.cell
  · rcases advance_cases advanced with ⟨_,_,rfl⟩ | ⟨_,rfl,_⟩
    · exact List.mem_append_left _ kept.held
    · exact kept.held

theorem run_kept (positive : 0 < limit) (fits : works.length ≤ top)
    (ran : Runs.run (step limit matched) (start top works) events = some last) : Kept limit top matched works last :=
  Runs.run_preserves (fun _ _ _ kept moved => step_kept fits kept moved) (start_kept positive) ran

def Thread.left (t : Thread α β) : Nat :=
  match t.stage with
  | .running => t.todo.length+2
  | .reaching => 1
  | .stopped => 0

def State.left (s : State α β) : Nat := (s.threads.map Thread.left).sum

theorem advance_left (advanced : advance limit matched values event t = some (after,later)) : after.left < t.left := by
  rcases advance_cases advanced with ⟨reaching,rfl,_⟩ | ⟨running,_,ends | ⟨rest,looks,seen,lower | rfl⟩ | ⟨a,rest,reads,⟨unmatched,rfl⟩ | ⟨b,hit,rfl⟩⟩⟩
  · simp [Thread.left,reaching]
  · obtain ⟨done,rfl⟩ := ends
    simp [Thread.left,running]
  · obtain ⟨lower,rfl⟩ := lower
    simp [Thread.left,running]
  · simp [Thread.left,running,looks]
  · simp [Thread.left,running,reads]
  · simp only [Thread.left,running,reads,List.length_cons]
    split
    · omega
    · omega
    · omega

theorem sum_set {counts : List Nat} {n old new : Nat} (placed : counts[n]? = some old) (less : new < old) :
    (counts.set n new).sum < counts.sum := by
  induction counts generalizing n with
  | nil => cases placed
  | cons head rest ih =>
    cases n with
    | zero =>
      cases placed
      simpa using less
    | succ n =>
      have tail := ih (n := n) (by simpa using placed)
      simpa using tail

theorem step_left (moved : step limit matched s event = some next) : next.left < s.left := by
  obtain ⟨t,after,later,placed,advanced,rfl⟩ := step_parts moved
  unfold State.left
  rw [List.map_set]
  exact sum_set (by rw [List.getElem?_map,placed]; rfl) (advance_left advanced)

theorem run_left (ran : Runs.run (step limit matched) s events = some last) : events.length + last.left ≤ s.left := by
  induction events generalizing s with
  | nil =>
    cases ran
    simp
  | cons event rest ih =>
    obtain ⟨next,moved,tail⟩ := Runs.run_cons.mp ran
    have less := step_left moved
    have others := ih tail
    rw [List.length_cons]
    omega

theorem all_stopped (kept : Kept limit top matched works s) (stuck : ∀ event, step limit matched s event = none) :
    ∀ t ∈ s.threads, t.stage = .stopped := by
  intro t mem
  obtain ⟨n,placed⟩ := List.getElem?_of_mem mem
  have blocked := stuck ⟨n,top⟩
  unfold step at blocked
  rw [placed,Option.bind_some,Option.map_eq_none_iff] at blocked
  unfold advance at blocked
  cases stage : t.stage with
  | stopped => rfl
  | reaching =>
    rw [stage] at blocked
    cases blocked
  | running =>
    exfalso
    simp only [stage] at blocked
    split at blocked
    · cases blocked
    · rw [if_pos kept.held] at blocked
      split at blocked <;> cases blocked
    · split at blocked <;> cases blocked

-- Whatever each group sees of the others, and whenever: the scan comes to an
-- end, and its joined results are the front of what one scan finds.
theorem scans_joined {events : List Event} (positive : 0 < limit) (fits : works.length ≤ top)
    (ran : Runs.run (step limit matched) (start top works) events = some last) (stuck : ∀ event, step limit matched last event = none) :
    join limit (last.threads.map Thread.out).flatten [] =
      ((works.map (found matched)).flatten.take limit,decide (limit ≤ (works.map (found matched)).flatten.length)) := by
  have kept := run_kept positive fits ran
  have same : (last.threads.map Thread.out).flatten.take limit = (works.map (found matched)).flatten.take limit := by
    refine joined_take _ _ ?_ ?_
    · rw [List.length_map,List.length_map]
      exact kept.same
    · intro n out whole placed needed
      rw [List.getElem?_map] at placed needed
      obtain ⟨t,listed,rfl⟩ := Option.map_eq_some_iff.mp placed
      obtain ⟨work,asked,rfl⟩ := Option.map_eq_some_iff.mp needed
      have served := kept.each n t work listed asked
      have ended := all_stopped kept stuck t (List.mem_of_getElem? listed)
      simp only [Served,ended] at served
      rcases served with front | ⟨v,below,early,there,many⟩
      · exact Or.inl front
      · exact Or.inr ⟨v,below,found matched early,by rw [List.getElem?_map,there]; rfl,many⟩
  rw [join_eq positive,List.nil_append,same]
  congr 1
  exact decide_eq_decide.mpr (length_of_take same)

end Runs

end RemoteFileExplorer.ParallelScans
