import RemoteFileExplorer.Runs

namespace RemoteFileExplorer.Procedures

-- The single operations on a disk, what each does and what it replies.
structure Storage (Disk : Type) where
  Action : Type
  Reply : Action → Type
  perform : (action : Action) → Disk → Disk × Reply action

-- A refused operation changes nothing; at a killed one the process ends before it.
inductive Outcome where
  | done
  | refused
  | killed
  deriving DecidableEq, Repr

-- A procedure goes from one operation to the next by what it was replied, `none`
-- when the operation was refused. It ends with a result or with an error.
inductive Proc {Disk : Type} (store : Storage Disk) (α : Type) where
  | ends (result : Option α)
  | calls (action : store.Action) (next : Option (store.Reply action) → Proc store α)

section Programs
variable {Disk α β : Type} {store : Storage Disk}

def Proc.bind : Proc store α → (α → Proc store β) → Proc store β
  | .ends none,_ => .ends none
  | .ends (some a),f => f a
  | .calls action next,f => .calls action (fun reply => (next reply).bind f)

instance : Monad (Proc store) where
  pure a := .ends (some a)
  bind := Proc.bind

def fail : Proc store α := .ends none

def act (action : store.Action) : Proc store (store.Reply action) := .calls action .ends

def check (ok : Bool) : Proc store Unit := if ok then pure () else fail

def orFail : Option α → Proc store α
  | some a => pure a
  | none => fail

def Proc.attempt : Proc store α → Proc store (Option α)
  | .ends result => .ends (some result)
  | .calls action next => .calls action (fun reply => (next reply).attempt)

def each (body : α → Proc store Unit) : List α → Proc store Unit
  | [] => pure ()
  | a::rest => do
    body a
    each body rest

end Programs

section Rules
variable {Disk α β : Type} {store : Storage Disk} {ok : Disk → store.Action → Outcome → Prop} {stop : Disk → Prop} {d : Disk}

-- Whatever becomes of the operations, as far as `ok` allows it: where the process is
-- killed the disk meets `stop`, and where the procedure ends it meets the condition.
def Meets (ok : Disk → store.Action → Outcome → Prop) (stop : Disk → Prop) :
    Proc store α → Disk → (Disk → Option α → Prop) → Prop
  | .ends result,d,post => post d result
  | .calls action next,d,post =>
    (ok d action .killed → stop d) ∧ (ok d action .refused → Meets ok stop (next none) d post) ∧
      (ok d action .done → Meets ok stop (next (some (store.perform action d).2)) (store.perform action d).1 post)

theorem meets_imp (implies : ∀ d result, first d result → second d result)
    (meets : Meets ok stop p d first) : Meets ok stop p d second := by
  induction p generalizing d with
  | ends result => exact implies d result meets
  | calls action next ih =>
    obtain ⟨killed,refused,done⟩ := meets
    exact ⟨killed,fun allowed => ih _ (refused allowed),fun allowed => ih _ (done allowed)⟩

theorem meets_bind {f : α → Proc store β}
    (meets : Meets ok stop p d fun d result => result.elim (post d none) fun a => Meets ok stop (f a) d post) :
    Meets ok stop (p >>= f) d post := by
  change Meets ok stop (p.bind f) d post
  induction p generalizing d with
  | ends result =>
    cases result with
    | none | some a => exact meets
  | calls action next ih =>
    obtain ⟨killed,refused,done⟩ := meets
    exact ⟨killed,fun allowed => ih _ (refused allowed),fun allowed => ih _ (done allowed)⟩

theorem meets_attempt {p : Proc store α}
    (meets : Meets ok stop p d fun d result => post d (some result)) : Meets ok stop p.attempt d post := by
  induction p generalizing d with
  | ends result => exact meets
  | calls action next ih =>
    obtain ⟨killed,refused,done⟩ := meets
    exact ⟨killed,fun allowed => ih _ (refused allowed),fun allowed => ih _ (done allowed)⟩

theorem meets_act {post : Disk → Option (store.Reply action) → Prop} (killed : stop d) (refused : post d none)
    (done : post (store.perform action d).1 (some (store.perform action d).2)) : Meets ok stop (act action) d post :=
  ⟨fun _ => killed,fun _ => refused,fun _ => done⟩

theorem orFail_meets {value : Option α} (missing : value = none → post d none)
    (present : ∀ a, value = some a → post d (some a)) : Meets ok stop (orFail value) d post := by
  cases value with
  | none => exact missing rfl
  | some a => exact present a rfl

inductive Ran : Proc store α → Disk → Option α → Disk → Prop where
  | ends (d : Disk) (result : Option α) : Ran (.ends result) d result d
  | refused (action : store.Action) (next : Option (store.Reply action) → Proc store α) (d last : Disk) (result : Option α)
    (rest : Ran (next none) d result last) : Ran (.calls action next) d result last
  | done (action : store.Action) (next : Option (store.Reply action) → Proc store α) (d last : Disk) (result : Option α)
    (rest : Ran (next (some (store.perform action d).2)) (store.perform action d).1 result last) : Ran (.calls action next) d result last

theorem meets_ran
    (meets : Meets (fun _ _ _ => True) stop p d post) (ran : Ran p d result last) : post last result := by
  induction ran with
  | ends d result => exact meets
  | refused action next d last result rest ih => exact ih (meets.2.1 trivial)
  | done action next d last result rest ih => exact ih (meets.2.2 trivial)

end Rules

section Invariants
variable {Disk α β : Type} {store : Storage Disk} {ok : Disk → store.Action → Outcome → Prop} {inv : Disk → Prop} {d : Disk}

def Keeps (ok : Disk → store.Action → Outcome → Prop) (inv : Disk → Prop) (p : Proc store α) (d : Disk) (good : Disk → α → Prop) : Prop :=
  Meets ok inv p d fun d result => inv d ∧ ∀ a, result = some a → good d a

theorem keeps_pure (holds : inv d) (result : good d a) : Keeps ok inv (pure a : Proc store α) d good := by
  refine ⟨holds,?_⟩
  intro b same
  cases same
  exact result

theorem keeps_fail (holds : inv d) : Keeps ok inv (fail : Proc store α) d good :=
  ⟨holds,nofun⟩

theorem keeps_imp (meets : Keeps ok inv p d first)
    (implies : ∀ d a, inv d → first d a → second d a) : Keeps ok inv p d second :=
  meets_imp (fun d _ both => ⟨both.1,fun a result => implies d a both.1 (both.2 a result)⟩) meets

theorem keeps_bind {f : α → Proc store β}
    (meets : Keeps ok inv p d first) (follows : ∀ d a, inv d → first d a → Keeps ok inv (f a) d second) :
    Keeps ok inv (p >>= f) d second := by
  apply meets_bind
  refine meets_imp ?_ meets
  intro d result both
  cases result with
  | none => exact ⟨both.1,nofun⟩
  | some a => exact follows d a both.1 (both.2 a rfl)

theorem keeps_act (holds : inv d)
    (performed : ok d action .done → inv (store.perform action d).1 ∧ good (store.perform action d).1 (store.perform action d).2) :
    Keeps ok inv (act action) d good := by
  refine ⟨fun _ => holds,fun _ => ⟨holds,nofun⟩,?_⟩
  intro allowed
  refine ⟨(performed allowed).1,?_⟩
  intro reply same
  cases same
  exact (performed allowed).2

theorem keeps_attempt {p : Proc store α} (meets : Keeps ok inv p d good) :
    Keeps ok inv p.attempt d fun d result => ∀ a, result = some a → good d a := by
  apply meets_attempt
  refine meets_imp ?_ meets
  intro d result both
  refine ⟨both.1,?_⟩
  intro outer same a inner
  cases same
  exact both.2 a inner

theorem keeps_each (holds : inv d)
    (one : ∀ a ∈ list, ∀ d, inv d → Keeps ok inv (body a) d fun _ _ => True) : Keeps ok inv (each body list) d fun _ _ => True := by
  induction list generalizing d with
  | nil => exact keeps_pure holds trivial
  | cons a rest ih =>
    refine keeps_bind (one a (List.mem_cons_self ..) d holds) ?_
    intro d _ held _
    exact ih held fun b member => one b (List.mem_cons_of_mem _ member)

end Invariants

section Executions
variable {Disk α β : Type} {store : Storage Disk}

def execute : Proc store α → Disk → List Outcome → Option (Disk × Option α)
  | .ends result,d,[] => some (d,result)
  | .calls _ next,d,.refused::rest => execute (next none) d rest
  | .calls action next,d,.done::rest => execute (next (some (store.perform action d).2)) (store.perform action d).1 rest
  | _,_,_ => none

def Along (ok : Disk → store.Action → Outcome → Prop) : Proc store α → Disk → List Outcome → Prop
  | .calls action next,d,.refused::rest => ok d action .refused ∧ Along ok (next none) d rest
  | .calls action next,d,.done::rest =>
    ok d action .done ∧ Along ok (next (some (store.perform action d).2)) (store.perform action d).1 rest
  | _,_,_ => True

def Along.decide {ok : Disk → store.Action → Outcome → Prop} (each : ∀ d action outcome, Decidable (ok d action outcome)) :
    (p : Proc store α) → (d : Disk) → (outcomes : List Outcome) → Decidable (Along ok p d outcomes)
  | .ends _,_,[] => .isTrue trivial
  | .ends _,_,_::_ => .isTrue trivial
  | .calls _ _,_,[] => .isTrue trivial
  | .calls _ _,_,.killed::_ => .isTrue trivial
  | .calls action next,d,.refused::rest => @instDecidableAnd _ _ (each d action .refused) (Along.decide each (next none) d rest)
  | .calls action next,d,.done::rest =>
    @instDecidableAnd _ _ (each d action .done) (Along.decide each (next (some (store.perform action d).2)) (store.perform action d).1 rest)

instance {ok : Disk → store.Action → Outcome → Prop} [each : ∀ d action outcome, Decidable (ok d action outcome)] (p : Proc store α) (d : Disk)
    (outcomes : List Outcome) : Decidable (Along ok p d outcomes) := Along.decide each p d outcomes

theorem meets_execute (stop : Disk → Prop)
    (meets : Meets ok stop p d post)
    (along : Along ok p d outcomes) (executed : execute p d outcomes = some (last,result)) : post last result := by
  induction outcomes generalizing p d with
  | nil =>
    cases p with
    | ends done =>
      cases executed
      exact meets
    | calls action next => cases executed
  | cons outcome rest ih =>
    cases p with
    | ends done => cases executed
    | calls action next =>
      cases outcome with
      | done => exact ih (meets.2.2 along.1) along.2 executed
      | refused => exact ih (meets.2.1 along.1) along.2 executed
      | killed => cases executed

theorem along_imp (implies : ∀ d action outcome, first d action outcome → second d action outcome)
    (along : Along first p d outcomes) : Along second p d outcomes := by
  induction outcomes generalizing p d with
  | nil => cases p <;> trivial
  | cons outcome rest ih =>
    cases p with
    | ends done => trivial
    | calls action next =>
      cases outcome with
      | done => exact ⟨implies d action .done along.1,ih along.2⟩
      | refused => exact ⟨implies d action .refused along.1,ih along.2⟩
      | killed => trivial

theorem along_always (always : ∀ d action outcome, ok d action outcome)
    : Along ok p d outcomes := by
  induction outcomes generalizing p d with
  | nil => cases p <;> trivial
  | cons outcome rest ih =>
    cases p with
    | ends done => trivial
    | calls action next =>
      cases outcome with
      | done => exact ⟨always d action .done,ih⟩
      | refused => exact ⟨always d action .refused,ih⟩
      | killed => trivial

theorem along_and
    (one : Along first p d outcomes) (two : Along second p d outcomes) :
    Along (fun d action outcome => first d action outcome ∧ second d action outcome) p d outcomes := by
  induction outcomes generalizing p d with
  | nil => cases p <;> trivial
  | cons outcome rest ih =>
    cases p with
    | ends done => trivial
    | calls action next =>
      cases outcome with
      | done | refused => exact ⟨⟨one.1,two.1⟩,ih one.2 two.2⟩
      | killed => trivial

theorem along_done (always : ∀ d action, ok d action .done)
    (all : ∀ outcome ∈ outcomes, outcome = .done) : Along ok p d outcomes := by
  induction outcomes generalizing p d with
  | nil => cases p <;> trivial
  | cons outcome rest ih =>
    cases all outcome (List.mem_cons_self ..)
    cases p with
    | ends done => trivial
    | calls action next => exact ⟨always d action,ih fun later member => all later (List.mem_cons_of_mem _ member)⟩

def Proc.run : Proc store α → Disk → Disk × Option α
  | .ends result,d => (d,result)
  | .calls action next,d => (next (some (store.perform action d).2)).run (store.perform action d).1

theorem run_bind (p : Proc store α) (f : α → Proc store β) (d : Disk) :
    (p >>= f).run d = (p.run d).2.elim ((p.run d).1,none) fun a => (f a).run (p.run d).1 := by
  change (p.bind f).run d = _
  induction p generalizing d with
  | ends result => cases result <;> rfl
  | calls action next ih => exact ih _ _

theorem run_done {p : Proc store α} (ran : p.run d = (middle,some a)) : (p >>= f).run d = (f a).run middle := by
  rw [run_bind,ran]
  rfl

theorem run_failed {p : Proc store α} (ran : p.run d = (middle,none)) : (p >>= f).run d = (middle,none) := by
  rw [run_bind,ran]
  rfl

theorem run_attempt {p : Proc store α} (ran : p.run d = (middle,result)) : p.attempt.run d = (middle,some result) := by
  induction p generalizing d with
  | ends other =>
    cases ran
    rfl
  | calls action next ih => exact ih _ ran

theorem run_executes (p : Proc store α) (d : Disk) : ∃ outcomes, execute p d outcomes = some ((p.run d).1,(p.run d).2) := by
  induction p generalizing d with
  | ends result => exact ⟨[],rfl⟩
  | calls action next ih =>
    obtain ⟨outcomes,executed⟩ := ih (some (store.perform action d).2) (store.perform action d).1
    exact ⟨.done::outcomes,executed⟩

end Executions

section Machines
variable {Disk Call α : Type} {store : Storage Disk}

-- The next operation of a procedure; nothing is left of it when it is killed.
def goes (p : Proc store α) (d : Disk) (outcome : Outcome) : Option (Disk × Option (Proc store α)) :=
  match p,outcome with
  | .ends _,_ => none
  | .calls _ _,.killed => some (d,none)
  | .calls _ next,.refused => some (d,some (next none))
  | .calls action next,.done => some ((store.perform action d).1,some (next (some (store.perform action d).2)))

def Allowed (ok : Disk → store.Action → Outcome → Prop) (p : Proc store α) (d : Disk) (outcome : Outcome) : Prop :=
  match p with
  | .ends _ => True
  | .calls action _ => ok d action outcome

theorem meets_goes
    (meets : Meets ok stop p d post)
    (allowed : Allowed ok p d outcome) (went : goes p d outcome = some (after,rest)) :
    rest.elim (stop after) fun p => Meets ok stop p after post := by
  cases p with
  | ends result => cases went
  | calls action next =>
    cases outcome with
    | killed =>
      cases went
      exact meets.1 allowed
    | refused =>
      cases went
      exact meets.2.1 allowed
    | done =>
      cases went
      exact meets.2.2 allowed

-- One procedure after another over one disk. The next call comes when the one
-- before it has ended or the process was killed.
structure State (store : Storage Disk) (Call α : Type) where
  disk : Disk
  running : Option (Call × Proc store α)

inductive Event (Call : Type) where
  | call (c : Call)
  | goes (outcome : Outcome)

def State.ended (s : State store Call α) : Bool :=
  match s.running with
  | some (_,.calls _ _) => false
  | _ => true

variable (body : Call → Proc store α)

def step (s : State store Call α) : Event Call → Option (State store Call α)
  | .call c => if s.ended then some {s with running := some (c,body c)} else none
  | .goes outcome => do
    let (c,p) ← s.running
    let (disk,rest) ← goes p s.disk outcome
    return ⟨disk,rest.map (c,·)⟩

def Careful (ok : Disk → store.Action → Outcome → Prop) (s : State store Call α) : Event Call → Prop
  | .call _ => True
  | .goes outcome => s.running.elim True fun (_,p) => Allowed ok p s.disk outcome

def Rests (inv : Disk → Prop) (post : Call → Disk → Option α → Prop) (s : State store Call α) : Prop :=
  match s.running with
  | none => inv s.disk
  | some (c,.ends result) => inv s.disk ∧ post c s.disk result
  | some (_,.calls _ _) => True

def Promised (ok : Disk → store.Action → Outcome → Prop) (inv : Disk → Prop) (post : Call → Disk → Option α → Prop)
    (s : State store Call α) : Prop :=
  s.running.elim (inv s.disk) fun (c,p) => Meets ok inv p s.disk fun d result => inv d ∧ post c d result

variable {body} {ok : Disk → store.Action → Outcome → Prop} {inv : Disk → Prop} {post : Call → Disk → Option α → Prop}
  {s next last : State store Call α} {event : Event Call} {events : List (Event Call)}

theorem promised_rests (promised : Promised ok inv post s) : Rests inv post s := by
  unfold Promised at promised
  unfold Rests
  split
  · rename_i idle
    rw [idle] at promised
    exact promised
  · rename_i ended
    rw [ended] at promised
    exact promised
  · trivial

theorem rests_ended (rests : Rests inv post s) (ended : s.ended = true) : inv s.disk := by
  unfold Rests at rests
  split at rests
  · exact rests
  · exact rests.1
  · rename_i running
    rw [State.ended,running] at ended
    cases ended

section
variable (sound : ∀ c d, inv d → Meets ok inv (body c) d fun d result => inv d ∧ post c d result)
include sound

theorem step_promised (promised : Promised ok inv post s) (allowed : Careful ok s event) (stepped : step body s event = some next) :
    Promised ok inv post next := by
  cases event with
  | call c =>
    simp only [step] at stepped
    split at stepped
    · rename_i ended
      cases stepped
      exact sound c s.disk (rests_ended (promised_rests promised) ended)
    · cases stepped
  | goes outcome =>
    obtain ⟨⟨c,p⟩,running,more⟩ := Option.bind_eq_some_iff.mp stepped
    obtain ⟨⟨disk,rest⟩,went,same⟩ := Option.bind_eq_some_iff.mp more
    cases same
    simp only [Promised,running,Option.elim] at promised
    simp only [Careful,running,Option.elim] at allowed
    have after := meets_goes promised allowed went
    cases rest with
    | none | some p => exact after

theorem run_rests (idle : s.running = none)
    (start : inv s.disk) (careful : Runs.Every (step body) (Careful ok) s events) (ran : Runs.run (step body) s events = some last) :
    Rests inv post last := by
  have promised : Promised ok inv post s := by
    rw [Promised,idle]
    exact start
  apply promised_rests
  exact Runs.run_preserves_when (Promised ok inv post) (fun _ _ _ held allowed stepped => step_promised sound held allowed stepped)
    promised careful ran

end

end Machines

end RemoteFileExplorer.Procedures
