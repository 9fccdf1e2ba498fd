import Mathlib.Logic.Function.Basic
import RemoteFileExplorer.Runs
import RemoteFileExplorer.SidecarFrames

namespace RemoteFileExplorer.SidecarCalls
open Runs
open SidecarFrames (Bytes)

structure Reply where
  id : Nat
  ok : Bool
  code : String
  message : String
  payload : Bytes
  body : Option Bytes
  deriving DecidableEq, Repr

-- What is put on the channel of a call: an answer or a remote error, or the
-- failure of the client.
inductive Result where
  | answer (r : Reply)
  | interrupted
  deriving DecidableEq, Repr

inductive Outcome where
  | answered (r : Reply)
  | undecodable (r : Reply)
  | cancelled
  | unmarshalled
  | unavailable
  | interrupted
  deriving DecidableEq, Repr

-- Where one call stands. `registered` has its channel in the table and sends
-- next; `failing` has seen its send fail and calls fail; `draining` is inside fail.
inductive Stage where
  | idle
  | registered (id : Nat)
  | failing (id : Nat)
  | draining (id : Nat)
  | waiting (id : Nat)
  | cancelling (id : Nat)
  | notifying (id : Nat)
  | returned (outcome : Outcome)
  deriving DecidableEq, Repr

inductive Reader where
  | reading
  | delivering (call : Nat) (r : Reply)
  | failing
  | draining
  | stopped
  deriving DecidableEq, Repr

-- Who runs a piece of the client: the reader, a call, the goroutine that waits
-- for the process, or a Close.
inductive Task where
  | reader
  | call (c : Nat)
  | other (n : Nat)
  deriving DecidableEq, Repr

-- `pending` lists request ids with the call whose channel it is, and `chans`
-- what is buffered there. `done` is closed exactly when `failure` is set, in the
-- same critical section. `own` and `sent` only observe: the id each call drew, and
-- whether something was ever put on its channel.
structure State where
  nextId : Nat
  pending : List (Nat × Nat)
  failure : Bool
  draining : List Nat
  drainer : Option Task
  reader : Reader
  calls : Nat → Stage
  chans : Nat → Option Result
  cancelled : Nat → Bool
  own : Nat → Option Nat
  sent : Nat → Bool

def initial : State :=
  ⟨0,[],false,[],none,.reading,fun _ => .idle,fun _ => none,fun _ => false,fun _ => none,fun _ => false⟩

inductive Event where
  | start (c : Nat) (marshals : Bool)
  | send (c : Nat) (written : Bool)
  | cancel (c : Nat)
  | receive (c : Nat) (decodes : Bool)
  | observeCancel (c : Nat)
  | deregister (c : Nat)
  | notify (c : Nat)
  | observeDone (c : Nat)
  | reply (r : Reply)
  | deliver
  | readError
  | fail (task : Task)
  | drain (c : Nat)
  | drained
  deriving DecidableEq, Repr

def move (s : State) (c : Nat) (stage : Stage) : State := {s with calls := Function.update s.calls c stage}

-- A send on a channel of capacity one: it cannot happen while one is buffered.
def put (s : State) (c : Nat) (result : Result) : Option State :=
  match s.chans c with
  | some _ => none
  | none => some {s with chans := Function.update s.chans c (some result),sent := Function.update s.sent c true}

def resume (s : State) : Task → State
  | .reader => {s with reader := .stopped}
  | .call c => move s c (.returned .interrupted)
  | .other _ => s

def enter (s : State) : Task → State
  | .reader => {s with reader := .draining}
  | .call c =>
    match s.calls c with
    | .failing id => move s c (.draining id)
    | _ => s
  | .other _ => s

def mayFail (s : State) : Task → Bool
  | .reader => s.reader == .failing
  | .call c =>
    match s.calls c with
    | .failing _ => true
    | _ => false
  | .other _ => true

def step (s : State) : Event → Option State
  | .start c marshals =>
    match s.calls c with
    | .idle =>
      if s.cancelled c then some (move s c (.returned .cancelled)) else
      if !marshals then some (move s c (.returned .unmarshalled)) else
      if s.failure then some (move s c (.returned .unavailable)) else
      let id := s.nextId + 1
      some {move s c (.registered id) with
        nextId := id,pending := (id,c)::s.pending,own := Function.update s.own c (some id)}
    | _ => none
  | .send c written =>
    match s.calls c with
    | .registered id => some (move s c (if written then .waiting id else .failing id))
    | _ => none
  | .cancel c => some {s with cancelled := Function.update s.cancelled c true}
  -- The three branches of the select. Any that is ready may be taken.
  | .receive c decodes =>
    match s.calls c,s.chans c with
    | .waiting _,some (.answer r) =>
      some {move s c (.returned (if r.ok && !decodes then .undecodable r else .answered r)) with
        chans := Function.update s.chans c none}
    | .waiting _,some .interrupted =>
      some {move s c (.returned .interrupted) with chans := Function.update s.chans c none}
    | _,_ => none
  | .observeCancel c =>
    match s.calls c with
    | .waiting id => if s.cancelled c then some (move s c (.cancelling id)) else none
    | _ => none
  | .observeDone c =>
    match s.calls c with
    | .waiting _ => if s.failure then some (move s c (.returned .interrupted)) else none
    | _ => none
  | .deregister c =>
    match s.calls c with
    | .cancelling id => some {move s c (.notifying id) with
        pending := s.pending.filter (fun e => e.1 != id),nextId := s.nextId + 1}
    | _ => none
  -- The cancel message is sent or not; its error is dropped.
  | .notify c =>
    match s.calls c with
    | .notifying _ => some (move s c (.returned .cancelled))
    | _ => none
  | .reply r =>
    match s.reader with
    | .reading =>
      match s.pending.find? (fun e => e.1 == r.id) with
      | none => some s
      | some e => some {s with pending := s.pending.filter (fun f => f.1 != r.id),reader := .delivering e.2 r}
    | _ => none
  | .deliver =>
    match s.reader with
    | .delivering c r => (put s c (.answer r)).map fun s => {s with reader := .reading}
    | _ => none
  -- A read error or a protocol violation.
  | .readError =>
    match s.reader with
    | .reading => some {s with reader := .failing}
    | _ => none
  | .fail task =>
    if !mayFail s task then none else
    if s.failure then some (resume s task) else
    some (enter {s with failure := true,draining := s.pending.map Prod.snd,pending := [],drainer := some task} task)
  | .drain c =>
    if s.draining.contains c then (put s c .interrupted).map fun s => {s with draining := s.draining.erase c} else none
  | .drained =>
    match s.drainer,s.draining with
    | some task,[] => some {resume s task with drainer := none}
    | _,_ => none

def Stage.id : Stage → Option Nat
  | .registered id | .failing id | .draining id | .waiting id | .cancelling id | .notifying id => some id
  | .idle | .returned _ => none

def answeredBy : Outcome → Option Reply
  | .answered r | .undecodable r => some r
  | _ => none

inductive Stepped (s : State) : Event → State → Prop where
  | turnedAway : s.calls c = .idle → answeredBy outcome = none → Stepped s (.start c marshals) (move s c (.returned outcome))
  | registered : s.calls c = .idle → s.failure = false → Stepped s (.start c marshals) {move s c (.registered (s.nextId + 1)) with
      nextId := s.nextId + 1,pending := (s.nextId + 1,c)::s.pending,own := Function.update s.own c (some (s.nextId + 1))}
  | advanced : (s.calls c).id = some own → stage.id = some own → (∀ own, stage ≠ .draining own) → (∀ own, s.calls c ≠ .draining own) →
      Stepped s event (move s c stage)
  | gaveUp : (s.calls c).id = some own → (∀ own, s.calls c ≠ .draining own) → answeredBy outcome = none →
      Stepped s event (move s c (.returned outcome))
  | contextEnded : Stepped s (.cancel c) {s with cancelled := Function.update s.cancelled c true}
  | received : s.calls c = .waiting own → s.chans c = some result →
      (∀ r, answeredBy outcome = some r → result = .answer r) →
      Stepped s (.receive c decodes) {move s c (.returned outcome) with chans := Function.update s.chans c none}
  | deregistered : s.calls c = .cancelling own → Stepped s (.deregister c) {move s c (.notifying own) with
      pending := s.pending.filter (fun e => e.1 != own),nextId := s.nextId + 1}
  | dropped : s.reader = .reading → Stepped s (.reply r) s
  | taken : s.reader = .reading → (r.id,c) ∈ s.pending →
      Stepped s (.reply r) {s with pending := s.pending.filter (fun f => f.1 != r.id),reader := .delivering c r}
  | delivered : s.reader = .delivering c r → s.chans c = none → Stepped s .deliver {s with
      chans := Function.update s.chans c (some (.answer r)),sent := Function.update s.sent c true,reader := .reading}
  | readFailed : s.reader = .reading → Stepped s .readError {s with reader := .failing}
  | failedAgain : s.failure = true → (task = .reader ∧ s.reader = .failing) ∨ (∃ n, task = .other n) →
      Stepped s (.fail task) (resume s task)
  | failed : mayFail s task = true → s.failure = false → Stepped s (.fail task)
      (enter {s with failure := true,draining := s.pending.map Prod.snd,pending := [],drainer := some task} task)
  | drained : c ∈ s.draining → s.chans c = none → Stepped s (.drain c) {s with
      chans := Function.update s.chans c (some .interrupted),sent := Function.update s.sent c true,draining := s.draining.erase c}
  | finished : s.drainer = some task → s.draining = [] → Stepped s .drained {resume s task with drainer := none}

theorem put_parts (stored : put s c result = some next) : s.chans c = none ∧
    next = {s with chans := Function.update s.chans c (some result),sent := Function.update s.sent c true} := by
  unfold put at stored
  split at stored
  · cases stored
  · exact ⟨‹_›,(Option.some.inj stored).symm⟩

theorem step_cases (stepped : step s event = some next) : Stepped s event next := by
  cases event with
  | start c marshals =>
    simp only [step] at stepped
    split at stepped
    · rename_i idle
      split at stepped
      · cases stepped; exact .turnedAway idle rfl
      · split at stepped
        · cases stepped; exact .turnedAway idle rfl
        · split at stepped
          · cases stepped; exact .turnedAway idle rfl
          · rename_i alive
            cases stepped
            exact .registered idle (by simpa using alive)
    · cases stepped
  | send c written =>
    simp only [step] at stepped
    split at stepped
    · rename_i id stands
      cases stepped
      refine .advanced (by rw [stands]; rfl) ?_ ?_ (by rw [stands]; simp)
      · split <;> rfl
      · split <;> simp
    · cases stepped
  | cancel c =>
    cases stepped; exact .contextEnded
  | receive c decodes =>
    simp only [step] at stepped
    split at stepped
    · rename_i id r waits buffered
      cases stepped
      refine .received waits buffered ?_
      intro q by_
      split at by_ <;> cases by_ <;> rfl
    · rename_i id waits buffered
      cases stepped
      exact .received waits buffered (by simp [answeredBy])
    · cases stepped
  | observeCancel c =>
    simp only [step] at stepped
    split at stepped
    · rename_i id waits
      obtain ⟨_,⟨⟩⟩ := Option.ite_none_right_eq_some.mp stepped
      exact .advanced (by rw [waits]; rfl) rfl (by simp) (by rw [waits]; simp)
    · cases stepped
  | deregister c =>
    simp only [step] at stepped
    split at stepped
    · cases stepped; exact .deregistered ‹_›
    · cases stepped
  | notify c =>
    simp only [step] at stepped
    split at stepped
    · rename_i id stands
      cases stepped
      exact .gaveUp (by rw [stands]; rfl) (by rw [stands]; simp) rfl
    · cases stepped
  | observeDone c =>
    simp only [step] at stepped
    split at stepped
    · rename_i id waits
      obtain ⟨_,⟨⟩⟩ := Option.ite_none_right_eq_some.mp stepped
      exact .gaveUp (by rw [waits]; rfl) (by rw [waits]; simp) rfl
    · cases stepped
  | reply r =>
    simp only [step] at stepped
    split at stepped
    · rename_i reading
      split at stepped
      · cases stepped; exact .dropped reading
      · rename_i e found
        cases stepped
        have named : e.1 = r.id := by simpa using List.find?_some found
        exact .taken reading (by rw [←named]; exact List.mem_of_find?_eq_some found)
    · cases stepped
  | deliver =>
    simp only [step] at stepped
    split at stepped
    · rename_i c r stands
      obtain ⟨stored,putting,rfl⟩ := Option.map_eq_some_iff.mp stepped
      obtain ⟨empty,rfl⟩ := put_parts putting
      exact .delivered stands empty
    · cases stepped
  | readError =>
    simp only [step] at stepped
    split at stepped
    · cases stepped; exact .readFailed ‹_›
    · cases stepped
  | fail task =>
    obtain ⟨may,stepped⟩ := Option.ite_none_left_eq_some.mp stepped
    rw [Bool.not_eq_true,Bool.not_eq_false'] at may
    split at stepped
    · rename_i again
      cases stepped
      cases task with
      | reader => exact .failedAgain again (.inl ⟨rfl,by simpa [mayFail] using may⟩)
      | other n => exact .failedAgain again (.inr ⟨n,rfl⟩)
      | call c =>
        simp only [mayFail] at may
        split at may
        · rename_i id stands
          exact .gaveUp (by rw [stands]; rfl) (by rw [stands]; simp) rfl
        · cases may
    · rename_i first
      cases stepped
      exact .failed may (by simpa using first)
  | drain c =>
    obtain ⟨listed,stepped⟩ := Option.ite_none_right_eq_some.mp stepped
    obtain ⟨stored,putting,rfl⟩ := Option.map_eq_some_iff.mp stepped
    obtain ⟨empty,rfl⟩ := put_parts putting
    exact .drained (List.contains_iff_mem.mp listed) empty
  | drained =>
    simp only [step] at stepped
    split at stepped
    · rename_i task held none
      cases stepped
      exact .finished held none
    · cases stepped

structure Owners (s : State) : Prop where
  bound : ∀ c id, s.own c = some id → id ≤ s.nextId
  unique : ∀ c d id, s.own c = some id → s.own d = some id → c = d
  fresh : ∀ c, s.calls c = .idle → s.own c = none
  stage : ∀ c id, (s.calls c).id = some id → s.own c = some id
  answered : ∀ c outcome r, s.calls c = .returned outcome → answeredBy outcome = some r → s.own c = some r.id

-- The right to put something on a call's channel is in the table, in the
-- reader's hand, or with the task inside fail, and is used once.
structure Tokens (s : State) : Prop where
  table : ∀ e ∈ s.pending, s.own e.2 = some e.1 ∧ s.sent e.2 = false ∧ e.2 ∉ s.draining
  distinct : (s.pending.map Prod.snd).Nodup
  hand : ∀ c r, s.reader = .delivering c r →
    s.own c = some r.id ∧ s.sent c = false ∧ c ∉ s.draining ∧ ∀ e ∈ s.pending, e.2 ≠ c
  drains : s.draining.Nodup ∧ ∀ c ∈ s.draining, s.sent c = false ∧ s.own c ≠ none
  buffer : ∀ c result, s.chans c = some result → s.sent c = true ∧ ∀ r, result = .answer r → s.own c = some r.id
  unowned : ∀ c, s.own c = none → s.sent c = false

structure Ends (s : State) : Prop where
  isOpen : s.failure = false → s.draining = [] ∧ s.drainer = none
  closed : s.failure = true → s.pending = []
  reader : s.reader = .stopped ∨ s.reader = .draining → s.failure = true
  holderReader : s.drainer = some .reader ↔ s.reader = .draining
  holderCall : ∀ c, s.drainer = some (.call c) ↔ ∃ id, s.calls c = .draining id

structure Valid (s : State) : Prop where
  owners : Owners s
  tokens : Tokens s
  ends : Ends s

theorem initial_valid : Valid initial := by
  refine ⟨⟨?_,?_,?_,?_,?_⟩,⟨?_,?_,?_,?_,?_,?_⟩,⟨?_,?_,?_,?_,?_⟩⟩ <;> simp [initial,Stage.id]

theorem update_cases (calls : Nat → Stage) (c : Nat) (stage : Stage) (d : Nat) :
    (d = c ∧ Function.update calls c stage d = stage) ∨ (d ≠ c ∧ Function.update calls c stage d = calls d) := by
  by_cases same : d = c
  · exact .inl ⟨same,by rw [same,Function.update_self]⟩
  · exact .inr ⟨same,Function.update_of_ne same stage calls⟩

theorem owners_rule {next : State} (owners : Owners s) (c : Nat) (stage : Stage) (calls : next.calls = Function.update s.calls c stage)
    (own : next.own = s.own) (count : s.nextId ≤ next.nextId) (started : stage ≠ .idle)
    (keeps : ∀ id, stage.id = some id → s.own c = some id)
    (answers : ∀ outcome r, stage = .returned outcome → answeredBy outcome = some r → s.own c = some r.id) : Owners next := by
  obtain ⟨bound,unique,fresh,stages,answered⟩ := owners
  refine ⟨?_,?_,?_,?_,?_⟩
  · intro d id has
    rw [own] at has
    exact Nat.le_trans (bound d id has) count
  · rw [own]
    exact unique
  · intro d idle
    rw [calls] at idle
    rw [own]
    rcases update_cases s.calls c stage d with ⟨_,moved⟩ | ⟨_,moved⟩
    · rw [moved] at idle; exact absurd idle started
    · rw [moved] at idle; exact fresh d idle
  · intro d id has
    rw [calls] at has
    rw [own]
    rcases update_cases s.calls c stage d with ⟨rfl,moved⟩ | ⟨_,moved⟩
    · rw [moved] at has; exact keeps id has
    · rw [moved] at has; exact stages d id has
  · intro d outcome r returned by_
    rw [calls] at returned
    rw [own]
    rcases update_cases s.calls c stage d with ⟨rfl,moved⟩ | ⟨_,moved⟩
    · rw [moved] at returned; exact answers outcome r returned by_
    · rw [moved] at returned; exact answered d outcome r returned by_

theorem owners_frame {next : State} (owners : Owners s) (calls : next.calls = s.calls) (own : next.own = s.own)
    (count : s.nextId ≤ next.nextId) : Owners next := by
  obtain ⟨bound,unique,fresh,stages,answered⟩ := owners
  refine ⟨?_,?_,?_,?_,?_⟩
  · intro d id has
    rw [own] at has
    exact Nat.le_trans (bound d id has) count
  all_goals rw [own]
  · exact unique
  all_goals rw [calls]
  · exact fresh
  · exact stages
  · exact answered

theorem returned_owners {next : State} (owners : Owners s) (c : Nat) (calls : next.calls = Function.update s.calls c (.returned outcome))
    (own : next.own = s.own) (count : s.nextId ≤ next.nextId) (answers : ∀ r, answeredBy outcome = some r → s.own c = some r.id) :
    Owners next := by
  refine owners_rule owners c _ calls own count (by simp) (by simp [Stage.id]) ?_
  intro o r same by_
  cases same
  exact answers r by_

theorem step_owners (valid : Valid s) (stepped : Stepped s event next) : Owners next := by
  have owners := valid.owners
  cases stepped with
  | turnedAway idle none | gaveUp has _ none => exact returned_owners owners _ rfl rfl (Nat.le_refl _) (by simp [none])
  | @registered c _ idle alive =>
    have none := owners.fresh c idle
    have clear : ∀ d, s.own d ≠ some (s.nextId + 1) := by
      intro d has
      have := owners.bound d _ has
      omega
    refine ⟨?_,?_,?_,?_,?_⟩
    · intro d id has
      by_cases same : d = c
      · simp only [same,Function.update_self] at has
        cases has; exact Nat.le_refl _
      · simp only [Function.update_of_ne same] at has
        exact Nat.le_trans (owners.bound d id has) (Nat.le_succ _)
    · intro d e id has also
      by_cases left : d = c
      · by_cases right : e = c
        · rw [left,right]
        · simp only [left,Function.update_self,Function.update_of_ne right] at has also
          cases has
          exact absurd also (clear e)
      · by_cases right : e = c
        · simp only [right,Function.update_self,Function.update_of_ne left] at has also
          cases also
          exact absurd has (clear d)
        · simp only [Function.update_of_ne left,Function.update_of_ne right] at has also
          exact owners.unique d e id has also
    · intro d idle
      by_cases same : d = c
      · simp [move,same] at idle
      · simp only [move,Function.update_of_ne same] at idle ⊢
        exact owners.fresh d idle
    · intro d id has
      by_cases same : d = c
      · simp only [move,same,Function.update_self,Stage.id] at has ⊢
        exact has
      · simp only [move,Function.update_of_ne same] at has ⊢
        exact owners.stage d id has
    · intro d outcome r returned by_
      by_cases same : d = c
      · simp [move,same] at returned
      · simp only [move,Function.update_of_ne same] at returned ⊢
        exact owners.answered d outcome r returned by_
  | @advanced c own stage _ has keeps _ _ =>
    refine owners_rule owners c stage rfl rfl (Nat.le_refl _) ?_ ?_ ?_
    · rintro rfl; cases keeps
    · intro id same
      rw [keeps] at same
      cases same
      exact owners.stage c _ has
    · rintro o r rfl; cases keeps
  | contextEnded | dropped | taken | delivered | readFailed | drained => exact owners_frame owners rfl rfl (Nat.le_refl _)
  | @received c own result outcome _ waits buffered carries =>
    refine returned_owners owners c rfl rfl (Nat.le_refl _) ?_
    intro r by_
    exact (valid.tokens.buffer c result buffered).2 r (carries r by_)
  | @deregistered c own stands =>
    refine owners_rule owners c (.notifying own) rfl rfl (Nat.le_succ _) (by simp) ?_ (by simp)
    intro id same
    cases same
    exact owners.stage c _ (by rw [stands]; rfl)
  | failedAgain _ who =>
    rcases who with ⟨rfl,_⟩ | ⟨n,rfl⟩
    · exact owners_frame owners rfl rfl (Nat.le_refl _)
    · exact owners
  | @failed task may _ =>
    cases task with
    | reader | other n => exact owners_frame owners rfl rfl (Nat.le_refl _)
    | call c =>
      simp only [enter]
      split
      · rename_i id stands
        refine owners_rule owners c (.draining id) rfl rfl (Nat.le_refl _) (by simp) ?_ (by simp)
        intro other same
        cases same
        exact owners.stage c _ (by rw [stands]; rfl)
      · exact owners_frame owners rfl rfl (Nat.le_refl _)
  | @finished task held none =>
    cases task with
    | reader | other n => exact owners_frame owners rfl rfl (Nat.le_refl _)
    | call c => exact returned_owners owners c rfl rfl (Nat.le_refl _) (by simp [answeredBy])

theorem tokens_frame {next : State} (tokens : Tokens s) (pending : next.pending.Sublist s.pending) (draining : next.draining = s.draining)
    (hand : ∀ c r, next.reader = .delivering c r → s.reader = .delivering c r)
    (chans : ∀ c result, next.chans c = some result → s.chans c = some result) (own : next.own = s.own) (sent : next.sent = s.sent) :
    Tokens next := by
  obtain ⟨table,distinct,held,drains,buffer,unowned⟩ := tokens
  refine ⟨?_,distinct.sublist (pending.map _),?_,?_,?_,?_⟩
  · intro e member
    rw [own,sent,draining]
    exact table e (pending.subset member)
  · intro c r stands
    rw [own,sent,draining]
    obtain ⟨mine,unsent,apart,free⟩ := held c r (hand c r stands)
    exact ⟨mine,unsent,apart,fun e member => free e (pending.subset member)⟩
  · rw [draining,sent,own]
    exact drains
  · intro c result buffered
    rw [sent,own]
    exact buffer c result (chans c result buffered)
  · rw [own,sent]
    exact unowned

theorem tokens_spent {next : State} (tokens : Tokens s) (c : Nat) (result : Result) (named : s.own c ≠ none)
    (right : ∀ r, result = .answer r → s.own c = some r.id) (unlisted : ∀ e ∈ s.pending, e.2 ≠ c)
    (pending : next.pending = s.pending) (own : next.own = s.own)
    (draining : next.draining.Sublist s.draining) (gone : c ∉ next.draining)
    (hand : ∀ d r, next.reader = .delivering d r → s.reader = .delivering d r ∧ d ≠ c)
    (chans : next.chans = Function.update s.chans c (some result)) (sent : next.sent = Function.update s.sent c true) : Tokens next := by
  obtain ⟨table,distinct,held,drains,buffer,unowned⟩ := tokens
  have kept : ∀ d, d ≠ c → s.sent d = false → next.sent d = false := by
    intro d other unsent
    rw [sent,Function.update_of_ne other]
    exact unsent
  refine ⟨?_,by rw [pending]; exact distinct,?_,⟨drains.1.sublist draining,?_⟩,?_,?_⟩
  · intro e member
    rw [pending] at member
    obtain ⟨mine,unsent,apart⟩ := table e member
    rw [own]
    exact ⟨mine,kept e.2 (unlisted e member) unsent,fun listed => apart (draining.subset listed)⟩
  · intro d r stands
    obtain ⟨before,other⟩ := hand d r stands
    obtain ⟨mine,unsent,apart,free⟩ := held d r before
    rw [own,pending]
    exact ⟨mine,kept d other unsent,fun listed => apart (draining.subset listed),free⟩
  · intro d listed
    obtain ⟨unsent,owns⟩ := drains.2 d (draining.subset listed)
    have other : d ≠ c := by
      rintro rfl
      exact gone listed
    rw [own]
    exact ⟨kept d other unsent,owns⟩
  · intro d value buffered
    rw [chans] at buffered
    rw [own,sent]
    by_cases same : d = c
    · rw [same,Function.update_self] at buffered
      cases buffered
      rw [same,Function.update_self]
      exact ⟨rfl,right⟩
    · rw [Function.update_of_ne same] at buffered
      rw [Function.update_of_ne same]
      exact buffer d value buffered
  · intro d none
    rw [own] at none
    have other : d ≠ c := by
      rintro rfl
      exact named none
    exact kept d other (unowned d none)

theorem received_chans {chans : Nat → Option Result} (buffered : Function.update chans c none d = some result) :
    chans d = some result := by
  by_cases same : d = c
  · rw [same,Function.update_self] at buffered; cases buffered
  · rwa [Function.update_of_ne same] at buffered

theorem step_tokens (valid : Valid s) (stepped : Stepped s event next) : Tokens next := by
  have tokens := valid.tokens
  cases stepped with
  | turnedAway | advanced | gaveUp | contextEnded | dropped =>
    exact tokens_frame tokens (.refl _) rfl (fun _ _ => id) (fun _ _ => id) rfl rfl
  | @registered c _ idle alive =>
    obtain ⟨table,distinct,held,drains,buffer,unowned⟩ := tokens
    have fresh := valid.owners.fresh c idle
    have others : ∀ d, s.own d ≠ none → Function.update s.own c (some (s.nextId + 1)) d = s.own d := by
      intro d owns
      refine Function.update_of_ne ?_ ..
      rintro rfl
      exact owns fresh
    have unlisted : ∀ e ∈ s.pending, e.2 ≠ c := by
      intro e member same
      have mine := (table e member).1
      rw [same,fresh] at mine
      cases mine
    refine ⟨?_,?_,?_,⟨drains.1,?_⟩,?_,?_⟩
    · intro e member
      rcases List.mem_cons.mp member with rfl | old
      · refine ⟨Function.update_self ..,unowned c fresh,?_⟩
        intro listed
        exact (drains.2 c listed).2 fresh
      · obtain ⟨mine,rest⟩ := table e old
        exact ⟨(others e.2 (by rw [mine]; simp)).trans mine,rest⟩
    · refine List.nodup_cons.mpr ⟨?_,distinct⟩
      intro listed
      obtain ⟨e,member,same⟩ := List.mem_map.mp listed
      exact unlisted e member same
    · intro d r stands
      obtain ⟨mine,unsent,apart,free⟩ := held d r stands
      refine ⟨(others d (by rw [mine]; simp)).trans mine,unsent,apart,?_⟩
      intro e member
      rcases List.mem_cons.mp member with rfl | old
      · rintro rfl
        rw [fresh] at mine
        cases mine
      · exact free e old
    · intro d listed
      obtain ⟨unsent,owns⟩ := drains.2 d listed
      exact ⟨unsent,fun missing => owns ((others d owns).symm.trans missing)⟩
    · intro d result buffered
      obtain ⟨sent,right⟩ := buffer d result buffered
      refine ⟨sent,?_⟩
      intro r same
      exact (others d (by rw [right r same]; simp)).trans (right r same)
    · intro d missing
      by_cases same : d = c
      · rw [same]; exact unowned c fresh
      · exact unowned d ((Function.update_of_ne same ..).symm.trans missing)
  | received => exact tokens_frame tokens (.refl _) rfl (fun _ _ => id) (fun _ _ => received_chans) rfl rfl
  | deregistered => exact tokens_frame tokens List.filter_sublist rfl (fun _ _ => id) (fun _ _ => id) rfl rfl
  | @taken c r reading listed =>
    obtain ⟨table,distinct,held,drains,buffer,unowned⟩ := tokens
    obtain ⟨mine,unsent,apart⟩ := table (r.id,c) listed
    refine ⟨fun e member => table e (List.mem_filter.mp member).1,distinct.sublist (List.filter_sublist.map _),?_,drains,buffer,unowned⟩
    intro d q stands
    cases stands
    refine ⟨mine,unsent,apart,?_⟩
    intro e member same
    obtain ⟨stored,other⟩ := List.mem_filter.mp member
    have also := (table e stored).1
    rw [same,mine] at also
    have named : r.id = e.1 := Option.some.inj also
    simp [named] at other
  | @delivered c r stands empty =>
    obtain ⟨mine,unsent,apart,free⟩ := tokens.hand c r stands
    refine tokens_spent tokens c (.answer r) (by rw [mine]; simp) ?_ free rfl rfl (.refl _) apart ?_ rfl rfl
    · intro q same
      cases same
      exact mine
    · intro d q now
      cases now
  | readFailed => exact tokens_frame tokens (.refl _) rfl nofun (fun _ _ => id) rfl rfl
  | failedAgain _ who =>
    rcases who with ⟨rfl,_⟩ | ⟨n,rfl⟩
    · exact tokens_frame tokens (.refl _) rfl nofun (fun _ _ => id) rfl rfl
    · exact tokens
  | @failed task may first =>
    obtain ⟨table,distinct,held,drains,buffer,unowned⟩ := tokens
    have emptied : Tokens {s with failure := true,draining := s.pending.map Prod.snd,pending := [],drainer := some task} := by
      refine ⟨by simp,.nil,?_,⟨distinct,?_⟩,buffer,unowned⟩
      · intro c r stands
        obtain ⟨mine,unsent,_,free⟩ := held c r stands
        refine ⟨mine,unsent,?_,by simp⟩
        intro listed
        obtain ⟨e,member,same⟩ := List.mem_map.mp listed
        exact free e member same
      · intro c listed
        obtain ⟨e,member,rfl⟩ := List.mem_map.mp listed
        obtain ⟨mine,unsent,_⟩ := table e member
        exact ⟨unsent,by rw [mine]; simp⟩
    cases task with
    | reader => exact tokens_frame emptied (.refl _) rfl nofun (fun _ _ => id) rfl rfl
    | other n => exact emptied
    | call c =>
      simp only [enter]
      split
      · exact tokens_frame emptied (.refl _) rfl (fun _ _ => id) (fun _ _ => id) rfl rfl
      · exact emptied
  | @drained c listed empty =>
    obtain ⟨unsent,owns⟩ := tokens.drains.2 c listed
    refine tokens_spent tokens c .interrupted owns (by simp) ?_ rfl rfl List.erase_sublist ?_ ?_ rfl rfl
    · intro e member same
      exact (tokens.table e member).2.2 (same ▸ listed)
    · exact tokens.drains.1.not_mem_erase
    · intro d r stands
      refine ⟨stands,?_⟩
      rintro rfl
      exact (tokens.hand d r stands).2.2.1 listed
  | @finished task held none =>
    cases task with
    | reader => exact tokens_frame tokens (.refl _) rfl nofun (fun _ _ => id) rfl rfl
    | call c | other n => exact tokens_frame tokens (.refl _) rfl (fun _ _ => id) (fun _ _ => id) rfl rfl

theorem ends_frame {next : State} (ends : Ends s) (failure : next.failure = s.failure) (draining : s.draining = [] → next.draining = [])
    (drainer : next.drainer = s.drainer) (pending : s.failure = true → s.pending = [] → next.pending = [])
    (reader : (next.reader = .draining ↔ s.reader = .draining) ∧ (next.reader = .stopped → s.failure = true))
    (calls : ∀ c, (∃ id, next.calls c = .draining id) ↔ ∃ id, s.calls c = .draining id) : Ends next := by
  obtain ⟨isOpen,closed,ended,holderReader,holderCall⟩ := ends
  refine ⟨?_,?_,?_,?_,?_⟩
  · intro alive
    rw [failure] at alive
    obtain ⟨empty,nobody⟩ := isOpen alive
    exact ⟨draining empty,drainer.trans nobody⟩
  · intro dead
    rw [failure] at dead
    exact pending dead (closed dead)
  · rw [failure]
    rintro (stopped | busy)
    · exact reader.2 stopped
    · exact ended (.inr (reader.1.mp busy))
  · rw [drainer,reader.1]
    exact holderReader
  · intro c
    rw [drainer,calls c]
    exact holderCall c

theorem moved_draining {calls : Nat → Stage} (before : ∀ id, calls c ≠ .draining id) (after : ∀ id, stage ≠ .draining id) (d : Nat) :
    (∃ id, Function.update calls c stage d = .draining id) ↔ ∃ id, calls d = .draining id := by
  rcases update_cases calls c stage d with ⟨rfl,moved⟩ | ⟨_,moved⟩
  · rw [moved]
    constructor
    · rintro ⟨id,same⟩; exact absurd same (after id)
    · rintro ⟨id,same⟩; exact absurd same (before id)
  · rw [moved]

theorem step_ends (valid : Valid s) (stepped : Stepped s event next) : Ends next := by
  have ends := valid.ends
  have running : s.reader = .stopped → s.failure = true := fun stopped => ends.reader (.inl stopped)
  cases stepped with
  | turnedAway idle =>
    exact ends_frame ends rfl id rfl (fun _ => id) ⟨.rfl,running⟩ (moved_draining (by rw [idle]; simp) (by simp))
  | registered idle alive =>
    refine ends_frame ends rfl id rfl ?_ ⟨.rfl,running⟩ (moved_draining (by rw [idle]; simp) (by simp))
    intro dead
    rw [alive] at dead
    cases dead
  | advanced _ _ after before => exact ends_frame ends rfl id rfl (fun _ => id) ⟨.rfl,running⟩ (moved_draining before after)
  | gaveUp _ before _ => exact ends_frame ends rfl id rfl (fun _ => id) ⟨.rfl,running⟩ (moved_draining before (by simp))
  | contextEnded | dropped => exact ends_frame ends rfl id rfl (fun _ => id) ⟨.rfl,running⟩ (fun _ => .rfl)
  | received waits =>
    exact ends_frame ends rfl id rfl (fun _ => id) ⟨.rfl,running⟩ (moved_draining (by rw [waits]; simp) (by simp))
  | deregistered stands =>
    refine ends_frame ends rfl id rfl ?_ ⟨.rfl,running⟩ (moved_draining (by rw [stands]; simp) (by simp))
    intro _ empty
    simp [empty]
  | taken reading _ =>
    refine ends_frame ends rfl id rfl ?_ ⟨by simp [reading],by simp⟩ (fun _ => .rfl)
    intro _ empty
    simp [empty]
  | delivered stands _ => exact ends_frame ends rfl id rfl (fun _ => id) ⟨by simp [stands],by simp⟩ (fun _ => .rfl)
  | readFailed reading => exact ends_frame ends rfl id rfl (fun _ => id) ⟨by simp [reading],by simp⟩ (fun _ => .rfl)
  | failedAgain dead who =>
    rcases who with ⟨rfl,failing⟩ | ⟨n,rfl⟩
    · exact ends_frame ends rfl id rfl (fun _ => id) ⟨by simp [resume,failing],fun _ => dead⟩ (fun _ => .rfl)
    · exact ends
  | @failed task may first =>
    have nobody := (ends.isOpen first).2
    have noReader : s.reader ≠ .draining := fun busy => by
      have held := ends.holderReader.mpr busy
      rw [nobody] at held
      cases held
    have noCall : ∀ c id, s.calls c ≠ .draining id := fun c id busy => by
      have held := (ends.holderCall c).mpr ⟨id,busy⟩
      rw [nobody] at held
      cases held
    cases task with
    | reader =>
      refine ⟨by simp [enter],by simp [enter],by simp [enter],by simp [enter],?_⟩
      intro c
      simpa [enter] using noCall c
    | other n =>
      refine ⟨by simp [enter],by simp [enter],by simp [enter],by simpa [enter] using noReader,?_⟩
      intro c
      simpa [enter] using noCall c
    | call c =>
      simp only [mayFail] at may
      split at may
      · rename_i id stands
        simp only [enter,stands]
        refine ⟨by simp [move],by simp [move],by simp [move],by simpa [move] using noReader,?_⟩
        intro d
        rcases update_cases s.calls c (.draining id) d with ⟨rfl,moved⟩ | ⟨other,moved⟩
        · simp [move]
        · simp only [move,moved]
          constructor
          · intro same
            cases same
            exact absurd rfl other
          · rintro ⟨later,busy⟩
            exact absurd busy (noCall d later)
      · cases may
  | drained listed _ =>
    refine ends_frame ends rfl ?_ rfl (fun _ => id) ⟨.rfl,running⟩ (fun _ => .rfl)
    intro empty
    simp [empty]
  | @finished task held none =>
    have dead : s.failure = true := by
      by_contra alive
      have nobody := (ends.isOpen (by simpa using alive)).2
      rw [nobody] at held
      cases held
    have noCall : ∀ d, Task.call d ≠ task → ∀ id, s.calls d ≠ .draining id := by
      intro d other id busy
      have mine := (ends.holderCall d).mpr ⟨id,busy⟩
      rw [held] at mine
      exact other (Option.some.inj mine).symm
    have noReader : Task.reader ≠ task → s.reader ≠ .draining := by
      intro other busy
      have mine := ends.holderReader.mpr busy
      rw [held] at mine
      exact other (Option.some.inj mine).symm
    cases task with
    | reader =>
      refine ⟨by simp [resume,dead],?_,by simp [resume,dead],by simp [resume],?_⟩
      · intro _; exact ends.closed dead
      · intro c
        simpa [resume] using noCall c (by simp)
    | other n =>
      refine ⟨by simp [resume,dead],?_,by simp [resume,dead],by simpa [resume] using noReader (by simp),?_⟩
      · intro _; exact ends.closed dead
      · intro c
        simpa [resume] using noCall c (by simp)
    | call c =>
      refine ⟨by simp [resume,move,dead],?_,by simp [resume,move,dead],by simpa [resume,move] using noReader (by simp),?_⟩
      · intro _; exact ends.closed dead
      · intro d
        rcases update_cases s.calls c (.returned .interrupted) d with ⟨rfl,moved⟩ | ⟨other,moved⟩
        · simp [resume,move]
        · simpa [resume,move,moved] using noCall d (by simpa using other)

theorem step_valid (valid : Valid s) (stepped : step s event = some next) : Valid next :=
  ⟨step_owners valid (step_cases stepped),step_tokens valid (step_cases stepped),step_ends valid (step_cases stepped)⟩

theorem run_valid (ran : run step initial events = some last) : Valid last :=
  run_preserves (fun _ _ _ => step_valid) initial_valid ran

theorem step_returned (valid : Valid s) (returned : s.calls c = .returned outcome) (stepped : Stepped s event next) :
    next.calls c = .returned outcome := by
  have keep : ∀ d stage, s.calls d ≠ .returned outcome ∨ stage = .returned outcome →
      Function.update s.calls d stage c = .returned outcome := by
    intro d stage moves
    rcases update_cases s.calls d stage c with ⟨rfl,moved⟩ | ⟨_,moved⟩
    · rw [moved]
      rcases moves with other | same
      · exact absurd returned other
      · exact same
    · rw [moved]; exact returned
  have unreturned : ∀ d id, (s.calls d).id = some id → s.calls d ≠ .returned outcome := by
    intro d id has same
    rw [same] at has
    cases has
  cases stepped with
  | turnedAway idle | registered idle => exact keep _ _ (.inl (by rw [idle]; simp))
  | advanced has | gaveUp has => exact keep _ _ (.inl (unreturned _ _ has))
  | contextEnded | dropped | taken | delivered | readFailed | drained => exact returned
  | received waits => exact keep _ _ (.inl (by rw [waits]; simp))
  | deregistered stands => exact keep _ _ (.inl (by rw [stands]; simp))
  | failedAgain _ who => rcases who with ⟨rfl,_⟩ | ⟨n,rfl⟩ <;> exact returned
  | @failed task may first =>
    cases task with
    | reader | other n => exact returned
    | call d =>
      simp only [enter]
      split
      · rename_i id stands
        exact keep _ _ (.inl (by rw [stands]; simp))
      · exact returned
  | @finished task held none =>
    cases task with
    | reader | other n => exact returned
    | call d =>
      obtain ⟨id,busy⟩ := (valid.ends.holderCall d).mp held
      exact keep _ _ (.inl (by rw [busy]; simp))

def performs (s : State) : Event → Option Task
  | .start c _ | .send c _ | .receive c _ | .observeCancel c | .deregister c | .notify c | .observeDone c => some (.call c)
  | .cancel _ => none
  | .reply _ | .deliver | .readError => some .reader
  | .fail task => some task
  | .drain _ | .drained => s.drainer

def canStep (s : State) (task : Task) : Prop := ∃ event next, performs s event = some task ∧ step s event = some next

theorem drain_enabled (valid : Valid s) (held : s.drainer = some task) : canStep s task := by
  cases listed : s.draining with
  | nil => exact ⟨.drained,_,held,by simp only [step,held,listed]; rfl⟩
  | cons c rest =>
    have member : c ∈ s.draining := by rw [listed]; exact List.mem_cons_self
    have empty : s.chans c = none := by
      by_contra full
      obtain ⟨result,buffered⟩ := Option.ne_none_iff_exists'.mp full
      have sent := (valid.tokens.buffer c result buffered).1
      rw [(valid.tokens.drains.2 c member).1] at sent
      cases sent
    have listed : s.draining.contains c = true := List.contains_iff_mem.mpr member
    exact ⟨.drain c,_,held,by simp only [step,listed,if_true,put,empty,Option.map_some]; rfl⟩

theorem deliver_enabled (valid : Valid s) (stands : s.reader = .delivering c r) : ∃ next, step s .deliver = some next := by
  have empty : s.chans c = none := by
    by_contra full
    obtain ⟨result,buffered⟩ := Option.ne_none_iff_exists'.mp full
    have sent := (valid.tokens.buffer c result buffered).1
    rw [(valid.tokens.hand c r stands).2.1] at sent
    cases sent
  exact ⟨_,by simp only [step,stands,put,empty,Option.map_some]; rfl⟩

-- A call that has begun is never stuck, unless it waits and none of the three
-- things it waits for has happened.
theorem call_enabled (valid : Valid s) (begun : s.calls c ≠ .idle) (unfinished : ∀ outcome, s.calls c ≠ .returned outcome)
    (due : ∀ id, s.calls c = .waiting id → s.chans c ≠ none ∨ s.cancelled c = true ∨ s.failure = true) : canStep s (.call c) := by
  cases stage : s.calls c with
  | idle => exact absurd stage begun
  | returned outcome => exact absurd stage (unfinished outcome)
  | registered id => exact ⟨.send c true,_,rfl,by simp only [step,stage]; rfl⟩
  | failing id =>
    by_cases dead : s.failure = true
    all_goals exact ⟨.fail (.call c),_,rfl,by simp only [step,mayFail,stage,dead]; rfl⟩
  | draining id => exact drain_enabled valid ((valid.ends.holderCall c).mpr ⟨id,stage⟩)
  | waiting id =>
    rcases due id stage with full | ended | dead
    · obtain ⟨result,buffered⟩ := Option.ne_none_iff_exists'.mp full
      cases result with
      | answer r | interrupted => exact ⟨.receive c true,_,rfl,by simp only [step,stage,buffered]; rfl⟩
    · exact ⟨.observeCancel c,_,rfl,by simp only [step,stage,ended]; rfl⟩
    · exact ⟨.observeDone c,_,rfl,by simp only [step,stage,dead]; rfl⟩
  | cancelling id => exact ⟨.deregister c,_,rfl,by simp only [step,stage]; rfl⟩
  | notifying id => exact ⟨.notify c,_,rfl,by simp only [step,stage]; rfl⟩

theorem reader_enabled (valid : Valid s) (unstopped : s.reader ≠ .stopped) : canStep s .reader := by
  cases stage : s.reader with
  | reading => exact ⟨.readError,_,rfl,by simp only [step,stage]; rfl⟩
  | delivering c r =>
    obtain ⟨next,stepped⟩ := deliver_enabled valid stage
    exact ⟨.deliver,next,rfl,stepped⟩
  | failing =>
    by_cases dead : s.failure = true
    all_goals exact ⟨.fail .reader,_,rfl,by simp only [step,mayFail,stage,dead]; rfl⟩
  | draining => exact drain_enabled valid (valid.ends.holderReader.mpr stage)
  | stopped => exact absurd stage unstopped

structure Read (events : List Event) (s : State) : Prop where
  hand : ∀ c r, s.reader = .delivering c r → .reply r ∈ events
  buffer : ∀ c r, s.chans c = some (.answer r) → .reply r ∈ events
  answered : ∀ c outcome r, s.calls c = .returned outcome → answeredBy outcome = some r → .reply r ∈ events

theorem read_frame {next : State} (read : Read events s) (hand : ∀ c r, next.reader = .delivering c r → .reply r ∈ events ++ [event])
    (buffer : ∀ c r, next.chans c = some (.answer r) → .reply r ∈ events ++ [event])
    (calls : ∀ c outcome r, next.calls c = .returned outcome → answeredBy outcome = some r →
      s.calls c = .returned outcome ∨ .reply r ∈ events) : Read (events ++ [event]) next := by
  refine ⟨hand,buffer,?_⟩
  intro c outcome r returned by_
  rcases calls c outcome r returned by_ with before | known
  · exact List.mem_append_left _ (read.answered c outcome r before by_)
  · exact List.mem_append_left _ known

theorem moved_returned {calls : Nat → Stage} {events : List Event}
    (fresh : ∀ outcome r, stage = .returned outcome → answeredBy outcome = some r → .reply r ∈ events)
    (returned : Function.update calls c stage d = .returned outcome) (by_ : answeredBy outcome = some r) :
    calls d = .returned outcome ∨ .reply r ∈ events := by
  rcases update_cases calls c stage d with ⟨_,moved⟩ | ⟨_,moved⟩
  · rw [moved] at returned; exact .inr (fresh outcome r returned by_)
  · rw [moved] at returned; exact .inl returned

theorem step_read (read : Read events s) (stepped : Stepped s event next) : Read (events ++ [event]) next := by
  have hand : ∀ c r, s.reader = .delivering c r → Event.reply r ∈ events ++ [event] :=
    fun c r stands => List.mem_append_left _ (read.hand c r stands)
  have buffer : ∀ c r, s.chans c = some (.answer r) → Event.reply r ∈ events ++ [event] :=
    fun c r held => List.mem_append_left _ (read.buffer c r held)
  cases stepped with
  | turnedAway _ silent | gaveUp _ _ silent =>
    refine read_frame read hand buffer ?_
    intro d o r returned by_
    refine moved_returned ?_ returned by_
    intro o r same other
    cases same
    rw [silent] at other
    cases other
  | registered | deregistered =>
    refine read_frame read hand buffer ?_
    intro d o r returned by_
    exact moved_returned (by simp) returned by_
  | advanced _ keeps =>
    refine read_frame read hand buffer ?_
    intro d o r returned by_
    refine moved_returned ?_ returned by_
    rintro o r rfl
    cases keeps
  | contextEnded | dropped => exact read_frame read hand buffer fun _ _ _ returned _ => .inl returned
  | @received c own result outcome _ waits buffered carries =>
    refine read_frame read hand ?_ ?_
    · intro d r held
      exact buffer d r (received_chans held)
    · intro d o r returned by_
      refine moved_returned ?_ returned by_
      intro o r same by_
      cases same
      rw [carries r by_] at buffered
      exact read.buffer c r buffered
  | taken => exact read_frame read (fun d q stands => by cases stands; simp) buffer fun _ _ _ returned _ => .inl returned
  | @delivered c r stands _ =>
    refine read_frame read nofun ?_ fun _ _ _ returned _ => .inl returned
    intro d q held
    by_cases same : d = c
    · simp only [same,Function.update_self] at held
      cases held
      exact hand c r stands
    · simp only [Function.update_of_ne same] at held
      exact buffer d q held
  | readFailed => exact read_frame read nofun buffer fun _ _ _ returned _ => .inl returned
  | failedAgain _ who =>
    rcases who with ⟨rfl,_⟩ | ⟨n,rfl⟩
    · exact read_frame read nofun buffer fun _ _ _ returned _ => .inl returned
    · exact read_frame read hand buffer fun _ _ _ returned _ => .inl returned
  | @failed task may first =>
    cases task with
    | reader => exact read_frame read nofun buffer fun _ _ _ returned _ => .inl returned
    | other n => exact read_frame read hand buffer fun _ _ _ returned _ => .inl returned
    | call c =>
      simp only [enter]
      split
      · refine read_frame read hand buffer ?_
        intro d o r returned by_
        exact moved_returned (by simp) returned by_
      · exact read_frame read hand buffer fun _ _ _ returned _ => .inl returned
  | @drained c listed empty =>
    refine read_frame read hand ?_ fun _ _ _ returned _ => .inl returned
    intro d q held
    by_cases same : d = c
    · simp [same] at held
    · simp only [Function.update_of_ne same] at held
      exact buffer d q held
  | @finished task held none =>
    cases task with
    | reader => exact read_frame read nofun buffer fun _ _ _ returned _ => .inl returned
    | other n => exact read_frame read hand buffer fun _ _ _ returned _ => .inl returned
    | call c =>
      refine read_frame read hand buffer ?_
      intro d o r returned by_
      refine moved_returned ?_ returned by_
      intro o r same other
      cases same
      cases other

theorem run_read (ran : run step initial events = some last) : Read events last := by
  refine run_history Read ?_ ⟨by simp [initial],by simp [initial],by simp [initial]⟩ ran
  intro past s event next _ read stepped _
  exact step_read read (step_cases stepped)

theorem run_returned (valid : Valid s) (returned : s.calls c = .returned outcome) (ran : run step s events = some last) :
    last.calls c = .returned outcome := by
  induction events generalizing s with
  | nil => cases ran; exact returned
  | cons event rest ih =>
    obtain ⟨next,stepped,tail⟩ := run_cons.mp ran
    exact ih (step_valid valid stepped) (step_returned valid returned (step_cases stepped)) tail

theorem sidecar_calls_demultiplexed (events : List Event) (last : State) (ran : run step initial events = some last) :
    (∀ past rest middle c outcome, events = past ++ rest → run step initial past = some middle →
      middle.calls c = .returned outcome → last.calls c = .returned outcome) ∧
    (∀ c outcome r, last.calls c = .returned outcome → answeredBy outcome = some r →
      .reply r ∈ events ∧ last.own c = some r.id ∧ ∀ d, last.own d = some r.id → d = c) ∧
    (∀ c r, last.reader = .delivering c r → ∃ next, step last .deliver = some next) ∧
    (last.reader ≠ .stopped → canStep last .reader) ∧
    (∀ c, last.calls c ≠ .idle → (∀ outcome, last.calls c ≠ .returned outcome) →
      (∀ id, last.calls c = .waiting id → last.chans c ≠ none ∨ last.cancelled c = true ∨ last.failure = true) →
      canStep last (.call c)) ∧
    (last.reader = .stopped ∨ last.reader = .draining → last.failure = true) ∧
    (last.failure = true → ∀ c id, last.calls c = .waiting id →
      ∃ next, step last (.observeDone c) = some next ∧ next.calls c = .returned .interrupted) := by
  have valid := run_valid ran
  refine ⟨?_,?_,?_,reader_enabled valid,fun c => call_enabled valid,valid.ends.reader,?_⟩
  · intro past rest middle c outcome split before returned
    rw [split,run_append] at ran
    obtain ⟨same,ranPast,tail⟩ := ran
    rw [before] at ranPast
    cases ranPast
    exact run_returned (run_valid before) returned tail
  · intro c outcome r returned by_
    have mine := valid.owners.answered c outcome r returned by_
    exact ⟨(run_read ran).answered c outcome r returned by_,mine,fun d also => valid.owners.unique d c r.id also mine⟩
  · intro c r stands
    exact deliver_enabled valid stands
  · intro dead c id waits
    exact ⟨_,by simp only [step,waits,dead]; rfl,Function.update_self ..⟩

def crossedReplies : List Event :=
  [.start 0 true,.start 1 true,.start 2 true,.send 1 true,.send 0 true,.send 2 true,
    .reply ⟨2,true,"","",[1],none⟩,.deliver,.cancel 2,.observeCancel 2,.deregister 2,.notify 2,
    .reply ⟨3,true,"","",[3],none⟩,.reply ⟨1,true,"","",[0],none⟩,.deliver,.receive 0 true,.receive 1 true,
    .reply ⟨1,true,"","",[9],none⟩,.start 3 true,.send 3 true,.readError,.fail .reader,.drain 3,.drained]

theorem crossed_replies_delivered : ∃ last, run step initial crossedReplies = some last ∧
    last.calls 0 = .returned (.answered ⟨1,true,"","",[0],none⟩) ∧ last.calls 1 = .returned (.answered ⟨2,true,"","",[1],none⟩) ∧
    last.calls 2 = .returned .cancelled ∧ last.own 0 = some 1 ∧
    ∃ next, step last (.observeDone 3) = some next ∧ next.calls 3 = .returned .interrupted := by
  obtain ⟨last,ran,zero,one,two,three,dead⟩ : ∃ last, run step initial crossedReplies = some last ∧
      last.calls 0 = .returned (.answered ⟨1,true,"","",[0],none⟩) ∧ last.calls 1 = .returned (.answered ⟨2,true,"","",[1],none⟩) ∧
      last.calls 2 = .returned .cancelled ∧ last.calls 3 = .waiting 5 ∧ last.failure = true := ⟨_,rfl,rfl,rfl,rfl,rfl,rfl⟩
  obtain ⟨_,replies,_,_,_,_,ended⟩ := sidecar_calls_demultiplexed crossedReplies last ran
  exact ⟨last,ran,zero,one,two,(replies 0 _ _ zero rfl).2.1,ended dead 3 5 three⟩

-- No answer is sent twice or into a full channel, the requests on record belong to
-- calls that wait for them, and a client that failed has none left.
theorem sidecar_answers_once (ran : run step initial events = some last) : Tokens last ∧ Ends last :=
  ⟨(run_valid ran).tokens,(run_valid ran).ends⟩

theorem crossed_replies_once : ∃ last, run step initial crossedReplies = some last ∧ Tokens last ∧ Ends last :=
  ⟨_,rfl,sidecar_answers_once (show run step initial crossedReplies = some _ from rfl)⟩

end RemoteFileExplorer.SidecarCalls
