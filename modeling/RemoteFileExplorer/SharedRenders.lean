import RemoteFileExplorer.Runs
import Mathlib.Logic.Function.Basic

namespace RemoteFileExplorer.SharedRenders
open Runs

-- The goroutine of a render decodes, then it writes its result to the cache or
-- not, then it closes the call.
inductive Work where
  | rendering
  | saving
  | closing
  deriving DecidableEq,Repr

-- `attached` are the callers that wait for the render.
structure Call (Key : Type) where
  key : Key
  waiters : Nat
  attached : List Nat
  work : Work
  finished : Bool
  cancelled : Bool

-- Renders are numbered as they start; an answer names its render.
inductive Answer where
  | context
  | refused
  | cached (c : Nat)
  | rendered (c : Nat)
  deriving DecidableEq,Repr

inductive Stage (Key : Type) where
  | outside
  | looking (key : Key)
  | missed (key : Key)
  | waiting (key : Key) (c : Nat)
  | returned (key : Key) (answer : Answer)

variable {Key : Type}

structure State (Key : Type) where
  calls : Nat → Option (Call Key)
  made : Nat
  inFlight : Key → Option Nat
  stage : Nat → Stage Key
  cancelled : Nat → Bool
  cache : Key → Option Nat

def State.start : State Key := ⟨fun _ => none,0,fun _ => none,fun _ => .outside,fun _ => false,fun _ => none⟩

inductive Event (Key : Type) where
  | arrive (r : Nat) (key : Key)
  | cancel (r : Nat)
  | look (r : Nat) (readable : Bool)
  | enter (r : Nat)
  | done (r : Nat)
  | leave (r : Nat)
  | render (c : Nat) (ok : Bool)
  | save (c : Nat) (written : Bool)
  | close (c : Nat)

variable [DecidableEq Key]

def State.set (s : State Key) (c : Nat) (call : Call Key) : State Key := {s with calls := Function.update s.calls c (some call)}

def State.at (s : State Key) (r : Nat) (stage : Stage Key) : State Key := {s with stage := Function.update s.stage r stage}

def without (inFlight : Key → Option Nat) (key : Key) (c : Nat) : Key → Option Nat :=
  if inFlight key = some c then Function.update inFlight key none else inFlight

def State.unregister (s : State Key) (key : Key) (c : Nat) : State Key := {s with inFlight := without s.inFlight key c}

def begun (key : Key) (r : Nat) : Call Key := ⟨key,1,[r],.rendering,false,false⟩

def State.begin (s : State Key) (key : Key) (r : Nat) : State Key :=
  {s.set s.made (begun key r) with made := s.made + 1,inFlight := Function.update s.inFlight key (some s.made)}

def joinable (s : State Key) (key : Key) : Option (Nat × Call Key) :=
  (s.inFlight key).bind fun c => (s.calls c).bind fun call => if call.cancelled = false ∧ call.finished = false then some (c,call) else none

def detach (s : State Key) (r : Nat) (key : Key) (c : Nat) (call : Call Key) : State Key :=
  let left := {call with attached := call.attached.erase r}
  if call.finished = false ∧ 0 < call.waiters then
    if call.waiters = 1 then (s.set c {left with waiters := 0,cancelled := true}).unregister key c
    else s.set c {left with waiters := call.waiters - 1}
  else s.set c left

-- `regular` tells the callers whose source is a file.
def step (regular : Nat → Bool) (s : State Key) : Event Key → Option (State Key)
  | .arrive r key =>
    match s.stage r with
    | .outside => some (s.at r (if s.cancelled r then .returned key .context else if regular r then .looking key else .returned key .refused))
    | _ => none
  | .cancel r => some {s with cancelled := Function.update s.cancelled r true}
  | .look r readable =>
    match s.stage r with
    | .looking key => some (s.at r (((s.cache key).filter fun _ => readable).elim (.missed key) fun c => .returned key (.cached c)))
    | _ => none
  | .enter r =>
    match s.stage r with
    | .missed key =>
      match joinable s key with
      | some (c,call) => some ((s.set c {call with waiters := call.waiters + 1,attached := r::call.attached}).at r (.waiting key c))
      | none => some ((s.begin key r).at r (.waiting key s.made))
    | _ => none
  | .done r =>
    match s.stage r with
    | .waiting key c =>
      (s.calls c).bind fun call =>
        if call.finished then some ((s.set c {call with attached := call.attached.erase r}).at r (.returned key (.rendered c))) else none
    | _ => none
  | .leave r =>
    match s.stage r with
    | .waiting key c => (s.calls c).bind fun call => if s.cancelled r then some ((detach s r key c call).at r (.returned key .context)) else none
    | _ => none
  | .render c ok =>
    (s.calls c).bind fun call =>
      if call.work = .rendering then some (s.set c {call with work := if ok && !call.cancelled then .saving else .closing}) else none
  | .save c written =>
    (s.calls c).bind fun call =>
      if call.work = .saving then
        some {s.set c {call with work := .closing} with cache := if written then Function.update s.cache call.key (some c) else s.cache}
      else none
  | .close c =>
    (s.calls c).bind fun call =>
      if call.work = .closing ∧ call.finished = false then some ((s.set c {call with finished := true,cancelled := true}).unregister call.key c) else none

-- A render was started for the key under this number.
def Known (s : State Key) (key : Key) (c : Nat) : Prop := ∃ call, s.calls c = some call ∧ call.key = key

-- The answer is the caller's own error or that of a render for its key.
def Right (regular : Nat → Bool) (s : State Key) (r : Nat) (key : Key) : Answer → Prop
  | .context => s.cancelled r = true
  | .refused => regular r = false
  | .cached c | .rendered c => Known s key c

-- While a render is unfinished its waiter count is that of the callers that
-- wait, and it is cancelled only when none does.
def Counted (call : Call Key) : Prop :=
  call.attached.Nodup ∧ (call.finished = false → call.waiters = call.attached.length ∧ (call.cancelled = true → call.attached = []))

structure Sound (regular : Nat → Bool) (s : State Key) : Prop where
  below : ∀ key c, Known s key c → c < s.made
  live : ∀ c call, s.calls c = some call → call.finished = false → call.cancelled = false → s.inFlight call.key = some c
  registered : ∀ key c, s.inFlight key = some c → Known s key c
  cached : ∀ key c, s.cache key = some c → Known s key c
  counted : ∀ c call, s.calls c = some call → Counted call
  waits : ∀ r key c, s.stage r = .waiting key c → Known s key c
  attached : ∀ c call, s.calls c = some call → ∀ r, r ∈ call.attached ↔ s.stage r = .waiting call.key c
  answered : ∀ r key answer, s.stage r = .returned key answer → Right regular s r key answer

variable {regular : Nat → Bool} {s next : State Key} {call after : Call Key} {stage : Stage Key}

theorem without_iff {inFlight : Key → Option Nat} : without inFlight key c other = some d ↔ inFlight other = some d ∧ ¬(other = key ∧ d = c) := by
  unfold without
  split
  · rename_i mine
    by_cases same : other = key
    · subst same
      rw [Function.update_self,mine]
      simp [eq_comm]
    · simp [same]
  · rename_i foreign
    refine ⟨fun found => ⟨found,?_⟩,And.left⟩
    rintro ⟨rfl,rfl⟩
    exact foreign found

omit [DecidableEq Key] in
theorem right_kept {s next : State Key} (keys : ∀ d, Known s key d → Known next key d) (cancelled : s.cancelled r = true → next.cancelled r = true)
    (right : Right regular s r key answer) : Right regular next r key answer := by
  cases answer with
  | context => exact cancelled right
  | refused => exact right
  | cached c | rendered c => exact keys c right

omit [DecidableEq Key] in
theorem goes_sound (after : Call Key) (made : Nat) (inFlight : Key → Option Nat) (sound : Sound regular s) (keyed : ∀ key, Known s key c → after.key = key) (below : c < made)
    (more : s.made ≤ made) (live : after.finished = false → after.cancelled = false → inFlight after.key = some c)
    (others : ∀ d call, d ≠ c → s.calls d = some call → call.finished = false → call.cancelled = false → inFlight call.key = some d)
    (fewer : ∀ key d, inFlight key = some d → s.inFlight key = some d ∨ d = c ∧ after.key = key) (counted : Counted after)
    (waits : ∀ key, stage = .waiting key c → after.key = key) (stays : ∀ key d, d ≠ c → (stage = .waiting key d ↔ s.stage r = .waiting key d))
    (mine : r ∈ after.attached ↔ stage = .waiting after.key c) (rest : ∀ x ≠ r, x ∈ after.attached ↔ s.stage x = .waiting after.key c)
    (answered : ∀ key answer, stage = .returned key answer → Right regular s r key answer) :
    Sound regular {(s.set c after).at r stage with made := made,inFlight := inFlight} := by
  have new : Known (s.set c after) after.key c := ⟨after,Function.update_self ..,rfl⟩
  have keys : ∀ key d, Known s key d → Known (s.set c after) key d := by
    intro key d known
    by_cases same : d = c
    · subst same
      exact keyed key known ▸ new
    · exact known.imp fun _ now => ⟨(Function.update_of_ne same ..).trans now.1,now.2⟩
  refine ⟨?_,?_,?_,fun key d stands => keys key d (sound.cached key d stands),?_,?_,?_,?_⟩
  · rintro key d ⟨call,stands,same⟩
    by_cases here : d = c
    · exact here ▸ below
    · exact Nat.lt_of_lt_of_le (sound.below key d ⟨call,(Function.update_of_ne here ..).symm.trans stands,same⟩) more
  · refine (Function.forall_update_iff s.calls fun d x => ∀ call, x = some call → call.finished = false → call.cancelled = false → inFlight call.key = some d).mpr ⟨?_,?_⟩
    · rintro _ ⟨⟩
      exact live
    · exact fun d other call => others d call other
  · intro key d stands
    rcases fewer key d stands with before | ⟨rfl,rfl⟩
    · exact keys key d (sound.registered key d before)
    · exact new
  · refine (Function.forall_update_iff s.calls fun _ x => ∀ call, x = some call → Counted call).mpr ⟨?_,fun d _ => sound.counted d⟩
    rintro _ ⟨⟩
    exact counted
  · refine (Function.forall_update_iff s.stage fun _ x => ∀ key d, x = .waiting key d → Known (s.set c after) key d).mpr
      ⟨?_,fun x _ key d waiting => keys key d (sound.waits x key d waiting)⟩
    intro key d waiting
    by_cases here : d = c
    · subst here
      exact waits key waiting ▸ new
    · exact keys key d (sound.waits r key d ((stays key d here).mp waiting))
  · refine (Function.forall_update_iff s.calls fun d x => ∀ call, x = some call → ∀ x, x ∈ call.attached ↔ Function.update s.stage r stage x = .waiting call.key d).mpr ⟨?_,?_⟩
    · rintro _ ⟨⟩
      exact (Function.forall_update_iff s.stage fun x stage => x ∈ after.attached ↔ stage = .waiting after.key c).mpr ⟨mine,rest⟩
    · intro d here old stands
      refine (Function.forall_update_iff s.stage fun x stage => x ∈ old.attached ↔ stage = .waiting old.key d).mpr ⟨?_,fun x _ => sound.attached d old stands x⟩
      exact (sound.attached d old stands r).trans (stays old.key d here).symm
  · refine (Function.forall_update_iff s.stage fun x stage => ∀ key answer, stage = .returned key answer → Right regular (s.set c after) x key answer).mpr ⟨?_,?_⟩
    · exact fun key answer returned => right_kept (keys key) id (answered key answer returned)
    · exact fun x _ key answer returned => right_kept (keys key) id (sound.answered x key answer returned)

omit [DecidableEq Key] in
theorem known_found (found : s.calls c = some call) (same : after.key = call.key) : ∀ key, Known s key c → after.key = key := by
  rintro key ⟨old,stands,keyed⟩
  rw [found] at stands
  cases stands
  exact same.trans keyed

omit [DecidableEq Key] in
theorem at_sound (sound : Sound regular s) (idle : ∀ key c, s.stage r ≠ .waiting key c) (free : ∀ key c, stage ≠ .waiting key c)
    (answered : ∀ key answer, stage = .returned key answer → Right regular s r key answer) : Sound regular (s.at r stage) := by
  refine ⟨sound.below,sound.live,sound.registered,sound.cached,sound.counted,?_,?_,?_⟩
  · exact (Function.forall_update_iff s.stage fun _ stage => ∀ key c, stage = .waiting key c → Known s key c).mpr
      ⟨fun key c waiting => absurd waiting (free key c),fun x _ => sound.waits x⟩
  · intro c call stands
    refine (Function.forall_update_iff s.stage fun x stage => x ∈ call.attached ↔ stage = .waiting call.key c).mpr ⟨?_,fun x _ => sound.attached c call stands x⟩
    exact (sound.attached c call stands r).trans ⟨fun waiting => absurd waiting (idle _ _),fun waiting => absurd waiting (free _ _)⟩
  · exact (Function.forall_update_iff s.stage fun x stage => ∀ key answer, stage = .returned key answer → Right regular s x key answer).mpr ⟨answered,fun x _ => sound.answered x⟩

theorem begin_sound (sound : Sound regular s) (missed : s.stage r = .missed key) (free : joinable s key = none) : Sound regular ((s.begin key r).at r (.waiting key s.made)) := by
  have unknown : ∀ key, ¬ Known s key s.made := fun key known => Nat.lt_irrefl _ (sound.below key _ known)
  refine goes_sound (begun key r) _ _ sound (fun other known => absurd known (unknown other)) (Nat.lt_succ_self _) (Nat.le_succ _) (fun _ _ => Function.update_self ..) ?_ ?_
    ⟨List.pairwise_singleton _ r,fun _ => ⟨rfl,nofun⟩⟩ (fun _ same => by cases same; rfl) ?_ ?_ ?_ (fun _ _ => nofun)
  · intro d call _ stands open_ running
    have mine := sound.live d call stands open_ running
    refine (Function.update_of_ne ?_ ..).trans mine
    rintro rfl
    simp [joinable,mine,stands,open_,running] at free
  · exact (Function.forall_update_iff s.inFlight fun other x => ∀ d, x = some d → s.inFlight other = some d ∨ d = s.made ∧ key = other).mpr
      ⟨fun d same => .inr ⟨(Option.some.inj same).symm,rfl⟩,fun _ _ _ => .inl⟩
  · intro other d foreign
    rw [missed]
    exact ⟨fun same => by cases same; exact absurd rfl foreign,nofun⟩
  · exact ⟨fun _ => rfl,fun _ => List.mem_cons_self ..⟩
  · exact fun x other => ⟨fun member => absurd (List.mem_singleton.mp member) other,fun waiting => absurd (sound.waits x key _ waiting) (unknown key)⟩

def Drops (c : Nat) (before after : Key → Option Nat) : Prop :=
  (∀ key d, after key = some d → before key = some d) ∧ ∀ key d, d ≠ c → before key = some d → after key = some d

omit [DecidableEq Key] in
theorem drops_none (c : Nat) (inFlight : Key → Option Nat) : Drops c inFlight inFlight := ⟨fun _ _ => id,fun _ _ _ => id⟩

theorem drops_without (c : Nat) (inFlight : Key → Option Nat) (key : Key) : Drops c inFlight (without inFlight key c) :=
  ⟨fun _ _ stands => (without_iff.mp stands).1,fun _ _ other stands => without_iff.mpr ⟨stands,fun same => other same.2⟩⟩

section Found
variable {inFlight : Key → Option Nat} (sound : Sound regular s) (found : s.calls c = some call) (same : after.key = call.key) (drops : Drops c s.inFlight inFlight)
  (live : after.finished = false → after.cancelled = false → inFlight call.key = some c)
include sound found same drops live

omit [DecidableEq Key] in
theorem work_sound (waiting : after.attached = call.attached) (counted : Counted after) : Sound regular {s.set c after with inFlight := inFlight} := by
  have all : ∀ x, x ∈ after.attached ↔ s.stage x = .waiting after.key c := by
    rw [waiting,same]
    exact sound.attached c call found
  have stood : Sound regular {(s.set c after).at 0 (s.stage 0) with made := s.made,inFlight := inFlight} :=
    goes_sound after _ _ sound (known_found found same) (sound.below _ c ⟨call,found,rfl⟩) (Nat.le_refl _) (by rwa [same])
      (fun d call other stands open_ running => drops.2 _ d other (sound.live d call stands open_ running)) (fun key d stands => .inl (drops.1 key d stands)) counted
      (fun key waits => known_found found same key (sound.waits 0 key c waits)) (fun _ _ _ => .rfl) (all 0) (fun x _ => all x) (sound.answered 0)
  have standing : Function.update s.stage 0 (s.stage 0) = s.stage := Function.update_eq_self 0 s.stage
  change Sound regular {s.set c after with stage := Function.update s.stage 0 (s.stage 0),inFlight := inFlight} at stood
  rwa [standing] at stood

omit [DecidableEq Key] in
variable (after) in
theorem away_sound (waiting : s.stage r = .waiting key c) (left : after.attached = call.attached.erase r)
    (counted : after.finished = false → after.waiters = (call.attached.erase r).length ∧ (after.cancelled = true → call.attached.erase r = []))
    (answer : Answer) (right : Right regular s r key answer) : Sound regular {(s.set c after).at r (.returned key answer) with inFlight := inFlight} := by
  have distinct := (sound.counted c call found).1
  refine goes_sound _ s.made _ sound (known_found found same) (sound.below _ c ⟨call,found,rfl⟩) (Nat.le_refl _) (by rwa [same])
    (fun d call other stands open_ running => drops.2 _ d other (sound.live d call stands open_ running)) (fun key d stands => .inl (drops.1 key d stands))
    ⟨by rw [left]; exact distinct.erase r,by rwa [left]⟩ (fun _ => nofun) ?_ ?_ ?_ ?_
  · intro other d foreign
    rw [waiting]
    exact ⟨nofun,fun impossible => by cases impossible; exact absurd rfl foreign⟩
  · rw [left]
    exact ⟨fun member => absurd member distinct.not_mem_erase,nofun⟩
  · intro x other
    rw [left,same]
    exact (List.mem_erase_of_ne other).trans (sound.attached c call found x)
  · rintro _ _ ⟨⟩
    exact right

end Found

theorem detach_sound (sound : Sound regular s) (waiting : s.stage r = .waiting key c) (found : s.calls c = some call) (gone : s.cancelled r = true) :
    Sound regular ((detach s r key c call).at r (.returned key .context)) := by
  cases known_found found rfl key (sound.waits r key c waiting)
  have member := (sound.attached c call found r).mpr waiting
  have counted := (sound.counted c call found).2
  have shorter := List.length_erase_of_mem member
  have some_ := List.length_pos_of_mem member
  let left := {call with attached := call.attached.erase r}
  unfold detach
  split
  · rename_i open_
    split
    · rename_i one
      have none_ : call.attached.erase r = [] := by
        rw [← List.length_eq_zero_iff,shorter,← (counted open_.1).1,one]
      exact away_sound {left with waiters := 0,cancelled := true} sound found rfl (drops_without ..) (fun _ => nofun) waiting rfl (fun _ => ⟨by rw [none_]; rfl,fun _ => none_⟩) .context gone
    · refine away_sound {left with waiters := call.waiters - 1} sound found rfl (drops_none ..) (sound.live c call found) waiting rfl (fun _ => ?_) .context gone
      have waiters := (counted open_.1).1
      refine ⟨by rw [shorter,← waiters],fun stopped => ?_⟩
      rw [((counted open_.1).2 stopped)]
      rfl
  · rename_i closed
    have finished : ¬ call.finished = false := fun ended => closed ⟨ended,by rw [(counted ended).1]; exact some_⟩
    exact away_sound left sound found rfl (drops_none ..) (fun open_ => absurd open_ finished) waiting rfl (fun open_ => absurd open_ finished) .context gone

omit [DecidableEq Key] in
theorem joinable_some (free : joinable s key = some (c,call)) : s.inFlight key = some c ∧ s.calls c = some call ∧ call.cancelled = false ∧ call.finished = false := by
  obtain ⟨d,listed,rest⟩ := Option.bind_eq_some_iff.mp free
  obtain ⟨old,stands,rest⟩ := Option.bind_eq_some_iff.mp rest
  obtain ⟨fresh,⟨⟩⟩ := Option.ite_none_right_eq_some.mp rest
  exact ⟨listed,stands,fresh⟩

theorem enter_sound (sound : Sound regular s) (missed : s.stage r = .missed key) (moved : step regular s (.enter r) = some next) : Sound regular next := by
  simp only [step,missed] at moved
  split at moved
  · rename_i c call free
    cases moved
    obtain ⟨listed,found,running,open_⟩ := joinable_some free
    cases known_found found rfl key (sound.registered key c listed)
    have outside : ∀ other d, s.stage r ≠ .waiting other d := fun _ _ waiting => by cases missed.symm.trans waiting
    obtain ⟨distinct,counts⟩ := sound.counted c call found
    refine goes_sound _ s.made s.inFlight sound (known_found found rfl) (sound.below _ c ⟨call,found,rfl⟩) (Nat.le_refl _) (fun _ _ => listed)
      (fun d call _ => sound.live d call) (fun _ _ => .inl) ⟨?_,?_⟩ (fun _ same => by cases same; rfl) ?_ ?_ ?_ (fun _ _ => nofun)
    · exact List.nodup_cons.mpr ⟨fun member => outside _ _ ((sound.attached c call found r).mp member),distinct⟩
    · intro _
      refine ⟨by rw [(counts open_).1]; rfl,fun stopped => ?_⟩
      rw [running] at stopped
      cases stopped
    · intro other d foreign
      exact ⟨fun same => by cases same; exact absurd rfl foreign,fun waiting => absurd waiting (outside other d)⟩
    · exact ⟨fun _ => rfl,fun _ => List.mem_cons_self ..⟩
    · intro x other
      rw [List.mem_cons,or_iff_right other]
      exact sound.attached c call found x
  · rename_i free
    cases moved
    exact begin_sound sound missed free

theorem step_sound (sound : Sound regular s) (moved : step regular s event = some next) : Sound regular next := by
  have still : ∀ r c key, s.stage r = .waiting key c → ∀ stage, s.stage r = stage → (∀ key c, stage ≠ .waiting key c) → False :=
    fun _ c key waiting _ here free => free key c (here.symm.trans waiting)
  cases event with
  | cancel r =>
    cases moved
    refine ⟨sound.below,sound.live,sound.registered,sound.cached,sound.counted,sound.waits,sound.attached,?_⟩
    intro x key answer returned
    have kept : s.cancelled x = true → Function.update s.cancelled r true x = true := by
      intro gone
      by_cases same : x = r
      · rw [same]
        exact Function.update_self ..
      · exact (Function.update_of_ne same ..).trans gone
    exact right_kept (s := s) (fun _ => id) kept (sound.answered x key answer returned)
  | arrive r key =>
    simp only [step] at moved
    split at moved
    case h_2 => cases moved
    rename_i outside
    cases moved
    refine at_sound sound (fun other c waiting => still r c other waiting _ outside nofun) ?_ ?_
    · intro other c waiting
      split at waiting
      · cases waiting
      · split at waiting <;> cases waiting
    · intro other answer returned
      split at returned
      · rename_i gone
        cases returned
        exact gone
      · split at returned
        · cases returned
        · rename_i refused
          cases returned
          exact Bool.eq_false_iff.mpr refused
  | look r readable =>
    simp only [step] at moved
    split at moved
    case h_2 => cases moved
    rename_i key looking
    cases moved
    refine at_sound sound (fun other c waiting => still r c other waiting _ looking nofun) ?_ ?_
    · intro other c waiting
      cases hit : (s.cache key).filter fun _ => readable with
      | none | some d => rw [hit] at waiting; cases waiting
    · intro other answer returned
      cases hit : (s.cache key).filter fun _ => readable with
      | none => rw [hit] at returned; cases returned
      | some d =>
        rw [hit] at returned
        cases returned
        exact sound.cached key d (Option.filter_eq_some_iff.mp hit).1
  | enter r =>
    cases missed : s.stage r with
    | missed key => exact enter_sound sound missed moved
    | outside | looking _ | waiting _ _ | returned _ _ => simp only [step,missed] at moved; cases moved
  | done r =>
    simp only [step] at moved
    split at moved
    case h_2 => cases moved
    rename_i key c waiting
    obtain ⟨call,found,moved⟩ := Option.bind_eq_some_iff.mp moved
    obtain ⟨finished,⟨⟩⟩ := Option.ite_none_right_eq_some.mp moved
    cases known_found found rfl key (sound.waits r key c waiting)
    have closed : ¬ call.finished = false := fun open_ => by rw [finished] at open_; cases open_
    exact away_sound {call with attached := call.attached.erase r} sound found rfl (drops_none ..) (fun open_ => absurd open_ closed) waiting rfl (fun open_ => absurd open_ closed) _ ⟨call,found,rfl⟩
  | leave r =>
    simp only [step] at moved
    split at moved
    case h_2 => cases moved
    rename_i key c waiting
    obtain ⟨call,found,moved⟩ := Option.bind_eq_some_iff.mp moved
    obtain ⟨gone,⟨⟩⟩ := Option.ite_none_right_eq_some.mp moved
    exact detach_sound sound waiting found gone
  | render c ok =>
    obtain ⟨call,found,moved⟩ := Option.bind_eq_some_iff.mp moved
    obtain ⟨_,⟨⟩⟩ := Option.ite_none_right_eq_some.mp moved
    exact work_sound sound found rfl (drops_none ..) (sound.live c call found) rfl (sound.counted c call found)
  | save c written =>
    obtain ⟨call,found,moved⟩ := Option.bind_eq_some_iff.mp moved
    obtain ⟨_,⟨⟩⟩ := Option.ite_none_right_eq_some.mp moved
    have worked : Sound regular {s.set c {call with work := .closing} with inFlight := s.inFlight} := work_sound sound found rfl (drops_none ..) (sound.live c call found) rfl (sound.counted c call found)
    refine ⟨worked.below,worked.live,worked.registered,?_,worked.counted,worked.waits,worked.attached,worked.answered⟩
    cases written with
    | false => exact worked.cached
    | true =>
      refine (Function.forall_update_iff s.cache fun key x => ∀ d, x = some d → Known (s.set c _) key d).mpr ⟨?_,fun key _ => worked.cached key⟩
      rintro _ ⟨⟩
      exact ⟨_,Function.update_self ..,rfl⟩
  | close c =>
    obtain ⟨call,found,moved⟩ := Option.bind_eq_some_iff.mp moved
    obtain ⟨_,⟨⟩⟩ := Option.ite_none_right_eq_some.mp moved
    exact work_sound sound found rfl (drops_without ..) (fun _ => nofun) rfl ⟨(sound.counted c call found).1,nofun⟩

omit [DecidableEq Key] in
theorem start_sound : Sound regular (State.start : State Key) := by
  refine ⟨?_,fun _ _ => nofun,fun _ _ => nofun,fun _ _ => nofun,fun _ _ => nofun,fun _ _ _ => nofun,fun _ _ => nofun,fun _ _ _ => nofun⟩
  rintro key c ⟨call,stands,_⟩
  cases stands

omit [DecidableEq Key] in
theorem at_waiting (before : s.stage r ≠ .waiting key c) (free : ∀ key c, stage ≠ .waiting key c) : (s.at x stage).stage r ≠ .waiting key c := by
  change Function.update s.stage x stage r ≠ _
  by_cases same : r = x
  · subst same
    rw [Function.update_self]
    exact free key c
  · rwa [Function.update_of_ne same]

theorem detach_stage : (detach s r key c call).stage = s.stage := by
  unfold detach
  split
  · split <;> rfl
  · rfl

theorem step_joins (moved : step regular s event = some next) (before : s.stage r ≠ .waiting key c) (after : next.stage r = .waiting key c) :
    (∃ call, s.calls c = some call ∧ call.cancelled = false ∧ call.finished = false) ∨ joinable s key = none ∧ c = s.made := by
  cases event with
  | cancel x => cases moved; exact absurd after before
  | arrive x key =>
    simp only [step] at moved
    split at moved
    case h_2 => cases moved
    cases moved
    refine absurd after (at_waiting before fun _ _ => ?_)
    split
    · nofun
    · split <;> nofun
  | look x readable =>
    simp only [step] at moved
    split at moved
    case h_2 => cases moved
    rename_i key _
    cases moved
    refine absurd after (at_waiting before fun _ _ => ?_)
    cases (s.cache key).filter fun _ => readable <;> nofun
  | enter x =>
    simp only [step] at moved
    split at moved
    case h_2 => cases moved
    by_cases same : r = x
    · subst same
      split at moved
      · rename_i d call free
        cases moved
        cases (Function.update_self ..).symm.trans after
        exact Or.inl ⟨call,(joinable_some free).2⟩
      · rename_i free
        cases moved
        cases (Function.update_self ..).symm.trans after
        exact Or.inr ⟨free,rfl⟩
    · split at moved <;> cases moved <;> exact absurd ((Function.update_of_ne same ..).symm.trans after) before
  | done x =>
    simp only [step] at moved
    split at moved
    case h_2 => cases moved
    obtain ⟨call,_,moved⟩ := Option.bind_eq_some_iff.mp moved
    obtain ⟨_,⟨⟩⟩ := Option.ite_none_right_eq_some.mp moved
    exact absurd after (at_waiting before nofun)
  | leave x =>
    simp only [step] at moved
    split at moved
    case h_2 => cases moved
    obtain ⟨call,_,moved⟩ := Option.bind_eq_some_iff.mp moved
    obtain ⟨_,⟨⟩⟩ := Option.ite_none_right_eq_some.mp moved
    exact absurd after (at_waiting (by rwa [detach_stage]) nofun)
  | render x ok | save x written | close x =>
    obtain ⟨call,_,moved⟩ := Option.bind_eq_some_iff.mp moved
    obtain ⟨_,⟨⟩⟩ := Option.ite_none_right_eq_some.mp moved
    exact absurd after before

theorem step_keeps (moved : step regular s event = some next) (ends : event = .close c ∨ ∃ r k, event = .leave r ∧ s.stage r = .waiting k c) (other : d ≠ c)
    (stands : s.inFlight key = some d) : next.inFlight key = some d := by
  have kept : ∀ k, without s.inFlight k c key = some d := fun _ => without_iff.mpr ⟨stands,fun same => other same.2⟩
  rcases ends with rfl | ⟨r,k,rfl,waiting⟩
  · obtain ⟨call,found,moved⟩ := Option.bind_eq_some_iff.mp moved
    obtain ⟨_,⟨⟩⟩ := Option.ite_none_right_eq_some.mp moved
    exact kept call.key
  · simp only [step,waiting] at moved
    obtain ⟨call,found,moved⟩ := Option.bind_eq_some_iff.mp moved
    obtain ⟨_,⟨⟩⟩ := Option.ite_none_right_eq_some.mp moved
    unfold detach
    split
    · split
      · exact kept k
      · exact stands
    · exact stands

theorem shared_renders {Key : Type} [DecidableEq Key] {regular : Nat → Bool} {events : List (Event Key)} {last : State Key} (ran : run (step regular) State.start events = some last) :
    (∀ r key answer, last.stage r = .returned key answer → Right regular last r key answer) ∧
      (∀ r key c, last.stage r = .waiting key c → ∃ call, last.calls c = some call ∧ call.key = key ∧
        (call.finished = false → call.waiters = call.attached.length ∧ r ∈ call.attached ∧ call.cancelled = false)) ∧
      (∀ c call, last.calls c = some call → call.finished = false → call.cancelled = false → last.inFlight call.key = some c) ∧
      ∀ event next, step regular last event = some next →
        (∀ r key c, last.stage r ≠ .waiting key c → next.stage r = .waiting key c →
          (∃ call, last.calls c = some call ∧ call.cancelled = false ∧ call.finished = false) ∨ joinable last key = none ∧ c = last.made ∧ last.calls c = none) ∧
        ∀ c d key, (event = .close c ∨ ∃ r k, event = .leave r ∧ last.stage r = .waiting k c) → d ≠ c → last.inFlight key = some d → next.inFlight key = some d := by
  have preserved : ∀ s event next, Sound regular s → step regular s event = some next → Sound regular (next : State Key) := fun _ _ _ => step_sound
  have sound := run_preserves preserved start_sound ran
  refine ⟨sound.answered,?_,sound.live,?_⟩
  · intro r key c waiting
    obtain ⟨call,stands,rfl⟩ := sound.waits r key c waiting
    have member := (sound.attached c call stands r).mpr waiting
    refine ⟨call,stands,rfl,fun open_ => ?_⟩
    obtain ⟨counts,stopped⟩ := (sound.counted c call stands).2 open_
    refine ⟨counts,member,?_⟩
    cases cancelled : call.cancelled with
    | false => rfl
    | true => rw [stopped cancelled] at member; cases member
  · intro event next moved
    refine ⟨?_,fun _ _ _ => step_keeps moved⟩
    intro r key c before after
    rcases step_joins moved before after with joined | ⟨free,rfl⟩
    · exact Or.inl joined
    · refine Or.inr ⟨free,rfl,?_⟩
      cases stands : last.calls last.made with
      | none => rfl
      | some call => exact absurd (sound.below _ _ ⟨call,stands,rfl⟩) (Nat.lt_irrefl _)

theorem shared_renders_pair : ∃ last : State Nat, run (step fun _ => true) State.start
    [.arrive 0 7,.look 0 true,.enter 0,.arrive 1 7,.look 1 true,.enter 1,.cancel 0,.leave 0,.render 0 true,.save 0 true,.close 0,.done 1] = some last ∧
      Right (fun _ => true) last 1 7 (.rendered 0) := by
  obtain ⟨last,ran⟩ : ∃ last : State Nat, run (step fun _ => true) State.start
      [.arrive 0 7,.look 0 true,.enter 0,.arrive 1 7,.look 1 true,.enter 1,.cancel 0,.leave 0,.render 0 true,.save 0 true,.close 0,.done 1] = some last := ⟨_,rfl⟩
  refine ⟨last,ran,(shared_renders ran).1 1 7 (.rendered 0) ?_⟩
  cases ran
  rfl

theorem source_refused : ∃ last : State Nat, run (step fun _ => false) State.start [.arrive 0 7] = some last ∧ last.stage 0 = .returned 7 .refused ∧
    last.cancelled 0 = false ∧ ∀ c, last.calls c = none := ⟨_,rfl,rfl,rfl,fun _ => rfl⟩

end RemoteFileExplorer.SharedRenders
