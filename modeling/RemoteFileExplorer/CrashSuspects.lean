import RemoteFileExplorer.Runs
import Mathlib.Logic.Function.Basic

namespace RemoteFileExplorer.CrashSuspects
open Runs

-- A changed file is another version.
structure CrashKey where
  path : String
  size : Int
  mod : Int
  deriving DecidableEq,Repr

def crashLogCap : Nat := 256

structure CrashLog where
  strikes : CrashKey → Option Nat
  order : List CrashKey

namespace CrashLog

def empty : CrashLog := ⟨fun _ => none,[]⟩

def struck (l : CrashLog) (k : CrashKey) : Bool := 1 ≤ (l.strikes k).getD 0

def poisoned (l : CrashLog) (k : CrashKey) : Bool := 2 ≤ (l.strikes k).getD 0

def enter (l : CrashLog) (k : CrashKey) : CrashLog :=
  match l.order ++ [k] with
  | [] => l
  | old::rest => if crashLogCap < (old::rest).length then ⟨Function.update l.strikes old none,rest⟩ else {l with order := old::rest}

def strike (l : CrashLog) (k : CrashKey) : CrashLog :=
  let l := if (l.strikes k).isSome then l else l.enter k
  {l with strikes := Function.update l.strikes k (some ((l.strikes k).getD 0 + 1))}

-- The interruptions recorded for the version since it was last entered; the
-- newest record stands first, with whether it entered its version.
def since (k : CrashKey) : List (CrashKey × Bool) → Nat
  | [] => 0
  | (key,entered)::past => if key = k then if entered then 1 else since k past + 1 else since k past

-- The log remembers at most 256 versions, each once, with its strikes.
structure Valid (l : CrashLog) (past : List (CrashKey × Bool)) : Prop where
  bounded : l.order.length ≤ crashLogCap
  distinct : l.order.Nodup
  known : ∀ k, k ∈ l.order ↔ l.strikes k ≠ none
  counted : ∀ k n, l.strikes k = some n → 0 < n ∧ n = since k past

theorem empty_valid : empty.Valid [] := ⟨Nat.zero_le _,.nil,fun _ => by simp [empty],fun _ _ => nofun⟩

section Strikes
variable {l : CrashLog}

theorem enter_valid (valid : l.Valid past) (new : l.strikes k = none) :
    (l.enter k).order.length ≤ crashLogCap ∧ (l.enter k).order.Nodup ∧ k ∈ (l.enter k).order ∧ (l.enter k).strikes k = none ∧
      ∀ j ≠ k, (j ∈ (l.enter k).order ↔ (l.enter k).strikes j ≠ none) ∧ ∀ n, (l.enter k).strikes j = some n → l.strikes j = some n := by
  have fresh : k ∉ l.order := fun listed => (valid.known k).mp listed new
  have distinct : (l.order ++ [k]).Nodup := by
    rw [List.nodup_append]
    exact ⟨valid.distinct,List.pairwise_singleton _ k,fun j listed i one same => fresh (List.mem_singleton.mp one ▸ same ▸ listed)⟩
  have bounded := valid.bounded
  have known := valid.known
  cases order : l.order with
  | nil =>
    have alone : l.enter k = ⟨l.strikes,[k]⟩ := by
      unfold enter
      rw [order]
      rfl
    rw [order] at known
    rw [alone]
    refine ⟨by simp [crashLogCap],List.pairwise_singleton _ k,List.mem_singleton_self k,new,?_⟩
    intro j other
    rw [← known j]
    simp [other]
  | cons old rest =>
    rw [order] at bounded distinct known fresh
    unfold enter
    rw [order]
    dsimp only [List.cons_append]
    split
    · have gone : old ∉ rest ++ [k] ∧ (rest ++ [k]).Nodup := List.nodup_cons.mp distinct
      refine ⟨?_,gone.2,List.mem_append_right _ (List.mem_singleton_self k),?_,?_⟩
      · rw [List.length_append,List.length_singleton]
        exact bounded
      · exact (Function.update_of_ne (List.ne_of_not_mem_cons fresh) ..).trans new
      · intro j other
        dsimp only
        by_cases same : j = old
        · subst same
          rw [Function.update_self]
          exact ⟨by simpa using gone.1,nofun⟩
        · rw [Function.update_of_ne same,← known j]
          exact ⟨by simp [same,other],fun n => id⟩
    · rename_i short
      refine ⟨Nat.le_of_not_lt short,distinct,List.mem_append_right (old::rest) (List.mem_singleton_self k),new,?_⟩
      intro j other
      rw [← known j]
      exact ⟨by simp [other],fun n => id⟩

theorem strike_valid (valid : l.Valid past) (k : CrashKey) : (l.strike k).Valid ((k,!(l.strikes k).isSome)::past) := by
  have elsewhere {j : CrashKey} (other : j ≠ k) (entered : Bool) : since j ((k,entered)::past) = since j past := if_neg other.symm
  unfold strike
  cases seen : l.strikes k with
  | some n =>
    refine ⟨valid.bounded,valid.distinct,?_,?_⟩
    · refine (Function.forall_update_iff l.strikes fun j count => j ∈ l.order ↔ count ≠ none).mpr ⟨?_,fun j _ => valid.known j⟩
      simp [valid.known k,seen]
    · refine (Function.forall_update_iff l.strikes fun j count => ∀ m, count = some m → 0 < m ∧ m = since j ((k,false)::past)).mpr ⟨?_,?_⟩
      · rintro m ⟨⟩
        simp only [Option.isSome_some,if_true,seen,Option.getD_some,since,Bool.false_eq_true,if_false]
        exact ⟨Nat.succ_pos n,congrArg (· + 1) (valid.counted k n seen).2⟩
      · intro j other m found
        rw [elsewhere other]
        exact valid.counted j m found
  | none =>
    obtain ⟨bounded,distinct,listed,empty_,others⟩ := enter_valid valid seen
    refine ⟨bounded,distinct,?_,?_⟩
    · refine (Function.forall_update_iff (l.enter k).strikes fun j count => j ∈ (l.enter k).order ↔ count ≠ none).mpr ⟨?_,fun j other => (others j other).1⟩
      simp [listed]
    · refine (Function.forall_update_iff (l.enter k).strikes fun j count => ∀ m, count = some m → 0 < m ∧ m = since j ((k,true)::past)).mpr ⟨?_,?_⟩
      · rintro m ⟨⟩
        simp [empty_,since]
      · intro j other m found
        rw [elsewhere other]
        exact valid.counted j m ((others j other).2 m found)

end Strikes

end CrashLog

-- What a call of the sidecar brings: bytes, an error of the sidecar with its
-- code, its death in the call, refused starts, or anything else.
inductive Reply where
  | bytes (jpeg : List UInt8)
  | remote (code : String)
  | interrupted
  | breakerOpen
  | down
  deriving DecidableEq,Repr

inductive Outcome where
  | rendered
  | cancelled
  | notSupported
  | unsupported
  | interrupted
  | failed
  | breakerOpen
  | other
  deriving DecidableEq,Repr

def isJpeg (jpeg : List UInt8) : Bool := decide (4 ≤ jpeg.length) && jpeg[0]? == some 0xff && jpeg[1]? == some 0xd8

def mapRemoteError (code : String) : Outcome :=
  if code = "NOT_SUPPORTED" then .unsupported
  else if code = "TOO_LARGE" then .notSupported
  else if code = "INTERNAL" then .failed
  else .other

def Reply.outcome : Reply → Outcome
  | .bytes jpeg => if isJpeg jpeg then .rendered else .other
  | .remote code => mapRemoteError code
  | .interrupted => .interrupted
  | .breakerOpen => .breakerOpen
  | .down => .other

def outcomeOf (cancelled : Bool) (reply : Reply) : Outcome :=
  if reply.outcome ≠ .rendered ∧ cancelled = true then .cancelled else reply.outcome

inductive Result where
  | data
  | cancelled
  | unreadable
  | notSupported
  | failed
  | interrupted
  | unavailable
  | restarting
  deriving DecidableEq,Repr

inductive Stage where
  | outside
  | started
  | calling (key : Option CrashKey)
  | answered (key : Option CrashKey) (reply : Reply)
  | builtIn
  | ended (result : Result)
  deriving DecidableEq,Repr

structure State where
  crashes : CrashLog
  past : List (CrashKey × Bool)
  stage : Nat → Stage

def State.Sound (s : State) : Prop := s.crashes.Valid s.past

def State.Refused (r : Nat) (s : State) : Prop := s.stage r = .ended .notSupported

def State.start : State := ⟨.empty,[],fun _ => .outside⟩

-- Before the crash log is asked the wait for a decode slot can be cancelled, the
-- file be unreadable or its size one that the sidecar does not take.
inductive Event where
  | start (r : Nat)
  | cancelSlot (r : Nat)
  | unreadable (r : Nat)
  | oversized (r : Nat)
  | consult (r : Nat) (key : Option CrashKey)
  | answer (r : Nat) (reply : Reply)
  | decide (r : Nat) (cancelled : Bool)
  deriving DecidableEq,Repr

def State.at (s : State) (r : Nat) (stage : Stage) : State := {s with stage := Function.update s.stage r stage}

def State.strike (s : State) (k : CrashKey) : State := {s with crashes := s.crashes.strike k,past := (k,!(s.crashes.strikes k).isSome)::s.past}

def afterCall (s : State) (r : Nat) (key : Option CrashKey) : Outcome → State
  | .rendered => s.at r (.ended .data)
  | .cancelled => s.at r (.ended .cancelled)
  | .notSupported => s.at r (.ended .notSupported)
  | .unsupported => s.at r .builtIn
  | .interrupted =>
    match key with
    | none => s.at r (.ended .interrupted)
    | some k => (s.strike k).at r (.ended (if (s.crashes.strike k).poisoned k then .notSupported else .interrupted))
  | .failed => s.at r (.ended .failed)
  | .breakerOpen => s.at r (.ended .unavailable)
  | .other => if key.any s.crashes.struck then s.at r (.ended .restarting) else s.at r .builtIn

def step (s : State) : Event → Option State
  | .start r => if s.stage r = .outside then some (s.at r .started) else none
  | .cancelSlot r => if s.stage r = .started then some (s.at r (.ended .cancelled)) else none
  | .unreadable r => if s.stage r = .started then some (s.at r (.ended .unreadable)) else none
  | .oversized r => if s.stage r = .started then some (s.at r .builtIn) else none
  | .consult r key =>
    if s.stage r = .started then
      some (s.at r (if key.any s.crashes.poisoned then .ended .notSupported else .calling key))
    else none
  | .answer r reply =>
    match s.stage r with
    | .calling key => some (s.at r (.answered key reply))
    | _ => none
  | .decide r cancelled =>
    match s.stage r with
    | .answered key reply => some (afterCall s r key (outcomeOf cancelled reply))
    | _ => none

section Steps
variable {s next : State}

theorem afterCall_valid (valid : s.Sound) (r : Nat) (key : Option CrashKey) (outcome : Outcome) :
    (afterCall s r key outcome).Sound := by
  cases outcome with
  | interrupted =>
    cases key with
    | none => exact valid
    | some k => exact CrashLog.strike_valid valid k
  | other =>
    dsimp only [afterCall]
    split <;> exact valid
  | rendered | cancelled | notSupported | unsupported | failed | breakerOpen => exact valid

theorem step_valid (valid : s.Sound) (moved : step s event = some next) : next.Sound := by
  cases event with
  | answer r reply =>
    simp only [step] at moved
    split at moved <;> cases moved
    exact valid
  | decide r cancelled =>
    simp only [step] at moved
    split at moved <;> cases moved
    exact afterCall_valid valid ..
  | start r | cancelSlot r | unreadable r | oversized r | consult r key =>
    obtain ⟨_,⟨⟩⟩ := Option.ite_none_right_eq_some.mp moved
    exact valid

theorem step_ended (ended : s.stage r = .ended result) (moved : step s event = some next) : next.stage r = .ended result := by
  have apart {q : Nat} {stage : Stage} (now : s.stage q = stage) (going : stage ≠ .ended result) (after : Stage) (crashes : CrashLog) (past : List (CrashKey × Bool)) :
      ((⟨crashes,past,s.stage⟩ : State).at q after).stage r = .ended result := by
    have other : r ≠ q := fun same => going (now.symm.trans (same ▸ ended))
    exact (Function.update_of_ne other ..).trans ended
  cases event with
  | answer q reply =>
    simp only [step] at moved
    split at moved <;> cases moved
    rename_i calling
    exact apart calling (by simp) ..
  | decide q cancelled =>
    simp only [step] at moved
    split at moved <;> cases moved
    rename_i key reply answered
    cases outcomeOf cancelled reply with
    | interrupted => cases key <;> exact apart answered (by simp) ..
    | other =>
      dsimp only [afterCall]
      split <;> exact apart answered (by simp) ..
    | rendered | cancelled | notSupported | unsupported | failed | breakerOpen => exact apart answered (by simp) ..
  | start q | cancelSlot q | unreadable q | oversized q | consult q key =>
    obtain ⟨now,⟨⟩⟩ := Option.ite_none_right_eq_some.mp moved
    exact apart now (by simp) ..

end Steps

theorem afterCall_builtIn (struck : s.crashes.struck k = true) (through : (afterCall s r (some k) outcome).stage r = .builtIn) : outcome = .unsupported := by
  have last {t : State} {after : Stage} (other : after ≠ .builtIn) : (t.at r after).stage r ≠ .builtIn :=
    fun same => other ((Function.update_self ..).symm.trans same)
  cases outcome with
  | unsupported => rfl
  | other =>
    dsimp only [afterCall] at through
    rw [Option.any_some,struck,if_pos rfl] at through
    exact absurd through (last (by simp))
  | rendered | cancelled | notSupported | interrupted | failed | breakerOpen => exact absurd through (last (by simp))

theorem outcomeOf_unsupported (outcome : outcomeOf cancelled reply = .unsupported) : reply = .remote "NOT_SUPPORTED" := by
  unfold outcomeOf at outcome
  split at outcome
  · cases outcome
  · cases reply with
    | remote code =>
      by_cases named : code = "NOT_SUPPORTED"
      · rw [named]
      · simp only [Reply.outcome,mapRemoteError,if_neg named] at outcome
        split at outcome
        · cases outcome
        · split at outcome <;> cases outcome
    | bytes jpeg =>
      simp only [Reply.outcome] at outcome
      split at outcome <;> cases outcome
    | interrupted | breakerOpen | down => cases outcome

-- A version the log remembers as struck keeps a render from the built-in
-- decoder unless the sidecar answered that it does not know the format; one it
-- remembers as poisoned ends the render there.
theorem suspects_kept_out (ran : run step State.start events = some s) :
    (∀ r k reply cancelled next, s.stage r = .answered (some k) reply → k ∈ s.crashes.order → step s (.decide r cancelled) = some next →
      next.stage r = .builtIn → reply = .remote "NOT_SUPPORTED") ∧
    (∀ r k n next later last, s.stage r = .started → s.crashes.strikes k = some n → 2 ≤ n → step s (.consult r (some k)) = some next →
      run step next later = some last → last.stage r = .ended .notSupported) ∧
    s.crashes.order.length ≤ 256 ∧ s.crashes.order.Nodup ∧ (∀ k, k ∈ s.crashes.order ↔ s.crashes.strikes k ≠ none) ∧
    ∀ k n, s.crashes.strikes k = some n → 0 < n ∧ n = CrashLog.since k s.past := by
  have preserved : ∀ s event next, State.Sound s → step s event = some next → next.Sound := fun _ _ _ => step_valid
  have valid : s.Sound := run_preserves preserved (show State.start.Sound from CrashLog.empty_valid) ran
  refine ⟨?_,?_,valid.bounded,valid.distinct,valid.known,valid.counted⟩
  · intro r k reply cancelled next answered listed moved through
    obtain ⟨n,strikes⟩ := Option.ne_none_iff_exists'.mp ((valid.known k).mp listed)
    have struck : s.crashes.struck k = true := by
      rw [CrashLog.struck,strikes]
      exact decide_eq_true (valid.counted k n strikes).1
    simp only [step,answered,Option.some.injEq] at moved
    rw [← moved] at through
    exact outcomeOf_unsupported (afterCall_builtIn struck through)
  · intro r k n next later last started strikes twice moved ranLater
    have poisoned : s.crashes.poisoned k = true := by
      rw [CrashLog.poisoned,strikes]
      exact decide_eq_true twice
    obtain ⟨_,⟨⟩⟩ := Option.ite_none_right_eq_some.mp moved
    have still : ∀ s event next, State.Refused r s → step s event = some next → next.Refused r := fun _ _ _ => step_ended
    suffices now : State.Refused r _ from (run_preserves still now ranLater : State.Refused r last)
    refine (Function.update_self ..).trans ?_
    rw [Option.any_some,poisoned,if_pos rfl]

def sample : CrashKey := ⟨"/photos/a.png",10,0⟩

def struckTwice : List Event :=
  [.start 0,.consult 0 (some sample),.answer 0 .interrupted,.decide 0 false,.start 1,.consult 1 (some sample),.answer 1 .interrupted,.decide 1 false,.start 2]

theorem suspects_kept_out_sample : ∃ s, run step State.start struckTwice = some s ∧ s.crashes.order.length ≤ 256 := by
  obtain ⟨s,ran⟩ : ∃ s, run step State.start struckTwice = some s := ⟨_,rfl⟩
  exact ⟨s,ran,(suspects_kept_out ran).2.2.1⟩

theorem poisoned_cancelled : ∃ s next, run step State.start struckTwice = some s ∧ s.crashes.strikes sample = some 2 ∧ s.stage 2 = .started ∧
    step s (.cancelSlot 2) = some next ∧ next.stage 2 = .ended .cancelled :=
  ⟨_,_,rfl,rfl,rfl,rfl,rfl⟩

end RemoteFileExplorer.CrashSuspects
