import RemoteFileExplorer.FixedWidths
import RemoteFileExplorer.Runs
import Mathlib.Algebra.Order.BigOperators.Group.List
import Mathlib.Logic.Function.Basic

namespace RemoteFileExplorer.DecodeBudgets
open FixedWidths Runs

-- How far a call of acquire is: it waits on its channel, it was granted and
-- then saw its context cancelled, it returned the reservation or an error, the
-- reservation was given back.
inductive Stage where
  | outside
  | parked
  | giving
  | holding
  | failed
  | released
  deriving DecidableEq,Repr

def Stage.live : Stage → Bool
  | .parked | .giving | .holding => true
  | .outside | .failed | .released => false

def Stage.taken : Stage → Bool
  | .giving | .holding => true
  | .outside | .parked | .failed | .released => false

-- `granted` lists the callers whose waiter was granted, `entered` those that
-- came to the lock, `held` the reservations not given back.
structure State where
  used : Int
  queue : List Nat
  granted : List Nat
  entered : List Nat
  held : List Nat
  stage : Nat → Stage
  cancelled : Nat → Bool

def State.start : State := ⟨0,[],[],[],[],fun _ => .outside,fun _ => false⟩

inductive Event where
  | acquire (c : Nat)
  | cancel (c : Nat)
  | wake (c : Nat)
  | quit (c : Nat)
  | release (c : Nat)
  deriving DecidableEq,Repr

section Budget
variable (limit : Int) (weight : Nat → Int)

def State.grant (s : State) (c : Nat) : State := {s with used := s.used + weight c,granted := s.granted ++ [c],held := c::s.held}

def State.at (s : State) (c : Nat) (stage : Stage) : State := {s with stage := Function.update s.stage c stage}

def dispatchLocked : List Nat → State → State
  | [],s => {s with queue := []}
  | c::rest,s => if limit < s.used + weight c then {s with queue := c::rest} else dispatchLocked rest (s.grant weight c)

def State.giveBack (s : State) (c : Nat) : State := {s with used := s.used - weight c,held := s.held.erase c}

def State.dispatched (s : State) : State := dispatchLocked limit weight s.queue s

def step (s : State) : Event → Option State
  | .acquire c =>
    if s.stage c ≠ .outside then none
    else if weight c ≤ 0 ∨ limit < weight c then some (s.at c .failed)
    else if s.cancelled c then some (s.at c .failed)
    else if s.queue = [] ∧ s.used + weight c ≤ limit then
      some (({s with entered := s.entered ++ [c]}.at c .parked).grant weight c)
    else some (({s with entered := s.entered ++ [c],queue := s.queue ++ [c]}.at c .parked).dispatched limit weight)
  | .cancel c => some {s with cancelled := Function.update s.cancelled c true}
  -- The channel is closed; the context is looked at once more.
  | .wake c =>
    if s.stage c = .parked ∧ c ∈ s.granted then some (s.at c (if s.cancelled c then .giving else .holding)) else none
  | .quit c =>
    if s.stage c = .parked ∧ s.cancelled c = true then
      if c ∈ s.granted then some (((s.giveBack weight c).at c .failed).dispatched limit weight)
      else some (({s with queue := s.queue.erase c}.at c .failed).dispatched limit weight)
    else none
  | .release c =>
    match s.stage c with
    | .giving => some (((s.giveBack weight c).at c .failed).dispatched limit weight)
    | .holding => some (((s.giveBack weight c).at c .released).dispatched limit weight)
    | _ => none

structure Balanced (s : State) : Prop where
  sum : s.used = (s.held.map weight).sum
  distinct : s.held.Nodup
  holds : ∀ c, c ∈ s.held ↔ c ∈ s.granted ∧ (s.stage c).live = true
  taken : ∀ c, (s.stage c).taken = true → c ∈ s.granted
  fits : s.used ≤ limit
  order : (s.granted ++ s.queue).Sublist s.entered
  once : s.entered.Nodup
  queued : ∀ c ∈ s.queue, s.stage c = .parked
  admitted : ∀ c ∈ s.entered, s.stage c ≠ .outside ∧ 0 < weight c

def Blocked (s : State) : Prop := ∀ c rest, s.queue = c::rest → limit < s.used + weight c

variable {limit weight} {s next : State}

theorem grant_balanced {rest : List Nat} (balanced : Balanced limit weight {s with queue := c::rest}) (room : s.used + weight c ≤ limit) :
    Balanced limit weight {s.grant weight c with queue := rest} := by
  obtain ⟨sum,distinct,holds,taken,_,order,once,queued,admitted⟩ := balanced
  dsimp only at sum distinct holds order once queued admitted
  have fresh : c ∉ s.granted := by
    have apart := (List.nodup_append.mp (once.sublist order)).2.2
    exact fun member => apart c member c (List.mem_cons_self ..) rfl
  have parked := queued c (List.mem_cons_self ..)
  refine ⟨?_,?_,?_,fun d kept => List.mem_append_left _ (taken d kept),room,?_,once,fun d member => queued d (List.mem_cons_of_mem c member),admitted⟩
  · change s.used + weight c = weight c + (s.held.map weight).sum
    rw [sum,Int.add_comm]
  · exact List.nodup_cons.mpr ⟨fun member => fresh ((holds c).mp member).1,distinct⟩
  · intro d
    change d ∈ c::s.held ↔ d ∈ s.granted ++ [c] ∧ (s.stage d).live = true
    rw [List.mem_cons,List.mem_append,List.mem_singleton,holds d]
    by_cases same : d = c
    · subst same
      simp [parked,Stage.live]
    · simp [same]
  · change (s.granted ++ [c] ++ rest).Sublist s.entered
    rwa [List.append_assoc]

theorem dispatch_balanced (queue : List Nat) (balanced : Balanced limit weight {s with queue := queue}) :
    Balanced limit weight (dispatchLocked limit weight queue s) ∧ Blocked limit weight (dispatchLocked limit weight queue s) := by
  induction queue generalizing s with
  | nil => exact ⟨balanced,nofun⟩
  | cons c rest ih =>
    rw [dispatchLocked]
    split
    · rename_i full
      refine ⟨balanced,?_⟩
      intro d others same
      cases same
      exact full
    · rename_i room
      exact ih (grant_balanced balanced (Int.not_lt.mp room))

theorem dispatched_balanced (balanced : Balanced limit weight s) :
    Balanced limit weight (s.dispatched limit weight) ∧ Blocked limit weight (s.dispatched limit weight) := dispatch_balanced s.queue balanced

theorem at_balanced {held : List Nat} {used : Int} {queue entered : List Nat} (balanced : Balanced limit weight s) (sum : used = (held.map weight).sum) (distinct : held.Nodup)
    (others : ∀ d ≠ c, d ∈ held ↔ d ∈ s.held) (mine : c ∈ held ↔ c ∈ s.granted ∧ stage.live = true) (taken : stage.taken = true → c ∈ s.granted) (fits : used ≤ limit)
    (order : (s.granted ++ queue).Sublist entered) (once : entered.Nodup) (queued : c ∈ queue → stage = .parked) (waits : ∀ d ≠ c, d ∈ queue → d ∈ s.queue)
    (came : ∀ d ≠ c, d ∈ entered → d ∈ s.entered) (admitted : c ∈ entered → stage ≠ .outside ∧ 0 < weight c) :
    Balanced limit weight ({s with used := used,held := held,queue := queue,entered := entered}.at c stage) := by
  refine ⟨sum,distinct,?_,?_,fits,order,once,?_,?_⟩
  · refine (Function.forall_update_iff s.stage fun d stage => d ∈ held ↔ d ∈ s.granted ∧ stage.live = true).mpr ⟨mine,?_⟩
    intro d other
    rw [others d other,balanced.holds d]
  · exact (Function.forall_update_iff s.stage fun d stage => stage.taken = true → d ∈ s.granted).mpr ⟨taken,fun d _ => balanced.taken d⟩
  · refine (Function.forall_update_iff s.stage fun d stage => d ∈ queue → stage = .parked).mpr ⟨queued,?_⟩
    exact fun d other member => balanced.queued d (waits d other member)
  · refine (Function.forall_update_iff s.stage fun d stage => d ∈ entered → stage ≠ .outside ∧ 0 < weight d).mpr ⟨admitted,?_⟩
    exact fun d other member => balanced.admitted d (came d other member)

section
variable (balanced : Balanced limit weight s)
include balanced

theorem stays_balanced (live : stage.live = (s.stage c).live) (taken : stage.taken = true → c ∈ s.granted) (inside : stage ≠ .outside) (unqueued : c ∉ s.queue) (came : c ∈ s.entered → 0 < weight c) :
    Balanced limit weight (s.at c stage) := by
  refine at_balanced balanced balanced.sum balanced.distinct (fun _ _ => .rfl) ?_ taken balanced.fits balanced.order balanced.once ?_ (fun _ _ => id) (fun _ _ => id)
    fun member => ⟨inside,came member⟩
  · rw [live]
    exact balanced.holds c
  · exact fun member => absurd member unqueued

theorem giveBack_balanced (granted : c ∈ s.granted) (live : (s.stage c).live = true) (done : stage.live = false) (inside : stage ≠ .outside) :
    Balanced limit weight ((s.giveBack weight c).at c stage) := by
  have mine : c ∈ s.held := (balanced.holds c).mpr ⟨granted,live⟩
  have whole := ((List.perm_cons_erase mine).map weight).sum_eq
  rw [List.map_cons,List.sum_cons,← balanced.sum] at whole
  have positive := (balanced.admitted c (balanced.order.subset (List.mem_append_left _ granted))).2
  have apart := (List.nodup_append.mp (balanced.once.sublist balanced.order)).2.2
  have fits := balanced.fits
  refine at_balanced balanced (by omega) (balanced.distinct.erase c) ?_ ?_ (fun _ => granted) (by omega) balanced.order balanced.once ?_ (fun _ _ => id)
    (fun _ _ => id) fun _ => ⟨inside,positive⟩
  · exact fun d other => List.mem_erase_of_ne other
  · rw [balanced.distinct.mem_erase_iff,done]
    simp
  · exact fun member => absurd rfl (apart c granted c member)

theorem enter_balanced (outside : s.stage c = .outside) (positive : 0 < weight c) :
    Balanced limit weight ({s with entered := s.entered ++ [c],queue := s.queue ++ [c]}.at c .parked) := by
  have new : c ∉ s.entered := fun member => (balanced.admitted c member).1 outside
  have ungranted : c ∉ s.granted := fun member => new (balanced.order.subset (List.mem_append_left _ member))
  refine at_balanced balanced balanced.sum balanced.distinct (fun _ _ => .rfl) ?_ nofun balanced.fits ?_ ?_ (fun _ => rfl) ?_ ?_
    fun _ => ⟨by decide,positive⟩
  · rw [balanced.holds c]
    simp [ungranted]
  · rw [← List.append_assoc]
    exact balanced.order.append (List.Sublist.refl [c])
  · exact List.nodup_append.mpr ⟨balanced.once,List.pairwise_singleton _ c,fun d member e one same => new (List.mem_singleton.mp one ▸ same ▸ member)⟩
  all_goals exact fun d other member => (List.mem_append.mp member).resolve_right fun one => other (List.mem_singleton.mp one)

end

theorem step_balanced (balanced : Balanced limit weight s ∧ Blocked limit weight s) (moved : step limit weight s event = some next) :
    Balanced limit weight next ∧ Blocked limit weight next := by
  obtain ⟨balanced,blocked⟩ := balanced
  cases event with
  | cancel c =>
    cases moved
    exact ⟨⟨balanced.sum,balanced.distinct,balanced.holds,balanced.taken,balanced.fits,balanced.order,balanced.once,balanced.queued,balanced.admitted⟩,blocked⟩
  | acquire c =>
    simp only [step] at moved
    split at moved
    case isTrue => cases moved
    rename_i outside
    rw [ne_eq,Decidable.not_not] at outside
    have refused : Balanced limit weight (s.at c .failed) := by
      refine stays_balanced balanced (by rw [outside]; rfl) nofun (by decide) ?_ fun member => (balanced.admitted c member).2
      intro member
      rw [balanced.queued c member] at outside
      cases outside
    split at moved
    · cases moved
      exact ⟨refused,blocked⟩
    · split at moved
      · cases moved
        exact ⟨refused,blocked⟩
      · have entered := enter_balanced balanced outside (by omega)
        split at moved
        · rename_i free
          cases moved
          have alone : s.queue ++ [c] = c::s.queue := by
            rw [free.1]
            rfl
          rw [alone] at entered
          refine ⟨grant_balanced entered free.2,?_⟩
          intro d rest some_
          exact absurd (free.1.symm.trans some_) (List.cons_ne_nil d rest).symm
        · cases moved
          exact dispatched_balanced entered
  | wake c =>
    obtain ⟨⟨parked,granted⟩,⟨⟩⟩ := Option.ite_none_right_eq_some.mp moved
    have apart := (List.nodup_append.mp (balanced.once.sublist balanced.order)).2.2
    refine ⟨stays_balanced balanced ?_ (fun _ => granted) ?_ (fun member => apart c granted c member rfl) fun member => (balanced.admitted c member).2,blocked⟩
    · rw [parked]
      split <;> rfl
    · split <;> decide
  | quit c =>
    simp only [step] at moved
    split at moved
    case isFalse => cases moved
    rename_i gone
    split at moved
    · rename_i granted
      cases moved
      exact dispatched_balanced (giveBack_balanced balanced granted (by rw [gone.1]; rfl) rfl (by decide))
    · rename_i waits
      cases moved
      have shorter : (s.granted ++ s.queue.erase c).Sublist (s.granted ++ s.queue) := (List.Sublist.refl _).append List.erase_sublist
      have distinct := (List.nodup_append.mp (balanced.once.sublist balanced.order)).2.1
      refine dispatched_balanced (at_balanced balanced balanced.sum balanced.distinct (fun _ _ => .rfl) ?_ nofun balanced.fits (shorter.trans balanced.order) balanced.once ?_ ?_
        (fun _ _ => id) fun member => ⟨by decide,(balanced.admitted c member).2⟩)
      · rw [balanced.holds c]
        simp [waits]
      · exact fun member => absurd member distinct.not_mem_erase
      · exact fun d _ member => List.mem_of_mem_erase member
  | release c =>
    simp only [step] at moved
    split at moved
    · rename_i giving
      cases moved
      exact dispatched_balanced (giveBack_balanced balanced (balanced.taken c (by rw [giving]; rfl)) (by rw [giving]; rfl) rfl (by decide))
    · rename_i holding
      cases moved
      exact dispatched_balanced (giveBack_balanced balanced (balanced.taken c (by rw [holding]; rfl)) (by rw [holding]; rfl) rfl (by decide))
    · cases moved

theorem start_balanced (positive : 0 ≤ limit) : Balanced limit weight State.start ∧ Blocked limit weight State.start := by
  refine ⟨⟨rfl,.nil,?_,?_,positive,.slnil,.nil,?_,?_⟩,?_⟩
  · intro c
    simp [State.start]
  · intro c impossible
    cases impossible
  · exact fun _ => nofun
  · exact fun _ => nofun
  · exact fun _ _ => nofun

theorem held_positive (balanced : Balanced limit weight s) : 0 ≤ s.used := by
  rw [balanced.sum]
  refine List.sum_nonneg ?_
  intro w member
  obtain ⟨c,held,rfl⟩ := List.mem_map.mp member
  exact (balanced.admitted c (balanced.order.subset (List.mem_append_left _ ((balanced.holds c).mp held).1))).2.le

end Budget

def maxThumbPixels : Int := 40000000
def decodeBytesPerPixel : Int := 8
def decodeMemoryBudget : Int := 384 * 2^20

-- The dimensions that are not refused before the budget is asked.
def admits (width height : Int) : Bool := decide (0 < width) && decide (0 < height) && (int64.div maxThumbPixels height).any (width ≤ ·)

def decodeWeight (width height : Int) : Option Int := (int64.mul width height).bind (int64.mul · decodeBytesPerPixel)

theorem decodeWeight_fits (admitted : admits width height = true) : ∃ w, decodeWeight width height = some w ∧ 0 < w ∧ w ≤ decodeMemoryBudget := by
  simp only [admits,Bool.and_eq_true,decide_eq_true_eq] at admitted
  obtain ⟨⟨wide,high⟩,within⟩ := admitted
  rw [div_holds (by decide) high (by decide) (by decide)] at within
  have most : width * height ≤ maxThumbPixels := (Int.le_ediv_iff_mul_le high).mp (of_decide_eq_true within)
  have least : 0 < width * height := Int.mul_pos wide high
  unfold maxThumbPixels at most
  have pixels : int64.mul width height = some (width * height) := check_holds (by simp only [int64,Width.Holds]; omega)
  have bytes : int64.mul (width * height) decodeBytesPerPixel = some (width * height * 8) :=
    check_holds (by simp only [int64,Width.Holds,decodeBytesPerPixel]; omega)
  refine ⟨width * height * 8,?_,by omega,?_⟩
  · rw [decodeWeight,pixels]
    exact bytes
  · unfold decodeMemoryBudget
    omega

end RemoteFileExplorer.DecodeBudgets
