import Mathlib.Algebra.BigOperators.Group.List.Basic
import RemoteFileExplorer.DesktopTransfers

namespace RemoteFileExplorer.DesktopTransfers

def Stage.inHand : Stage → Nat
  | .permitted | .repermitted _ | .parking | .releasing _ => 1
  | _ => 0

-- A place is held from the moment the semaphore gives its permit until the debt
-- is looked at on its way back, whether the item stores it or not.
def Item.held (item : Item) : Nat := (if item.slot then 1 else 0) + item.stage.inHand

def Transfers.held (s : Transfers) : Nat := (s.items.map Item.held).sum

def Demand.takes : Demand → Nat
  | .acquire => 1
  | _ => 0

def Demand.gives : Demand → Nat
  | .release => 1
  | _ => 0

structure Accounts (item after : Item) (demand : Demand) : Prop where
  held : after.held + demand.gives = item.held + demand.takes
  taken : after.taken = item.taken + demand.takes
  returned : after.returned = item.returned + demand.gives

theorem accounts_of {item after : Item} (slot : after.slot = item.slot) (hand : after.stage.inHand = item.stage.inHand)
    (taken : after.taken = item.taken) (returned : after.returned = item.returned) : Accounts item after .nothing where
  held := by simp [Item.held,Demand.gives,Demand.takes,slot,hand]
  taken := taken
  returned := returned

theorem settled_accounts (item : Item) (hand : item.stage.inHand = 0) (answer : Option Resolution) (how : Resolution) :
    Accounts item ({item with resolution := answer}.settled how) .nothing := by
  cases how <;> exact accounts_of rfl hand.symm rfl rfl

theorem goes_accounts {item after : Item} (ok : Coherent item) (moved : item.goes policy = some (after,demand)) :
    Accounts item after demand := by
  have slot := ok.slot
  cases stage : item.stage with
  | permitted | repermitted how =>
    have bare := slot false (by rw [stage]; rfl)
    simp only [Item.goes,stage] at moved
    cases Option.some.inj moved
    exact ⟨by simp [Item.held,stage,bare,Stage.inHand,Demand.gives,Demand.takes],rfl,rfl⟩
  | settling =>
    simp only [Item.goes,stage] at moved
    split at moved <;> cases Option.some.inj moved
    · exact settled_accounts item (by rw [stage]; rfl) item.resolution _
    · exact accounts_of rfl (by rw [stage]; rfl) rfl rfl
  | choosing =>
    have placed := slot true (by rw [stage]; rfl)
    simp only [Item.goes,stage] at moved
    split at moved <;> cases Option.some.inj moved
    · exact accounts_of rfl (by rw [stage]; rfl) rfl rfl
    · exact ⟨by simp [Item.held,stage,placed,Stage.inHand,Demand.gives,Demand.takes],rfl,rfl⟩
  | storing how =>
    simp only [Item.goes,stage] at moved
    cases Option.some.inj moved
    exact settled_accounts item (by rw [stage]; rfl) (some how) how
  | parking | releasing outcome =>
    simp only [Item.goes,stage] at moved
    cases Option.some.inj moved
    exact ⟨by simp [Item.held,stage,Stage.inHand,Demand.gives,Demand.takes],rfl,rfl⟩
  | leaving outcome =>
    simp only [Item.goes,stage] at moved
    cases Option.some.inj moved
    refine ⟨?_,rfl,rfl⟩
    cases holds : item.slot <;> simp [Item.held,stage,holds,Stage.inHand,Demand.gives,Demand.takes]
  | heard | swapped wasPausing =>
    simp only [Item.goes,stage] at moved
    split at moved <;> (cases Option.some.inj moved; exact accounts_of rfl (by rw [stage]; rfl) rfl rfl)
  | ending outcome =>
    cases outcome with
    | none =>
      simp only [Item.goes,stage] at moved
      split at moved <;> cases moved
      exact accounts_of rfl (by rw [stage]; rfl) rfl rfl
    | some result =>
      cases result with
      | ok _ =>
        simp only [Item.goes,stage] at moved
        cases Option.some.inj moved
        exact accounts_of rfl (by rw [stage]; rfl) rfl rfl
      | error message =>
        simp only [Item.goes,stage] at moved
        split at moved <;> (cases Option.some.inj moved; exact accounts_of rfl (by rw [stage]; rfl) rfl rfl)
  | ended | waiting | working | asking | rewaiting how => simp [Item.goes,stage] at moved
  -- placed, parked, answered, replaced, deciding, cleaning
  | _ =>
    simp only [Item.goes,stage] at moved
    cases Option.some.inj moved
    exact accounts_of rfl (by rw [stage]; rfl) rfl rfl

theorem attempt_accounts {item after : Item} (ok : Coherent item)
    (moved : item.attempt policy choice = some (after,demand)) : Accounts item after demand := by
  cases choice with
  | goes => exact goes_accounts ok moved
  | takes =>
    simp only [Item.attempt] at moved
    split at moved
    · rename_i stage
      cases Option.some.inj moved
      exact ⟨by simp [Item.held,stage,Stage.inHand,Demand.gives,Demand.takes],rfl,rfl⟩
    · rename_i how stage
      cases Option.some.inj moved
      exact ⟨by simp [Item.held,stage,Stage.inHand,Demand.gives,Demand.takes],rfl,rfl⟩
    · cases moved
  | stops =>
    obtain ⟨_,moved⟩ := Option.ite_none_right_eq_some.mp moved
    split at moved <;> cases moved
    · rename_i stage; exact accounts_of rfl (by rw [stage]; rfl) rfl rfl
    · rename_i stage; exact accounts_of rfl (by rw [stage]; rfl) rfl rfl
    · rename_i stage; exact accounts_of rfl (by rw [stage]; rfl) rfl rfl
    · rename_i how stage; exact accounts_of rfl (by rw [stage]; rfl) rfl rfl
  | meets | returns result =>
    simp only [Item.attempt] at moved
    split at moved <;> cases moved
    rename_i stage
    exact accounts_of rfl (by rw [stage]; rfl) rfl rfl
  | hears =>
    simp only [Item.attempt] at moved
    split at moved <;> cases moved
    rename_i stage _
    exact accounts_of rfl (by rw [stage]; rfl) rfl rfl

theorem command_accounts {item after : Item} (ok : Coherent item) (moved : item.command command = some after) :
    Accounts item after .nothing := by
  cases command with
  | decides =>
    simp only [Item.command,Item.decides] at moved
    split at moved
    · cases Option.some.inj moved
      simp only [Item.cancelSees]
      split <;> exact accounts_of rfl rfl rfl rfl
    · cases Option.some.inj moved; exact accounts_of rfl rfl rfl rfl
    · cases Option.some.inj moved; exact accounts_of rfl rfl rfl rfl
    · cases Option.some.inj moved; exact accounts_of rfl rfl rfl rfl
    · cases Option.some.inj moved; exact accounts_of rfl rfl rfl rfl
    · cases Option.some.inj moved
      simp only [Item.retryChecks]
      split <;> exact accounts_of rfl rfl rfl rfl
    · cases Option.some.inj moved; exact accounts_of rfl rfl rfl rfl
    · cases Option.some.inj moved; exact accounts_of rfl rfl rfl rfl
    · rename_i holds
      cases Option.some.inj moved
      obtain ⟨atEnd,_⟩ := ok.restarting _ holds rfl
      exact accounts_of rfl (by rw [atEnd]; rfl) rfl rfl
    · cases moved
  | pause | resolve =>
    simp only [Item.command] at moved
    split at moved <;> (cases Option.some.inj moved; exact accounts_of rfl rfl rfl rfl)
  -- the others are guarded by the lock or by a counter
  | _ =>
    simp only [Item.command] at moved
    split at moved <;> cases moved
    exact accounts_of rfl rfl rfl rfl

-- What was taken and not given back is what is held, and that is one place at most.
structure Booked (item : Item) : Prop where
  coherent : Coherent item
  books : item.taken = item.returned + item.held

theorem held_le_one {item : Item} (ok : Coherent item) : item.held ≤ 1 := by
  cases stage : item.stage with
  | permitted | repermitted how | parking | releasing outcome => simp [Item.held,stage,ok.slot false (by rw [stage]; rfl),Stage.inHand]
  | _ =>
    simp only [Item.held,stage,Stage.inHand]
    split <;> omega

theorem accounts_booked {item after : Item} (books : item.taken = item.returned + item.held)
    (accounts : Accounts item after demand) : after.taken = after.returned + after.held := by
  have held := accounts.held
  have taken := accounts.taken
  have returned := accounts.returned
  omega

def AllBooked (s : Transfers) : Prop := ∀ item ∈ s.items, Booked item

theorem step_booked (ok : AllBooked s) (moved : step s event = some next) : AllBooked next := by
  refine items_preserved ⟨fresh_coherent,rfl⟩ ?_ ?_ ok moved
  · intro policy item choice after demand before attempted
    exact ⟨attempt_coherent before.coherent attempted,accounts_booked before.books (attempt_accounts before.coherent attempted)⟩
  · intro item command after before commanded
    exact ⟨command_coherent before.coherent commanded,accounts_booked before.books (command_accounts before.coherent commanded)⟩

theorem held_set {items : List Item} (after : Item) (found : items[i]? = some item) :
    ((items.set i after).map Item.held).sum + item.held = (items.map Item.held).sum + after.held := by
  induction items generalizing i with
  | nil => cases found
  | cons head rest ih =>
    cases i with
    | zero =>
      cases Option.some.inj found
      simp only [List.set_cons_zero,List.map_cons,List.sum_cons]
      omega
    | succ i =>
      have tail := ih (i := i) found
      simp only [List.set_cons_succ,List.map_cons,List.sum_cons]
      omega

-- The number a change is on its way to counts as configured once the change has
-- looked at the debt, and so does what it has yet to add or to owe.
def Transfers.configured (s : Transfers) : Int :=
  match s.change with
  | .idle | .locked _ => s.places
  | .adding want _ | .forgot want _ | .changed want => want

def Change.yetToAdd : Change → Int
  | .adding _ add => add
  | _ => 0

def Change.yetToOwe : Change → Int
  | .forgot _ rest => rest
  | _ => 0

def Change.wants : Change → Option Int
  | .idle => none
  | .locked want | .adding want _ | .forgot want _ | .changed want => some want

structure Balanced (s : Transfers) : Prop where
  equation : s.free + s.held + s.change.yetToAdd = s.configured + s.debt + s.change.yetToOwe
  debt : 0 ≤ s.debt
  adds : 0 ≤ s.change.yetToAdd
  owes : 0 ≤ s.change.yetToOwe
  -- a place is free only when nothing is owed
  owed : 0 < s.debt + s.change.yetToOwe → s.free = 0 ∧ s.change.yetToAdd = 0
  places : 1 ≤ s.places
  wants : ∀ want, s.change.wants = some want → 1 ≤ want

theorem changing_balanced {s next : Transfers} (ok : Balanced s) (changed : s.changing = some next) : Balanced next := by
  obtain ⟨equation,debt,adds,owes,owed,places,wants⟩ := ok
  cases change : s.change with
  | idle => simp [Transfers.changing,change] at changed
  | locked want =>
    have least := wants want (by rw [change]; rfl)
    simp only [change,Change.yetToAdd,Change.yetToOwe,Transfers.configured] at equation owed
    simp only [Transfers.changing,change] at changed
    split at changed
    · cases Option.some.inj changed
      exact ⟨by simp only [Transfers.held,Change.yetToAdd,Transfers.configured,Change.yetToOwe] at *; omega,
        by simp only; omega,by simp only [Change.yetToAdd]; omega,by simp [Change.yetToOwe],
        by simp only [Change.yetToAdd,Change.yetToOwe]; omega,places,by simpa [Change.wants] using least⟩
    · split at changed
      · cases Option.some.inj changed
        refine ⟨?_,debt,by simp [Change.yetToAdd],?_,?_,places,by simpa [Change.wants] using least⟩
        · simp only [Transfers.held,Change.yetToAdd,Transfers.configured,Change.yetToOwe] at *; omega
        · simp only [Change.yetToOwe]; omega
        · intro owing
          simp only [Change.yetToOwe] at owing
          refine ⟨?_,rfl⟩
          by_cases already : 0 < s.debt
          · have none := (owed (by omega)).1
            simp only
            omega
          · simp only
            omega
      · cases Option.some.inj changed
        refine ⟨?_,debt,by simp [Change.yetToAdd],by simp [Change.yetToOwe],?_,places,by simpa [Change.wants] using least⟩
        · simp only [Transfers.held,Change.yetToAdd,Transfers.configured,Change.yetToOwe] at *; omega
        · simpa only [Change.yetToAdd,Change.yetToOwe] using owed
  | adding want add =>
    have least := wants want (by rw [change]; rfl)
    simp only [change,Change.yetToAdd,Change.yetToOwe,Transfers.configured] at equation owed adds
    simp only [Transfers.changing,change] at changed
    split at changed <;> cases Option.some.inj changed
    · refine ⟨?_,debt,by simp [Change.yetToAdd],by simp [Change.yetToOwe],?_,places,by simpa [Change.wants] using least⟩
      · simp only [Transfers.held,Change.yetToAdd,Transfers.configured,Change.yetToOwe] at *; omega
      · simp only [Change.yetToAdd,Change.yetToOwe]; omega
    · refine ⟨?_,debt,by simp [Change.yetToAdd],by simp [Change.yetToOwe],?_,places,by simpa [Change.wants] using least⟩
      · simp only [Transfers.held,Change.yetToAdd,Transfers.configured,Change.yetToOwe] at *; omega
      · intro owing
        obtain ⟨none,nothing⟩ := owed owing
        exact ⟨none,rfl⟩
  | forgot want rest =>
    have least := wants want (by rw [change]; rfl)
    simp only [change,Change.yetToAdd,Change.yetToOwe,Transfers.configured] at equation owed owes
    simp only [Transfers.changing,change] at changed
    cases Option.some.inj changed
    refine ⟨?_,by simp only; omega,by simp [Change.yetToAdd],by simp [Change.yetToOwe],?_,places,by simpa [Change.wants] using least⟩
    · simp only [Transfers.held,Change.yetToAdd,Transfers.configured,Change.yetToOwe] at *; omega
    · intro owing
      simp only [Change.yetToOwe] at owing
      obtain ⟨none,nothing⟩ := owed (by omega)
      exact ⟨none,rfl⟩
  | changed want =>
    have least := wants want (by rw [change]; rfl)
    simp only [change,Change.yetToAdd,Change.yetToOwe,Transfers.configured] at equation owed
    simp only [Transfers.changing,change] at changed
    cases Option.some.inj changed
    refine ⟨?_,debt,by simp [Change.yetToAdd],by simp [Change.yetToOwe],?_,least,by simp [Change.wants]⟩
    · simp only [Transfers.held,Change.yetToAdd,Transfers.configured,Change.yetToOwe] at *; omega
    · simp only [Change.yetToAdd,Change.yetToOwe]; omega

theorem serve_balanced {s next : Transfers} (ok : Balanced s) (found : s.items[i]? = some item)
    (accounts : Accounts item after demand) (served : {s with items := s.items.set i after}.serve demand = some next) :
    Balanced next := by
  obtain ⟨equation,debt,adds,owes,owed,places,wants⟩ := ok
  have sums := held_set after found
  have held := accounts.held
  cases demand with
  | nothing =>
    cases Option.some.inj served
    simp only [Demand.gives,Demand.takes] at held
    refine ⟨?_,debt,adds,owes,owed,places,wants⟩
    simp only [Transfers.held,Transfers.configured] at *
    omega
  | acquire =>
    simp only [Transfers.serve] at served
    split at served
    · cases Option.some.inj served
      simp only [Demand.gives,Demand.takes] at held
      refine ⟨?_,debt,adds,owes,?_,places,wants⟩
      · simp only [Transfers.held,Transfers.configured] at *
        omega
      · intro owing
        exact absurd (owed owing).1 (by omega)
    · cases served
  | release =>
    simp only [Demand.gives,Demand.takes] at held
    simp only [Transfers.serve] at served
    split at served
    · cases served
    · rename_i open_
      have settled : s.change.yetToOwe = 0 := by
        cases change : s.change with
        | forgot want rest => exact absurd change (open_ want rest)
        | _ => rfl
      split at served
      · rename_i owing
        cases Option.some.inj served
        obtain ⟨none,nothing⟩ := owed (by omega)
        refine ⟨?_,by simp only; omega,adds,owes,fun _ => ⟨none,nothing⟩,places,wants⟩
        simp only [Transfers.held,Transfers.configured] at *
        omega
      · rename_i free
        cases Option.some.inj served
        refine ⟨?_,debt,adds,owes,?_,places,wants⟩
        · simp only [Transfers.held,Transfers.configured] at *
          omega
        · intro owing
          simp only at owing free
          omega

theorem step_balanced (booked : AllBooked s) (ok : Balanced s) (moved : step s event = some next) : Balanced next := by
  cases step_cases moved with
  | added =>
    refine ⟨?_,ok.debt,ok.adds,ok.owes,ok.owed,ok.places,ok.wants⟩
    have equation := ok.equation
    simp only [Transfers.held,List.map_append,List.map_cons,List.map_nil,List.sum_append,List.sum_cons,List.sum_nil] at *
    exact equation
  | attempted found moves served =>
    have coherent := (booked _ (List.mem_of_getElem? found)).coherent
    exact serve_balanced ok found (attempt_accounts coherent moves) served
  | commanded found moves =>
    have coherent := (booked _ (List.mem_of_getElem? found)).coherent
    exact serve_balanced ok found (command_accounts coherent moves) rfl
  | storedPolicy => exact ⟨ok.equation,ok.debt,ok.adds,ok.owes,ok.owed,ok.places,ok.wants⟩
  | @changes parallel idle =>
    obtain ⟨equation,debt,adds,owes,owed,places,wants⟩ := ok
    simp only [idle,Transfers.configured,Change.yetToAdd,Change.yetToOwe] at equation owed
    refine ⟨equation,debt,by simp [Change.yetToAdd],by simp [Change.yetToOwe],?_,places,?_⟩
    · intro owing
      exact ⟨(owed owing).1,rfl⟩
    · intro want same
      cases Option.some.inj same
      simp only [clamp]
      omega
  | changing changed => exact changing_balanced ok changed

def Accounted (s : Transfers) : Prop := AllBooked s ∧ Balanced s

theorem start_accounted (parallel : Nat) : Accounted (withOptions parallel) := by
  refine ⟨?_,rfl,Int.le_refl 0,Int.le_refl 0,Int.le_refl 0,?_,?_,?_⟩
  · intro item listed
    cases listed
  · intro owing
    exact absurd owing (Int.lt_irrefl 0)
  · simp only [withOptions,clamp]
    omega
  · intro want same
    cases same

theorem run_accounted (ran : Runs.run step (withOptions parallel) events = some s) : Accounted s := by
  refine Runs.run_preserves ?_ (start_accounted parallel) ran
  rintro before event next ⟨booked,balanced⟩ moved
  exact ⟨step_booked booked moved,step_balanced booked balanced moved⟩

def takes (i : Nat) : Event := .attempts i .takes

theorem takes_run {queue : List Nat} {s : Transfers} (distinct : queue.Nodup)
    (waits : ∀ i ∈ queue, ∃ item, s.items[i]? = some item ∧ item.stage = .waiting) :
    (Runs.run step s (queue.map takes)).isSome ↔ queue.length ≤ s.free := by
  induction queue generalizing s with
  | nil => simp
  | cons i rest ih =>
    obtain ⟨item,found,waiting⟩ := waits i (List.mem_cons_self)
    obtain ⟨fresh,others⟩ := List.nodup_cons.mp distinct
    simp only [List.map_cons,Runs.run,takes,step,found,Item.attempt,waiting,Transfers.serve]
    by_cases available : 0 < s.free
    · simp only [if_pos available,Option.bind_some]
      have tail := ih (s := {s with free := s.free-1,items := s.items.set i {item with stage := .permitted,taken := item.taken+1}})
        others (by
          intro j later
          obtain ⟨other,there,still⟩ := waits j (List.mem_cons_of_mem i later)
          have apart : i ≠ j := by
            rintro rfl
            exact fresh later
          refine ⟨other,?_,still⟩
          simpa only [List.getElem?_set_ne apart] using there)
      refine tail.trans ?_
      simp only [List.length_cons]
      omega
    · simp only [if_neg available,Option.bind_none,Option.isSome_none,List.length_cons]
      constructor
      · intro impossible
        cases impossible
      · intro fits
        omega

end RemoteFileExplorer.DesktopTransfers
