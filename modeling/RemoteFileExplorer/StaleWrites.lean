import Mathlib.Data.List.Basic

namespace RemoteFileExplorer.StaleWrites

-- One cell and two clients, each of which reads the cell once and later
-- writes it at most once: what it was asked to write, else what it had read.
inductive Side where
  | left
  | right
  deriving DecidableEq, Repr

def Side.other : Side → Side
  | .left => .right
  | .right => .left

def Side.pick (side : Side) (left right : α) : α :=
  match side with
  | .left => left
  | .right => right

@[simp] theorem other_other (side : Side) : side.other.other = side := by
  cases side <;> rfl

theorem side_cases (side actor : Side) : side = actor ∨ side = actor.other := by
  cases side <;> cases actor <;> simp [Side.other]

variable {Value : Type}

inductive Phase (Value : Type) where
  | waiting
  | holding (seen : Value)
  | passed

@[ext] structure Cell (Value : Type) where
  current : Value
  phase : Side → Phase Value

inductive Moves (asks : Side → Option Value) (c d : Cell Value) : Prop where
  | stays : d = c → Moves asks c d
  | reads (actor : Side) : c.phase actor = .waiting → d.current = c.current → d.phase actor = .holding c.current →
      d.phase actor.other = c.phase actor.other → Moves asks c d
  | skips (actor : Side) : c.phase actor = .waiting → asks actor = none → d.current = c.current → d.phase actor = .passed →
      d.phase actor.other = c.phase actor.other → Moves asks c d
  | writes (actor : Side) (seen : Value) : c.phase actor = .holding seen → d.current = (asks actor).getD seen →
      d.phase actor = .passed → d.phase actor.other = c.phase actor.other → Moves asks c d

def Untouched (first : Value) (c : Cell Value) : Prop :=
  c.current = first ∧ ∀ side seen, c.phase side = .holding seen → seen = first

-- Until the client that was asked has written, nothing has changed; `after`
-- says when its value is known to stand from then on.
structure Owned (after : Cell Value → Prop) (first value : Value) (owner : Side) (c : Cell Value) : Prop where
  before : c.phase owner ≠ .passed → c.current = first ∧ ∀ seen, c.phase owner.other = .holding seen → seen = first
  stands : c.phase owner = .passed → after c → c.current = value

def Overwritten (value : Value) (c : Cell Value) : Prop := (∀ side, c.phase side = .passed) ∧ c.current ≠ value

variable {asks : Side → Option Value} {c d : Cell Value} {first value : Value} {owner : Side}

theorem untouched_moves (kept : Untouched first c) (nobody : ∀ side, asks side = none) (moved : Moves asks c d) :
    Untouched first d := by
  obtain ⟨same,seen⟩ := kept
  cases moved with
  | stays equal => rw [equal]; exact ⟨same,seen⟩
  | reads actor _ current phase rest =>
    refine ⟨current.trans same,?_⟩
    intro side value holds
    rcases side_cases side actor with rfl | rfl
    · rw [phase] at holds; cases holds; exact same
    · rw [rest] at holds; exact seen _ value holds
  | skips actor _ _ current phase rest =>
    refine ⟨current.trans same,?_⟩
    intro side value holds
    rcases side_cases side actor with rfl | rfl
    · rw [phase] at holds; cases holds
    · rw [rest] at holds; exact seen _ value holds
  | writes actor value held current phase rest =>
    refine ⟨?_,?_⟩
    · rw [current,nobody actor]; exact seen actor value held
    · intro side value holds
      rcases side_cases side actor with rfl | rfl
      · rw [phase] at holds; cases holds
      · rw [rest] at holds; exact seen _ value holds

theorem owned_moves (owned : Owned after first value owner c)
    (asksOwner : asks owner = some value) (asksOther : asks owner.other = none)
    (moved : Moves asks c d) (back : after d → after c)
    (fresh : ∀ seen, c.phase owner.other = .holding seen → d.phase owner.other = .passed → after d → c.current = seen) :
    Owned after first value owner d := by
  cases moved with
  | stays equal => rw [equal]; exact owned
  | reads actor waits current phase rest =>
    rcases side_cases owner actor with rfl | rfl
    · have unwritten := owned.before (by rw [waits]; simp)
      refine ⟨fun _ => ⟨current.trans unwritten.1,?_⟩,?_⟩
      · rw [rest]; exact unwritten.2
      · intro passed; rw [phase] at passed; cases passed
    · refine ⟨?_,?_⟩
      · intro unpassed
        rw [rest] at unpassed
        refine ⟨current.trans (owned.before unpassed).1,?_⟩
        intro seen holds
        rw [other_other,phase] at holds
        cases holds
        exact (owned.before unpassed).1
      · intro passed holds
        rw [rest] at passed
        exact current.trans (owned.stands passed (back holds))
  | skips actor waits silent current phase rest =>
    rcases side_cases owner actor with rfl | rfl
    · rw [silent] at asksOwner; cases asksOwner
    · refine ⟨?_,?_⟩
      · intro unpassed
        rw [rest] at unpassed
        refine ⟨current.trans (owned.before unpassed).1,?_⟩
        intro seen holds
        rw [other_other,phase] at holds
        cases holds
      · intro passed holds
        rw [rest] at passed
        exact current.trans (owned.stands passed (back holds))
  | writes actor seen held current phase rest =>
    rcases side_cases owner actor with rfl | rfl
    · refine ⟨fun unpassed => absurd phase unpassed,?_⟩
      intro _ _
      rw [current,asksOwner]; rfl
    · rw [other_other] at asksOther
      rw [asksOther] at current
      refine ⟨?_,?_⟩
      · intro unpassed
        rw [rest] at unpassed
        obtain ⟨_,sees⟩ := owned.before unpassed
        rw [other_other] at sees
        refine ⟨current.trans (sees seen held),?_⟩
        intro other holds
        rw [other_other,phase] at holds
        cases holds
      · intro passed holds
        rw [rest] at passed
        rw [other_other] at fresh
        rw [current,Option.getD_none,←fresh seen held phase holds]
        exact owned.stands passed (back holds)

-- Whatever the order, the asked value stands as long as the other client has
-- not written.
def Pristine (owner : Side) (c : Cell Value) : Prop := c.phase owner.other ≠ .passed

theorem pristine_back (moved : Moves asks c d) (pristine : Pristine owner d) : Pristine owner c := by
  unfold Pristine at *
  cases moved with
  | stays equal => rwa [equal] at pristine
  | reads actor waits _ phase rest | skips actor waits _ _ phase rest | writes actor _ waits _ phase rest =>
    rcases side_cases owner.other actor with same | same
    · rw [same,waits]; simp
    · rw [same] at pristine ⊢; rwa [rest] at pristine

theorem stale_overwrites (owned : Owned (Pristine owner) first value owner c) (silent : asks owner.other = none)
    (held : c.phase owner.other = .holding seen) (stale : c.current ≠ seen) (moved : Moves asks c d)
    (wrote : d.phase owner.other = .passed) : Overwritten value d := by
  have written : c.phase owner = .passed := by
    by_contra unpassed
    obtain ⟨same,sees⟩ := owned.before unpassed
    exact stale (same.trans (sees seen held).symm)
  have stood : c.current = value := owned.stands written (by rw [Pristine,held]; simp)
  cases moved with
  | stays equal => rw [equal,held] at wrote; cases wrote
  | reads actor waits _ phase rest | skips actor waits _ _ phase rest =>
    rcases side_cases owner.other actor with same | same
    · rw [same,waits] at held; cases held
    · rw [same,rest,←same,held] at wrote; cases wrote
  | writes actor other holds current phase rest =>
    rcases side_cases owner.other actor with same | same
    · rw [←same] at holds rest current
      rw [other_other] at rest
      rw [held] at holds
      cases holds
      refine ⟨?_,?_⟩
      · intro side
        rcases side_cases side owner with rfl | rfl
        · exact rest.trans written
        · exact wrote
      · rw [current,silent,←stood]
        exact fun equal => stale equal.symm
    · rw [same,rest,←same,held] at wrote; cases wrote

theorem overwritten_moves (bad : Overwritten value c) (moved : Moves asks c d) : Overwritten value d := by
  obtain ⟨passed,differs⟩ := bad
  cases moved with
  | stays equal => rw [equal]; exact ⟨passed,differs⟩
  | reads actor waits | skips actor waits | writes actor _ waits => rw [passed actor] at waits; cases waits

end RemoteFileExplorer.StaleWrites
