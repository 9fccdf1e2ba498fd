import RemoteFileExplorer.Runs

namespace RemoteFileExplorer.Rewrites

-- One stored value that several callers read and write back as a whole. What a
-- caller writes is `apply` of the value it read, and it writes nothing where
-- `skips` says that nothing changes.
inductive Stage (Value : Type) where
  | called
  | read (value : Value)
  | done
  deriving DecidableEq

structure Job (Value Op : Type) where
  op : Op
  stage : Stage Value
  deriving DecidableEq

structure Store (Value Op : Type) where
  stored : Value
  jobs : List (Job Value Op)
  completed : List Op
  deriving DecidableEq

inductive Action (Op : Type) where
  | call (op : Op)
  | read (k : Nat)
  | write (k : Nat)
  deriving DecidableEq

variable {Value Op : Type}

def fresh (value : Value) : Store Value Op := ⟨value,[],[]⟩

def Store.at (s : Store Value Op) (k : Nat) (stage : Stage Value) : List (Job Value Op) := s.jobs.modify k (fun job => {job with stage := stage})

section Act
variable (apply : Value → Op → Value) (skips : Value → Op → Bool)

def act (s : Store Value Op) : Action Op → Option (Store Value Op)
  | .call op => some {s with jobs := s.jobs ++ [⟨op,.called⟩]}
  | .read k =>
    match s.jobs[k]? with
    | some ⟨op,.called⟩ =>
      if skips s.stored op then some {s with jobs := s.at k .done,completed := s.completed ++ [op]} else
      some {s with jobs := s.at k (.read s.stored)}
    | _ => none
  | .write k =>
    match s.jobs[k]? with
    | some ⟨op,.read value⟩ => some ⟨apply value op,s.at k .done,s.completed ++ [op]⟩
    | _ => none

end Act

variable {apply : Value → Op → Value} {skips : Value → Op → Bool} {s next : Store Value Op} {action : Action Op}

theorem act_cases (acted : act apply skips s action = some next) :
    (next.stored = s.stored ∧ next.completed = s.completed) ∨
    (∃ k op, action = .read k ∧ s.jobs[k]? = some ⟨op,.called⟩ ∧ skips s.stored op = true ∧ next.stored = s.stored ∧ next.completed = s.completed ++ [op]) ∨
    ∃ k op value, action = .write k ∧ s.jobs[k]? = some ⟨op,.read value⟩ ∧ next.stored = apply value op ∧ next.completed = s.completed ++ [op] := by
  cases action with
  | call op =>
    cases acted
    exact .inl ⟨rfl,rfl⟩
  | read k =>
    simp only [act] at acted
    split at acted
    · rename_i op known
      split at acted
      · rename_i skipped
        cases acted
        exact .inr (.inl ⟨k,op,rfl,known,skipped,rfl,rfl⟩)
      · cases acted
        exact .inl ⟨rfl,rfl⟩
    · cases acted
  | write k =>
    simp only [act] at acted
    split at acted
    · rename_i op value known
      cases acted
      exact .inr (.inr ⟨k,op,value,rfl,known,rfl,rfl⟩)
    · cases acted

-- The value is what the completed operations were meant to make of it, one
-- after another.
def Reflects (intend : Value → Op → Value) (start : Value) (s : Store Value Op) : Prop := s.stored = s.completed.foldl intend start

theorem act_reflects (held : Reflects intend start s)
    (nothing : ∀ value op, skips value op = true → intend value op = value)
    (unchanged : ∀ k op value, action = .write k → s.jobs[k]? = some ⟨op,.read value⟩ → value = s.stored ∧ apply s.stored op = intend s.stored op)
    (acted : act apply skips s action = some next) : Reflects intend start next := by
  have snoc : ∀ op, (s.completed ++ [op]).foldl intend start = intend s.stored op := by
    intro op
    rw [List.foldl_append,← held]
    rfl
  rcases act_cases acted with ⟨stored,completed⟩ | ⟨k,op,_,_,skipped,stored,completed⟩ | ⟨k,op,value,same,known,stored,completed⟩
  · rw [Reflects,stored,completed]
    exact held
  · rw [Reflects,stored,completed,snoc,nothing _ _ skipped]
  · obtain ⟨current,meant⟩ := unchanged k op value same known
    rw [Reflects,stored,completed,snoc,current,meant]

end RemoteFileExplorer.Rewrites
