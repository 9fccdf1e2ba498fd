import RemoteFileExplorer.KeyedEntries
import RemoteFileExplorer.Runs

namespace RemoteFileExplorer.FolderCaches
open KeyedEntries

variable {Name Node : Type} [DecidableEq Name]

inductive CacheState where
  | loading
  | loaded
  deriving DecidableEq,Repr

structure Record (Name Node : Type) where
  items : Entries Name Node
  state : CacheState

-- The calls that change the folder, with what the host makes of them: the new
-- entry, or the entries a restore or a copy puts there under names of its own
-- choice. A `remove` of several names is one `remove` after another; it finds
-- them in a list that it looked up before the first, so each stands alone here.
inductive Change (Name Node : Type) where
  | mkdir (name : Name) (node : Node)
  | mkfile (name : Name) (node : Node)
  | rename (oldName newName : Name)
  | remove (name : Name)
  | restore (entries : List (Name × Node))
  | copy (entries : List (Name × Node))
  | moveAway (names : List Name)
  deriving DecidableEq

structure Effect (Name Node : Type) where
  gone : List Name
  made : List (Name × Node)
  deriving DecidableEq

def takeOut (items : Entries Name Node) (names : List Name) : Entries Name Node := items.removeAll names

def insert (items : Entries Name Node) (node : Name × Node) : Entries Name Node := items.set node.1 node.2

def Effect.apply (effect : Effect Name Node) (entries : Entries Name Node) : Entries Name Node :=
  effect.made.foldl insert (takeOut entries effect.gone)

def Effect.touches (effect : Effect Name Node) : List Name := effect.gone ++ effect.made.map Prod.fst

def Change.effect (folder : Entries Name Node) : Change Name Node → Option (Effect Name Node)
  | .mkdir name node | .mkfile name node => if (folder.get name).isSome then none else some ⟨[],[(name,node)]⟩
  | .rename oldName newName =>
    match folder.get oldName with
    | none => none
    | some node => if newName ≠ oldName ∧ (folder.get newName).isSome then none else some ⟨[oldName],[(newName,node)]⟩
  | .remove name => if (folder.get name).isSome then some ⟨[name],[]⟩ else none
  | .restore entries | .copy entries => if entries.any (fun entry => (folder.get entry.1).isSome) then none else some ⟨[],entries⟩
  | .moveAway names => some ⟨names,[]⟩

-- Calls that read the folder again when their answer is there. The others
-- correct the list they have.
def Change.reloads : Change Name Node → Bool
  | .mkdir .. | .rename .. | .remove .. => false
  | _ => true

def Change.looks : Change Name Node → Bool
  | .mkdir .. | .mkfile .. | .rename .. | .moveAway .. => true
  | _ => false

def Change.newName : Change Name Node → Option Name
  | .mkdir name _ | .mkfile name _ => some name
  | .rename oldName newName => if newName = oldName then none else some newName
  | _ => none

structure Pending (Name Node : Type) where
  stamp : Nat
  change : Change Name Node
  effect : Effect Name Node
  deriving DecidableEq

-- A listing on its way: what the host read, once it has, and the changes that
-- took effect after that.
structure Load (Name Node : Type) where
  id : Nat
  taken : Option (Entries Name Node × List (Pending Name Node))

structure State (Name Node : Type) where
  folder : Entries Name Node
  cache : Option (Record Name Node)
  loads : List (Load Name Node)
  sent : List (Nat × Change Name Node)
  pending : List (Pending Name Node)
  next : Nat

def beginLoad (s : State Name Node) : State Name Node :=
  { s with
    cache := some ⟨(s.cache.map Record.items).getD .empty,.loading⟩
    loads := s.loads ++ [⟨s.next,none⟩]
    next := s.next + 1 }

def load (s : State Name Node) (force : Bool) : State Name Node :=
  match s.cache with
  | some ⟨_,.loading⟩ => s
  | some ⟨_,.loaded⟩ => if force then beginLoad s else s
  | none => beginLoad s

def drop (s : State Name Node) : State Name Node := { s with cache := none }

def refresh (s : State Name Node) : State Name Node := load s true

def list (s : State Name Node) : State Name Node × Option (Entries Name Node) :=
  match s.cache with
  | some ⟨items,.loaded⟩ => (s,some items)
  | some ⟨_,.loading⟩ => (s,none)
  | none => (load s false,none)

def listed (s : State Name Node) (name : Name) : Bool := ((list s).2.bind (·.get name)).isSome

def call (s : State Name Node) (change : Change Name Node) : Option (State Name Node) :=
  if change.newName.any (listed s) then none else
    let s := if change.looks then (list s).1 else s
    some { s with sent := s.sent ++ [(s.next,change)],next := s.next + 1 }

def takeEffect (s : State Name Node) (id : Nat) : Option (State Name Node) := do
  let change ← s.sent.lookup id
  let effect ← change.effect s.folder
  let done : Pending Name Node := ⟨s.next,change,effect⟩
  return { s with
    folder := effect.apply s.folder
    sent := s.sent.filter (·.1 ≠ id)
    pending := s.pending ++ [done]
    loads := s.loads.map fun load => { load with taken := load.taken.map fun old => (old.1,old.2 ++ [done]) }
    next := s.next + 1 }

def answer (s : State Name Node) (stamp : Nat) : Option (State Name Node) := do
  let done ← s.pending.find? (·.stamp = stamp)
  let s := { s with pending := s.pending.filter (·.stamp ≠ stamp) }
  return if done.change.reloads then refresh s
    else { s with cache := s.cache.map fun record => { record with items := done.effect.apply record.items } }

def takeListing (s : State Name Node) (id : Nat) : Option (State Name Node) :=
  if s.loads.any (fun load => load.id = id && load.taken.isNone) then
    some { s with loads := s.loads.map fun load => if load.id = id then ⟨id,some (s.folder,[])⟩ else load }
  else none

def answerListing (s : State Name Node) (id : Nat) : Option (State Name Node) := do
  let load ← s.loads.find? (·.id = id)
  let taken ← load.taken
  return { s with loads := s.loads.filter (·.id ≠ id),cache := some ⟨taken.1,.loaded⟩ }

inductive Event (Name Node : Type) where
  | load
  | refresh
  | drop
  | list
  | call (change : Change Name Node)
  | takeEffect (id : Nat)
  | answer (stamp : Nat)
  | takeListing (id : Nat)
  | answerListing (id : Nat)

def step (s : State Name Node) : Event Name Node → Option (State Name Node)
  | .load => some (load s false)
  | .refresh => some (refresh s)
  | .drop => some (drop s)
  | .list => some (list s).1
  | .call change => call s change
  | .takeEffect id => takeEffect s id
  | .answer stamp => answer s stamp
  | .takeListing id => takeListing s id
  | .answerListing id => answerListing s id

def initial (folder : Entries Name Node) : State Name Node := ⟨folder,none,[],[],[],0⟩

def Quiet (s : State Name Node) : Prop := s.loads = [] ∧ s.sent = [] ∧ s.pending = []

-- A listing is not older than a change that has been answered, and changes of
-- one name are answered in the order in which they took effect.
def Timely (s : State Name Node) : Event Name Node → Prop
  | .answerListing id => ∀ load ∈ s.loads,load.id = id → ∀ done ∈ (load.taken.map Prod.snd).getD [],done ∈ s.pending
  | .answer stamp => ∀ done ∈ s.pending,done.stamp = stamp → ∀ earlier ∈ s.pending,earlier.stamp < stamp →
      ∀ name ∈ earlier.effect.touches,name ∉ done.effect.touches
  | _ => True

instance [DecidableEq Node] (s : State Name Node) (event : Event Name Node) : Decidable (Timely s event) :=
  match event with
  | .answerListing id => inferInstanceAs (Decidable (∀ load ∈ s.loads,load.id = id → ∀ done ∈ (load.taken.map Prod.snd).getD [],done ∈ s.pending))
  | .answer stamp => inferInstanceAs (Decidable (∀ done ∈ s.pending,done.stamp = stamp → ∀ earlier ∈ s.pending,earlier.stamp < stamp →
      ∀ name ∈ earlier.effect.touches,name ∉ done.effect.touches))
  | .load | .refresh | .drop | .list | .call _ | .takeEffect _ | .takeListing _ => .isTrue trivial

theorem get_made (made : List (Name × Node)) (entries : Entries Name Node) (absent : name ∉ made.map Prod.fst) :
    (made.foldl insert entries).get name = entries.get name := by
  induction made generalizing entries with
  | nil => rfl
  | cons entry rest ih =>
      rw [List.map_cons,List.mem_cons,not_or] at absent
      rw [List.foldl_cons,ih _ absent.2]
      exact get_set_other absent.1

theorem get_made_same (made : List (Name × Node)) (one two : Entries Name Node) (present : name ∈ made.map Prod.fst) :
    (made.foldl insert one).get name = (made.foldl insert two).get name := by
  induction made generalizing one two with
  | nil => cases present
  | cons entry rest ih =>
      rw [List.foldl_cons,List.foldl_cons]
      by_cases later : name ∈ rest.map Prod.fst
      · exact ih _ _ later
      · have first : name = entry.1 := by
          rcases List.mem_cons.mp present with first | again
          · exact first
          · exact absurd again later
        rw [get_made rest _ later,get_made rest _ later,insert,insert,first,get_set_same,get_set_same]

theorem apply_other {effect : Effect Name Node} (apart : name ∉ effect.touches) (entries : Entries Name Node) :
    (effect.apply entries).get name = entries.get name := by
  rw [Effect.touches,List.mem_append,not_or] at apart
  rw [Effect.apply,get_made _ _ apart.2,takeOut,get_removeAll,if_neg apart.1]

theorem apply_touched {effect : Effect Name Node} (touched : name ∈ effect.touches) (one two : Entries Name Node) :
    (effect.apply one).get name = (effect.apply two).get name := by
  by_cases made : name ∈ effect.made.map Prod.fst
  · exact get_made_same _ _ _ made
  · have gone : name ∈ effect.gone := (List.mem_append.mp touched).resolve_right made
    rw [Effect.apply,Effect.apply,get_made _ _ made,get_made _ _ made,takeOut,takeOut,get_removeAll,get_removeAll,if_pos gone,if_pos gone]

structure Follows (s : State Name Node) : Prop where
  young : ∀ done ∈ s.pending,done.stamp < s.next
  distinct : ∀ one ∈ s.pending,∀ two ∈ s.pending,one.stamp = two.stamp → one = two
  -- The last change of a name left it as the folder has it now.
  last : ∀ done ∈ s.pending,∀ name ∈ done.effect.touches,(∀ later ∈ s.pending,done.stamp < later.stamp → name ∉ later.effect.touches) →
    ∀ entries,(done.effect.apply entries).get name = s.folder.get name
  listings : ∀ load ∈ s.loads,∀ taken,load.taken = some taken → ∀ name,(∀ done ∈ taken.2,name ∉ done.effect.touches) →
    taken.1.get name = s.folder.get name
  -- Away from the changes on their way, a loaded list is right.
  cached : ∀ items,s.cache = some ⟨items,.loaded⟩ → ∀ name,(∀ done ∈ s.pending,name ∉ done.effect.touches) → items.get name = s.folder.get name

theorem initial_follows (folder : Entries Name Node) : Follows (initial folder) where
  young := by simp [initial]
  distinct := by simp [initial]
  last := by simp [initial]
  listings := by simp [initial]
  cached := by simp [initial]

theorem begin_follows {s : State Name Node} (follows : Follows s) : Follows (beginLoad s) where
  young done member := Nat.lt_succ_of_lt (follows.young done member)
  distinct := follows.distinct
  last := follows.last
  listings := by
    intro load member taken some
    rcases List.mem_append.mp member with old | new
    · exact follows.listings load old taken some
    · rw [List.mem_singleton.mp new] at some
      cases some
  cached items loaded := by cases loaded

theorem load_follows {s : State Name Node} (follows : Follows s) (force : Bool) : Follows (load s force) := by
  unfold load
  split
  · exact follows
  · split
    · exact begin_follows follows
    · exact follows
  · exact begin_follows follows

theorem list_follows {s : State Name Node} (follows : Follows s) : Follows (list s).1 := by
  unfold list
  split
  · exact follows
  · exact follows
  · exact load_follows follows false

theorem drop_follows {s : State Name Node} (follows : Follows s) : Follows (drop s) where
  young := follows.young
  distinct := follows.distinct
  last := follows.last
  listings := follows.listings
  cached items loaded := by cases loaded

theorem call_follows {s next : State Name Node} (follows : Follows s) (called : call s change = some next) : Follows next := by
  unfold call at called
  split at called
  · cases called
  · cases called
    have looked : Follows (if change.looks then (list s).1 else s) := by
      split
      · exact list_follows follows
      · exact follows
    exact ⟨fun done member => Nat.lt_succ_of_lt (looked.young done member),looked.distinct,looked.last,looked.listings,looked.cached⟩

theorem effect_parts {s next : State Name Node} {id : Nat} (taken : takeEffect s id = some next) :
    ∃ change effect,next = { s with
      folder := effect.apply s.folder
      sent := s.sent.filter (·.1 ≠ id)
      pending := s.pending ++ [⟨s.next,change,effect⟩]
      loads := s.loads.map fun load => { load with taken := load.taken.map fun old => (old.1,old.2 ++ [⟨s.next,change,effect⟩]) }
      next := s.next + 1 } := by
  obtain ⟨change,_,rest⟩ := Option.bind_eq_some_iff.mp taken
  obtain ⟨effect,_,rest⟩ := Option.bind_eq_some_iff.mp rest
  exact ⟨change,effect,(Option.some.inj rest).symm⟩

theorem effect_follows {s next : State Name Node} {id : Nat} (follows : Follows s) (taken : takeEffect s id = some next) : Follows next := by
  obtain ⟨change,effect,rfl⟩ := effect_parts taken
  refine ⟨?_,?_,?_,?_,?_⟩
  · intro done member
    rcases List.mem_append.mp member with old | new
    · exact Nat.lt_succ_of_lt (follows.young done old)
    · rw [List.mem_singleton.mp new]
      exact Nat.lt_succ_self _
  · intro one left two right same
    rcases List.mem_append.mp left with old | new
    · rcases List.mem_append.mp right with old' | new'
      · exact follows.distinct one old two old' same
      · rw [List.mem_singleton.mp new'] at same
        exact absurd same (Nat.ne_of_lt (follows.young one old))
    · rcases List.mem_append.mp right with old' | new'
      · rw [List.mem_singleton.mp new] at same
        exact absurd same.symm (Nat.ne_of_lt (follows.young two old'))
      · rw [List.mem_singleton.mp new,List.mem_singleton.mp new']
  · intro done member name touched later entries
    rcases List.mem_append.mp member with old | new
    · have apart := later _ (List.mem_append_right _ List.mem_cons_self) (follows.young done old)
      rw [apply_other apart]
      exact follows.last done old name touched (fun other inside => later other (List.mem_append_left _ inside)) entries
    · rw [List.mem_singleton.mp new] at touched ⊢
      exact apply_touched touched entries s.folder
  · intro load member taken some name apart
    obtain ⟨old,inside,rfl⟩ := List.mem_map.mp member
    obtain ⟨before,was,rfl⟩ := Option.map_eq_some_iff.mp some
    have outside := apart _ (List.mem_append_right _ List.mem_cons_self)
    rw [apply_other outside]
    exact follows.listings old inside before was name fun done there => apart done (List.mem_append_left _ there)
  · intro items loaded name apart
    have outside := apart _ (List.mem_append_right _ List.mem_cons_self)
    rw [apply_other outside]
    exact follows.cached items loaded name fun done there => apart done (List.mem_append_left _ there)

theorem answered_last {s : State Name Node} (follows : Follows s) (timely : Timely s (.answer stamp)) :
    ∀ done ∈ s.pending.filter (·.stamp ≠ stamp),∀ name ∈ done.effect.touches,
      (∀ later ∈ s.pending.filter (·.stamp ≠ stamp),done.stamp < later.stamp → name ∉ later.effect.touches) →
      ∀ entries,(done.effect.apply entries).get name = s.folder.get name := by
  intro done member name touched later
  have inside := List.mem_of_mem_filter member
  apply follows.last done inside name touched
  intro other there after
  by_cases same : other.stamp = stamp
  · exact timely other there same done inside (same ▸ after) name touched
  · exact later other (List.mem_filter.mpr ⟨there,decide_eq_true same⟩) after

theorem refresh_follows {s : State Name Node} (follows : Follows { s with cache := none }) : Follows (refresh s) := by
  have begun := begin_follows follows
  unfold refresh load
  split
  next same =>
    refine ⟨follows.young,follows.distinct,follows.last,follows.listings,?_⟩
    intro items loaded
    rw [same] at loaded
    cases loaded
  next => exact ⟨begun.young,begun.distinct,begun.last,begun.listings,fun items loaded => by cases loaded⟩
  next => exact ⟨begun.young,begun.distinct,begun.last,begun.listings,fun items loaded => by cases loaded⟩

theorem answer_follows {s next : State Name Node} (follows : Follows s) (timely : Timely s (.answer stamp)) (answered : answer s stamp = some next) :
    Follows next := by
  have last := answered_last follows timely
  obtain ⟨done,found,rest⟩ := Option.bind_eq_some_iff.mp answered
  have inside := List.mem_of_find?_eq_some found
  have stamped : done.stamp = stamp := by simpa using List.find?_some found
  have only : ∀ other ∈ s.pending,other.stamp = stamp → other = done := fun other there same =>
    follows.distinct other there done inside (same.trans stamped.symm)
  have kept : Follows { s with pending := s.pending.filter (·.stamp ≠ stamp),cache := none } :=
    ⟨fun one member => follows.young one (List.mem_of_mem_filter member),
      fun one left two right => follows.distinct one (List.mem_of_mem_filter left) two (List.mem_of_mem_filter right),
      last,follows.listings,by simp⟩
  obtain rfl := Option.some.inj rest
  split
  · exact refresh_follows kept
  · refine ⟨kept.young,kept.distinct,kept.last,kept.listings,?_⟩
    intro items loaded name apart
    obtain ⟨⟨old,state⟩,was,same⟩ := Option.map_eq_some_iff.mp loaded
    cases same
    by_cases touched : name ∈ done.effect.touches
    · apply follows.last done inside name touched
      intro later there after
      exact apart later (List.mem_filter.mpr ⟨there,decide_eq_true fun equal => absurd after (by rw [stamped,equal]; exact Nat.lt_irrefl _)⟩)
    · rw [apply_other touched]
      apply follows.cached old was
      intro other there
      by_cases equal : other.stamp = stamp
      · rw [only other there equal]
        exact touched
      · exact apart other (List.mem_filter.mpr ⟨there,decide_eq_true equal⟩)

theorem takeListing_follows {s next : State Name Node} {id : Nat} (follows : Follows s) (taken : takeListing s id = some next) : Follows next := by
  unfold takeListing at taken
  split at taken
  · cases taken
    refine ⟨follows.young,follows.distinct,follows.last,?_,follows.cached⟩
    intro load member taken some
    obtain ⟨old,inside,rfl⟩ := List.mem_map.mp member
    split at some
    · cases some
      intro name _
      rfl
    · exact follows.listings old inside taken some
  · cases taken

theorem answerListing_follows {s next : State Name Node} {id : Nat} (follows : Follows s) (timely : Timely s (.answerListing id)) (answered : answerListing s id = some next) :
    Follows next := by
  obtain ⟨load,found,rest⟩ := Option.bind_eq_some_iff.mp answered
  obtain ⟨taken,was,rest⟩ := Option.bind_eq_some_iff.mp rest
  obtain rfl := Option.some.inj rest
  have inside := List.mem_of_find?_eq_some found
  have same : load.id = id := by simpa using List.find?_some found
  refine ⟨follows.young,follows.distinct,follows.last,?_,?_⟩
  · exact fun other member => follows.listings other (List.mem_of_mem_filter member)
  · intro items loaded name apart
    cases loaded
    apply follows.listings load inside taken was name
    exact fun done there => apart done (timely load inside same done (by simpa [was] using there))

theorem step_follows {s next : State Name Node} {event : Event Name Node} (follows : Follows s) (timely : Timely s event) (stepped : step s event = some next) :
    Follows next := by
  cases event with
  | load => cases stepped; exact load_follows follows false
  | refresh => cases stepped; exact load_follows follows true
  | drop => cases stepped; exact drop_follows follows
  | list => cases stepped; exact list_follows follows
  | call change => exact call_follows follows stepped
  | takeEffect id => exact effect_follows follows stepped
  | answer stamp => exact answer_follows follows timely stepped
  | takeListing id => exact takeListing_follows follows stepped
  | answerListing id => exact answerListing_follows follows timely stepped

theorem cache_settles (folder : Entries Name Node) (events : List (Event Name Node)) (last : State Name Node) (items : Entries Name Node)
    (ran : Runs.run step (initial folder) events = some last) (timely : Runs.Every step Timely (initial folder) events)
    (quiet : Quiet last) (loaded : last.cache = some ⟨items,.loaded⟩) : ∀ name,items.get name = last.folder.get name := by
  have follows := Runs.run_preserves_when Follows (fun _ _ _ before meets stepped => step_follows before meets stepped) (initial_follows folder) timely ran
  intro name
  apply follows.cached items loaded
  simp [quiet.2.2]

def freshRun : List (Event String Nat) := [.load,.call (.mkfile "a" 7),.takeEffect 1,.takeListing 0,.answer 2,.answerListing 0]

theorem cache_settles_fresh : ∃ last items,Runs.run step (initial (.empty : Entries String Nat)) freshRun = some last ∧ Quiet last ∧
    last.cache = some ⟨items,.loaded⟩ ∧ ∀ name,items.get name = last.folder.get name :=
  ⟨_,_,rfl,⟨rfl,rfl,rfl⟩,rfl,cache_settles .empty freshRun _ _ rfl (by decide) ⟨rfl,rfl,rfl⟩ rfl⟩

def staleRun : List (Event String Nat) := [.load,.takeListing 0,.call (.mkfile "a" 7),.takeEffect 1,.answer 2,.answerListing 0]

-- The reload after the new file joins the load that was already on its way.
theorem joined_reload_stale : ∃ last,Runs.run step (initial (.empty : Entries String Nat)) staleRun = some last ∧ Quiet last ∧
    last.cache = some ⟨.empty,.loaded⟩ ∧ (Entries.empty : Entries String Nat).get "a" ≠ last.folder.get "a" :=
  ⟨_,rfl,⟨rfl,rfl,rfl⟩,rfl,by decide⟩

end RemoteFileExplorer.FolderCaches
