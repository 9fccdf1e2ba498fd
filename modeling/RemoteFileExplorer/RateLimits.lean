import RemoteFileExplorer.KeyedEntries
import RemoteFileExplorer.Runs
import Mathlib.Data.List.Count
import Mathlib.Data.List.Induction
import Mathlib.Logic.Function.Basic

namespace RemoteFileExplorer.RateLimits
open KeyedEntries Runs

abbrev Key := List UInt8

def overflowBuckets : Nat := 64

def fnv32a (key : Key) : UInt32 := key.foldl (fun hash byte => (hash ^^^ byte.toUInt32) * 16777619) 2166136261

def bucketOf (key : Key) : Fin overflowBuckets := ⟨(fnv32a key).toNat % overflowBuckets,Nat.mod_lt _ (by decide)⟩

-- Every window of a limiter has its length and its limit, so only the hits are
-- kept of each.
structure KeyedLimiter where
  maxAttempts : Nat
  window : Int
  perKey : Entries Key (List Int)
  maxKeys : Nat
  overflow : Fin overflowBuckets → List Int

def newKeyedLimiter (maxAttempts : Nat) (window : Int) : KeyedLimiter := ⟨maxAttempts,window,.empty,4096,fun _ => []⟩

def allowAt (maxAttempts : Nat) (window : Int) (hits : List Int) (now : Int) : Bool × List Int :=
  let kept := hits.filter fun t => now - window < t
  if maxAttempts ≤ kept.length then (false,kept) else (true,kept ++ [now])

-- The clock is read once for the pruning and once for the window.
structure Call where
  key : Key
  pruned : Int
  now : Int
  deriving DecidableEq, Repr

def pruneLocked (k : KeyedLimiter) (now : Int) : KeyedLimiter :=
  {k with perKey := k.perKey.choose fun _ hits => if hits.any fun t => now - k.window < t then some hits else none}

def allow (k : KeyedLimiter) (c : Call) : Bool × KeyedLimiter :=
  match k.perKey.get c.key with
  | some hits =>
    let (allowed,hits) := allowAt k.maxAttempts k.window hits c.now
    (allowed,{k with perKey := k.perKey.set c.key hits})
  | none =>
    let k := if k.maxKeys ≤ k.perKey.list.length then pruneLocked k c.pruned else k
    if k.maxKeys ≤ k.perKey.list.length then
      let (allowed,hits) := allowAt k.maxAttempts k.window (k.overflow (bucketOf c.key)) c.now
      (allowed,{k with overflow := Function.update k.overflow (bucketOf c.key) hits})
    else
      let (allowed,hits) := allowAt k.maxAttempts k.window [] c.now
      (allowed,{k with perKey := k.perKey.set c.key hits})

def roomed (k : KeyedLimiter) (c : Call) : KeyedLimiter :=
  if k.perKey.get c.key = none ∧ k.maxKeys ≤ k.perKey.list.length then pruneLocked k c.pruned else k

def shares (k : KeyedLimiter) (c : Call) : Bool :=
  decide ((roomed k c).perKey.get c.key = none ∧ k.maxKeys ≤ (roomed k c).perKey.list.length)

def entry (k : KeyedLimiter) (key : Key) : List Int := (k.perKey.get key).getD []

structure Passed where
  key : Key
  time : Int
  shared : Bool
  deriving DecidableEq, Repr

structure Watched where
  limiter : KeyedLimiter
  clock : Int
  log : List Passed

def step (s : Watched) (c : Call) : Option Watched :=
  if s.clock ≤ c.pruned ∧ c.pruned ≤ c.now then
    let (allowed,next) := allow s.limiter c
    some ⟨next,c.now,if allowed then s.log ++ [⟨c.key,c.now,shares s.limiter c⟩] else s.log⟩
  else none

def begins (k : KeyedLimiter) (clock : Int) : Watched := ⟨k,clock,[]⟩

def within (key : Key) (start finish : Int) (p : Passed) : Bool := p.key == key && decide (start < p.time) && decide (p.time ≤ finish)

def Bounded (maxAttempts : Nat) (window : Int) (log : List Passed) : Prop :=
  ∀ key start, log.countP (within key start (start + window)) ≤ maxAttempts

def since (start : Int) (hits : List Int) : Nat := hits.countP fun t => start < t

def lent (key : Key) (start : Int) (log : List Passed) : Nat := log.countP fun p => p.shared && p.key == key && decide (start < p.time)
def own (key : Key) (start : Int) (log : List Passed) : Nat := log.countP fun p => !p.shared && p.key == key && decide (start < p.time)
def lentBy (bucket : Fin overflowBuckets) (start : Int) (log : List Passed) : Nat :=
  log.countP fun p => p.shared && bucketOf p.key == bucket && decide (start < p.time)

-- The key's own window does not let through a call that the calls a shared
-- window let through for the same key leave no room for.
def Remembers (s : Watched) (c : Call) : Prop :=
  shares s.limiter c = true ∨ s.limiter.maxAttempts ≤ since (c.now - s.limiter.window) (entry s.limiter c.key) ∨
    since (c.now - s.limiter.window) (entry s.limiter c.key) + lent c.key (c.now - s.limiter.window) s.log < s.limiter.maxAttempts

instance (s : Watched) (c : Call) : Decidable (Remembers s c) :=
  inferInstanceAs (Decidable (shares s.limiter c = true ∨ s.limiter.maxAttempts ≤ since (c.now - s.limiter.window) (entry s.limiter c.key) ∨
    since (c.now - s.limiter.window) (entry s.limiter c.key) + lent c.key (c.now - s.limiter.window) s.log < s.limiter.maxAttempts))

structure Sound (s : Watched) : Prop where
  past : ∀ p ∈ s.log, p.time ≤ s.clock
  counted : ∀ key start, s.clock - s.limiter.window ≤ start → own key start s.log = since start (entry s.limiter key)
  shared : ∀ bucket start, s.clock - s.limiter.window ≤ start → lentBy bucket start s.log = since start (s.limiter.overflow bucket)

theorem allowAt_since (maxAttempts : Nat) (hits : List Int) (late : now - window ≤ start) :
    since start (allowAt maxAttempts window hits now).2 =
      since start hits + if (allowAt maxAttempts window hits now).1 ∧ start < now then 1 else 0 := by
  have kept : since start (hits.filter fun t => now - window < t) = since start hits := by
    unfold since
    rw [List.countP_filter]
    refine List.countP_congr fun t _ => ?_
    simp only [Bool.and_eq_true,decide_eq_true_eq]
    constructor
    · exact And.left
    · intro later
      exact ⟨later,by omega⟩
  unfold allowAt
  simp only
  split
  · simpa using kept
  · unfold since at kept ⊢
    rw [List.countP_append,kept,List.countP_singleton]
    simp

theorem allowAt_passes : (allowAt maxAttempts window hits now).1 = true ↔ since (now - window) hits < maxAttempts := by
  unfold allowAt since
  simp only
  rw [List.countP_eq_length_filter]
  split
  · simp only [Bool.false_eq_true,false_iff]
    omega
  · simp only [true_iff]
    omega

theorem prune_entry (late : now - k.window ≤ start) : since start (entry (pruneLocked k now) key) = since start (entry k key) := by
  unfold entry pruneLocked
  rw [get_choose]
  cases found : k.perKey.get key with
  | none => rfl
  | some hits =>
    rw [Option.bind_some]
    split
    · rfl
    · rename_i idle
      rw [Bool.not_eq_true,List.any_eq_false] at idle
      simp only [Option.getD_none,Option.getD_some]
      unfold since
      rw [List.countP_nil,eq_comm,List.countP_eq_zero]
      intro t member
      have old := idle t member
      simp only [decide_eq_true_eq] at old ⊢
      omega

theorem roomed_fields (k : KeyedLimiter) (c : Call) : (roomed k c).maxAttempts = k.maxAttempts ∧ (roomed k c).window = k.window ∧
    (roomed k c).maxKeys = k.maxKeys ∧ (roomed k c).overflow = k.overflow := by
  unfold roomed
  split <;> exact ⟨rfl,rfl,rfl,rfl⟩

theorem roomed_entry (late : c.pruned - k.window ≤ start) : since start (entry (roomed k c) key) = since start (entry k key) := by
  unfold roomed
  split
  · exact prune_entry late
  · rfl

theorem allow_shared (lends : shares k c = true) : allow k c =
    ((allowAt k.maxAttempts k.window (k.overflow (bucketOf c.key)) c.now).1,{roomed k c with
      overflow := Function.update k.overflow (bucketOf c.key) (allowAt k.maxAttempts k.window (k.overflow (bucketOf c.key)) c.now).2}) := by
  obtain ⟨absent,full⟩ := of_decide_eq_true lends
  obtain ⟨attempts,window,_,overflow⟩ := roomed_fields k c
  cases found : k.perKey.get c.key with
  | some hits =>
    unfold roomed at absent
    rw [if_neg (by simp [found]),found] at absent
    cases absent
  | none =>
    have same : (if k.maxKeys ≤ k.perKey.list.length then pruneLocked k c.pruned else k) = roomed k c := by simp [roomed,found]
    unfold allow
    simp only [found,same]
    rw [if_pos (by rw [(roomed_fields k c).2.2.1]; exact full),attempts,window,overflow]

theorem allow_own (alone : shares k c = false) : allow k c =
    ((allowAt k.maxAttempts k.window (entry (roomed k c) c.key) c.now).1,{roomed k c with
      perKey := (roomed k c).perKey.set c.key (allowAt k.maxAttempts k.window (entry (roomed k c) c.key) c.now).2}) := by
  obtain ⟨attempts,window,keys,_⟩ := roomed_fields k c
  cases found : k.perKey.get c.key with
  | some hits =>
    have same : roomed k c = k := if_neg (by simp [found])
    unfold allow entry
    simp only [found,same,Option.getD_some]
  | none =>
    have same : (if k.maxKeys ≤ k.perKey.list.length then pruneLocked k c.pruned else k) = roomed k c := by simp [roomed,found]
    have absent : (roomed k c).perKey.get c.key = none := by
      unfold roomed pruneLocked
      split
      · rw [get_choose,found]
        rfl
      · exact found
    have room : ¬ (roomed k c).maxKeys ≤ (roomed k c).perKey.list.length := by
      intro full
      rw [keys] at full
      exact of_decide_eq_false alone ⟨absent,full⟩
    unfold allow
    simp only [found,same]
    rw [if_neg room,attempts,window]
    unfold entry
    rw [absent,Option.getD_none]

theorem step_parts (moved : step s c = some next) : s.clock ≤ c.pruned ∧ c.pruned ≤ c.now ∧ next = ⟨(allow s.limiter c).2,c.now,
    if (allow s.limiter c).1 then s.log ++ [⟨c.key,c.now,shares s.limiter c⟩] else s.log⟩ := by
  unfold step at moved
  split at moved
  · rename_i later
    exact ⟨later.1,later.2,(Option.some.inj moved).symm⟩
  · cases moved

theorem allow_fields (k : KeyedLimiter) (c : Call) : (allow k c).2.maxAttempts = k.maxAttempts ∧ (allow k c).2.window = k.window := by
  obtain ⟨attempts,window,_,_⟩ := roomed_fields k c
  cases lends : shares k c with
  | true => rw [allow_shared lends]; exact ⟨attempts,window⟩
  | false => rw [allow_own lends]; exact ⟨attempts,window⟩

theorem counted_log (count : Passed → Bool) (log : List Passed) (allowed : Bool) (p : Passed) :
    (if allowed then log ++ [p] else log).countP count = log.countP count + if allowed = true ∧ count p = true then 1 else 0 := by
  cases allowed with
  | false => simp
  | true => simp [List.countP_singleton]

theorem step_sound (sound : Sound s) (moved : step s c = some next) : Sound next := by
  obtain ⟨after,later,rfl⟩ := step_parts moved
  obtain ⟨_,window⟩ := allow_fields s.limiter c
  refine ⟨?_,?_,?_⟩
  · intro p member
    dsimp only at member ⊢
    split at member
    · rcases List.mem_append.mp member with old | new
      · have := sound.past p old
        omega
      · exact Int.le_of_eq (congrArg Passed.time (List.mem_singleton.mp new))
    · have := sound.past p member
      omega
  · intro key start late
    dsimp only at late ⊢
    rw [window] at late
    have before := sound.counted key start (by omega)
    unfold own at before ⊢
    rw [counted_log,before]
    cases lends : shares s.limiter c with
    | true =>
      rw [allow_shared lends]
      simp only [Bool.not_true,Bool.false_and,Bool.false_eq_true,and_false,if_false,Nat.add_zero]
      exact (roomed_entry (by omega)).symm
    | false =>
      rw [allow_own lends]
      by_cases same : key = c.key
      · subst same
        have mine := allowAt_since s.limiter.maxAttempts (entry (roomed s.limiter c) c.key) late
        rw [roomed_entry (by omega)] at mine
        unfold entry
        rw [get_set_same,Option.getD_some]
        unfold entry at mine
        rw [mine]
        simp
      · have other : ¬ c.key = key := fun equal => same equal.symm
        have others : since start (entry (roomed s.limiter c) key) = since start (entry s.limiter key) := roomed_entry (by omega)
        unfold entry at others ⊢
        rw [get_set_other same,others]
        simp [other]
  · intro bucket start late
    dsimp only at late ⊢
    rw [window] at late
    have before := sound.shared bucket start (by omega)
    unfold lentBy at before ⊢
    rw [counted_log,before]
    cases lends : shares s.limiter c with
    | true =>
      rw [allow_shared lends]
      by_cases same : bucket = bucketOf c.key
      · subst same
        have mine := allowAt_since s.limiter.maxAttempts (s.limiter.overflow (bucketOf c.key)) late
        simp only [Function.update_self]
        rw [mine]
        simp
      · have other : ¬ bucketOf c.key = bucket := fun equal => same equal.symm
        simp only [Function.update_of_ne same]
        simp [other]
    | false =>
      rw [allow_own lends]
      simp [(roomed_fields s.limiter c).2.2.2]

theorem own_lent (key : Key) (start : Int) (log : List Passed) :
    own key start log + lent key start log = log.countP fun p => p.key == key && decide (start < p.time) := by
  unfold own lent
  induction log with
  | nil => rfl
  | cons p rest ih =>
    simp only [List.countP_cons]
    cases p.shared <;> simp <;> omega

theorem lent_bucket (key : Key) (start : Int) (log : List Passed) : lent key start log ≤ lentBy (bucketOf key) start log := by
  refine List.countP_mono_left fun p _ meets => ?_
  simp only [Bool.and_eq_true,beq_iff_eq,decide_eq_true_eq] at meets ⊢
  exact ⟨⟨meets.1.1,by rw [meets.1.2]⟩,meets.2⟩

theorem passes_few (sound : Sound s) (after : s.clock ≤ c.pruned) (later : c.pruned ≤ c.now) (remembers : Remembers s c) (passes : (allow s.limiter c).1 = true) :
    own c.key (c.now - s.limiter.window) s.log + lent c.key (c.now - s.limiter.window) s.log < s.limiter.maxAttempts := by
  have counted := sound.counted c.key (c.now - s.limiter.window) (by omega)
  have roomed_ : since (c.now - s.limiter.window) (entry (roomed s.limiter c) c.key) = since (c.now - s.limiter.window) (entry s.limiter c.key) :=
    roomed_entry (by omega)
  cases lends : shares s.limiter c with
  | true =>
    have absent := (of_decide_eq_true lends).1
    rw [allow_shared lends] at passes
    have few := allowAt_passes.mp passes
    have shared := sound.shared (bucketOf c.key) (c.now - s.limiter.window) (by omega)
    have less := lent_bucket c.key (c.now - s.limiter.window) s.log
    have none_ : since (c.now - s.limiter.window) (entry (roomed s.limiter c) c.key) = 0 := by
      unfold entry
      rw [absent]
      rfl
    omega
  | false =>
    rw [allow_own lends] at passes
    have few := allowAt_passes.mp passes
    rcases remembers with other | full | few
    · rw [lends] at other
      cases other
    · omega
    · omega

theorem step_bounded (sound : Sound s) (bounded : Bounded s.limiter.maxAttempts s.limiter.window s.log) (remembers : Remembers s c)
    (moved : step s c = some next) : Bounded next.limiter.maxAttempts next.limiter.window next.log := by
  obtain ⟨after,later,rfl⟩ := step_parts moved
  obtain ⟨attempts,window⟩ := allow_fields s.limiter c
  intro key start
  rw [attempts,window,counted_log]
  have old := bounded key start
  split
  · rename_i counts
    obtain ⟨passes,inside⟩ := counts
    have few := passes_few sound after later remembers passes
    rw [own_lent] at few
    unfold within at inside
    simp only [Bool.and_eq_true,beq_iff_eq,decide_eq_true_eq] at inside
    have less : s.log.countP (within key start (start + s.limiter.window)) ≤
        s.log.countP fun p => p.key == c.key && decide (c.now - s.limiter.window < p.time) := by
      refine List.countP_mono_left fun p _ meets => ?_
      unfold within at meets
      simp only [Bool.and_eq_true,beq_iff_eq,decide_eq_true_eq] at meets ⊢
      exact ⟨meets.1.1.trans inside.1.1.symm,by omega⟩
    omega
  · omega

theorem forgets_unbounded (sound : Sound s) (forgets : ¬ Remembers s c) (moved : step s c = some next) :
    ¬ Bounded next.limiter.maxAttempts next.limiter.window next.log := by
  obtain ⟨after,later,rfl⟩ := step_parts moved
  obtain ⟨attempts,window⟩ := allow_fields s.limiter c
  obtain ⟨alone,room⟩ := not_or.mp forgets
  have counted := sound.counted c.key (c.now - s.limiter.window) (by omega)
  have roomed_ : since (c.now - s.limiter.window) (entry (roomed s.limiter c) c.key) = since (c.now - s.limiter.window) (entry s.limiter c.key) :=
    roomed_entry (by omega)
  have passes : (allow s.limiter c).1 = true := by
    rw [allow_own (Bool.not_eq_true _ ▸ alone)]
    exact allowAt_passes.mpr (by omega)
  intro bounded
  have many := bounded c.key (c.now - s.limiter.window)
  rw [attempts,window,Int.sub_add_cancel,counted_log] at many
  have last : within c.key (c.now - s.limiter.window) c.now ⟨c.key,c.now,shares s.limiter c⟩ = true := by
    have forgotten : 0 < lent c.key (c.now - s.limiter.window) s.log := by omega
    obtain ⟨p,member,meets⟩ := List.countP_pos_iff.mp forgotten
    have old := sound.past p member
    simp only [Bool.and_eq_true,decide_eq_true_eq] at meets
    unfold within
    simp only [beq_self_eq_true,Bool.true_and,Bool.and_eq_true,decide_eq_true_eq]
    omega
  have same : s.log.countP (within c.key (c.now - s.limiter.window) c.now) =
      s.log.countP fun p => p.key == c.key && decide (c.now - s.limiter.window < p.time) := by
    refine List.countP_congr fun p member => ?_
    have old := sound.past p member
    unfold within
    simp only [Bool.and_eq_true,beq_iff_eq,decide_eq_true_eq]
    constructor
    · exact And.left
    · exact fun meets => ⟨meets,by omega⟩
  rw [same,← own_lent,if_pos ⟨passes,last⟩] at many
  omega

theorem begins_sound (k : KeyedLimiter) (clock : Int) (empty : k.perKey = .empty) (free : k.overflow = fun _ => []) : Sound (begins k clock) := by
  refine ⟨nofun,?_,?_⟩
  · intro key start _
    unfold begins entry
    rw [empty]
    rfl
  · intro bucket start _
    unfold begins
    rw [free]
    rfl

theorem step_longer (moved : step s c = some next) : s.log <+: next.log := by
  obtain ⟨_,_,rfl⟩ := step_parts moved
  split
  · exact List.prefix_append _ _
  · exact List.prefix_refl _

theorem step_fields (moved : step s c = some next) : next.limiter.maxAttempts = s.limiter.maxAttempts ∧ next.limiter.window = s.limiter.window := by
  obtain ⟨_,_,rfl⟩ := step_parts moved
  exact allow_fields s.limiter c

def Follows (s last : Watched) : Prop :=
  last.limiter.maxAttempts = s.limiter.maxAttempts ∧ last.limiter.window = s.limiter.window ∧ s.log <+: last.log

theorem run_follows (ran : run step s calls = some last) : Follows s last := by
  refine run_relates ?_ ?_ (fun _ _ _ _ _ => trivial) ?_ trivial ran
  · exact fun s => ⟨rfl,rfl,List.prefix_refl _⟩
  · exact fun a b c one two => ⟨two.1.trans one.1,two.2.1.trans one.2.1,one.2.2.trans two.2.2⟩
  · exact fun s c next _ moved => ⟨(step_fields moved).1,(step_fields moved).2,step_longer moved⟩

theorem bounded_front (longer : log <+: more) (bounded : Bounded maxAttempts window more) : Bounded maxAttempts window log :=
  fun key start => Nat.le_trans longer.sublist.countP_le (bounded key start)

def fresh (maxAttempts : Nat) (window : Int) (maxKeys : Nat) : KeyedLimiter := {newKeyedLimiter maxAttempts window with maxKeys := maxKeys}

theorem limiter_bounds_iff (maxAttempts : Nat) (window : Int) (maxKeys : Nat) (clock : Int)
    (ran : run step (begins (fresh maxAttempts window maxKeys) clock) calls = some last) :
    Bounded maxAttempts window last.log ↔ Every step Remembers (begins (fresh maxAttempts window maxKeys) clock) calls := by
  have start : Sound (begins (fresh maxAttempts window maxKeys) clock) := begins_sound _ _ rfl rfl
  constructor
  · intro bounded
    by_contra fails
    obtain ⟨past,c,rest,middle,next,split,before,moved,after,forgets⟩ := every_fails ran fails
    have sound := run_preserves (fun _ _ _ sound moved => step_sound sound moved) start before
    obtain ⟨attempts,length,_⟩ := run_follows before
    obtain ⟨same,long⟩ := step_fields moved
    have unbounded := forgets_unbounded sound forgets moved
    rw [same,attempts,long,length] at unbounded
    exact unbounded (bounded_front (run_follows after).2.2 bounded)
  · intro remembers
    have kept := run_preserves_when (fun s => Sound s ∧ Bounded s.limiter.maxAttempts s.limiter.window s.log)
      (fun _ _ _ holds meets moved => ⟨step_sound holds.1 moved,step_bounded holds.1 holds.2 meets moved⟩)
      ⟨start,fun _ _ => Nat.zero_le _⟩ remembers ran
    obtain ⟨attempts,length,_⟩ := run_follows ran
    have bounded := kept.2
    rwa [attempts,length] at bounded

def minute : Int := 60000000000

def lateCalls : List Call := [⟨[97],0,0⟩,⟨[98],1,2⟩,⟨[98],2,2⟩,⟨[98],3,3⟩,⟨[97],minute,minute⟩]

theorem late_calls_bounded : ∃ last, run step (begins (fresh 2 minute 1) 0) lateCalls = some last ∧ Bounded 2 minute last.log := by
  obtain ⟨last,ran⟩ : ∃ last, run step (begins (fresh 2 minute 1) 0) lateCalls = some last := ⟨_,rfl⟩
  exact ⟨last,ran,(limiter_bounds_iff 2 minute 1 0 ran).mpr (by decide +kernel)⟩

section Forgotten
variable {maxAttempts maxKeys : Nat} {window : Int} {keys : List Key} {key : Key}

theorem step_taken (k : KeyedLimiter) (clock : Int) (log : List Passed) (c : Call) (ordered : clock ≤ c.pruned ∧ c.pruned ≤ c.now) (passes : (allow k c).1 = true) :
    step ⟨k,clock,log⟩ c = some ⟨(allow k c).2,c.now,log ++ [⟨c.key,c.now,shares k c⟩]⟩ := by
  unfold step
  simp only
  rw [if_pos ordered,if_pos passes]

theorem put_new (list : List (Key × List Int)) (absent : key ∉ list.map Prod.fst) (hits : List Int) : put key hits list = list ++ [(key,hits)] := by
  induction list with
  | nil => rfl
  | cons first rest ih =>
    rw [List.map_cons,List.mem_cons,not_or] at absent
    unfold put
    rw [if_neg fun same => absent.1 same.symm,ih absent.2]
    rfl

def noted (key : Key) : Key × List Int := (key,[0])

theorem noted_names (keys : List Key) : (keys.map noted).map Prod.fst = keys := by
  rw [List.map_map]
  exact List.map_id keys

def filled (maxAttempts : Nat) (window : Int) (maxKeys : Nat) (keys : List Key) (distinct : keys.Nodup) : KeyedLimiter :=
  ⟨maxAttempts,window,⟨keys.map noted,by rw [noted_names]; exact distinct⟩,maxKeys,fun _ => []⟩

theorem filled_absent (distinct : keys.Nodup) (absent : key ∉ keys) : (filled maxAttempts window maxKeys keys distinct).perKey.get key = none := by
  refine find_absent ?_
  unfold filled
  rw [noted_names]
  exact absent

theorem fill (positive : 0 < maxAttempts) (distinct : keys.Nodup) (few : keys.length ≤ maxKeys) :
    ∃ log, run step (begins (fresh maxAttempts window maxKeys) 0) (keys.map fun key => ⟨key,0,0⟩) =
      some ⟨filled maxAttempts window maxKeys keys distinct,0,log⟩ := by
  induction keys using List.reverseRecOn with
  | nil => exact ⟨[],rfl⟩
  | append_singleton keys key ih =>
    obtain ⟨before,_,apart⟩ := List.nodup_append.mp distinct
    rw [List.length_append,List.length_singleton] at few
    obtain ⟨log,ran⟩ := ih before (by omega)
    have absent : key ∉ keys := fun member => apart key member key List.mem_cons_self rfl
    have room : ¬ maxKeys ≤ keys.length := by omega
    have same : roomed (filled maxAttempts window maxKeys keys before) ⟨key,0,0⟩ = filled maxAttempts window maxKeys keys before :=
      if_neg fun full => room (by simpa [filled] using full.2)
    have alone : shares (filled maxAttempts window maxKeys keys before) ⟨key,0,0⟩ = false := by
      unfold shares
      rw [same,decide_eq_false_iff_not]
      exact fun full => room (by simpa [filled] using full.2)
    have nothing : entry (filled maxAttempts window maxKeys keys before) key = [] := by
      unfold entry
      rw [filled_absent before absent]
      rfl
    have passes : allowAt maxAttempts window [] 0 = (true,[0]) := if_neg (by simp; omega)
    have served : allow (filled maxAttempts window maxKeys keys before) ⟨key,0,0⟩ = (true,filled maxAttempts window maxKeys (keys ++ [key]) distinct) := by
      have list : put key [0] (keys.map noted) = (keys ++ [key]).map noted := by
        rw [put_new _ (by rw [noted_names]; exact absent),List.map_append]
        rfl
      rw [allow_own alone,same,nothing]
      simp only [filled,Entries.set,passes,list]
    have moved := step_taken (filled maxAttempts window maxKeys keys before) 0 log ⟨key,0,0⟩ ⟨Int.le_refl _,Int.le_refl _⟩ (by rw [served])
    rw [served] at moved
    rw [List.map_append]
    exact ⟨_,run_append.mpr ⟨_,ran,run_cons.mpr ⟨_,moved,rfl⟩⟩⟩

theorem prune_active (active : ∀ e ∈ k.perKey.list, (e.2.any fun t => now - k.window < t) = true) : pruneLocked k now = k := by
  have same : k.perKey.list.filterMap (renamed fun _ hits => if hits.any fun t => now - k.window < t then some hits else none) = k.perKey.list := by
    rw [List.filterMap_congr (g := some)]
    · exact List.filterMap_some
    · intro e member
      simp only [renamed]
      rw [if_pos (active e member)]
      rfl
  unfold pruneLocked Entries.choose
  simp only [same]

theorem prune_idle (idle : ∀ e ∈ k.perKey.list, (e.2.any fun t => now - k.window < t) = false) :
    pruneLocked k now = {k with perKey := .empty} := by
  have none_ : k.perKey.list.filterMap (renamed fun _ hits => if hits.any fun t => now - k.window < t then some hits else none) = [] := by
    rw [List.filterMap_eq_nil_iff]
    intro e member
    simp only [renamed]
    rw [if_neg (by rw [idle e member]; simp)]
    rfl
  unfold pruneLocked Entries.choose
  simp only [none_]
  rfl

def crowded (maxAttempts : Nat) (window : Int) (keys : List Key) (distinct : keys.Nodup) (key : Key) (hits : List Int) : KeyedLimiter :=
  {filled maxAttempts window keys.length keys distinct with overflow := Function.update (fun _ => []) (bucketOf key) hits}

def lend (key : Key) (now : Int) : Passed := ⟨key,now,true⟩

theorem crowd_step (distinct : keys.Nodup) (absent : key ∉ keys) (log : List Passed) (begun : 0 ≤ now) (early : clock ≤ now) (young : now < window) (few : n < maxAttempts) :
    step ⟨crowded maxAttempts window keys distinct key (List.replicate n now),clock,log⟩ ⟨key,now,now⟩ =
      some ⟨crowded maxAttempts window keys distinct key (List.replicate (n+1) now),now,log ++ [lend key now]⟩ := by
  have kept : pruneLocked (crowded maxAttempts window keys distinct key (List.replicate n now)) now =
      crowded maxAttempts window keys distinct key (List.replicate n now) := by
    apply prune_active
    intro e member
    obtain ⟨_,_,rfl⟩ := List.mem_map.mp member
    change (([0] : List Int).any fun t => decide (now - window < t)) = true
    simp only [List.any_cons,List.any_nil,Bool.or_false,decide_eq_true_eq]
    omega
  have same : roomed (crowded maxAttempts window keys distinct key (List.replicate n now)) ⟨key,now,now⟩ =
      crowded maxAttempts window keys distinct key (List.replicate n now) := by
    unfold roomed
    split
    · exact kept
    · rfl
  have lends : shares (crowded maxAttempts window keys distinct key (List.replicate n now)) ⟨key,now,now⟩ = true := by
    unfold shares
    rw [same,decide_eq_true_eq]
    exact ⟨@filled_absent maxAttempts keys.length window keys key distinct absent,by simp [crowded,filled]⟩
  have passes : allowAt maxAttempts window (List.replicate n now) now = (true,List.replicate (n+1) now) := by
    have live : (List.replicate n now).filter (fun t => decide (now - window < t)) = List.replicate n now := by
      rw [List.filter_eq_self]
      intro t member
      rw [(List.mem_replicate.mp member).2]
      simp only [decide_eq_true_eq]
      omega
    unfold allowAt
    simp only [live,List.length_replicate]
    rw [if_neg (by omega),List.replicate_succ']
  have served : allow (crowded maxAttempts window keys distinct key (List.replicate n now)) ⟨key,now,now⟩ =
      (true,crowded maxAttempts window keys distinct key (List.replicate (n+1) now)) := by
    rw [allow_shared lends,same]
    simp only [crowded,filled,Function.update_self,passes,Function.update_idem]
  have moved := step_taken (crowded maxAttempts window keys distinct key (List.replicate n now)) clock log ⟨key,now,now⟩
    ⟨early,Int.le_refl _⟩ (by rw [served])
  rw [served,lends] at moved
  exact moved

theorem crowd (distinct : keys.Nodup) (absent : key ∉ keys) (log : List Passed) (early : 0 ≤ now) (young : now < window) (few : n ≤ maxAttempts) :
    ∃ clock, clock ≤ now ∧ run step ⟨filled maxAttempts window keys.length keys distinct,0,log⟩ (List.replicate n ⟨key,now,now⟩) =
      some ⟨crowded maxAttempts window keys distinct key (List.replicate n now),clock,log ++ List.replicate n (lend key now)⟩ := by
  induction n with
  | zero =>
    refine ⟨0,early,?_⟩
    unfold crowded
    rw [List.replicate_zero,List.replicate_zero,List.replicate_zero,List.append_nil,Function.update_eq_self]
    rfl
  | succ n ih =>
    obtain ⟨clock,before,ran⟩ := ih (by omega)
    refine ⟨now,Int.le_refl _,?_⟩
    have longer : log ++ List.replicate (n+1) (lend key now) = log ++ List.replicate n (lend key now) ++ [lend key now] := by
      rw [List.replicate_succ',List.append_assoc]
    have calls : List.replicate (n+1) (⟨key,now,now⟩ : Call) = List.replicate n ⟨key,now,now⟩ ++ [⟨key,now,now⟩] := List.replicate_succ'
    rw [calls,longer,run_append]
    exact ⟨_,ran,run_cons.mpr ⟨_,crowd_step distinct absent _ early before young (by omega),rfl⟩⟩

theorem own_passes (distinct : keys.Nodup) (absent : key ∉ keys) (given : keys ≠ []) (positive : 0 < maxAttempts) (hits : List Int) :
    shares (crowded maxAttempts window keys distinct key hits) ⟨key,window,window⟩ = false ∧
      (allow (crowded maxAttempts window keys distinct key hits) ⟨key,window,window⟩).1 = true := by
  have same : roomed (crowded maxAttempts window keys distinct key hits) ⟨key,window,window⟩ =
      {crowded maxAttempts window keys distinct key hits with perKey := .empty} := by
    unfold roomed
    rw [if_pos ⟨@filled_absent maxAttempts keys.length window keys key distinct absent,by simp [crowded,filled]⟩]
    apply prune_idle
    intro e member
    obtain ⟨_,_,rfl⟩ := List.mem_map.mp member
    simp [noted,crowded,filled]
  have alone : shares (crowded maxAttempts window keys distinct key hits) ⟨key,window,window⟩ = false := by
    unfold shares
    rw [same,decide_eq_false_iff_not]
    intro full
    exact given (List.length_eq_zero_iff.mp (Nat.le_zero.mp full.2))
  refine ⟨alone,?_⟩
  rw [allow_own alone,same]
  exact allowAt_passes.mpr positive

theorem own_step (distinct : keys.Nodup) (absent : key ∉ keys) (given : keys ≠ []) (log : List Passed) (early : clock ≤ window) (positive : 0 < maxAttempts)
    (hits : List Int) : ∃ next, step ⟨crowded maxAttempts window keys distinct key hits,clock,log⟩ ⟨key,window,window⟩ = some next ∧
      next.log = log ++ [⟨key,window,false⟩] := by
  obtain ⟨alone,passes⟩ := @own_passes maxAttempts window keys key distinct absent given positive hits
  refine ⟨_,step_taken _ clock log _ ⟨early,Int.le_refl _⟩ passes,?_⟩
  rw [alone]

end Forgotten

def sources : List Key := (List.range 4096).map fun i => List.replicate i 97
def newcomer : Key := [98]

theorem sources_distinct : sources.Nodup := by
  refine List.Nodup.map ?_ List.nodup_range
  intro i j same
  simpa using congrArg List.length same

theorem newcomer_absent : newcomer ∉ sources := by
  intro member
  obtain ⟨i,_,same⟩ := List.mem_map.mp member
  have letter := List.mem_replicate.mp (same.symm ▸ List.mem_singleton.mpr rfl : (98 : UInt8) ∈ List.replicate i 97)
  exact absurd letter.2 (by decide)

-- The limiter of the pairing route: ten calls a minute.
theorem shared_calls_forgotten :
    ¬ ∀ calls last, run step (begins (newKeyedLimiter 10 minute) 0) calls = some last → Bounded 10 minute last.log := by
  intro always
  have size : sources.length = 4096 := by simp [sources]
  have limiter : begins (fresh 10 minute sources.length) 0 = begins (newKeyedLimiter 10 minute) 0 := by
    rw [size]
    rfl
  obtain ⟨first,filling⟩ := @fill 10 sources.length minute sources (by decide) sources_distinct (Nat.le_refl _)
  obtain ⟨clock,before,lending⟩ := @crowd 10 minute sources newcomer (minute - 1) 10 sources_distinct newcomer_absent first (by decide) (by decide) (by decide)
  rw [limiter] at filling
  have given : sources ≠ [] := by
    intro empty
    rw [empty] at size
    cases size
  obtain ⟨next,moved,log⟩ := @own_step 10 minute sources newcomer clock sources_distinct newcomer_absent given
    (first ++ List.replicate 10 (lend newcomer (minute - 1))) (by unfold minute at before ⊢; omega) (by decide) (List.replicate 10 (minute - 1))
  have ran := run_append.mpr ⟨_,filling,run_append.mpr ⟨_,lending,run_cons.mpr ⟨next,moved,run_nil step next⟩⟩⟩
  have many := always _ next ran newcomer 0
  rw [log,List.append_assoc,List.countP_append] at many
  have eleven : (List.replicate 10 (lend newcomer (minute - 1)) ++ [(⟨newcomer,minute,false⟩ : Passed)]).countP (within newcomer 0 (0 + minute)) = 11 := by decide
  omega

end RemoteFileExplorer.RateLimits
