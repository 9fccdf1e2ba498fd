import RemoteFileExplorer.RateLimits

namespace RemoteFileExplorer.LimiterChecks
open KeyedEntries Runs RateLimits

def full (maxAttempts : Nat) (window : Int) (hits : List Int) (now : Int) : Bool :=
  decide (maxAttempts ≤ hits.countP fun t => decide (now - window < t))

-- The table is not pruned here.
def exhausted (k : KeyedLimiter) (key : Key) (now : Int) : Bool :=
  match k.perKey.get key with
  | some hits => full k.maxAttempts k.window hits now
  | none => if k.maxKeys ≤ k.perKey.list.length then full k.maxAttempts k.window (k.overflow (bucketOf key)) now else false

inductive Event where
  | attempt (c : Call)
  | check (key : Key) (now : Int)

def attempts : Event → Bool
  | .attempt _ => true
  | .check _ _ => false

structure Used where
  watched : Watched
  answers : List Bool
  findings : List Bool

def use (s : Used) : Event → Option Used
  | .attempt c => (step s.watched c).map fun next => {s with watched := next,answers := s.answers ++ [(allow s.watched.limiter c).1]}
  | .check key now =>
    if s.watched.clock ≤ now then
      some {s with watched := {s.watched with clock := now},findings := s.findings ++ [exhausted s.watched.limiter key now]}
    else none

def begun (k : KeyedLimiter) (clock : Int) : Used := ⟨begins k clock,[],[]⟩

def refused (k : KeyedLimiter) (key : Key) (now : Int) : Bool := !(allow k ⟨key,now,now⟩).1

-- The window a check looks at is the one an attempt would be counted in, or
-- both have room.
def Judged (k : KeyedLimiter) (key : Key) (now : Int) : Prop :=
  k.perKey.get key ≠ none ∨
    if k.maxKeys ≤ k.perKey.list.length then
      k.maxKeys ≤ (pruneLocked k now).perKey.list.length ∨ since (now - k.window) (k.overflow (bucketOf key)) < k.maxAttempts ∨ k.maxAttempts = 0
    else 0 < k.maxAttempts

theorem full_refuses (maxAttempts : Nat) (window : Int) (hits : List Int) (now : Int) :
    full maxAttempts window hits now = !(allowAt maxAttempts window hits now).1 := by
  rw [Bool.eq_iff_iff,Bool.not_eq_true',← Bool.not_eq_true,allowAt_passes]
  unfold full since
  rw [decide_eq_true_eq,Nat.not_lt]

theorem prune_absent (absent : k.perKey.get key = none) (now : Int) : (pruneLocked k now).perKey.get key = none := by
  unfold pruneLocked
  rw [get_choose,absent]
  rfl

theorem exhausted_iff (k : KeyedLimiter) (key : Key) (now : Int) : exhausted k key now = refused k key now ↔ Judged k key now := by
  unfold exhausted refused Judged
  cases found : k.perKey.get key with
  | some hits =>
    have passes : (allow k ⟨key,now,now⟩).1 = (allowAt k.maxAttempts k.window hits now).1 := by
      unfold allow
      simp only [found]
    simp only [full_refuses,passes]
    simp
  | none =>
    rw [ne_self_iff_false,false_or]
    by_cases crowded : k.maxKeys ≤ k.perKey.list.length
    · have pruned : roomed k ⟨key,now,now⟩ = pruneLocked k now := if_pos ⟨found,crowded⟩
      rw [if_pos crowded,if_pos crowded]
      by_cases still : k.maxKeys ≤ (pruneLocked k now).perKey.list.length
      · have lends : shares k ⟨key,now,now⟩ = true := by
          unfold shares
          rw [pruned]
          exact decide_eq_true ⟨prune_absent found now,still⟩
        rw [allow_shared lends,full_refuses]
        exact ⟨fun _ => .inl still,fun _ => rfl⟩
      · have alone : shares k ⟨key,now,now⟩ = false := by
          unfold shares
          rw [pruned]
          exact decide_eq_false fun both => still both.2
        have nothing : entry (pruneLocked k now) key = [] := by
          unfold entry
          rw [prune_absent found now]
          rfl
        rw [allow_own alone,pruned,nothing,full_refuses,Bool.not_inj_iff,Bool.eq_iff_iff,allowAt_passes,allowAt_passes]
        have empty : since (now - k.window) [] = 0 := rfl
        constructor
        · intro same
          by_cases zero : k.maxAttempts = 0
          · exact .inr (.inr zero)
          · exact .inr (.inl (same.mpr (Nat.pos_of_ne_zero zero)))
        · intro judged
          rcases judged with again | room | zero
          · exact absurd again still
          · exact ⟨fun _ => Nat.lt_of_le_of_lt (Nat.zero_le _) room,fun _ => room⟩
          · rw [zero]
            exact ⟨fun less => absurd less (Nat.not_lt_zero _),fun less => absurd less (Nat.not_lt_zero _)⟩
    · have kept : roomed k ⟨key,now,now⟩ = k := if_neg fun both => crowded both.2
      have alone : shares k ⟨key,now,now⟩ = false := by
        unfold shares
        rw [kept]
        exact decide_eq_false fun both => crowded both.2
      have nothing : entry k key = [] := by
        unfold entry
        rw [found]
        rfl
      rw [if_neg crowded,if_neg crowded,allow_own alone,kept,nothing,eq_comm,Bool.not_eq_false',allowAt_passes]
      rfl

theorem use_attempt (moved : use s (.attempt c) = some next) : step s.watched c = some next.watched ∧
    next.answers = s.answers ++ [(allow s.watched.limiter c).1] := by
  obtain ⟨after,stepped,rfl⟩ := Option.map_eq_some_iff.mp moved
  exact ⟨stepped,rfl⟩

theorem use_check (moved : use s (.check key now) = some next) : s.watched.clock ≤ now ∧ next.watched.limiter = s.watched.limiter ∧
    next.watched.clock = now ∧ next.watched.log = s.watched.log ∧ next.answers = s.answers := by
  simp only [use] at moved
  split at moved
  · rename_i later
    cases moved
    exact ⟨later,rfl,rfl,rfl,rfl⟩
  · cases moved

structure Alike (s other : Used) : Prop where
  limiter : other.watched.limiter = s.watched.limiter
  clock : other.watched.clock ≤ s.watched.clock
  log : other.watched.log = s.watched.log
  answers : other.answers = s.answers

theorem attempt_alike (alike : Alike s other) (moved : use s (.attempt c) = some next) :
    ∃ after, use other (.attempt c) = some after ∧ Alike next after := by
  obtain ⟨stepped,answers⟩ := use_attempt moved
  obtain ⟨early,ordered,same⟩ := step_parts stepped
  have again : step other.watched c = some next.watched := by
    unfold step
    rw [if_pos ⟨Int.le_trans alike.clock early,ordered⟩,same,alike.limiter,alike.log]
  refine ⟨{other with watched := next.watched,answers := other.answers ++ [(allow other.watched.limiter c).1]},?_,?_⟩
  · simp only [use,again,Option.map_some]
  · exact ⟨rfl,Int.le_refl _,rfl,by rw [answers,alike.answers,alike.limiter]⟩

theorem check_alike (alike : Alike s other) (moved : use s (.check key now) = some next) : Alike next other := by
  obtain ⟨later,limiter,clock,log,answers⟩ := use_check moved
  exact ⟨alike.limiter.trans limiter.symm,by rw [clock]; exact Int.le_trans alike.clock later,alike.log.trans log.symm,
    alike.answers.trans answers.symm⟩

theorem run_unchecked (alike : Alike s other) (ran : run use s events = some last) :
    ∃ after, run use other (events.filter attempts) = some after ∧ Alike last after := by
  induction events generalizing s other with
  | nil =>
    cases ran
    exact ⟨other,rfl,alike⟩
  | cons event rest ih =>
    obtain ⟨next,moved,onward⟩ := run_cons.mp ran
    cases event with
    | attempt c =>
      obtain ⟨after,again,still⟩ := attempt_alike alike moved
      obtain ⟨final,ran',same⟩ := ih still onward
      exact ⟨final,run_cons.mpr ⟨after,again,ran'⟩,same⟩
    | check key now => exact ih (check_alike alike moved) onward

theorem exhausted_agrees_iff (maxAttempts : Nat) (window : Int) (maxKeys : Nat) (clock : Int) {events : List Event}
    (ran : run use (begun (fresh maxAttempts window maxKeys) clock) events = some last) :
    (∀ key now, exhausted last.watched.limiter key now = refused last.watched.limiter key now ↔ Judged last.watched.limiter key now) ∧
    ∃ other, run use (begun (fresh maxAttempts window maxKeys) clock) (events.filter attempts) = some other ∧
      other.watched.limiter = last.watched.limiter ∧ other.answers = last.answers := by
  refine ⟨exhausted_iff last.watched.limiter,?_⟩
  obtain ⟨other,again,alike⟩ := run_unchecked ⟨rfl,Int.le_refl _,rfl,rfl⟩ ran
  exact ⟨other,again,alike.limiter,alike.answers⟩

theorem account_checked : ∃ last, run use (begun (fresh 2 minute 1) 0) [.attempt ⟨[97],0,0⟩,.check [97] 1,.attempt ⟨[97],2,2⟩,.check [97] 3] = some last ∧
    last.findings = [false,true] ∧ exhausted last.watched.limiter [97] 3 = refused last.watched.limiter [97] 3 := by
  obtain ⟨last,ran,found,held⟩ : ∃ last, run use (begun (fresh 2 minute 1) 0)
      [.attempt ⟨[97],0,0⟩,.check [97] 1,.attempt ⟨[97],2,2⟩,.check [97] 3] = some last ∧ last.findings = [false,true] ∧
      last.watched.limiter.perKey.get [97] ≠ none := ⟨_,rfl,by decide +kernel,by decide +kernel⟩
  exact ⟨last,ran,found,((exhausted_agrees_iff 2 minute 1 0 ran).1 [97] 3).mpr (.inl held)⟩

theorem run_attempts (answers findings : List Bool) (ran : run step s calls = some last) :
    ∃ given, run use ⟨s,answers,findings⟩ (calls.map .attempt) = some ⟨last,given,findings⟩ := by
  induction calls generalizing s answers with
  | nil =>
    cases ran
    exact ⟨answers,rfl⟩
  | cons c rest ih =>
    obtain ⟨next,moved,onward⟩ := run_cons.mp ran
    obtain ⟨given,again⟩ := ih (answers ++ [(allow s.limiter c).1]) onward
    refine ⟨given,run_cons.mpr ⟨_,?_,again⟩⟩
    simp only [use,moved,Option.map_some]

theorem full_spent (young : 1 < window) (n : Nat) : full n window (List.replicate n (window - 1)) window = true := by
  have live : window - window < window - 1 := by omega
  unfold full
  rw [List.countP_replicate,if_pos (decide_eq_true live)]
  exact decide_eq_true (Nat.le_refl n)

theorem crowded_exhausted (distinct : keys.Nodup) (absent : key ∉ keys) (young : 1 < window) :
    exhausted (crowded maxAttempts window keys distinct key (List.replicate maxAttempts (window - 1))) key window = true := by
  have missing : (crowded maxAttempts window keys distinct key (List.replicate maxAttempts (window - 1))).perKey.get key = none :=
    @filled_absent maxAttempts keys.length window keys key distinct absent
  have held : (crowded maxAttempts window keys distinct key (List.replicate maxAttempts (window - 1))).maxKeys ≤
      (crowded maxAttempts window keys distinct key (List.replicate maxAttempts (window - 1))).perKey.list.length := by
    simp [crowded,filled]
  unfold exhausted
  rw [missing]
  rw [if_pos held]
  change full maxAttempts window (Function.update (fun _ => []) (bucketOf key) (List.replicate maxAttempts (window - 1)) (bucketOf key)) window = true
  rw [Function.update_self]
  exact full_spent young maxAttempts

-- The failures of one account are counted for a quarter of an hour.
theorem idle_table_refuses : ¬ ∀ events last, run use (begun (newKeyedLimiter 30 (15 * minute)) 0) events = some last →
    ∀ key now, last.watched.clock ≤ now → exhausted last.watched.limiter key now = refused last.watched.limiter key now := by
  intro always
  have size : sources.length = 4096 := by simp [sources]
  have given : sources ≠ [] := by
    intro empty
    rw [empty] at size
    cases size
  obtain ⟨first,filling⟩ := @fill 30 sources.length (15 * minute) sources (by decide) sources_distinct (Nat.le_refl _)
  obtain ⟨clock,before,lending⟩ := @crowd 30 (15 * minute) sources newcomer (15 * minute - 1) 30 sources_distinct newcomer_absent first
    (by decide) (by decide) (by decide)
  have limiter : begins (fresh 30 (15 * minute) sources.length) 0 = begins (newKeyedLimiter 30 (15 * minute)) 0 := by
    rw [size]
    rfl
  rw [limiter] at filling
  obtain ⟨answers,ran⟩ := run_attempts [] [] (run_append.mpr ⟨_,filling,lending⟩)
  have agrees := always _ _ ran newcomer (15 * minute) (by dsimp only; omega)
  obtain ⟨_,passes⟩ := @own_passes 30 (15 * minute) sources newcomer sources_distinct newcomer_absent given (by decide)
    (List.replicate 30 (15 * minute - 1))
  unfold refused at agrees
  rw [crowded_exhausted sources_distinct newcomer_absent (by decide)] at agrees
  rw [passes] at agrees
  cases agrees

end RemoteFileExplorer.LimiterChecks
