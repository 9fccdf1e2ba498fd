import RemoteFileExplorer.DesktopTransfers

namespace RemoteFileExplorer.DesktopTransfers

def Outcome.fails : Outcome → Bool
  | some (.error message) => message ≠ skipped
  | _ => false

def Stage.failing : Stage → Bool
  | .leaving outcome | .releasing outcome | .ending outcome => outcome.fails
  | _ => false

structure Ends (item after : Item) : Prop where
  accepted : after.accepted = item.accepted
  cancelling : after.cancelling = item.cancelling
  marking : item.decide = some .cancelMarking → after.decide = some .cancelMarking
  restarting : ∀ decider, after.decide = some decider → decider.restarting = true → item.decide = some decider
  failing : after.stage.failing = true → item.stage.failing = true
  failed : after.state = .failed → item.state = .failed ∨ item.stage.failing = true
  paused : after.state = .paused → item.state = .paused ∨ item.stage = .swapped true ∧ item.cancelling = false

theorem ends_quietly (accepted : after.accepted = item.accepted) (cancelling : after.cancelling = item.cancelling)
    (decide : after.decide = item.decide) (failing : after.stage.failing = item.stage.failing)
    (state : after.state.final = false ∨ after.state = item.state) : Ends item after where
  accepted := accepted
  cancelling := cancelling
  marking := by rw [decide]; exact id
  restarting decider holds _ := by rw [← decide]; exact holds
  failing := by rw [failing]; exact id
  failed is := by
    rcases state with open_ | same
    · rw [is] at open_; cases open_
    · exact .inl (same.symm.trans is)
  paused is := by
    rcases state with open_ | same
    · rw [is] at open_; cases open_
    · exact .inl (same.symm.trans is)

theorem settled_ends (item : Item) (failing : item.stage.failing = false) (answer : Option Resolution) (how : Resolution) :
    Ends item ({item with resolution := answer}.settled how) := by
  cases how with
  | skip =>
    refine ends_quietly rfl rfl rfl ?_ ?_
    · rw [failing]
      simp [Item.settled,Stage.failing,Outcome.fails]
    · exact .inr rfl
  | replace | both => exact ends_quietly rfl rfl rfl failing.symm (.inr rfl)

theorem goes_ends (ok : Coherent item) (moved : item.goes policy = some (after,demand)) : Ends item after := by
  cases stage : item.stage with
  | settling =>
    simp only [Item.goes,stage] at moved
    split at moved <;> cases Option.some.inj moved
    · exact settled_ends item (by rw [stage]; rfl) item.resolution _
    · exact ends_quietly rfl rfl rfl (by rw [stage]; rfl) (.inr rfl)
  | choosing =>
    simp only [Item.goes,stage] at moved
    split at moved <;> cases Option.some.inj moved
    · exact ends_quietly rfl rfl rfl (by rw [stage]; rfl) (.inr rfl)
    · refine ends_quietly rfl rfl rfl ?_ ?_
      · rw [stage]
        split <;> rfl
      · exact .inr rfl
  | heard =>
    simp only [Item.goes,stage] at moved
    split at moved <;> (cases Option.some.inj moved; exact ends_quietly rfl rfl rfl (by rw [stage]; rfl) (.inr rfl))
  | storing how =>
    simp only [Item.goes,stage] at moved
    cases Option.some.inj moved
    exact settled_ends item (by rw [stage]; rfl) (some how) how
  | leaving outcome =>
    simp only [Item.goes,stage] at moved
    cases Option.some.inj moved
    refine ends_quietly rfl rfl rfl ?_ ?_
    · rw [stage]
      split <;> rfl
    · exact .inr rfl
  | ending outcome =>
    cases outcome with
    | none =>
      simp only [Item.goes,stage] at moved
      split at moved
      · rename_i free
        cases Option.some.inj moved
        exact ⟨rfl,rfl,by simp [free],by simp [Decider.restarting],by simp [Stage.failing],.inl,.inl⟩
      · cases moved
    | some result =>
      cases result with
      | ok _ =>
        simp only [Item.goes,stage] at moved
        cases Option.some.inj moved
        exact ⟨rfl,rfl,id,fun _ holds _ => holds,by simp [Stage.failing],by simp,by simp⟩
      | error message =>
        simp only [Item.goes,stage] at moved
        split at moved
        · cases Option.some.inj moved
          exact ⟨rfl,rfl,id,fun _ holds _ => holds,by simp [Stage.failing],by simp,by simp⟩
        · rename_i other
          cases Option.some.inj moved
          refine ⟨rfl,rfl,id,fun _ holds _ => holds,by simp [Stage.failing],?_,by simp⟩
          intro _
          apply Or.inr
          simpa [stage,Stage.failing,Outcome.fails] using other
  | swapped wasPausing =>
    have holds := ok.locked.mpr (by rw [stage]; rfl)
    simp only [Item.goes,stage] at moved
    split at moved
    · rename_i pauses
      cases Option.some.inj moved
      simp only [Bool.and_eq_true,Bool.not_eq_true'] at pauses
      refine ⟨rfl,rfl,by simp [holds],by simp,by simp [Stage.failing],by simp,?_⟩
      intro _
      rw [stage,pauses.1]
      exact .inr ⟨rfl,pauses.2⟩
    · cases Option.some.inj moved
      exact ⟨rfl,rfl,by simp [holds],by simp,by simp [Stage.failing],.inl,.inl⟩
  | cleaning =>
    simp only [Item.goes,stage] at moved
    cases Option.some.inj moved
    exact ⟨rfl,rfl,id,fun _ holds _ => holds,by simp [Stage.failing],by simp,by simp⟩
  | ended | waiting | working | asking | rewaiting how => simp [Item.goes,stage] at moved
  | placed | parked | answered how | replaced how =>
    simp only [Item.goes,stage] at moved
    cases Option.some.inj moved
    exact ends_quietly rfl rfl rfl (by rw [stage]; rfl) (.inl rfl)
  -- permitted, parking, repermitted, releasing and deciding leave the state alone
  | _ =>
    simp only [Item.goes,stage] at moved
    cases Option.some.inj moved
    exact ends_quietly rfl rfl rfl (by rw [stage]; rfl) (.inr rfl)

def Item.cancelPending (item : Item) : Bool := item.cancelling || item.decide == some .cancelMarking

-- No error is taken as the result once a cancel is pending, and no cancel finds
-- an attempt that has taken its error and not published it yet.
def noFailureUnderCancel : Rules where
  attempts item choice :=
    match choice with
    | .returns result => !(Outcome.fails (some result) && item.cancelPending)
    | _ => true
  commands item command :=
    match command with
    | .decides => !(item.decide == some .cancelLocked && item.stage.failing)
    | _ => true

structure CancelWins (item : Item) : Prop where
  coherent : Coherent item
  pending : item.accepted = true → item.cancelPending = true
  failing : item.accepted = true → item.stage.failing = false
  failed : item.accepted = true → item.state ≠ .failed
  paused : item.accepted = true → item.state ≠ .paused
  anew : ∀ decider, item.decide = some decider → decider.restarting = true → item.accepted = false

theorem fresh_wins : CancelWins Item.fresh :=
  ⟨fresh_coherent,by simp [Item.fresh],by simp [Item.fresh],by simp [Item.fresh],by simp [Item.fresh],by simp [Item.fresh]⟩

theorem ends_wins (ok : CancelWins item) (coherent : Coherent after) (ends : Ends item after) :
    CancelWins after := by
  have back : after.accepted = true → item.accepted = true := by
    rw [ends.accepted]
    exact id
  refine ⟨coherent,?_,?_,?_,?_,?_⟩
  · intro accepted
    have pending := ok.pending (back accepted)
    simp only [Item.cancelPending,Bool.or_eq_true,beq_iff_eq] at pending ⊢
    rcases pending with marked | marking
    · exact .inl (ends.cancelling.trans marked)
    · exact .inr (ends.marking marking)
  · intro accepted
    have calm := ok.failing (back accepted)
    cases failing : after.stage.failing with
    | false => rfl
    | true => rw [ends.failing failing] at calm; cases calm
  · intro accepted is
    rcases ends.failed is with already | failing
    · exact ok.failed (back accepted) already
    · rw [ok.failing (back accepted)] at failing; cases failing
  · intro accepted is
    rcases ends.paused is with already | ⟨stage,unmarked⟩
    · exact ok.paused (back accepted) already
    · -- the attempt holds the lock, so the cancel is past its mark
      have pending := ok.pending (back accepted)
      have holds := ok.coherent.locked.mpr (by rw [stage]; rfl)
      simp [Item.cancelPending,unmarked,holds] at pending
  · intro decider holds restarting
    rw [ends.accepted]
    exact ok.anew decider (ends.restarting decider holds restarting) restarting

theorem attempt_wins (ok : CancelWins item) (allowed : noFailureUnderCancel.attempts item choice = true)
    (moved : item.attempt policy choice = some (after,demand)) : CancelWins after := by
  have coherent := attempt_coherent ok.coherent moved
  cases choice with
  | goes => exact ends_wins ok coherent (goes_ends ok.coherent moved)
  | takes =>
    simp only [Item.attempt] at moved
    split at moved <;> cases moved
    · rename_i stage
      exact ends_wins ok coherent (ends_quietly rfl rfl rfl (by rw [stage]; rfl) (.inr rfl))
    · rename_i how stage
      exact ends_wins ok coherent (ends_quietly rfl rfl rfl (by rw [stage]; rfl) (.inr rfl))
  | stops =>
    obtain ⟨_,moved⟩ := Option.ite_none_right_eq_some.mp moved
    split at moved <;> cases moved
    · rename_i stage
      exact ends_wins ok coherent (ends_quietly rfl rfl rfl (by rw [stage]; rfl) (.inr rfl))
    · rename_i stage
      exact ends_wins ok coherent (ends_quietly rfl rfl rfl (by rw [stage]; rfl) (.inr rfl))
    · rename_i stage
      exact ends_wins ok coherent (ends_quietly rfl rfl rfl (by rw [stage]; rfl) (.inr rfl))
    · rename_i how stage
      exact ends_wins ok coherent (ends_quietly rfl rfl rfl (by rw [stage]; rfl) (.inr rfl))
  | meets =>
    simp only [Item.attempt] at moved
    split at moved <;> cases moved
    rename_i stage
    exact ends_wins ok coherent (ends_quietly rfl rfl rfl (by rw [stage]; rfl) (.inr rfl))
  | hears =>
    simp only [Item.attempt] at moved
    split at moved <;> cases moved
    rename_i stage _
    exact ends_wins ok coherent (ends_quietly rfl rfl rfl (by rw [stage]; rfl) (.inr rfl))
  | returns result =>
    simp only [Item.attempt] at moved
    split at moved <;> cases moved
    refine ⟨coherent,ok.pending,?_,ok.failed,ok.paused,ok.anew⟩
    intro accepted
    simpa [Stage.failing,noFailureUnderCancel,ok.pending accepted] using allowed

theorem cancelSees_wins (ok : CancelWins item) (holds : item.decide = some .cancelLocked)
    (calm : item.stage.failing = false) : CancelWins item.cancelSees := by
  have coherent := cancelSees_coherent ok.coherent holds
  have marks : item.state.final = false → Coherent {item with decide := some .cancelMarking,accepted := true} →
      CancelWins {item with decide := some .cancelMarking,accepted := true} := by
    intro running coherent
    refine ⟨coherent,by simp [Item.cancelPending],fun _ => calm,?_,?_,by simp [Decider.restarting]⟩
    all_goals
      intro _ is
      have final : item.state.final = true := congrArg State.final is
      rw [running] at final
      cases final
  have quiet : ∀ next, next = none ∨ next = some .cancelDiscarding → Coherent {item with decide := next} →
      CancelWins {item with decide := next} := by
    intro next which coherent
    refine ends_wins ok coherent ⟨rfl,rfl,by simp [holds],?_,id,.inl,.inl⟩
    intro decider same restarting
    rcases which with rfl | rfl
    · cases same
    · cases Option.some.inj same; cases restarting
  cases state : item.state with
  | queued | running | conflict =>
    simp only [Item.cancelSees,state] at coherent ⊢
    simpa only [state] using marks (by rw [state]; rfl) (by simpa only [state] using coherent)
  | failed | paused =>
    simp only [Item.cancelSees,state] at coherent ⊢
    simpa only [state] using quiet _ (.inr rfl) (by simpa only [state] using coherent)
  | done | cancelled =>
    simp only [Item.cancelSees,state] at coherent ⊢
    simpa only [state] using quiet _ (.inl rfl) (by simpa only [state] using coherent)

theorem unaccepted_wins (coherent : Coherent item) (unaccepted : item.accepted = false) : CancelWins item := by
  have never : item.accepted ≠ true := by
    rw [unaccepted]
    simp
  exact ⟨coherent,fun accepted => absurd accepted never,fun accepted => absurd accepted never,
    fun accepted => absurd accepted never,fun accepted => absurd accepted never,fun _ _ _ => unaccepted⟩

theorem retryChecks_wins (ok : CancelWins item) (holds : item.decide = some .retryLocked) :
    CancelWins item.retryChecks := by
  have coherent := retryChecks_coherent ok.coherent holds
  have refuses : Coherent {item with decide := none} → CancelWins {item with decide := none} := by
    intro coherent
    exact ends_wins ok coherent ⟨rfl,rfl,by simp [holds],by simp,id,.inl,.inl⟩
  simp only [Item.retryChecks] at coherent ⊢
  split at coherent
  · exact unaccepted_wins coherent rfl
  · exact unaccepted_wins coherent rfl
  · exact unaccepted_wins coherent rfl
  · exact refuses coherent

theorem decides_wins (ok : CancelWins item)
    (calm : item.decide = some .cancelLocked → item.stage.failing = false) (moved : item.decides = some after) :
    CancelWins after := by
  have coherent := decides_coherent ok.coherent moved
  cases holds : item.decide with
  | none => simp [Item.decides,holds] at moved
  | some holder =>
    simp only [Item.decides,holds] at moved
    cases holder with
    | cancelLocked => cases Option.some.inj moved; exact cancelSees_wins ok holds (calm holds)
    | cancelMarking =>
      cases Option.some.inj moved
      exact ⟨coherent,by simp [Item.cancelPending],ok.failing,ok.failed,ok.paused,by simp [Decider.restarting]⟩
    | cancelClearing =>
      cases Option.some.inj moved
      exact ends_wins ok coherent ⟨rfl,rfl,by simp [holds],by simp [Decider.restarting],id,.inl,.inl⟩
    | cancelSignalling =>
      cases Option.some.inj moved
      exact ends_wins ok coherent ⟨rfl,rfl,by simp [holds],by simp,id,.inl,.inl⟩
    | cancelDiscarding =>
      cases Option.some.inj moved
      exact ends_wins ok coherent ⟨rfl,rfl,by simp [holds],by simp,id,by simp,by simp⟩
    | retryLocked => cases Option.some.inj moved; exact retryChecks_wins ok holds
    | retryUnpausing | retryUncancelling | retryOpening => cases Option.some.inj moved; exact unaccepted_wins coherent (ok.anew _ holds rfl)
    | attempt => cases moved

theorem command_wins (ok : CancelWins item) (allowed : noFailureUnderCancel.commands item command = true)
    (moved : item.command command = some after) : CancelWins after := by
  have coherent := command_coherent ok.coherent moved
  cases command with
  | cancel | retry =>
    simp only [Item.command] at moved
    split at moved <;> cases moved
    rename_i free
    exact ends_wins ok coherent ⟨rfl,rfl,by simp [free],by simp [Decider.restarting],id,.inl,.inl⟩
  | decides =>
    refine decides_wins ok ?_ moved
    intro holds
    simpa [noFailureUnderCancel,holds] using allowed
  | pause | resolve =>
    simp only [Item.command] at moved
    split at moved <;> (cases Option.some.inj moved; exact ends_wins ok coherent (ends_quietly rfl rfl rfl rfl (.inr rfl)))
  -- the others are guarded by a counter
  | _ =>
    simp only [Item.command] at moved
    split at moved <;> cases moved
    exact ends_wins ok coherent (ends_quietly rfl rfl rfl rfl (.inr rfl))

def AllWin (s : Transfers) : Prop := ∀ item ∈ s.items, CancelWins item

def SparesCancels (s : Transfers) (event : Event) : Prop := noFailureUnderCancel.allow s event = true

theorem step_wins (ok : AllWin s) (spared : SparesCancels s event) (moved : step s event = some next) : AllWin next := by
  refine items_preserved_when fresh_wins ?_ ?_ ok spared moved
  · intro policy item choice after demand before allowed attempted
    exact attempt_wins before allowed attempted
  · intro item command after before allowed commanded
    exact command_wins before allowed commanded

theorem run_wins (spared : Runs.Every step SparesCancels (withOptions parallel) events)
    (ran : Runs.run step (withOptions parallel) events = some s) : AllWin s := by
  refine Runs.run_preserves_when AllWin ?_ ?_ spared ran
  · intro before event next ok meets moved
    exact step_wins ok meets moved
  · intro item listed
    cases listed

theorem cancel_wins (spared : Runs.Every step SparesCancels (withOptions parallel) events)
    (ran : Runs.run step (withOptions parallel) events = some s) (listed : item ∈ s.items) (accepted : item.accepted = true) :
    item.state ≠ .paused ∧ item.state ≠ .failed ∧ (item.stage = .ended → item.state = .cancelled ∨ item.state = .done) := by
  have won := run_wins spared ran item listed
  refine ⟨won.paused accepted,won.failed accepted,?_⟩
  intro atEnd
  rcases won.coherent.ended atEnd with final | ⟨decider,holds,restarting⟩
  · cases state : item.state with
    | cancelled => exact .inl rfl
    | done => exact .inr rfl
    | paused => exact absurd state (won.paused accepted)
    | failed => exact absurd state (won.failed accepted)
    | queued | running | conflict => rw [state] at final; cases final
  · rw [won.anew decider holds restarting] at accepted
    cases accepted

def goes : Event := .attempts 0 .goes

def decides : Event := .commands 0 .decides

def pauseThenCancel : List Event :=
  [.added,.attempts 0 .takes,goes,goes,.commands 0 .pause,.commands 0 .pauseMarks,.commands 0 .pauseSignals,
    .commands 0 .cancel,decides,decides,decides,decides,.attempts 0 .stops,goes,goes,goes,goes,goes,goes]

instance (s : Transfers) (event : Event) : Decidable (SparesCancels s event) :=
  inferInstanceAs (Decidable (noFailureUnderCancel.allow s event = true))

theorem cancel_wins_over_pause : ∃ s item, Runs.run step (withOptions 1) pauseThenCancel = some s ∧ item ∈ s.items ∧
    item.accepted = true ∧ (item.state = .cancelled ∨ item.state = .done) := by
  have spared : Runs.Every step SparesCancels (withOptions 1) pauseThenCancel := by decide
  have reached : ∃ s item, Runs.run step (withOptions 1) pauseThenCancel = some s ∧ s.items = [item] ∧
      item.accepted = true ∧ item.stage = .ended := ⟨_,_,rfl,rfl,rfl,rfl⟩
  obtain ⟨s,item,ran,only,accepted,atEnd⟩ := reached
  have listed : item ∈ s.items := by rw [only]; exact List.mem_singleton_self item
  exact ⟨s,item,ran,listed,accepted,(cancel_wins spared ran listed accepted).2.2 atEnd⟩

theorem cancelled_attempt_fails : ∃ s item, Runs.run step (withOptions 1)
      [.added,.attempts 0 .takes,goes,goes,.commands 0 .cancel,decides,decides,decides,decides,
        .attempts 0 (.returns (.error "connection reset")),goes,goes,goes] = some s ∧ item ∈ s.items ∧
    item.accepted = true ∧ item.cancelling = true ∧ item.stage = .ended ∧ item.state = .failed :=
  ⟨_,_,rfl,List.mem_singleton_self _,rfl,rfl,rfl,rfl⟩

end RemoteFileExplorer.DesktopTransfers
