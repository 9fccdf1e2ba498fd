import RemoteFileExplorer.PairRequests

namespace RemoteFileExplorer.PairProtocol
open Tables PairRequests
open Devices (DB)

-- A request in the hands of a collecting handler, and one whose token was
-- stored, has no row left but a done one, so nobody can claim it again.
structure Valid (sha256Hex : List Nat → String) (s : State) : Prop where
  drawn : ∀ r ∈ s.requests.rows, r.id ∈ s.drawn
  checked : ∀ h request nonce, s.handlers h = .revealChecked request nonce → request.id ∈ s.drawn ∧
    nonceMatches sha256Hex nonce request.nonceCommit = true ∧
    ∀ r ∈ s.requests.rows, r.id = request.id → r.nonceCommit = request.nonceCommit
  collecting : ∀ h request, (s.handlers h).collecting = some request → request.id ∈ s.drawn ∧ request.id ∉ s.mints ∧
    (∀ r ∈ s.requests.rows, r.id = request.id → r.status = .done) ∧
    ∀ other also, (s.handlers other).collecting = some also → also.id = request.id → other = h
  once : s.mints.Nodup
  minted : ∀ id ∈ s.mints, id ∈ s.drawn ∧ ∀ r ∈ s.requests.rows, r.id = id → r.status = .done
  bounded : pendingCount s.now s.requests ≤ maxPendingPairRequests

section Invariant
variable {hashToken : String → String} {sha256Hex : List Nat → String}

theorem initial_valid (now : Int) : Valid sha256Hex (initial now) := by
  refine ⟨?_,?_,?_,?_,?_,?_⟩ <;> simp [initial,Stage.collecting,pendingCount,Table.count]

@[simp] theorem move_same (s : State) (h : Nat) (stage : Stage) : (move s h stage).handlers h = stage := by
  simp [move]
theorem move_other (s : State) (stage : Stage) (other : q ≠ h) : (move s h stage).handlers q = s.handlers q := by
  simp [move,other]

theorem move_valid (valid : Valid sha256Hex s)
    (checks : ∀ request nonce, stage = .revealChecked request nonce → request ∈ s.requests.rows ∧
      nonceMatches sha256Hex nonce request.nonceCommit = true)
    (collects : ∀ request, stage.collecting = some request → (s.handlers h).collecting = some request) :
    Valid sha256Hex (move s h stage) := by
  have back : ∀ q request, ((move s h stage).handlers q).collecting = some request → (s.handlers q).collecting = some request := by
    intro q request held
    by_cases same : q = h
    · subst same
      exact collects request (by simpa using held)
    · rwa [move_other s stage same] at held
  refine ⟨valid.drawn,?_,?_,valid.once,valid.minted,valid.bounded⟩
  · intro q request nonce held
    by_cases same : q = h
    · subst same
      obtain ⟨member,matched⟩ := checks request nonce (by simpa using held)
      refine ⟨valid.drawn request member,matched,?_⟩
      intro r stored equal
      rw [same_request stored member equal]
    · rw [move_other s stage same] at held
      exact valid.checked q request nonce held
  · intro q request held
    obtain ⟨drawn,unminted,done,alone⟩ := valid.collecting q request (back q request held)
    exact ⟨drawn,unminted,done,fun other also holds => alone other also (back other also holds)⟩

theorem moved_done (moved : Moved now r next) (done : r.status = .done) : next.status = .done := by
  rw [moved_settled moved (.inr (.inl done))]
  exact done

-- A transaction that only moves stored rows keeps everything but the bound.
theorem requests_valid (valid : Valid sha256Hex s)
    (evolves : ∀ r ∈ t.rows, ∃ old ∈ s.requests.rows, Moved s.now old r)
    (bounded : pendingCount s.now t ≤ maxPendingPairRequests) : Valid sha256Hex {s with requests := t} := by
  have stillDone : ∀ id, (∀ r ∈ s.requests.rows, r.id = id → r.status = .done) → ∀ r ∈ t.rows, r.id = id → r.status = .done := by
    intro id done r stored same
    obtain ⟨old,before,moved⟩ := evolves r stored
    exact moved_done moved (done old before ((moved_id moved).1 ▸ same))
  refine ⟨?_,?_,?_,valid.once,?_,bounded⟩
  · intro r stored
    obtain ⟨old,before,moved⟩ := evolves r stored
    rw [(moved_id moved).1]
    exact valid.drawn old before
  · intro h request nonce held
    obtain ⟨drawn,matched,agrees⟩ := valid.checked h request nonce held
    refine ⟨drawn,matched,?_⟩
    intro r stored same
    obtain ⟨old,before,moved⟩ := evolves r stored
    rw [(moved_id moved).2]
    exact agrees old before ((moved_id moved).1 ▸ same)
  · intro h request held
    obtain ⟨drawn,unminted,done,alone⟩ := valid.collecting h request held
    exact ⟨drawn,unminted,stillDone _ done,alone⟩
  · intro id listed
    obtain ⟨drawn,done⟩ := valid.minted id listed
    exact ⟨drawn,stillDone id done⟩

theorem decided_moved (decided : decidePairRequest now t requestId approve = .ok next) :
    ∀ r ∈ next.rows, ∃ old ∈ t.rows, Moved now old r := by
  intro r member
  rcases decided_row decided member with kept | ⟨old,stored,_,status,live,rfl⟩
  · exact ⟨r,kept,.stays⟩
  · exact ⟨old,stored,.decided approve status live⟩

theorem revealed_moved (revealed : revealPairRequest now t requestId nonce = .ok (next,request)) :
    ∀ r ∈ next.rows, ∃ old ∈ t.rows, Moved now old r := by
  intro r member
  rcases revealed_row revealed member with kept | ⟨old,stored,_,status,live,rfl⟩
  · exact ⟨r,kept,.stays⟩
  · exact ⟨old,stored,.revealed status live⟩

theorem claimed_moved (claimed : claimApprovedPairRequest now t requestId = some (next,request)) :
    ∀ r ∈ next.rows, ∃ old ∈ t.rows, Moved now old r := by
  intro r member
  rcases claimed_row claimed member with kept | ⟨old,stored,_,status,live,rfl⟩
  · exact ⟨r,kept,.stays⟩
  · exact ⟨old,stored,.collected status live⟩

theorem created_valid (valid : Valid sha256Hex s) (fresh : request.id ∉ s.drawn)
    (created : createPairRequest s.now s.requests request = .ok next) :
    Valid sha256Hex {s with requests := next,drawn := request.id::s.drawn} := by
  -- Each row of the new table was stored before, or is the new one.
  have rows : ∀ r ∈ next.rows, r ∈ s.requests.rows ∨ r.id = request.id := by
    intro r member
    rw [created_rows created,List.mem_append,List.mem_singleton] at member
    rcases member with kept | rfl
    · exact .inl (Table.mem_delete.mp kept).1
    · exact .inr rfl
  have known : ∀ id ∈ s.drawn, ∀ r ∈ next.rows, r.id = id → r ∈ s.requests.rows := by
    intro id drawn r member same
    rcases rows r member with kept | new
    · exact kept
    · exact absurd ((same.symm.trans new) ▸ drawn) fresh
  refine ⟨?_,?_,?_,valid.once,?_,Nat.le_trans (pendingCount_created created) valid.bounded⟩
  · intro r member
    rcases rows r member with kept | new
    · exact List.mem_cons_of_mem _ (valid.drawn r kept)
    · rw [new]; exact List.mem_cons_self
  · intro h held nonce stage
    obtain ⟨drawn,matched,agrees⟩ := valid.checked h held nonce stage
    exact ⟨List.mem_cons_of_mem _ drawn,matched,fun r member same => agrees r (known _ drawn r member same) same⟩
  · intro h held stage
    obtain ⟨drawn,unminted,done,alone⟩ := valid.collecting h held stage
    exact ⟨List.mem_cons_of_mem _ drawn,unminted,fun r member same => done r (known _ drawn r member same) same,alone⟩
  · intro id listed
    obtain ⟨drawn,done⟩ := valid.minted id listed
    exact ⟨List.mem_cons_of_mem _ drawn,fun r member same => done r (known _ drawn r member same) same⟩

theorem claimed_valid (valid : Valid sha256Hex s)
    (claimed : claimApprovedPairRequest s.now s.requests requestId = some (next,request)) :
    Valid sha256Hex (move {s with requests := next} h (.claimed request)) := by
  have updated : Valid sha256Hex {s with requests := next} := requests_valid valid (claimed_moved claimed)
    (Nat.le_trans (pendingCount_claimed claimed) valid.bounded)
  obtain ⟨old,stored,_,status,_,rfl,present⟩ := claimed_request claimed
  -- The row was approved until now, so nobody collects it and nobody has.
  have unminted : old.id ∉ s.mints := by
    intro listed
    have done := (valid.minted old.id listed).2 old stored rfl
    rw [status] at done
    cases done
  have uncollected : ∀ q also, (s.handlers q).collecting = some also → also.id ≠ old.id := by
    intro q also held same
    have done := (valid.collecting q also held).2.2.1 old stored same.symm
    rw [status] at done
    cases done
  refine ⟨updated.drawn,?_,?_,updated.once,updated.minted,updated.bounded⟩
  · intro q checked nonce held
    by_cases own : q = h
    · subst own
      simp at held
    · rw [move_other _ _ own] at held
      exact updated.checked q checked nonce held
  · intro q collecting held
    by_cases own : q = h
    · subst own
      simp only [move_same,Stage.collecting,Option.some.injEq] at held
      subst held
      refine ⟨updated.drawn _ present,unminted,?_,?_⟩
      · intro r member same
        rw [same_request member present same]
      · intro other also holds same
        by_contra different
        rw [move_other _ _ different] at holds
        exact uncollected other also holds same
    · rw [move_other _ _ own] at held
      obtain ⟨drawn,free,done,alone⟩ := updated.collecting q collecting held
      refine ⟨drawn,free,done,?_⟩
      intro other also holds same
      by_cases mine : other = h
      · subst mine
        simp only [move_same,Stage.collecting,Option.some.injEq] at holds
        subst holds
        exact absurd same.symm (uncollected q collecting held)
      · rw [move_other _ _ mine] at holds
        exact alone other also holds same

theorem minted_valid (valid : Valid sha256Hex s) (holds : (s.handlers h).collecting = some request) :
    Valid sha256Hex {move s h (.minted deviceId replaces) with db := db,mints := request.id::s.mints} := by
  obtain ⟨drawn,unminted,done,alone⟩ := valid.collecting h request holds
  have moved : Valid sha256Hex (move s h (.minted deviceId replaces)) :=
    move_valid valid (by simp) (by simp [Stage.collecting])
  refine ⟨moved.drawn,moved.checked,?_,List.nodup_cons.mpr ⟨unminted,moved.once⟩,?_,moved.bounded⟩
  · intro q also held
    obtain ⟨alsoDrawn,free,alsoDone,exclusive⟩ := moved.collecting q also held
    refine ⟨alsoDrawn,?_,alsoDone,exclusive⟩
    intro listed
    rcases List.mem_cons.mp listed with same | older
    · have different : q ≠ h := by
        rintro rfl
        simp [Stage.collecting] at held
      rw [move_other _ _ different] at held
      exact different (alone q also held same)
    · exact free older
  · intro id listed
    rcases List.mem_cons.mp listed with rfl | older
    · exact ⟨drawn,done⟩
    · exact moved.minted id older

theorem getPairRequest_row (found : getPairRequest now t requestId = some r) : r ∈ t.rows ∧ r.id = requestId := by
  unfold getPairRequest at found
  split at found
  · cases found
  · rename_i row lookup
    split at found
    · cases found
    · cases found
      exact ⟨List.mem_of_find?_eq_some lookup,by simpa using List.find?_some lookup⟩

theorem advance_valid (valid : Valid sha256Hex s) (advanced : Advance sha256Hex s event h stage) :
    Valid sha256Hex (move s h stage) := by
  cases advanced with
  | finish | revealArrive | pollArrive | pollCheck => exact move_valid valid (by simp) (by simp [Stage.collecting])
  | revealCheck _ found _ matched =>
    refine move_valid valid ?_ (by simp [Stage.collecting])
    intro request nonce same
    cases same
    exact ⟨(getPairRequest_row found).1,matched⟩
  | checkReplaces claimed => exact move_valid valid (by simp) (by simp [Stage.collecting,claimed])

theorem step_valid (valid : Valid sha256Hex s) (stepped : step hashToken sha256Hex s event = some next) :
    Valid sha256Hex next := by
  cases step_cases stepped with
  | store db => exact ⟨valid.drawn,valid.checked,valid.collecting,valid.once,valid.minted,valid.bounded⟩
  | clock seconds =>
    exact ⟨valid.drawn,valid.checked,valid.collecting,valid.once,valid.minted,
      Nat.le_trans (pendingCount_clock _ seconds) valid.bounded⟩
  | created fresh created => exact created_valid valid fresh created
  | notCreated =>
    refine ⟨fun r stored => List.mem_cons_of_mem _ (valid.drawn r stored),?_,?_,valid.once,?_,valid.bounded⟩
    · intro h request nonce held
      obtain ⟨drawn,rest⟩ := valid.checked h request nonce held
      exact ⟨List.mem_cons_of_mem _ drawn,rest⟩
    · intro h request held
      obtain ⟨drawn,rest⟩ := valid.collecting h request held
      exact ⟨List.mem_cons_of_mem _ drawn,rest⟩
    · intro id listed
      obtain ⟨drawn,rest⟩ := valid.minted id listed
      exact ⟨List.mem_cons_of_mem _ drawn,rest⟩
  | decided decided =>
    exact requests_valid valid (decided_moved decided) (Nat.le_trans (pendingCount_decided decided) valid.bounded)
  | notDecided => exact valid
  | advance advanced => exact advance_valid valid advanced
  | reveal _ revealed =>
    exact move_valid (requests_valid valid (revealed_moved revealed) (pendingCount_revealed revealed))
      (by simp) (by simp [Stage.collecting])
  | claim _ claimed => exact claimed_valid valid claimed
  | mint db replacing => exact minted_valid valid (by rw [replacing]; rfl)
  | reset db =>
    have moved : Valid sha256Hex {s with db := db} :=
      ⟨valid.drawn,valid.checked,valid.collecting,valid.once,valid.minted,valid.bounded⟩
    exact move_valid moved (by simp) (by simp [Stage.collecting])

inductive Enters (s : State) : Event → PairRequest → Prop where
  | created : Enters s (.create requestId label clientId publicKey commit ip startedAt)
      ⟨requestId,sanitizeLabel label,clientId,publicKey,"",commit,ip,.committed,startedAt,startedAt + pairRequestTTL⟩
  | revealed : s.handlers h = .revealChecked request nonce → old ∈ s.requests.rows → old.id = request.id →
      old.status = .committed → s.now ≤ old.expires → Enters s (.reveal h) {old with clientNonce := nonce,status := .pending}
  | decided : old ∈ s.requests.rows → old.status = .pending → s.now ≤ old.expires →
      Enters s (.decide old.id approve) {old with status := if approve then .approved else .rejected}
  | collected : old ∈ s.requests.rows → Enters s (.claim h) {old with status := .done}

theorem row_enters (stepped : step hashToken sha256Hex s event = some next)
    (before : r ∉ s.requests.rows) (after : r ∈ next.requests.rows) : Enters s event r := by
  cases step_cases stepped with
  | store _ | clock _ | notCreated | notDecided | advance _ | mint _ _ | reset _ => exact absurd after before
  | created _ created =>
    have member : r ∈ _ := after
    rw [created_rows created,List.mem_append,List.mem_singleton] at member
    rcases member with kept | rfl
    · exact absurd (Table.mem_delete.mp kept).1 before
    · exact .created
  | decided decided =>
    rcases decided_row decided after with kept | ⟨old,stored,rfl,status,live,rfl⟩
    · exact absurd kept before
    · exact .decided stored status live
  | reveal checked revealed =>
    rcases revealed_row revealed after with kept | ⟨old,stored,same,status,live,rfl⟩
    · exact absurd kept before
    · exact .revealed checked stored same status live
  | claim _ claimed =>
    rcases claimed_row claimed after with kept | ⟨old,stored,_,_,_,rfl⟩
    · exact absurd kept before
    · exact .collected stored

theorem stage_enters (stepped : step hashToken sha256Hex s event = some next)
    (before : s.handlers h ≠ stage) (after : next.handlers h = stage) (collecting : stage.collecting = some request) :
    (∃ replaces, s.handlers h = .claimed request ∧ stage = .replacing request replaces) ∨
    ∃ requests requestId, claimApprovedPairRequest s.now s.requests requestId = some (requests,request) := by
  have landed : ∀ (base : State) q moved, base.handlers = s.handlers → (move base q moved).handlers h = stage → q = h ∧ moved = stage := by
    intro base q moved same held
    by_cases own : q = h
    · subst own
      exact ⟨rfl,by simpa using held⟩
    · rw [move_other _ _ (Ne.symm own),same] at held
      exact absurd held before
  cases step_cases stepped with
  | store _ | clock _ | created _ _ | notCreated | decided _ | notDecided => exact absurd after before
  | advance advanced =>
    obtain ⟨rfl,rfl⟩ := landed _ _ _ rfl after
    cases advanced with
    | finish | revealArrive | revealCheck | pollArrive | pollCheck => cases collecting
    | checkReplaces claimed =>
      cases collecting
      exact .inl ⟨_,claimed,rfl⟩
  | reveal _ _ | reset _ =>
    obtain ⟨_,rfl⟩ := landed _ _ _ rfl after
    cases collecting
  | claim _ claimed =>
    obtain ⟨_,rfl⟩ := landed _ _ _ rfl after
    cases collecting
    exact .inr ⟨_,_,claimed⟩
  | mint _ _ =>
    obtain ⟨_,rfl⟩ := landed s _ _ rfl after
    cases collecting

section Run
variable {now : Int} {events : List Event} {last : State}

section
variable (ran : Runs.run (step hashToken sha256Hex) (initial now) events = some last)
include ran

theorem run_valid : Valid sha256Hex last :=
  Runs.run_preserves (fun _ _ _ valid stepped => step_valid valid stepped) (initial_valid now) ran

theorem row_entered (stored : r ∈ last.requests.rows) :
    ∃ past event rest middle, events = past ++ event::rest ∧
      Runs.run (step hashToken sha256Hex) (initial now) past = some middle ∧ Enters middle event r := by
  obtain ⟨past,event,rest,middle,next,split,ranPast,stepped,_,before,after⟩ :=
    Runs.run_begins (fun s => r ∈ s.requests.rows) (by simp [initial]) ran stored
  exact ⟨past,event,rest,middle,split,ranPast,row_enters stepped before after⟩

theorem collecting_entered (held : (last.handlers h).collecting = some request) :
    ∃ past rest middle old, events = past ++ rest ∧ Runs.run (step hashToken sha256Hex) (initial now) past = some middle ∧
      old ∈ middle.requests.rows ∧ old.id = request.id ∧ old.status = .approved := by
  -- The claim is one stage back, or two when the replaced device was looked up.
  have claimed : ∀ {events last stage}, Runs.run (step hashToken sha256Hex) (initial now) events = some last →
      last.handlers h = stage → stage.collecting = some request →
      (∃ past rest middle old, events = past ++ rest ∧ Runs.run (step hashToken sha256Hex) (initial now) past = some middle ∧
        old ∈ middle.requests.rows ∧ old.id = request.id ∧ old.status = .approved) ∨
      ∃ past rest middle, events = past ++ rest ∧ Runs.run (step hashToken sha256Hex) (initial now) past = some middle ∧
        middle.handlers h = .claimed request ∧ stage ≠ .claimed request := by
    intro events last stage ran stands collecting
    obtain ⟨past,event,rest,middle,next,split,ranPast,stepped,_,before,after⟩ :=
      Runs.run_begins (fun s => s.handlers h = stage) (by rintro rfl; simp [initial,Stage.collecting] at collecting) ran stands
    rcases stage_enters stepped before after collecting with ⟨replaces,claimed,rfl⟩ | ⟨requests,requestId,claimed⟩
    · exact .inr ⟨past,_,middle,split,ranPast,claimed,by simp⟩
    · obtain ⟨old,stored,_,status,_,rfl,_⟩ := claimed_request claimed
      exact .inl ⟨past,_,middle,old,split,ranPast,stored,rfl,status⟩
  rcases claimed ran rfl held with found | ⟨past,rest,middle,split,ranPast,earlier,_⟩
  · exact found
  · rcases claimed ranPast earlier rfl with ⟨first,second,reached,old,again,ranFirst,stored⟩ | ⟨_,_,_,_,_,_,absurdly⟩
    · exact ⟨first,second ++ rest,reached,old,by rw [split,again,List.append_assoc],ranFirst,stored⟩
    · exact absurd rfl absurdly

theorem mint_entered (listed : requestId ∈ last.mints) :
    ∃ past rest middle h request, events = past ++ rest ∧ Runs.run (step hashToken sha256Hex) (initial now) past = some middle ∧
      (middle.handlers h).collecting = some request ∧ request.id = requestId := by
  obtain ⟨past,event,rest,middle,next,split,ranPast,stepped,_,before,after⟩ :=
    Runs.run_begins (fun s => requestId ∈ s.mints) (by simp [initial]) ran listed
  cases step_cases stepped with
  | store _ | clock _ | created _ _ | notCreated | decided _ | notDecided | advance _ | reveal _ _ | claim _ _ | reset _ =>
    exact absurd after before
  | @mint h request replaces token uuid deviceId db replacing =>
    rcases List.mem_cons.mp after with same | older
    · exact ⟨past,_,middle,h,request,split,ranPast,by rw [replacing]; rfl,same.symm⟩
    · exact absurd older before

end

-- The life of a request whose token was stored, read off the run: created with
-- its commitment, revealed in time by a nonce that opens the commitment, and
-- approved in time while the revealed row was pending.
def ApprovedBeforeExpiry (hashToken : String → String) (sha256Hex : List Nat → String) (now : Int) (events : List Event)
    (requestId : String) : Prop :=
  ∃ (r : PairRequest) (label : String) (h : Nat) (first second third fourth : List Event) (revealing deciding : State),
    r.id = requestId ∧ r.expires = r.created + pairRequestTTL ∧
    events = first ++ .create r.id label r.clientId r.publicKey r.nonceCommit r.remoteIP r.created::
      (second ++ .reveal h::(third ++ .decide r.id true::fourth)) ∧
    Runs.run (step hashToken sha256Hex) (initial now)
      (first ++ .create r.id label r.clientId r.publicKey r.nonceCommit r.remoteIP r.created::second) = some revealing ∧
    {r with clientNonce := "",status := .committed} ∈ revealing.requests.rows ∧ revealing.now ≤ r.expires ∧
    nonceMatches sha256Hex r.clientNonce r.nonceCommit = true ∧
    Runs.run (step hashToken sha256Hex) (initial now)
      (first ++ .create r.id label r.clientId r.publicKey r.nonceCommit r.remoteIP r.created::(second ++ .reveal h::third)) =
      some deciding ∧
    {r with status := .pending} ∈ deciding.requests.rows ∧ deciding.now ≤ r.expires

theorem approved_before_expiry (ran : Runs.run (step hashToken sha256Hex) (initial now) events = some last)
    (stored : r ∈ last.requests.rows) (approved : r.status = .approved) :
    ApprovedBeforeExpiry hashToken sha256Hex now events r.id := by
  obtain ⟨untilDecide,event,afterDecide,deciding,splitDecide,ranDecide,entered⟩ := row_entered ran stored
  cases entered with
  | created | revealed | collected => cases approved
  | @decided p approve pendingRow pending pendingLive =>
  cases approve with
  | false => cases approved
  | true =>
  obtain ⟨untilReveal,event,afterReveal,revealing,splitReveal,ranReveal,entered⟩ := row_entered ranDecide pendingRow
  cases entered with
  | created | collected => cases pending
  | @decided _ approve => cases approve <;> cases pending
  | @revealed h request nonce c checked committedRow same committed committedLive =>
  have opened : nonceMatches sha256Hex nonce c.nonceCommit = true := by
    obtain ⟨_,matched,agrees⟩ := (run_valid ranReveal).checked h request nonce checked
    rw [agrees c committedRow same]
    exact matched
  obtain ⟨untilCreate,event,afterCreate,creating,splitCreate,ranCreate,entered⟩ := row_entered ranReveal committedRow
  cases entered with
  | revealed | collected => cases committed
  | @decided _ approve => cases approve <;> cases committed
  | @created requestId label clientId publicKey commit ip startedAt =>
  subst splitCreate
  refine ⟨⟨requestId,sanitizeLabel label,clientId,publicKey,nonce,commit,ip,.approved,startedAt,startedAt + pairRequestTTL⟩,
    label,h,untilCreate,afterCreate,afterReveal,afterDecide,revealing,deciding,rfl,rfl,?_,ranReveal,committedRow,
    committedLive,opened,?_,pendingRow,pendingLive⟩
  · rw [splitDecide,splitReveal]
    simp
  · rw [← ranDecide,splitReveal]
    simp

-- A settled row may be pruned; it never comes back and never changes.
def StaysSettled (r : PairRequest) (s : State) : Prop :=
  r.id ∈ s.drawn ∧ Settled s.now r ∧ ∀ row ∈ s.requests.rows, row.id = r.id → row = r

theorem step_settled (settled : StaysSettled r s) (stepped : step hashToken sha256Hex s event = some next) :
    StaysSettled r next := by
  obtain ⟨drawn,final,only⟩ := settled
  have moved : ∀ {t : Table requestKeys}, (∀ row ∈ t.rows, ∃ old ∈ s.requests.rows, Moved s.now old row) →
      ∀ row ∈ t.rows, row.id = r.id → row = r := by
    intro t evolves row member same
    obtain ⟨old,before,move⟩ := evolves row member
    have equal := only old before ((moved_id move).1 ▸ same)
    subst equal
    exact moved_settled move final
  cases step_cases stepped with
  | store _ | notDecided | advance _ | mint _ _ | reset _ => exact ⟨drawn,final,only⟩
  | clock seconds =>
    refine ⟨drawn,?_,only⟩
    rcases final with rejected | done | expired
    · exact .inl rejected
    · exact .inr (.inl done)
    · exact .inr (.inr (by change r.expires < s.now + seconds; omega))
  | notCreated => exact ⟨List.mem_cons_of_mem _ drawn,final,only⟩
  | created fresh created =>
    refine ⟨List.mem_cons_of_mem _ drawn,final,?_⟩
    intro row member same
    have stored : row ∈ _ := member
    rw [created_rows created,List.mem_append,List.mem_singleton] at stored
    rcases stored with kept | rfl
    · exact only row (Table.mem_delete.mp kept).1 same
    · rw [← same] at drawn
      exact absurd drawn fresh
  | decided decided => exact ⟨drawn,final,moved (decided_moved decided)⟩
  | reveal _ revealed => exact ⟨drawn,final,moved (revealed_moved revealed)⟩
  | claim _ claimed => exact ⟨drawn,final,moved (claimed_moved claimed)⟩

theorem run_settled (valid : Valid sha256Hex middle) (stored : r ∈ middle.requests.rows) (final : Settled middle.now r)
    (ran : Runs.run (step hashToken sha256Hex) middle events = some last) : StaysSettled r last :=
  Runs.run_preserves (fun _ _ _ settled stepped => step_settled settled stepped)
    ⟨valid.drawn r stored,final,fun _ other same => same_request other stored same⟩ ran

end Run

end Invariant

theorem pair_request_mints_once_after_approval (hashToken : String → String) (sha256Hex : List Nat → String) (now : Int)
    (events : List Event) (last : State) (ran : Runs.run (step hashToken sha256Hex) (initial now) events = some last) :
    last.mints.Nodup ∧
    (∀ requestId ∈ last.mints, ApprovedBeforeExpiry hashToken sha256Hex now events requestId) ∧
    (∀ first rest middle r, events = first ++ rest → Runs.run (step hashToken sha256Hex) (initial now) first = some middle →
      r ∈ middle.requests.rows → Settled middle.now r →
      Settled last.now r ∧ ∀ row ∈ last.requests.rows, row.id = r.id → row = r) ∧
    pendingCount last.now last.requests ≤ maxPendingPairRequests := by
  have valid := run_valid ran
  refine ⟨valid.once,?_,?_,valid.bounded⟩
  · intro requestId listed
    obtain ⟨untilMint,afterMint,minting,h,request,splitMint,ranMint,held,rfl⟩ := mint_entered ran listed
    obtain ⟨untilClaim,afterClaim,claiming,old,splitClaim,ranClaim,stored,same,approved⟩ := collecting_entered ranMint held
    obtain ⟨r,label,handler,first,second,third,fourth,revealing,deciding,named,ttl,split,rest⟩ :=
      approved_before_expiry ranClaim stored approved
    refine ⟨r,label,handler,first,second,third,fourth ++ (afterClaim ++ afterMint),revealing,deciding,named.trans same,ttl,?_,rest⟩
    rw [splitMint,splitClaim,split]
    simp
  · rintro first rest middle r rfl ranFirst stored final
    obtain ⟨reached,ranAgain,ranRest⟩ := Runs.run_append.mp ran
    cases ranFirst.symm.trans ranAgain
    obtain ⟨_,still,only⟩ := run_settled (run_valid ranFirst) stored final ranRest
    exact ⟨still,only⟩

-- SHA-256 of sixteen zero bytes, the only digest this run asks for.
def zeroDigest : String := "374708fff7719dd5979ec875d56cd2286f6d3cf7ec317a3b25632aab28ec37bb"
def zeroNonce : String := "00000000000000000000000000000000"

def approvedPairing : List Event :=
  [.create "r1" "Phone" "phone" "key" zeroDigest "10.0.0.7" 0,.revealArrive 0 "r1" zeroNonce,.clock 30,.revealCheck 0,.reveal 0,
    .decide "r1" true,.pollArrive 1 "r1" zeroNonce,.pollArrive 2 "r1" zeroNonce,.pollCheck 1,.pollCheck 2,.claim 2,.claim 1,
    .clock 300,.checkReplaces 2,.mint 2 "token" "d1",.reset 2]

theorem two_polls_mint_one_token : ∃ last,
    Runs.run (step id (fun _ => zeroDigest)) (initial 0) approvedPairing = some last ∧ last.mints = ["r1"] ∧ last.mints.Nodup := by
  refine ⟨_,rfl,rfl,(pair_request_mints_once_after_approval id (fun _ => zeroDigest) 0 approvedPairing _ rfl).1⟩

end RemoteFileExplorer.PairProtocol
