import RemoteFileExplorer.PhoneUploads

namespace RemoteFileExplorer.PhoneUploads
open Runs Transfers UploadFiles UploadAgent UploadHosts
open DownloadResumes (TransferState)

section Invariants
variable {u : Upload} {s : State}

structure Joined (u : Upload) (s : State) : Prop where
  sound : Sound u.sha256 u.source s.host
  aimed : Aimed u.remotePath u.overwrite s.host
  journal : ∀ id, s.record.sessionId = some id → id < s.host.agent.opened
  hashed : ∀ sum, s.record.sha256 = some sum → sum = u.sha256 u.source
  running : s.stage ≠ .idle → s.record.state = .running
  asking : ∀ id busy, s.stage = .asking id busy → id < s.host.agent.opened ∧ s.record.sha256.isSome
  opening : ∀ busy, s.stage = .opening busy → s.record.sha256.isSome
  sending : ∀ session pending jobs, s.stage = .sending session pending jobs →
    Known s.host.agent session.id session.chunkSize session.totalChunks ∧
    (∀ n ∈ pending, (n : Int) < session.totalChunks) ∧ ∀ job ∈ jobs, (job.n : Int) < session.totalChunks
  completing : ∀ session busy, s.stage = .completing session busy →
    s.awaits.request = .complete session.id ∧ session.id < s.host.agent.opened
  done : s.record.state = .done → s.host.agent.published ≠ []
  blame : s.record.error = some (.rejected .conflict) → u.overwrite = false

theorem last_chunk (declared : Declared t) (some : 0 < t.totalSize) :
    (t.totalChunks - 1) * t.chunkSize < t.totalSize ∧ t.totalSize ≤ t.totalChunks * t.chunkSize := by
  have positive := declared.chunk
  have division := Int.mul_ediv_add_emod (t.totalSize + t.chunkSize - 1) t.chunkSize
  have rest := Int.emod_lt_of_pos (t.totalSize + t.chunkSize - 1) positive
  have least := Int.emod_nonneg (t.totalSize + t.chunkSize - 1) (by omega : t.chunkSize ≠ 0)
  have chunks : t.totalChunks = (t.totalSize + t.chunkSize - 1) / t.chunkSize := by
    rw [declared.total]
    unfold totalChunksOf
    dsimp only
    split
    · rename_i zero
      rw [zero] at division
      omega
    · rfl
  rw [← chunks] at division
  have swap : t.chunkSize * t.totalChunks = t.totalChunks * t.chunkSize := Int.mul_comm ..
  have before : (t.totalChunks - 1) * t.chunkSize = t.totalChunks * t.chunkSize - t.chunkSize := by
    rw [Int.sub_mul,Int.one_mul]
  omega

theorem chunkLen_expected {n : Nat} (declared : Declared t) (size : t.totalSize = u.source.length)
    (chunks : t.chunkSize = session.chunkSize) (totals : t.totalChunks = session.totalChunks) (inside : (n : Int) < session.totalChunks) :
    (chunkLen u session n).toNat = (expectedChunkLen t n).toNat := by
  have positive := declared.chunk
  have low : 0 ≤ (n : Int) := Int.natCast_nonneg n
  have start : 0 ≤ (n : Int) * t.chunkSize := Int.mul_nonneg low (Int.le_of_lt positive)
  unfold chunkLen expectedChunkLen
  dsimp only
  rw [← chunks]
  rw [← totals] at inside ⊢
  by_cases empty : u.source.length = 0
  · repeat' split
    all_goals omega
  · obtain ⟨before,covers⟩ := last_chunk declared (by omega)
    by_cases last : (n : Int) = t.totalChunks - 1
    · rw [if_pos last,last]
      have after : t.totalChunks * t.chunkSize = (t.totalChunks - 1) * t.chunkSize + t.chunkSize := by
        rw [Int.sub_mul,Int.one_mul]
        omega
      repeat' split
      all_goals omega
    · have earlier : ((n : Int) + 1) * t.chunkSize ≤ (t.totalChunks - 1) * t.chunkSize :=
        Int.mul_le_mul_of_nonneg_right (by omega) (Int.le_of_lt positive)
      have expand : ((n : Int) + 1) * t.chunkSize = n * t.chunkSize + t.chunkSize := by
        rw [Int.add_mul,Int.one_mul]
      repeat' split
      all_goals omega

theorem chunk_right {n : Nat} (honest : Honest u.sha256 u.source a)
    (known : Known a session.id session.chunkSize session.totalChunks) (inside : (n : Int) < session.totalChunks) :
    Right u.sha256 u.source a (chunkRequest u session n) := by
  refine ⟨known.1,?_⟩
  intro current found
  obtain ⟨chunks,totals⟩ := known.2 current found
  have faithful := honest.sessions _ current found
  have length := chunkLen_expected faithful.declared faithful.size chunks totals inside
  unfold piece
  rw [length,chunks]

theorem open_right (same : sum = u.sha256 u.source) : Right u.sha256 u.source a (openRequest u (some sum)) := ⟨rfl,same⟩

theorem open_aimed (sum : Option String) (other : String) (size : Nat) (hash : String) (chunkSize : Nat) (also : Bool)
    (same : openRequest u sum = .openSession other size hash chunkSize also) : other = u.remotePath ∧ also = u.overwrite := by
  cases same
  exact ⟨rfl,rfl⟩

theorem joined_act (joined : Joined u s) (acted : s.host.act u.sha256 act = some host) : Joined u {s with host := host} := by
  have changed := acted_changed joined.sound (act_cases acted)
  have grows := changed_grows changed
  refine ⟨act_sound joined.sound acted,act_aimed joined.sound joined.aimed acted,?_,joined.hashed,joined.running,?_,joined.opening,?_,?_,?_,joined.blame⟩
  · intro id stored
    exact Nat.lt_of_lt_of_le (joined.journal id stored) grows.1
  · intro id busy stage
    obtain ⟨low,sum⟩ := joined.asking id busy stage
    exact ⟨Nat.lt_of_lt_of_le low grows.1,sum⟩
  · intro session pending jobs stage
    obtain ⟨known,ranges⟩ := joined.sending session pending jobs stage
    exact ⟨known_grows grows known,ranges⟩
  · intro session busy stage
    obtain ⟨asks,low⟩ := joined.completing session busy stage
    exact ⟨asks,Nat.lt_of_lt_of_le low grows.1⟩
  · intro done gone
    obtain ⟨placement,rest,whole⟩ := List.exists_cons_of_ne_nil (joined.done done)
    have member := changed_published changed (by rw [whole]; exact List.mem_cons_self ..)
    rw [gone] at member
    cases member

theorem joined_record (joined : Joined u s) (attempt : Nat)
    (journal : ∀ id, record.sessionId = some id → id < s.host.agent.opened)
    (hashed : ∀ sum, record.sha256 = some sum → sum = u.sha256 u.source) (running : s.stage ≠ .idle → record.state = .running)
    (sums : s.record.sha256.isSome → record.sha256.isSome)
    (done : record.state = .done → s.host.agent.published ≠ []) (blame : record.error = some (.rejected .conflict) → u.overwrite = false) :
    Joined u {s with record := record,attempt := attempt} := by
  refine ⟨joined.sound,joined.aimed,journal,hashed,running,?_,?_,joined.sending,joined.completing,done,blame⟩
  · intro id busy stage
    obtain ⟨low,sum⟩ := joined.asking id busy stage
    exact ⟨low,sums sum⟩
  · intro busy stage
    exact sums (joined.opening busy stage)

theorem joined_idle (joined : Joined u s) (session : record.sessionId = s.record.sessionId)
    (sum : record.sha256 = s.record.sha256) (done : record.state = .done → s.host.agent.published ≠ [])
    (blame : record.error = some (.rejected .conflict) → u.overwrite = false) : Joined u {s with record := record,stage := .idle} := by
  refine ⟨joined.sound,joined.aimed,?_,?_,nofun,nofun,nofun,nofun,nofun,done,blame⟩
  · rw [show ({s with record := record,stage := .idle} : State).record.sessionId = s.record.sessionId from session]
    exact joined.journal
  · rw [show ({s with record := record,stage := .idle} : State).record.sha256 = s.record.sha256 from sum]
    exact joined.hashed

theorem joined_fails {failure : Failure} (joined : Joined u s) (blame : failure = .rejected .conflict → u.overwrite = false) :
    Joined u (s.fails failure) :=
  joined_idle joined rfl rfl nofun (fun same => blame (Option.some.inj same))

section
variable (joined : Joined u s) (running : s.record.state = .running)
include joined running

theorem joined_posts (right : Right u.sha256 u.source s.host.agent request) (opened : Opened s.host.agent request)
    (aim : ∀ other size sum chunkSize also, request = .openSession other size sum chunkSize also → other = u.remotePath ∧ also = u.overwrite)
    (asking : ∀ id busy, stage = .asking id busy → id < s.host.agent.opened ∧ s.record.sha256.isSome)
    (opening : ∀ busy, stage = .opening busy → s.record.sha256.isSome) (sending : ∀ session pending jobs, stage ≠ .sending session pending jobs)
    (completing : ∀ session busy, stage = .completing session busy → request = .complete session.id ∧ session.id < s.host.agent.opened) :
    Joined u (s.posts stage request) :=
  ⟨sound_post joined.sound right opened s.attempt,aimed_post joined.aimed s.attempt aim,joined.journal,joined.hashed,fun _ => running,
    asking,opening,fun session pending jobs same => absurd same (sending session pending jobs),completing,joined.done,joined.blame⟩

theorem joined_opens (hashed : s.record.sha256.isSome) : Joined u (s.opens u) := by
  obtain ⟨sum,stored⟩ := Option.isSome_iff_exists.mp hashed
  have right : Right u.sha256 u.source s.host.agent (openRequest u s.record.sha256) := by
    rw [stored]
    exact open_right (joined.hashed sum stored)
  exact joined_posts joined running right trivial (open_aimed _) nofun (fun _ _ => hashed) nofun nofun

theorem joined_sends (known : Known s.host.agent session.id session.chunkSize session.totalChunks) : Joined u (s.sends session) := by
  refine ⟨joined.sound,joined.aimed,joined.journal,joined.hashed,fun _ => running,nofun,nofun,?_,nofun,joined.done,joined.blame⟩
  intro current pending jobs same
  cases same
  refine ⟨known,?_,nofun⟩
  intro n member
  have below := List.mem_range.mp (List.mem_filter.mp member).1
  omega

end

theorem joined_resends {pending : List Nat} (joined : Joined u s)
    (running : s.record.state = .running) (known : Known s.host.agent session.id session.chunkSize session.totalChunks)
    (waiting : ∀ n ∈ pending, (n : Int) < session.totalChunks) (others : ∀ other ∈ jobs, (other.n : Int) < session.totalChunks)
    (inside : (job.n : Int) < session.totalChunks) : Joined u (s.resends u session pending jobs job) := by
  refine ⟨sound_post joined.sound (chunk_right joined.sound.agent known inside) trivial s.attempt,aimed_post joined.aimed s.attempt nofun,
    joined.journal,joined.hashed,fun _ => running,nofun,nofun,?_,nofun,joined.done,joined.blame⟩
  intro current left working same
  cases same
  refine ⟨known,waiting,?_⟩
  intro other member
  rcases List.mem_cons.mp member with rfl | old
  · exact inside
  · exact others other old

theorem joined_stage {pending : List Nat} (joined : Joined u s) (running : s.record.state = .running)
    (known : Known s.host.agent session.id session.chunkSize session.totalChunks) (waiting : ∀ n ∈ pending, (n : Int) < session.totalChunks)
    (others : ∀ other ∈ jobs, (other.n : Int) < session.totalChunks) : Joined u {s with stage := .sending session pending jobs} := by
  refine ⟨joined.sound,joined.aimed,joined.journal,joined.hashed,fun _ => running,nofun,nofun,?_,nofun,joined.done,joined.blame⟩
  intro current left working same
  cases same
  exact ⟨known,waiting,others⟩

theorem hears_joined {reply : Reply} (joined : Joined u s) (heard : (s.awaits,reply) ∈ s.host.answers) : Joined u (s.hears u reply) := by
  have blame : ∀ code, reply = .refused code → Failure.rejected code = .rejected .conflict → u.overwrite = false := by
    rintro code rfl same
    cases same
    exact joined.aimed.conflicts s.awaits heard
  unfold State.hears
  cases stage : s.stage with
  | idle | hashing | sending => exact joined
  | asking id busy =>
    have running := joined.running (by rw [stage]; nofun)
    obtain ⟨low,sum⟩ := joined.asking id busy stage
    cases reply with
    | session other chunkSize totalChunks received status =>
      dsimp only
      split
      · exact joined_sends joined running (joined.sound.known _ _ _ _ _ _ heard)
      · exact joined_opens joined running sum
    | refused code =>
      dsimp only
      split
      · exact joined_opens joined running sum
      · split
        · refine joined_posts joined running trivial low nofun ?_ nofun nofun nofun
          intro other again same
          cases same
          exact ⟨low,sum⟩
        · exact joined_fails joined (blame code rfl)
    | noContent | completed => exact joined_fails joined nofun
  | opening busy =>
    have running := joined.running (by rw [stage]; nofun)
    have sum := joined.opening busy stage
    cases reply with
    | session id chunkSize totalChunks received status =>
      have known := joined.sound.known _ _ _ _ _ _ heard
      have recorded : Joined u {s with record := {s.record with sessionId := some id}} := by
        refine joined_record joined s.attempt ?_ joined.hashed (fun _ => running) (fun kept => kept) joined.done joined.blame
        intro other same
        cases same
        exact known.1
      have sent : Joined u ({s with record := {s.record with sessionId := some id}}.sends ⟨id,chunkSize,totalChunks,received⟩) :=
        joined_sends recorded running known
      exact sent
    | refused code =>
      dsimp only
      split
      · obtain ⟨hash,stored⟩ := Option.isSome_iff_exists.mp sum
        have right : Right u.sha256 u.source s.host.agent (openRequest u s.record.sha256) := by
          rw [stored]
          exact open_right (joined.hashed hash stored)
        exact joined_posts joined running right trivial (open_aimed _) nofun (fun _ _ => sum) nofun nofun
      · exact joined_fails joined (blame code rfl)
    | noContent | completed => exact joined_fails joined nofun
  | completing session busy =>
    have running := joined.running (by rw [stage]; nofun)
    obtain ⟨asks,low⟩ := joined.completing session busy stage
    have truth := (joined.sound.truthful _ _ heard).1
    rw [asks] at truth
    cases reply with
    | completed =>
      obtain ⟨placement,member,_⟩ := truth
      refine joined_idle joined rfl rfl (fun _ => List.ne_nil_of_mem member) nofun
    | session | noContent => exact absurd truth id
    | refused code =>
      dsimp only
      split
      · refine joined_posts joined running trivial low nofun nofun nofun nofun ?_
        intro other again same
        cases same
        exact ⟨rfl,low⟩
      · split
        · exact absurd ‹_› truth.1
        · exact joined_fails joined (blame code rfl)

theorem jobHears_joined {pending : List Nat} (joined : Joined u s)
    (stage : s.stage = .sending session pending jobs) (member : job ∈ jobs) (heard : (job.awaits,reply) ∈ s.host.answers) :
    Joined u (s.jobHears u session pending (jobs.filter (· ≠ job)) job reply) := by
  have running := joined.running (by rw [stage]; nofun)
  obtain ⟨known,waiting,working⟩ := joined.sending session pending jobs stage
  have others : ∀ other ∈ jobs.filter (· ≠ job), (other.n : Int) < session.totalChunks :=
    fun other left => working other (List.mem_filter.mp left).1
  unfold State.jobHears
  cases reply with
  | noContent => exact joined_stage joined running known waiting others
  | refused code =>
    dsimp only
    split
    · exact joined_resends joined running known waiting others (working job member)
    · split
      · exact joined_resends joined running known waiting others (working job member)
      · refine joined_fails joined ?_
        intro same
        cases same
        exact joined.aimed.conflicts job.awaits heard
  | session | completed => exact joined_fails joined nofun

theorem start_joined (joined : Joined u s) (stepped : step u s .start = some next) : Joined u next := by
  obtain ⟨ready,stepped⟩ := Option.ite_none_right_eq_some.mp stepped
  have begun : Joined u {s with record := {s.record with state := .running,error := none},attempt := s.attempt + 1} :=
    joined_record joined (s.attempt + 1) joined.journal joined.hashed (fun _ => rfl) (fun kept => kept) nofun nofun
  split at stepped
  · cases stepped
    exact ⟨begun.sound,begun.aimed,begun.journal,begun.hashed,fun _ => rfl,nofun,nofun,nofun,nofun,begun.done,begun.blame⟩
  · rename_i sum id hash stored
    cases stepped
    have low := joined.journal id stored
    refine joined_posts begun rfl trivial low nofun ?_ nofun nofun nofun
    intro other busy same
    cases same
    exact ⟨low,by rw [hash]; rfl⟩
  · rename_i sum hash stored
    cases stepped
    exact joined_opens begun rfl (by rw [hash]; rfl)

theorem step_joined {next : State} (joined : Joined u s) (stepped : step u s event = some next) : Joined u next := by
  cases event with
  | start => exact start_joined joined stepped
  | hashed =>
    obtain ⟨stage,⟨⟩⟩ := Option.ite_none_right_eq_some.mp stepped
    have running := joined.running (by rw [stage]; nofun)
    have recorded : Joined u {s with record := {s.record with sha256 := some (u.sha256 u.source),sessionId := none}} :=
      joined_record joined s.attempt nofun (fun sum same => (Option.some.inj same).symm) (fun _ => running) (fun _ => rfl) joined.done joined.blame
    exact joined_opens recorded running rfl
  | hear reply =>
    obtain ⟨allowed,⟨⟩⟩ := Option.ite_none_right_eq_some.mp stepped
    exact hears_joined joined allowed
  | claim =>
    simp only [step] at stepped
    split at stepped
    · rename_i session n pending jobs stage
      obtain ⟨_,⟨⟩⟩ := Option.ite_none_right_eq_some.mp stepped
      have running := joined.running (by rw [stage]; nofun)
      obtain ⟨known,waiting,working⟩ := joined.sending _ _ _ stage
      exact joined_resends joined running known (fun m member => waiting m (List.mem_cons_of_mem _ member)) working
        (waiting n (List.mem_cons_self ..))
    · cases stepped
  | jobHears job reply =>
    simp only [step] at stepped
    split at stepped
    · rename_i session pending jobs stage
      obtain ⟨allowed,⟨⟩⟩ := Option.ite_none_right_eq_some.mp stepped
      exact jobHears_joined joined stage allowed.1 allowed.2
    · cases stepped
  | jobBreaks job =>
    simp only [step] at stepped
    split at stepped
    · rename_i session pending jobs stage
      obtain ⟨member,stepped⟩ := Option.ite_none_right_eq_some.mp stepped
      split at stepped
      · cases stepped
        have running := joined.running (by rw [stage]; nofun)
        obtain ⟨known,waiting,working⟩ := joined.sending _ _ _ stage
        exact joined_resends joined running known waiting (fun other left => working other (List.mem_filter.mp left).1) (working job member)
      · cases stepped
        exact joined_fails joined nofun
    · cases stepped
  | sentAll =>
    simp only [step] at stepped
    split at stepped
    · rename_i session stage
      cases stepped
      have running := joined.running (by rw [stage]; nofun)
      obtain ⟨known,_⟩ := joined.sending _ _ _ stage
      refine joined_posts joined running trivial known.1 nofun nofun nofun nofun ?_
      intro other busy same
      cases same
      exact ⟨rfl,known.1⟩
    · cases stepped
  | breaks =>
    obtain ⟨_,⟨⟩⟩ := Option.ite_none_left_eq_some.mp stepped
    exact joined_fails joined nofun
  | stops =>
    obtain ⟨_,⟨⟩⟩ := Option.ite_none_left_eq_some.mp stepped
    exact joined_idle joined rfl rfl nofun joined.blame
  | stray attempt =>
    cases stepped
    exact ⟨sound_post joined.sound (open_right rfl) trivial attempt,aimed_post joined.aimed attempt (open_aimed _),joined.journal,joined.hashed,
      joined.running,joined.asking,joined.opening,joined.sending,joined.completing,joined.done,joined.blame⟩
  | agent act =>
    simp only [step] at stepped
    split at stepped
    · cases stepped
      exact joined_act joined ‹_›
    · cases stepped

theorem initial_joined (entries : String → Option Entry) : Joined u (initial entries) := by
  refine ⟨sound_fresh entries,⟨?_,?_,?_,?_⟩,nofun,nofun,fun busy => absurd rfl busy,nofun,nofun,nofun,nofun,nofun,nofun⟩
  · intro id session found
    cases found
  · intro mail member
    cases member
  · intro placement member
    cases member
  · intro mail member
    cases member

def ended : Reply → Bool
  | .session _ _ _ _ status => status ≠ .isOpen
  | .refused code => code = .notFound
  | _ => false

def Stage.asks : Stage → Bool
  | .asking .. => true
  | _ => false

-- No attempt hears, after the file is published, that its session has ended.
def Unasked (u : Upload) (s : State) : Event → Prop
  | .hear reply => u.overwrite = true ∨ s.host.agent.published = [] ∨ s.stage.asks = false ∨ ended reply = false
  | _ => True

instance (u : Upload) (s : State) (event : Event) : Decidable (Unasked u s event) := by
  cases event <;> unfold Unasked <;> infer_instance

structure Single (s : State) : Prop where
  asked : ∀ mail ∈ s.host.flying, ∀ id, mail.request = .complete id → s.record.sessionId = some id ∨ s.host.agent.sessions id = none
  leased : ∀ id mail, s.host.agent.completing id = some mail → s.record.sessionId = some id
  placed : ∀ placement ∈ s.host.agent.published, s.record.sessionId = some placement.id
  spared : ∀ mail id, (mail,Reply.refused .conflict) ∈ s.host.answers → mail.request ≠ .complete id
  unhashed : s.record.sha256 = none → s.record.sessionId = none
  hashing : s.stage = .hashing → s.record.sha256 = none
  asking : ∀ id busy, s.stage = .asking id busy → s.record.sessionId = some id ∧ s.awaits.request = .status id
  opening : ∀ busy, s.stage = .opening busy →
    s.host.agent.published = [] ∧ ∀ id, s.record.sessionId = some id → s.host.agent.sessions id = none
  sending : ∀ session pending jobs, s.stage = .sending session pending jobs →
    s.record.sessionId = some session.id ∧ ∀ job ∈ jobs, ∃ id n data sum, job.awaits.request = .chunk id n data sum
  completing : ∀ session busy, s.stage = .completing session busy → s.record.sessionId = some session.id

theorem unjournalled (single : Single s) (empty : s.record.sessionId = none) : s.host.agent.published = [] := by
  cases published : s.host.agent.published with
  | nil => rfl
  | cons placement rest =>
    have stored := single.placed placement (by rw [published]; exact List.mem_cons_self ..)
    rw [empty] at stored
    cases stored

-- A completion that finds its name taken finds the file of this upload, and
-- then its own session was the one that published it.
theorem lease_unrefused {id : Nat} (joined : Joined u s) (single : Single s) (held : s.host.agent.completing id = some mail) :
    (endCompletion u.sha256 s.host.agent id).2 ≠ .refused .conflict := by
  intro refused
  obtain ⟨_,session,found,isOpen⟩ := joined.sound.agent.leased id mail held
  rcases endCompletion_cases u.sha256 s.host.agent id with ⟨code,ended,_,_,taken⟩ | ⟨_,_,_,⟨_,ended⟩ | ⟨_,ended⟩⟩
  · rw [ended] at refused
    cases refused
    obtain ⟨current,here,kept,exists_⟩ := taken rfl
    have some := joined.sound.agent.vacant id current here kept exists_
    obtain ⟨placement,rest,whole⟩ := List.exists_cons_of_ne_nil some
    have member : placement ∈ s.host.agent.published := by
      rw [whole]
      exact List.mem_cons_self ..
    have stored := single.placed placement member
    rw [single.leased id mail held] at stored
    cases stored
    have closed := joined.sound.agent.closed placement member session found
    rw [isOpen] at closed
    cases closed
  all_goals
    rw [ended] at refused
    cases refused

theorem single_act {host : Host} (joined : Joined u s) (single : Single s)
    (acted : s.host.act u.sha256 act = some host) : Single {s with host := host} := by
  have cases := act_cases acted
  have changed := acted_changed joined.sound cases
  have asked : ∀ mail ∈ host.flying, ∀ id, mail.request = .complete id →
      s.record.sessionId = some id ∨ host.agent.sessions id = none := by
    intro mail flies id asks
    have flown := (acted_flying cases flies).1
    rcases single.asked mail flown id asks with current | gone
    · exact .inl current
    · have low := (joined.sound.mails mail flown).2
      rw [asks] at low
      exact .inr (changed_gone changed low gone)
  have gone : ∀ id, s.record.sessionId = some id → s.host.agent.sessions id = none → host.agent.sessions id = none :=
    fun id stored before => changed_gone changed (joined.journal id stored) before
  cases cases with
  | turned flies passing =>
    refine ⟨asked,single.leased,single.placed,?_,single.unhashed,single.hashing,single.asking,single.opening,single.sending,single.completing⟩
    intro mail id member
    rcases List.mem_cons.mp member with same | old
    · cases same
      cases passing
    · exact single.spared mail id old
  | @answered taken reply flies given leases published =>
    refine ⟨asked,?_,?_,?_,single.unhashed,single.hashing,single.asking,?_,single.sending,single.completing⟩
    · intro id mail held
      exact single.leased id mail (by rw [← leases]; exact held)
    · intro placement member
      exact single.placed placement (by rw [← published]; exact member)
    · intro mail id member
      rcases List.mem_cons.mp member with same | old
      · cases same
        obtain ⟨_,_,_,_,asks⟩ := handle_conflict given
        rw [asks]
        nofun
      · exact single.spared mail id old
    · intro busy stage
      obtain ⟨empty,dead⟩ := single.opening busy stage
      exact ⟨published.trans empty,fun id stored => gone id stored (dead id stored)⟩
  | @begun taken id session flies asks found isOpen free =>
    refine ⟨asked,?_,single.placed,single.spared,single.unhashed,single.hashing,single.asking,single.opening,single.sending,single.completing⟩
    intro other mail held
    rcases update_cases held with ⟨rfl,_⟩ | ⟨_,old⟩
    · rcases single.asked taken flies other asks with current | dead
      · exact current
      · rw [found] at dead
        cases dead
    · exact single.leased other mail old
  | @finished mail id held =>
    have current := single.leased id mail held
    refine ⟨asked,?_,?_,?_,single.unhashed,single.hashing,single.asking,?_,single.sending,single.completing⟩
    · intro other call now
      rw [endCompletion_leases] at now
      rcases update_cases now with ⟨_,new⟩ | ⟨_,old⟩
      · cases new
      · exact single.leased other call old
    · intro placement member
      rcases finish_cases joined.sound.agent held with ⟨_,ended⟩ | ⟨_,_,ended⟩
      · rw [ended] at member
        exact single.placed placement member
      · rw [ended] at member
        rcases List.mem_cons.mp member with rfl | old
        · exact current
        · exact single.placed placement old
    · intro call other member
      rcases List.mem_cons.mp member with same | old
      · have refused := congrArg Prod.snd same
        exact absurd refused.symm (lease_unrefused joined single held)
      · exact single.spared call other old
    · intro busy stage
      have dead := (single.opening busy stage).2 id current
      obtain ⟨_,session,found,_⟩ := joined.sound.agent.leased id mail held
      rw [dead] at found
      cases found
  | forgotten free =>
    refine ⟨asked,single.leased,single.placed,single.spared,single.unhashed,single.hashing,single.asking,?_,single.sending,single.completing⟩
    intro busy stage
    obtain ⟨empty,dead⟩ := single.opening busy stage
    exact ⟨empty,fun id stored => gone id stored (dead id stored)⟩

section
variable (single : Single s)
include single

theorem single_posts (asked : ∀ id, request = .complete id → s.record.sessionId = some id) (hashing : stage ≠ .hashing)
    (asking : ∀ id busy, stage = .asking id busy → s.record.sessionId = some id ∧ request = .status id)
    (opening : ∀ busy, stage = .opening busy →
      s.host.agent.published = [] ∧ ∀ id, s.record.sessionId = some id → s.host.agent.sessions id = none)
    (sending : ∀ session pending jobs, stage ≠ .sending session pending jobs)
    (completing : ∀ session busy, stage = .completing session busy → s.record.sessionId = some session.id) :
    Single (s.posts stage request) := by
  refine ⟨?_,single.leased,single.placed,single.spared,single.unhashed,fun same => absurd same hashing,asking,opening,
    fun session pending jobs same => absurd same (sending session pending jobs),completing⟩
  intro mail flies id asks
  rcases List.mem_append.mp flies with old | new
  · exact single.asked mail old id asks
  · cases List.mem_singleton.mp new
    exact .inl (asked id asks)

theorem single_opens (empty : s.host.agent.published = [])
    (gone : ∀ id, s.record.sessionId = some id → s.host.agent.sessions id = none) : Single (s.opens u) :=
  single_posts single nofun nofun nofun (fun _ _ => ⟨empty,gone⟩) nofun nofun

theorem single_idle (session : record.sessionId = s.record.sessionId)
    (sum : record.sha256 = s.record.sha256) : Single {s with record := record,stage := .idle} := by
  obtain ⟨state,error,_,_⟩ := record
  cases session
  cases sum
  exact ⟨single.asked,single.leased,single.placed,single.spared,single.unhashed,nofun,nofun,nofun,nofun,nofun⟩

theorem single_fails (failure : Failure) : Single (s.fails failure) := single_idle single rfl rfl

theorem single_sends (current : s.record.sessionId = some session.id) : Single (s.sends session) := by
  refine ⟨single.asked,single.leased,single.placed,single.spared,single.unhashed,nofun,nofun,nofun,?_,nofun⟩
  intro other pending jobs same
  cases same
  exact ⟨current,nofun⟩

theorem single_resends (current : s.record.sessionId = some session.id) (others : ∀ other ∈ jobs, ∃ id n data sum, other.awaits.request = .chunk id n data sum) :
    Single (s.resends u session pending jobs job) := by
  refine ⟨?_,single.leased,single.placed,single.spared,single.unhashed,nofun,nofun,nofun,?_,nofun⟩
  · intro mail flies id asks
    rcases List.mem_append.mp flies with old | new
    · exact single.asked mail old id asks
    · cases List.mem_singleton.mp new
      cases asks
  · intro other left working same
    cases same
    refine ⟨current,?_⟩
    intro other member
    rcases List.mem_cons.mp member with rfl | old
    · exact ⟨_,_,_,_,rfl⟩
    · exact others other old

end

theorem hears_single (joined : Joined u s) (single : Single s) (choice : u.overwrite = false)
    (unasked : Unasked u s (.hear reply)) (heard : (s.awaits,reply) ∈ s.host.answers) : Single (s.hears u reply) := by
  have truth := (joined.sound.truthful _ _ heard).1
  unfold State.hears
  cases stage : s.stage with
  | idle | hashing | sending => exact single
  | asking id busy =>
    obtain ⟨current,asks⟩ := single.asking id busy stage
    rw [asks] at truth
    have early : ended reply = true → s.host.agent.published = [] := by
      intro atEnd
      rcases unasked with also | empty | away | runs
      · rw [choice] at also
        cases also
      · exact empty
      · rw [stage] at away
        cases away
      · rw [atEnd] at runs
        cases runs
    cases reply with
    | session other chunkSize totalChunks received status =>
      obtain ⟨rfl,unfailed,finished,_⟩ := truth
      dsimp only
      split
      · exact single_sends single current
      · rename_i closed
        have empty := early (by simpa [ended] using closed)
        cases status with
        | isOpen => exact absurd rfl closed
        | failed => exact absurd rfl unfailed
        | completed =>
          obtain ⟨placement,member,_⟩ := finished rfl
          rw [empty] at member
          cases member
    | refused code =>
      dsimp only
      split
      · rename_i missing
        refine single_opens single (early (by simpa [ended] using missing)) ?_
        intro other stored
        rw [current] at stored
        cases stored
        exact truth.2 missing
      · split
        · refine single_posts single nofun nofun ?_ nofun nofun nofun
          intro other again same
          cases same
          exact ⟨current,rfl⟩
        · exact single_fails single _
    | noContent | completed => exact False.elim truth
  | opening busy =>
    obtain ⟨empty,gone⟩ := single.opening busy stage
    cases reply with
    | session id chunkSize totalChunks received status =>
      have moved : Single {s with record := {s.record with sessionId := some id},stage := .idle} := by
        refine ⟨?_,?_,?_,single.spared,?_,nofun,nofun,nofun,nofun,nofun⟩
        · intro mail flies other asks
          rcases single.asked mail flies other asks with stored | dead
          · exact .inr (gone other stored)
          · exact .inr dead
        · intro other mail held
          obtain ⟨_,session,found,_⟩ := joined.sound.agent.leased other mail held
          rw [gone other (single.leased other mail held)] at found
          cases found
        · intro placement member
          rw [empty] at member
          cases member
        · intro unhashed
          have hashed := joined.opening busy stage
          rw [show s.record.sha256 = none from unhashed] at hashed
          cases hashed
      have sent : Single ({s with record := {s.record with sessionId := some id},stage := .idle}.sends ⟨id,chunkSize,totalChunks,received⟩) :=
        single_sends moved rfl
      exact sent
    | refused code =>
      dsimp only
      split
      · exact single_posts single nofun nofun nofun (fun _ _ => ⟨empty,gone⟩) nofun nofun
      · exact single_fails single _
    | noContent | completed => exact single_fails single _
  | completing session busy =>
    have current := single.completing session busy stage
    obtain ⟨asks,_⟩ := joined.completing session busy stage
    rw [asks] at truth
    cases reply with
    | completed => exact single_idle single rfl rfl
    | session | noContent => exact absurd truth id
    | refused code =>
      dsimp only
      split
      · refine single_posts single ?_ nofun nofun nofun nofun ?_
        · intro other same
          cases same
          exact current
        · intro other again same
          cases same
          exact current
      · split
        · exact absurd ‹_› truth.1
        · exact single_fails single _

theorem jobHears_single (single : Single s)
    (current : s.record.sessionId = some session.id) (others : ∀ other ∈ jobs, ∃ id n data sum, other.awaits.request = .chunk id n data sum) :
    Single (s.jobHears u session pending jobs job reply) := by
  unfold State.jobHears
  cases reply with
  | noContent =>
    refine ⟨single.asked,single.leased,single.placed,single.spared,single.unhashed,nofun,nofun,nofun,?_,nofun⟩
    intro other left working same
    cases same
    exact ⟨current,others⟩
  | refused code =>
    dsimp only
    split
    · exact single_resends single current others
    · split
      · exact single_resends single current others
      · exact single_fails single _
  | session | completed => exact single_fails single _

theorem start_single (single : Single s) (stepped : step u s .start = some next) : Single next := by
  obtain ⟨ready,stepped⟩ := Option.ite_none_right_eq_some.mp stepped
  have begun : Single {s with record := {s.record with state := .running,error := none},stage := .idle,attempt := s.attempt + 1} :=
    ⟨single.asked,single.leased,single.placed,single.spared,single.unhashed,nofun,nofun,nofun,nofun,nofun⟩
  split at stepped
  · rename_i unhashed
    cases stepped
    exact ⟨single.asked,single.leased,single.placed,single.spared,single.unhashed,fun _ => unhashed,nofun,nofun,nofun,nofun⟩
  · rename_i sum id hash stored
    cases stepped
    have posted : Single (({s with record := {s.record with state := .running,error := none},stage := .idle,attempt := s.attempt + 1} : State).posts
        (.asking id 0) (.status id)) := by
      refine single_posts begun nofun nofun ?_ nofun nofun nofun
      intro other busy same
      cases same
      exact ⟨stored,rfl⟩
    exact posted
  · rename_i sum hash stored
    cases stepped
    have opened : Single (({s with record := {s.record with state := .running,error := none},stage := .idle,attempt := s.attempt + 1} : State).opens u) := by
      refine single_opens begun (unjournalled begun stored) ?_
      intro id same
      rw [show s.record.sessionId = some id from same] at stored
      cases stored
    exact opened

theorem step_single (joined : Joined u s) (single : Single s) (choice : u.overwrite = false)
    (unasked : Unasked u s event) (stepped : step u s event = some next) : Single next := by
  cases event with
  | start => exact start_single single stepped
  | hashed =>
    obtain ⟨stage,⟨⟩⟩ := Option.ite_none_right_eq_some.mp stepped
    have empty := single.unhashed (single.hashing stage)
    have recorded : Single {s with record := {s.record with sha256 := some (u.sha256 u.source),sessionId := none},stage := .idle} := by
      refine ⟨?_,?_,?_,single.spared,fun _ => rfl,nofun,nofun,nofun,nofun,nofun⟩
      · intro mail flies id asks
        have before := single.asked mail flies id asks
        rw [empty] at before
        exact before
      · intro id mail held
        have before := single.leased id mail held
        rw [empty] at before
        exact before
      · intro placement member
        have before := single.placed placement member
        rw [empty] at before
        exact before
    have opened : Single
        (({s with record := {s.record with sha256 := some (u.sha256 u.source),sessionId := none},stage := .idle} : State).opens u) :=
      single_opens recorded (unjournalled recorded rfl) nofun
    exact opened
  | hear reply =>
    obtain ⟨allowed,⟨⟩⟩ := Option.ite_none_right_eq_some.mp stepped
    exact hears_single joined single choice unasked allowed
  | claim =>
    simp only [step] at stepped
    split at stepped
    · rename_i session n pending jobs stage
      obtain ⟨_,⟨⟩⟩ := Option.ite_none_right_eq_some.mp stepped
      obtain ⟨current,others⟩ := single.sending _ _ _ stage
      exact single_resends single current others
    · cases stepped
  | jobHears job reply =>
    simp only [step] at stepped
    split at stepped
    · rename_i session pending jobs stage
      obtain ⟨_,⟨⟩⟩ := Option.ite_none_right_eq_some.mp stepped
      obtain ⟨current,others⟩ := single.sending _ _ _ stage
      exact jobHears_single single current (fun other left => others other (List.mem_filter.mp left).1)
    · cases stepped
  | jobBreaks job =>
    simp only [step] at stepped
    split at stepped
    · rename_i session pending jobs stage
      obtain ⟨_,stepped⟩ := Option.ite_none_right_eq_some.mp stepped
      split at stepped
      · cases stepped
        obtain ⟨current,others⟩ := single.sending _ _ _ stage
        exact single_resends single current (fun other left => others other (List.mem_filter.mp left).1)
      · cases stepped
        exact single_fails single _
    · cases stepped
  | sentAll =>
    simp only [step] at stepped
    split at stepped
    · rename_i session stage
      cases stepped
      obtain ⟨current,_⟩ := single.sending _ _ _ stage
      refine single_posts single ?_ nofun nofun nofun nofun ?_
      · intro id same
        cases same
        exact current
      · intro other busy same
        cases same
        exact current
    · cases stepped
  | breaks =>
    obtain ⟨_,⟨⟩⟩ := Option.ite_none_left_eq_some.mp stepped
    exact single_fails single _
  | stops =>
    obtain ⟨_,⟨⟩⟩ := Option.ite_none_left_eq_some.mp stepped
    exact single_idle single rfl rfl
  | stray attempt =>
    cases stepped
    refine ⟨?_,single.leased,single.placed,single.spared,single.unhashed,single.hashing,single.asking,single.opening,single.sending,single.completing⟩
    intro mail flies id asks
    rcases List.mem_append.mp flies with old | new
    · exact single.asked mail old id asks
    · cases List.mem_singleton.mp new
      cases asks
  | agent act =>
    simp only [step] at stepped
    split at stepped
    · cases stepped
      exact single_act joined single ‹_›
    · cases stepped

theorem initial_single (entries : String → Option Entry) : Single (initial entries) where
  asked _ flies := by cases flies
  leased _ _ held := by cases held
  placed _ member := by cases member
  spared _ _ member := by cases member
  unhashed _ := rfl
  hashing stage := by cases stage
  asking _ _ stage := by cases stage
  opening _ stage := by cases stage
  sending _ _ _ stage := by cases stage
  completing _ _ stage := by cases stage

def Late (k : Nat) (s : State) : Prop :=
  s.host.agent.published ≠ [] ∧ (s.attempt = k ∨ s.record.error ≠ some (.rejected .conflict))

theorem late_fails {failure : Failure} (late : Late k s) (innocent : failure ≠ .rejected .conflict) : Late k (s.fails failure) :=
  ⟨late.1,.inr (fun same => innocent (Option.some.inj same))⟩

theorem hears_late {reply : Reply} (joined : Joined u s) (single : Single s) (late : Late k s)
    (heard : (s.awaits,reply) ∈ s.host.answers) : Late k (s.hears u reply) := by
  have truth := (joined.sound.truthful _ _ heard).1
  unfold State.hears
  cases stage : s.stage with
  | idle | hashing | sending => exact late
  | asking id busy =>
    rw [(single.asking id busy stage).2] at truth
    cases reply with
    | session other chunkSize totalChunks received status =>
      dsimp only
      split
      · exact late
      · exact late
    | refused code =>
      dsimp only
      split
      · exact late
      · split
        · exact late
        · refine late_fails late ?_
          intro same
          cases same
          exact truth.1 rfl
    | noContent | completed => exact late_fails late nofun
  | opening busy => exact absurd (single.opening busy stage).1 late.1
  | completing session busy =>
    have asks := (joined.completing session busy stage).1
    rw [asks] at truth
    cases reply with
    | completed => exact ⟨late.1,.inr nofun⟩
    | session | noContent => exact False.elim truth
    | refused code =>
      dsimp only
      split
      · exact late
      · split
        · exact absurd ‹_› truth.1
        · refine late_fails late ?_
          intro same
          cases same
          exact single.spared s.awaits session.id heard asks

theorem jobHears_late {session : Parsed} (joined : Joined u s)
    (late : Late k s) (chunk : ∃ id n data sum, job.awaits.request = .chunk id n data sum) (heard : (job.awaits,reply) ∈ s.host.answers) :
    Late k (s.jobHears u session pending jobs job reply) := by
  obtain ⟨id,n,data,sum,asks⟩ := chunk
  have truth := (joined.sound.truthful _ _ heard).1
  rw [asks] at truth
  unfold State.jobHears
  cases reply with
  | noContent => exact late
  | refused code =>
    dsimp only
    split
    · exact late
    · split
      · exact late
      · refine late_fails late ?_
        intro same
        cases same
        exact truth rfl
  | session | completed => exact late_fails late nofun

theorem step_late {event : Event} (joined : Joined u s) (single : Single s) (late : Late k s)
    (stepped : step u s event = some next) : Late k next := by
  cases event with
  | start =>
    obtain ⟨_,stepped⟩ := Option.ite_none_right_eq_some.mp stepped
    split at stepped <;> cases stepped <;> exact ⟨late.1,.inr nofun⟩
  | hashed =>
    obtain ⟨_,⟨⟩⟩ := Option.ite_none_right_eq_some.mp stepped
    exact late
  | hear reply =>
    obtain ⟨allowed,⟨⟩⟩ := Option.ite_none_right_eq_some.mp stepped
    exact hears_late joined single late allowed
  | claim =>
    simp only [step] at stepped
    split at stepped
    · obtain ⟨_,⟨⟩⟩ := Option.ite_none_right_eq_some.mp stepped
      exact late
    · cases stepped
  | jobHears job reply =>
    simp only [step] at stepped
    split at stepped
    · rename_i session pending jobs stage
      obtain ⟨allowed,⟨⟩⟩ := Option.ite_none_right_eq_some.mp stepped
      exact jobHears_late joined late ((single.sending _ _ _ stage).2 job allowed.1) allowed.2
    · cases stepped
  | jobBreaks job =>
    simp only [step] at stepped
    split at stepped
    · obtain ⟨_,stepped⟩ := Option.ite_none_right_eq_some.mp stepped
      split at stepped
      · cases stepped
        exact late
      · cases stepped
        exact late_fails late nofun
    · cases stepped
  | sentAll =>
    simp only [step] at stepped
    split at stepped
    · cases stepped
      exact late
    · cases stepped
  | breaks =>
    obtain ⟨_,⟨⟩⟩ := Option.ite_none_left_eq_some.mp stepped
    exact late_fails late nofun
  | stops =>
    obtain ⟨_,⟨⟩⟩ := Option.ite_none_left_eq_some.mp stepped
    exact late
  | stray attempt =>
    cases stepped
    exact late
  | agent act =>
    simp only [step] at stepped
    split at stepped
    · rename_i host acted
      cases stepped
      refine ⟨?_,late.2⟩
      intro gone
      obtain ⟨placement,rest,whole⟩ := List.exists_cons_of_ne_nil late.1
      have member := changed_published (acted_changed joined.sound (act_cases acted)) (by rw [whole]; exact List.mem_cons_self ..)
      rw [show host.agent.published = [] from gone] at member
      cases member
    · cases stepped

end Invariants

-- The phone's word for the outcome and the agent's: DONE means published, and an
-- attempt that begins after the file is published does not end on its name.
structure Agrees (u : Upload) (middle last : State) : Prop where
  done : last.record.state = .done → ∃ placement ∈ last.host.agent.published,
    placement.path = u.remotePath ∧ placement.bytes = u.source ∧ last.host.agent.entries u.remotePath = some (.file u.source)
  calm : middle.host.agent.published ≠ [] → middle.attempt < last.attempt →
    ¬ (last.record.state = .failed ∧ last.record.error = some (.rejected .conflict))

theorem phone_agrees (u : Upload) (entries : String → Option Entry) (past rest : List Event)
    (unasked : Every (step u) (Unasked u) (initial entries) (past ++ rest)) (before : run (step u) (initial entries) past = some middle)
    (after : run (step u) middle rest = some last) : Agrees u middle last := by
  have joins : ∀ s event next, Joined u s → step u s event = some next → Joined u next :=
    fun s event next joined stepped => step_joined joined stepped
  have joined : Joined u middle := run_preserves joins (initial_joined entries) before
  have ends : Joined u last := run_preserves joins joined after
  refine ⟨?_,?_⟩
  · intro done
    obtain ⟨placement,others,whole⟩ := List.exists_cons_of_ne_nil (ends.done done)
    have member : placement ∈ last.host.agent.published := by
      rw [whole]
      exact List.mem_cons_self ..
    have path := ends.aimed.published placement member
    refine ⟨placement,member,path,(ends.sound.agent.bytes placement member).1,?_⟩
    rw [← path]
    exact ends.sound.agent.filed placement member
  · intro published later failed
    cases choice : u.overwrite with
    | true =>
      have kept := ends.blame failed.2
      rw [choice] at kept
      cases kept
    | false =>
      have single : Joined u middle ∧ Single middle :=
        run_preserves_when (fun s => Joined u s ∧ Single s)
          (fun _ _ _ both meets stepped => ⟨step_joined both.1 stepped,step_single both.1 both.2 choice meets stepped⟩)
          ⟨initial_joined entries,initial_single entries⟩ (every_front unasked) before
      have late : Joined u last ∧ Single last ∧ Late middle.attempt last :=
        run_preserves_when (fun s => Joined u s ∧ Single s ∧ Late middle.attempt s)
          (fun _ _ _ all meets stepped =>
            ⟨step_joined all.1 stepped,step_single all.1 all.2.1 choice meets stepped,step_late all.1 all.2.1 all.2.2 stepped⟩)
          ⟨single.1,single.2,published,.inl rfl⟩ (every_back unasked before) after
      rcases late.2.2.2 with same | innocent
      · omega
      · exact innocent failed.2

def smallUpload (overwrite : Bool) : Upload := ⟨fun _ => "h",[7],"/d/f",overwrite,1⟩

def firstAttempt (overwrite : Bool) : List Event :=
  [.start,.hashed,.agent (.take ⟨0,1,.openSession "/d/f" 1 "h" 1 overwrite⟩ none),.hear (.session 0 1 1 [] .isOpen),
    .claim,.jobBreaks ⟨0,⟨1,1,.chunk 0 0 [7] "h"⟩,0,0⟩,.agent (.take ⟨2,1,.chunk 0 0 [7] "h"⟩ none),
    .jobHears ⟨0,⟨2,1,.chunk 0 0 [7] "h"⟩,1,0⟩ .noContent,.sentAll,.agent (.take ⟨3,1,.complete 0⟩ none),.agent (.finish 0)]

def emptyHost : String → Option Entry := fun _ => none

def sentAgain : List Event :=
  [.breaks,.start,.agent (.take ⟨4,2,.status 0⟩ none),.hear (.session 0 1 1 [0] .completed),
    .agent (.take ⟨5,2,.openSession "/d/f" 1 "h" 1 true⟩ none),.hear (.session 1 1 1 [] .isOpen),.claim,
    .agent (.take ⟨6,2,.chunk 1 0 [7] "h"⟩ none),.jobHears ⟨0,⟨6,2,.chunk 1 0 [7] "h"⟩,0,0⟩ .noContent,.sentAll,
    .agent (.take ⟨7,2,.complete 1⟩ none),.agent (.finish 1),.hear .completed]

theorem phone_agrees_resent : ∃ middle last, run (step (smallUpload true)) (initial emptyHost) (firstAttempt true) = some middle ∧
    run (step (smallUpload true)) middle sentAgain = some last ∧ middle.host.agent.published ≠ [] ∧ middle.attempt < last.attempt ∧
    last.record.state = .done ∧ Agrees (smallUpload true) middle last := by
  have unasked : Every (step (smallUpload true)) (Unasked (smallUpload true)) (initial emptyHost) (firstAttempt true ++ sentAgain) := by
    decide
  have ends : ∃ middle last, run (step (smallUpload true)) (initial emptyHost) (firstAttempt true) = some middle ∧
      run (step (smallUpload true)) middle sentAgain = some last ∧ middle.host.agent.published ≠ [] ∧ middle.attempt < last.attempt ∧
      last.record.state = .done := ⟨_,_,rfl,rfl,nofun,by decide,rfl⟩
  obtain ⟨middle,last,before,after,published,later,done⟩ := ends
  exact ⟨middle,last,before,after,published,later,done,
    phone_agrees (smallUpload true) emptyHost (firstAttempt true) sentAgain unasked before after⟩

def reopened : List Event :=
  [.breaks,.start,.agent (.take ⟨4,2,.status 0⟩ none),.hear (.session 0 1 1 [0] .completed),
    .agent (.take ⟨5,2,.openSession "/d/f" 1 "h" 1 false⟩ none),.hear (.refused .conflict)]

theorem completed_session_conflicts : ¬ ∀ (u : Upload) (entries : String → Option Entry) (past rest : List Event) (middle last : State),
    run (step u) (initial entries) past = some middle → run (step u) middle rest = some last → Agrees u middle last := by
  intro always
  have ends : ∃ middle last, run (step (smallUpload false)) (initial emptyHost) (firstAttempt false) = some middle ∧
      run (step (smallUpload false)) middle reopened = some last ∧ middle.host.agent.published ≠ [] ∧ middle.attempt < last.attempt ∧
      last.record.state = .failed ∧ last.record.error = some (.rejected .conflict) := ⟨_,_,rfl,rfl,nofun,by decide,rfl,rfl⟩
  obtain ⟨middle,last,before,after,published,later,failed⟩ := ends
  exact (always (smallUpload false) emptyHost (firstAttempt false) reopened middle last before after).calm published later failed

end RemoteFileExplorer.PhoneUploads
