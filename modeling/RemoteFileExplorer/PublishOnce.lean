import RemoteFileExplorer.DesktopUploads

namespace RemoteFileExplorer.DesktopUploads
open Runs PathTexts Transfers UploadFiles UploadAgent UploadHosts
open DesktopTransfers (Resolution Policy)

def Stage.saved : Stage → Option Saved
  | .asking saved | .sending saved _ _ _ | .completing saved => some saved
  | _ => none

def Stage.bare : Stage → Bool
  | .hashing | .opening .. | .settling .. | .skipped => true
  | _ => false

def Stage.ends : Stage → Bool
  | .done | .retiring .. => true
  | .failed error => error == some .conflict
  | _ => false

section Invariants
variable {sha256 : Bytes → String} {source : Bytes} {s : State} {saved : Saved} {id : Nat}

def Stage.expects (sha256 : Bytes → String) (source : Bytes) : Stage → Option Request
  | .asking saved => some (.status saved.id)
  | .opening path how _ chunkSize => some (openRequest sha256 source path how chunkSize)
  | .sending saved _ n _ => some (chunkRequest sha256 source saved n)
  | .completing saved => some (.complete saved.id)
  | .retiring saved _ => some (.delete saved.id)
  | _ => none

-- What client and agent know of each other, whatever happens on the line. That
-- no removal is on its way is part of it: an upload that nobody disturbs never
-- retires a session.
structure Joined (sha256 : Bytes → String) (source : Bytes) (s : State) : Prop where
  sound : Sound sha256 source s.host
  known : ∀ saved, s.upload.session = some saved → Known s.host.agent saved.id saved.chunkSize saved.totalChunks
  held : ∀ saved, s.upload.stage.saved = some saved → s.upload.session = some saved
  empty : s.upload.stage.bare = true → s.upload.session = none
  asks : ∀ request, s.upload.stage.expects sha256 source = some request → s.upload.awaits.request = request
  inside : ∀ saved received n damaged, s.upload.stage = .sending saved received n damaged → n < saved.totalChunks
  attempts : ∀ mail ∈ s.host.flying, mail.attempt ≤ s.upload.attempt
  mine : ∀ mail ∈ s.host.flying, ∀ id, mail.request = .complete id → mail.attempt = s.upload.attempt →
    (s.upload.awaits = mail ∧ ∃ saved, s.upload.stage = .completing saved) ∨ s.upload.works = false
  spared : ∀ mail ∈ s.host.flying, ∀ id, mail.request ≠ .delete id

def saysOpen : Reply → Bool
  | .session _ _ _ _ .isOpen => true
  | _ => false

def State.toldOpen (s : State) : Prop := ∃ answer ∈ s.host.answers, answer.1 = s.upload.awaits ∧ saysOpen answer.2 = true

instance (s : State) : Decidable s.toldOpen := inferInstanceAs (Decidable (∃ answer ∈ s.host.answers, _ ∧ _))

-- While a completion is at work the attempt has ended, or waits for just this
-- completion, or has not been told that the session is open.
def State.bides (s : State) (mail : Mail) : Prop :=
  match s.upload.stage with
  | .waiting | .failed _ | .skipped => True
  | .asking _ => ¬ s.toldOpen
  | .completing _ => s.upload.awaits = mail
  | _ => False

structure Before (s : State) : Prop where
  nothing : s.host.agent.published = []
  theirs : ∀ mail ∈ s.host.flying, ∀ id, mail.request = .complete id →
    s.host.agent.sessions id = none ∨ ∃ saved, s.upload.session = some saved ∧ saved.id = id
  leases : ∀ id mail, s.host.agent.completing id = some mail →
    (∃ saved, s.upload.session = some saved ∧ saved.id = id) ∧ s.bides mail
  unfinished : s.upload.stage.ends = false

def State.learns (s : State) : Prop :=
  match s.upload.stage with
  | .waiting => True
  | .failed error => error ≠ some .conflict
  | .asking _ => ¬ s.toldOpen
  | .completing _ => (s.upload.awaits,Reply.completed) ∈ s.host.answers
  | _ => False

structure After (s : State) (placement : Placement) : Prop where
  one : s.host.agent.published = [placement]
  idle : ∀ id, s.host.agent.completing id = none
  theirs : ∀ mail ∈ s.host.flying, ∀ id, mail.request = .complete id → s.host.agent.sessions id = none ∨ id = placement.id
  held : s.upload.stage = .done ∨
    ((∃ saved, s.upload.session = some saved ∧ saved.id = placement.id) ∧ (s.host.agent.sessions placement.id).isSome ∧ s.learns)

def State.goesAhead (s : State) : Prop :=
  match s.upload.stage with
  | .sending .. | .completing _ => True
  | .asking _ => s.toldOpen
  | _ => False

instance (s : State) : Decidable s.goesAhead :=
  match stage : s.upload.stage with
  | .sending .. | .completing _ => .isTrue (by simp only [State.goesAhead,stage])
  | .asking _ => decidable_of_iff s.toldOpen (by simp only [State.goesAhead,stage])
  | .waiting | .failed _ | .skipped | .done | .hashing | .opening .. | .settling .. | .retiring .. =>
    .isFalse (by simp only [State.goesAhead,stage,not_false_eq_true])

def completes : Request → Bool
  | .complete _ => true
  | _ => false

-- The steps under which the upload publishes once: no completion of an earlier
-- attempt is begun while a later attempt goes ahead with the session as open,
-- and no completed session is forgotten that the upload still keeps.
def Orderly (s : State) : Event → Prop
  | .agent (.take mail none) => completes mail.request = true → mail.attempt = s.upload.attempt ∨ ¬ s.goesAhead
  | .agent (.forget id) =>
    ∀ saved ∈ s.upload.session, saved.id = id → ∀ session ∈ s.host.agent.sessions id, session.row.status = .isOpen
  | _ => True

instance (s : State) : (event : Event) → Decidable (Orderly s event)
  | .agent (.take mail none) => inferInstanceAs (Decidable (completes mail.request = true → _ ∨ _))
  | .agent (.forget id) => inferInstanceAs (Decidable (∀ saved ∈ s.upload.session, _ → ∀ session ∈ s.host.agent.sessions id, _))
  | .agent (.take _ (some _)) | .agent (.finish _) | .start | .hear _ | .silence | .pause | .hashed _ | .settle _ _ => .isTrue trivial

theorem chunk_right (faithful : ∀ session, a.sessions saved.id = some session → Faithful sha256 source session)
    (known : Known a saved.id saved.chunkSize saved.totalChunks)
    (inside : n < saved.totalChunks) : Right sha256 source a (chunkRequest sha256 source saved n) := by
  refine ⟨known.1,?_⟩
  intro session found
  obtain ⟨chunks,totals⟩ := known.2 session found
  have size := (faithful session found).size
  have offset : ((n : Int) * session.row.chunkSize).toNat = n * saved.chunkSize := by
    rw [chunks,← Int.natCast_mul]
    exact Int.toNat_natCast _
  have length : (expectedChunkLen session.row n).toNat = chunkLen source saved n := by
    have product : ((n * saved.chunkSize : Nat) : Int) = (n : Int) * session.row.chunkSize := by
      rw [chunks,Int.natCast_mul]
    unfold expectedChunkLen chunkLen
    dsimp only
    repeat' split
    all_goals omega
  unfold piece
  rw [offset,length]

theorem goOn_cases (saved : Saved) (received : List Nat) (n : Nat) :
    (∃ m, m < saved.totalChunks ∧
      goOn sha256 source saved received n = (.sending saved received m 0,chunkRequest sha256 source saved m)) ∨
    goOn sha256 source saved received n = (.completing saved,.complete saved.id) := by
  unfold goOn
  split
  · rename_i m found
    have member := List.mem_of_find?_eq_some found
    rw [List.mem_range'_1] at member
    exact .inl ⟨m,by omega,rfl⟩
  · exact .inr rfl

theorem joined_act (joined : Joined sha256 source s) (acted : s.host.act sha256 act = some host) :
    Joined sha256 source {s with host := host} := by
  have grows := changed_grows (acted_changed joined.sound (act_cases acted))
  have fewer : ∀ mail ∈ host.flying, mail ∈ s.host.flying := fun mail member => (acted_flying (act_cases acted) member).1
  refine ⟨act_sound joined.sound acted,?_,joined.held,joined.empty,joined.asks,joined.inside,?_,?_,?_⟩
  · intro saved kept
    exact known_grows grows (joined.known saved kept)
  · intro mail member
    exact joined.attempts mail (fewer mail member)
  · intro mail member
    exact joined.mine mail (fewer mail member)
  · intro mail member
    exact joined.spared mail (fewer mail member)

theorem toldOpen_answer (mail : Mail) (answers : host.answers = (mail,reply)::s.host.answers)
    (other : mail = s.upload.awaits → saysOpen reply = false)
    (untold : ¬ s.toldOpen) : ¬ State.toldOpen {s with host := host} := by
  rintro ⟨answer,member,awaited,heard⟩
  rw [answers] at member
  rcases List.mem_cons.mp member with same | old
  · subst same
    rw [other awaited] at heard
    cases heard
  · exact untold ⟨answer,old,awaited,heard⟩

theorem bides_answer (answers : host.answers = (mail,reply)::s.host.answers)
    (other : mail = s.upload.awaits → saysOpen reply = false)
    (bides : s.bides call) : State.bides {s with host := host} call := by
  unfold State.bides at bides ⊢
  split <;> simp_all only
  exact toldOpen_answer _ answers other bides

theorem learns_answer (answers : host.answers = (mail,reply)::s.host.answers)
    (other : mail = s.upload.awaits → saysOpen reply = false)
    (learns : s.learns) : State.learns {s with host := host} := by
  unfold State.learns at learns ⊢
  split <;> simp_all only [ne_eq,not_false_eq_true]
  · exact toldOpen_answer _ answers other learns
  · exact List.mem_cons_of_mem _ learns

theorem status_leased (honest : Honest sha256 source a) (held : a.completing id = some call)
    (asked : mail.request = .status id) (given : (a.handle sha256 mail).2 = some reply) : reply = .refused .transferActive := by
  obtain ⟨_,session,found,isOpen⟩ := honest.leased id call held
  simp only [Agent.handle,asked,statusHandler,found,isOpen,held,Option.isSome_some,and_self,if_true,Option.some.injEq] at given
  exact given.symm

theorem status_placed (placed : Placed a id) (honest : Honest sha256 source a)
    (asked : mail.request = .status id) (given : (a.handle sha256 mail).2 = some reply) :
    saysOpen reply = false := by
  obtain ⟨placement,member,rfl⟩ := placed
  simp only [Agent.handle,asked,Option.some.injEq] at given
  subst given
  unfold statusHandler
  split
  · rfl
  · rename_i session found
    rw [honest.closed placement member session found]
    rfl

theorem theirs_act {ours : Nat → Prop} (joined : Joined sha256 source s) (acted : s.host.act sha256 act = some host)
    (theirs : ∀ mail ∈ s.host.flying, ∀ id, mail.request = .complete id → s.host.agent.sessions id = none ∨ ours id) :
    ∀ mail ∈ host.flying, ∀ id, mail.request = .complete id → host.agent.sessions id = none ∨ ours id := by
  intro mail member id asked
  have flies := (acted_flying (act_cases acted) member).1
  rcases theirs mail flies id asked with gone | kept
  · have opened := (joined.sound.mails mail flies).2
    rw [asked] at opened
    exact .inl (changed_gone (acted_changed joined.sound (act_cases acted)) opened gone)
  · exact .inr kept

theorem before_begun (joined : Joined sha256 source s) (before : Before s)
    (orderly : Orderly s (.agent (.take mail none))) (flies : mail ∈ s.host.flying) (asked : mail.request = .complete id)
    (found : s.host.agent.sessions id = some session) :
    (∃ saved, s.upload.session = some saved ∧ saved.id = id) ∧ s.bides mail := by
  have kept : ∃ saved, s.upload.session = some saved ∧ saved.id = id := by
    rcases before.theirs mail flies id asked with gone | kept
    · rw [gone] at found
      cases found
    · exact kept
  refine ⟨kept,?_⟩
  have unfinished := before.unfinished
  have empty := joined.empty
  unfold State.bides
  rcases orderly (by rw [asked]; rfl) with current | late
  · rcases joined.mine mail flies id asked current with ⟨awaits,other,stage⟩ | ended
    · rw [stage]
      exact awaits
    · unfold Upload.works at ended
      cases stage : s.upload.stage <;> simp_all [Stage.ends]
  · unfold State.goesAhead at late
    cases stage : s.upload.stage <;> simp_all [Stage.ends,Stage.bare]

theorem before_finished (joined : Joined sha256 source s) (before : Before s) (held : s.host.agent.completing id = some mail) :
    let host := {s.host with
      agent := (endCompletion sha256 s.host.agent id).1
      answers := (mail,(endCompletion sha256 s.host.agent id).2)::s.host.answers}
    Before {s with host := host} ∨ ∃ placement, After {s with host := host} placement := by
  intro host
  obtain ⟨⟨saved,stored,mine⟩,bides⟩ := before.leases id mail held
  -- every lease is on the session the upload keeps, so this was the only one
  have alone : ∀ other call, s.host.agent.completing other = some call → other = id := by
    intro other call also
    obtain ⟨⟨again,same,named⟩,_⟩ := before.leases other call also
    rw [stored] at same
    cases same
    rw [← named,mine]
  have idle : ∀ other, (Function.update s.host.agent.completing id none) other = none := by
    intro other
    cases now : Function.update s.host.agent.completing id none other with
    | none => rfl
    | some call =>
      rcases update_cases now with ⟨_,new⟩ | ⟨different,old⟩
      · cases new
      · exact absurd (alone other call old) different
  have acted : s.host.act sha256 (.finish id) = some host := by
    simp only [Host.act,held]
    rfl
  rcases finish_cases joined.sound.agent held with ⟨code,ended⟩ | ⟨session,found,ended⟩
  · left
    refine ⟨?_,theirs_act joined acted before.theirs,?_,before.unfinished⟩
    · change (endCompletion sha256 s.host.agent id).1.published = []
      rw [ended]
      exact before.nothing
    · intro other call now
      rw [endCompletion_leases,idle other] at now
      cases now
  · right
    have published : host.agent.published = [⟨id,session.row.targetPath,session.temp⟩] := by
      change (endCompletion sha256 s.host.agent id).1.published = _
      rw [ended]
      change _::s.host.agent.published = _
      rw [before.nothing]
    refine ⟨⟨id,session.row.targetPath,session.temp⟩,published,?_,?_,.inr ⟨⟨saved,stored,mine⟩,?_,?_⟩⟩
    · intro other
      rw [endCompletion_leases]
      exact idle other
    · refine theirs_act joined acted ?_
      intro call flies other asks
      rcases before.theirs call flies other asks with gone | ⟨again,same,named⟩
      · exact .inl gone
      · rw [stored] at same
        cases same
        exact .inr (named.symm.trans mine)
    · change ((endCompletion sha256 s.host.agent id).1.sessions id).isSome
      rw [ended]
      exact (congrArg Option.isSome (put_self (s.host.agent.freed id) id _)).trans rfl
    · have untold : ∀ stage, s.upload.stage = .asking stage → ¬ s.toldOpen := by
        intro saved stage
        unfold State.bides at bides
        rw [stage] at bides
        exact bides
      unfold State.bides at bides
      have unfinished := before.unfinished
      unfold State.learns
      cases stage : s.upload.stage with
      | waiting => trivial
      | failed error =>
        rw [stage] at unfinished
        simpa [Stage.ends] using unfinished
      | asking saved =>
        refine toldOpen_answer mail rfl ?_ (untold saved stage)
        intro _
        rw [ended]
        rfl
      | completing saved =>
        rw [stage] at bides
        change (s.upload.awaits,Reply.completed) ∈ (mail,(endCompletion sha256 s.host.agent id).2)::s.host.answers
        rw [ended,bides]
        exact List.mem_cons_self ..
      | skipped =>
        have bare := joined.empty (by rw [stage]; rfl)
        rw [bare] at stored
        cases stored
      | done =>
        rw [stage] at unfinished
        cases unfinished
      | hashing | opening | settling | sending | retiring =>
        rw [stage] at bides
        exact bides

theorem before_act {host : Host} {act : Act} (joined : Joined sha256 source s) (before : Before s) (orderly : Orderly s (.agent act))
    (acted : s.host.act sha256 act = some host) : Before {s with host := host} ∨ ∃ placement, After {s with host := host} placement := by
  have theirs := theirs_act joined acted before.theirs
  cases act_cases acted with
  | @turned mail code flies passing =>
    refine .inl ⟨before.nothing,theirs,?_,before.unfinished⟩
    intro id call held
    obtain ⟨kept,bides⟩ := before.leases id call held
    exact ⟨kept,bides_answer rfl (fun _ => rfl) bides⟩
  | @answered mail reply flies given leases published =>
    refine .inl ⟨published.trans before.nothing,theirs,?_,before.unfinished⟩
    intro id call held
    rw [leases] at held
    obtain ⟨⟨saved,stored,mine⟩,bides⟩ := before.leases id call held
    refine ⟨⟨saved,stored,mine⟩,?_⟩
    by_cases awaited : mail = s.upload.awaits
    · -- the attempt asks about the session that is being completed
      unfold State.bides at bides ⊢
      cases stage : s.upload.stage with
      | asking again =>
        rw [stage] at bides
        have same := joined.held again (by rw [stage]; rfl)
        rw [stored] at same
        cases same
        have asked := joined.asks (.status saved.id) (by rw [stage]; rfl)
        rw [← awaited,mine] at asked
        refine toldOpen_answer mail rfl ?_ bides
        intro _
        rw [status_leased joined.sound.agent held asked given]
        rfl
      | waiting | failed | skipped => trivial
      | completing | hashing | opening | settling | sending | retiring | done =>
        rw [stage] at bides
        exact bides
    · exact bides_answer rfl (fun same => absurd same awaited) bides
  | @begun mail id session flies asked found isOpen free =>
    refine .inl ⟨before.nothing,theirs,?_,before.unfinished⟩
    intro other call held
    rcases update_cases held with ⟨rfl,new⟩ | ⟨_,old⟩
    · cases new
      have bound := before_begun joined before orderly flies asked found
      exact bound
    · exact before.leases other call old
  | @finished mail id held => exact before_finished joined before held
  | @forgotten id free =>
    exact .inl ⟨before.nothing,theirs,before.leases,before.unfinished⟩

theorem after_act {placement : Placement} (joined : Joined sha256 source s) (after : After s placement)
    (orderly : Orderly s (.agent act)) (acted : s.host.act sha256 act = some host) : After {s with host := host} placement := by
  have theirs := theirs_act joined acted after.theirs
  have member : placement ∈ s.host.agent.published := by
    rw [after.one]
    exact List.mem_singleton_self _
  cases act_cases acted with
  | @turned mail code flies passing =>
    refine ⟨after.one,after.idle,theirs,?_⟩
    rcases after.held with done | ⟨kept,there,learns⟩
    · exact .inl done
    · exact .inr ⟨kept,there,learns_answer rfl (fun _ => rfl) learns⟩
  | @answered mail reply flies given leases published =>
    refine ⟨published.trans after.one,fun id => (congrFun leases id).trans (after.idle id),theirs,?_⟩
    rcases after.held with done | ⟨⟨saved,stored,mine⟩,there,learns⟩
    · exact .inl done
    · refine .inr ⟨⟨saved,stored,mine⟩,handle_stays (joined.spared mail flies) there,?_⟩
      by_cases awaited : mail = s.upload.awaits
      · unfold State.learns at learns ⊢
        cases stage : s.upload.stage with
        | asking again =>
          rw [stage] at learns
          have same := joined.held again (by rw [stage]; rfl)
          rw [stored] at same
          cases same
          have asked := joined.asks (.status saved.id) (by rw [stage]; rfl)
          rw [← awaited,mine] at asked
          refine toldOpen_answer mail rfl ?_ learns
          intro _
          exact status_placed ⟨placement,member,rfl⟩ joined.sound.agent asked given
        | waiting => trivial
        | completing =>
          rw [stage] at learns
          exact List.mem_cons_of_mem _ learns
        | failed | skipped | hashing | opening | settling | sending | retiring | done =>
          rw [stage] at learns
          exact learns
      · exact learns_answer rfl (fun same => absurd same awaited) learns
  | @begun mail id session flies asked found isOpen free =>
    rcases after.theirs mail flies id asked with gone | rfl
    · rw [gone] at found
      cases found
    · have ended := joined.sound.agent.closed placement member session found
      rw [isOpen] at ended
      cases ended
  | @finished mail id held =>
    rw [after.idle id] at held
    cases held
  | @forgotten id free =>
    refine ⟨after.one,after.idle,theirs,?_⟩
    rcases after.held with done | ⟨⟨saved,stored,mine⟩,there,learns⟩
    · exact .inl done
    · refine .inr ⟨⟨saved,stored,mine⟩,?_,learns⟩
      have different : placement.id ≠ id := by
        rintro rfl
        obtain ⟨session,found⟩ := Option.isSome_iff_exists.mp there
        have stays := orderly saved stored mine session found
        have ended := joined.sound.agent.closed placement member session found
        rw [stays] at ended
        cases ended
      exact (congrArg Option.isSome (put_other different)).trans there

def State.clear (s : State) (attempt : Nat) : Prop :=
  ∀ mail ∈ s.host.flying, ∀ id, mail.request = .complete id → mail.attempt ≠ attempt

section
variable (joined : Joined sha256 source s)
include joined

theorem clear_working (works : s.upload.works = true)
    (other : ∀ saved, s.upload.stage ≠ .completing saved) : s.clear s.upload.attempt := by
  intro mail flies id asked mine
  rcases joined.mine mail flies id asked mine with ⟨_,saved,stage⟩ | rests
  · exact other saved stage
  · rw [works] at rests
    cases rests

theorem clear_later : s.clear (s.upload.attempt + 1) := by
  intro mail flies id asked mine
  have bound := joined.attempts mail flies
  omega

theorem unheard (attempt : Nat) (request : Request) (reply : Reply) :
    ((⟨s.host.sent,attempt,request⟩ : Mail),reply) ∉ s.host.answers := by
  intro member
  exact absurd (joined.sound.answered _ _ member).1 (Nat.lt_irrefl _)

theorem joined_moves (kept : ∀ saved, u.session = some saved → s.upload.session = some saved)
    (plain : u.stage.saved = none ∧ u.stage.expects sha256 source = none) (empty : u.stage.bare = true → u.session = none)
    (later : s.upload.attempt ≤ u.attempt) (rests : u.works = false ∨ s.clear u.attempt) :
    Joined sha256 source {s with upload := u} where
  sound := joined.sound
  known saved stored := joined.known saved (kept saved stored)
  held saved stage := by
    rw [plain.1] at stage
    cases stage
  empty := empty
  asks request stage := by
    rw [plain.2] at stage
    cases stage
  inside saved received n damaged stage := by
    have expects := plain.2
    rw [stage] at expects
    cases expects
  attempts mail flies := Nat.le_trans (joined.attempts mail flies) later
  mine mail flies id asked mine := by
    rcases rests with ended | clear
    · exact .inr ended
    · exact absurd mine (clear mail flies id asked)
  spared := joined.spared

theorem joined_sends (known : ∀ saved, u.session = some saved → Known s.host.agent saved.id saved.chunkSize saved.totalChunks)
    (held : ∀ saved, u.stage.saved = some saved → u.session = some saved) (empty : u.stage.bare = true → u.session = none)
    (expects : u.stage.expects sha256 source = some request)
    (inside : ∀ saved received n damaged, u.stage = .sending saved received n damaged → n < saved.totalChunks)
    (later : s.upload.attempt ≤ u.attempt) (clear : s.clear u.attempt) (stays : ∀ saved tries, u.stage ≠ .retiring saved tries) :
    Joined sha256 source (s.sends u (some request)) := by
  have asked : Right sha256 source s.host.agent request ∧ Opened s.host.agent request ∧ ∀ id, request ≠ .delete id := by
    cases stage : u.stage with
    | asking saved | completing saved =>
      rw [stage] at expects
      cases expects
      exact ⟨trivial,(known saved (held saved (by rw [stage]; rfl))).1,nofun⟩
    | opening =>
      rw [stage] at expects
      cases expects
      exact ⟨⟨rfl,rfl⟩,trivial,nofun⟩
    | sending saved received n damaged =>
      rw [stage] at expects
      cases expects
      have kept := known saved (held saved (by rw [stage]; rfl))
      exact ⟨chunk_right (joined.sound.agent.sessions _) kept (inside saved received n damaged stage),trivial,nofun⟩
    | retiring saved tries => exact absurd stage (stays saved tries)
    | waiting | failed | skipped | done | hashing | settling =>
      rw [stage] at expects
      cases expects
  have flown : ∀ mail ∈ (s.sends u (some request)).host.flying, mail ∈ s.host.flying ∨ mail = ⟨s.host.sent,u.attempt,request⟩ := by
    intro mail member
    rcases List.mem_append.mp member with old | new
    · exact .inl old
    · exact .inr (List.mem_singleton.mp new)
  refine ⟨sound_post joined.sound asked.1 asked.2.1 u.attempt,known,held,empty,?_,inside,?_,?_,?_⟩
  · intro other stage
    change u.stage.expects sha256 source = some other at stage
    rw [expects] at stage
    exact Option.some.inj stage
  · intro mail member
    rcases flown mail member with old | rfl
    · exact Nat.le_trans (joined.attempts mail old) later
    · exact Nat.le_refl _
  · intro mail member id completes mine
    rcases flown mail member with old | rfl
    · exact absurd mine (clear mail old id completes)
    · refine .inl ⟨rfl,?_⟩
      change ∃ saved, u.stage = .completing saved
      subst completes
      cases stage : u.stage with
      | completing saved => exact ⟨saved,rfl⟩
      | _ =>
        rw [stage] at expects
        cases expects
  · intro mail member
    rcases flown mail member with old | rfl
    · exact joined.spared mail old
    · exact asked.2.2

end

theorem before_moves (before : Before s) (kept : u.session = s.upload.session)
    (bides : ∀ mail, s.bides mail → State.bides {s with upload := u} mail) (unfinished : u.stage.ends = false) :
    Before {s with upload := u} where
  nothing := before.nothing
  theirs mail flies id asked := by
    rw [show ({s with upload := u} : State).upload.session = s.upload.session from kept]
    exact before.theirs mail flies id asked
  leases id mail held := by
    obtain ⟨ours,now⟩ := before.leases id mail held
    rw [show ({s with upload := u} : State).upload.session = s.upload.session from kept]
    exact ⟨ours,bides mail now⟩
  unfinished := unfinished

theorem before_sends (joined : Joined sha256 source s) (nothing : s.host.agent.published = [])
    (theirs : ∀ mail ∈ s.host.flying, ∀ id, mail.request = .complete id →
      s.host.agent.sessions id = none ∨ ∃ saved, u.session = some saved ∧ saved.id = id)
    (ours : ∀ id, request = .complete id → ∃ saved, u.session = some saved ∧ saved.id = id)
    (leases : ∀ id mail, s.host.agent.completing id = some mail →
      (∃ saved, u.session = some saved ∧ saved.id = id) ∧ ∃ saved, u.stage = .asking saved)
    (unfinished : u.stage.ends = false) : Before (s.sends u (some request)) := by
  refine ⟨nothing,?_,?_,unfinished⟩
  · intro mail member id asked
    rcases List.mem_append.mp member with old | new
    · exact theirs mail old id asked
    · cases List.mem_singleton.mp new
      exact .inr (ours id asked)
  · intro id mail held
    obtain ⟨kept,saved,stage⟩ := leases id mail held
    refine ⟨kept,?_⟩
    unfold State.bides
    rw [show (s.sends u (some request)).upload.stage = .asking saved from stage]
    rintro ⟨⟨mail,reply⟩,member,awaited,_⟩
    cases awaited
    exact unheard joined _ _ _ member

theorem before_bare (before : Before s) (empty : s.upload.session = none)
    (unfinished : u.stage.ends = false) : Before {s with upload := u} := by
  refine ⟨before.nothing,?_,?_,unfinished⟩
  · intro mail flies id asked
    rcases before.theirs mail flies id asked with gone | ⟨saved,stored,_⟩
    · exact .inl gone
    · rw [empty] at stored
      cases stored
  · intro id mail held
    obtain ⟨⟨saved,stored,_⟩,_⟩ := before.leases id mail held
    rw [empty] at stored
    cases stored

theorem before_drops (joined : Joined sha256 source s) (before : Before s) (kept : s.upload.session = some saved)
    (gone : s.host.agent.sessions saved.id = none) (unfinished : u.stage.ends = false) :
    Before {s with upload := u} := by
  refine ⟨before.nothing,?_,?_,unfinished⟩
  · intro mail flies id asked
    rcases before.theirs mail flies id asked with already | ⟨again,stored,rfl⟩
    · exact .inl already
    · rw [kept] at stored
      cases stored
      exact .inl gone
  · intro id mail held
    obtain ⟨⟨again,stored,rfl⟩,_⟩ := before.leases id mail held
    rw [kept] at stored
    cases stored
    obtain ⟨_,session,found,_⟩ := joined.sound.agent.leased saved.id mail held
    rw [gone] at found
    cases found

theorem after_done (after : After s placement) (done : u.stage = .done) :
    After {s with upload := u} placement := ⟨after.one,after.idle,after.theirs,.inl done⟩

def Kept (sha256 : Bytes → String) (source : Bytes) (s : State) : Prop :=
  Joined sha256 source s ∧ (Before s ∨ ∃ placement, After s placement)

theorem goes_on {u : Upload} (joined : Joined sha256 source s) (nothing : s.host.agent.published = [])
    (idle : ∀ id mail, s.host.agent.completing id ≠ some mail)
    (theirs : ∀ mail ∈ s.host.flying, ∀ id, mail.request = .complete id → s.host.agent.sessions id = none ∨ saved.id = id)
    (known : Known s.host.agent saved.id saved.chunkSize saved.totalChunks) (kept : u.session = some saved)
    (same : u.attempt = s.upload.attempt) (clear : s.clear s.upload.attempt) :
    Kept sha256 source (s.sends {u with stage := (goOn sha256 source saved received n).1} (some (goOn sha256 source saved received n).2)) := by
  have knows : ∀ again, u.session = some again → Known s.host.agent again.id again.chunkSize again.totalChunks := by
    intro again stored
    rw [kept] at stored
    cases stored
    exact known
  have later : s.upload.attempt ≤ u.attempt := Nat.le_of_eq same.symm
  have fresh : s.clear u.attempt := by
    rw [same]
    exact clear
  have ours : ∀ mail ∈ s.host.flying, ∀ id, mail.request = .complete id →
      s.host.agent.sessions id = none ∨ ∃ again, u.session = some again ∧ again.id = id := by
    intro mail flies id asked
    rcases theirs mail flies id asked with gone | mine
    · exact .inl gone
    · exact .inr ⟨saved,kept,mine⟩
  rcases goOn_cases saved received n with ⟨m,inside,next⟩ | next
  · rw [next]
    refine ⟨joined_sends joined knows ?_ nofun rfl ?_ later fresh nofun,.inl (before_sends joined nothing ours nofun ?_ rfl)⟩
    · intro again stage
      cases stage
      exact kept
    · intro again _ _ _ stage
      cases stage
      exact inside
    · intro id mail held
      exact absurd held (idle id mail)
  · rw [next]
    refine ⟨joined_sends joined knows ?_ nofun rfl nofun later fresh nofun,.inl (before_sends joined nothing ours ?_ ?_ rfl)⟩
    · intro again stage
      cases stage
      exact kept
    · intro id asked
      cases asked
      exact ⟨saved,kept,rfl⟩
    · intro id mail held
      exact absurd held (idle id mail)

theorem heard_truth (joined : Joined sha256 source s) (heard : (s.upload.awaits,reply) ∈ s.host.answers)
    (expects : s.upload.stage.expects sha256 source = some request) : Truthful s.host.agent request reply := by
  have truth := (joined.sound.truthful _ _ heard).1
  rw [joined.asks request expects] at truth
  exact truth

theorem not_placed (before : Before s) : ¬ Placed s.host.agent id := by
  rintro ⟨placement,member,_⟩
  rw [before.nothing] at member
  cases member

section
variable (kept : Kept sha256 source s)
include kept

theorem kept_ends (stage : u.stage = .waiting ∨ ∃ error, u.stage = .failed error ∧ error ≠ some .conflict)
    (session : u.session = s.upload.session) (attempt : u.attempt = s.upload.attempt) (unfinished : s.upload.stage ≠ .done) :
    Kept sha256 source {s with upload := u} := by
  have plain : u.works = false ∧ u.stage.saved = none ∧ u.stage.expects sha256 source = none ∧ u.stage.bare = false ∧ u.stage.ends = false := by
    unfold Upload.works
    rcases stage with same | ⟨error,same,calm⟩
    · rw [same]
      exact ⟨rfl,rfl,rfl,rfl,rfl⟩
    · rw [same]
      exact ⟨rfl,rfl,rfl,rfl,by simpa [Stage.ends] using calm⟩
  obtain ⟨joined,phase⟩ := kept
  refine ⟨joined_moves joined ?_ ⟨plain.2.1,plain.2.2.1⟩ ?_ (Nat.le_of_eq attempt.symm) (.inl plain.1),?_⟩
  · intro saved stored
    rw [← session]
    exact stored
  · intro bare
    rw [plain.2.2.2.1] at bare
    cases bare
  · rcases phase with before | ⟨placement,after⟩
    · refine .inl (before_moves before session ?_ plain.2.2.2.2)
      intro mail _
      unfold State.bides
      rcases stage with same | ⟨error,same,_⟩
      · rw [show ({s with upload := u} : State).upload.stage = .waiting from same]
        trivial
      · rw [show ({s with upload := u} : State).upload.stage = .failed error from same]
        trivial
    · refine .inr ⟨placement,after.one,after.idle,after.theirs,.inr ?_⟩
      rcases after.held with done | ⟨⟨saved,stored,mine⟩,there,_⟩
      · exact absurd done unfinished
      · refine ⟨⟨saved,session.trans stored,mine⟩,there,?_⟩
        unfold State.learns
        rcases stage with same | ⟨error,same,calm⟩
        · rw [show ({s with upload := u} : State).upload.stage = .waiting from same]
          trivial
        · rw [show ({s with upload := u} : State).upload.stage = .failed error from same]
          exact calm

theorem hear_asking (stage : s.upload.stage = .asking saved)
    (heard : (s.upload.awaits,reply) ∈ s.host.answers) :
    Kept sha256 source (s.sends (s.upload.hears sha256 source reply).1 (s.upload.hears sha256 source reply).2) := by
  obtain ⟨joined,phase⟩ := kept
  have stored := joined.held saved (by rw [stage]; rfl)
  have truth := heard_truth joined heard (by rw [stage]; rfl)
  have works : s.upload.works = true := by
    unfold Upload.works
    rw [stage]
  have clear := clear_working joined works (by rw [stage]; nofun)
  have busy : s.upload.stage ≠ .done := by
    rw [stage]
    nofun
  -- a session that is gone is dropped and the upload goes on or fails without it
  have drops : ∀ next : Stage, s.host.agent.sessions saved.id = none → next.saved = none → next.expects sha256 source = none →
      next.ends = false → Kept sha256 source {s with upload := {s.upload with stage := next,session := none}} := by
    intro next gone plain silent unfinished
    refine ⟨joined_moves joined nofun ⟨plain,silent⟩ (fun _ => rfl) (Nat.le_refl _) (.inr clear),.inl ?_⟩
    rcases phase with before | ⟨placement,after⟩
    · exact before_drops joined before stored gone unfinished
    · rcases after.held with done | ⟨⟨again,same,mine⟩,there,_⟩
      · exact absurd done busy
      · rw [stored] at same
        cases same
        rw [← mine,gone] at there
        cases there
  unfold Upload.hears
  rw [stage]
  cases reply with
  | session other chunkSize total received status =>
    obtain ⟨rfl,unfailed,placed,range⟩ := truth
    cases status with
    | isOpen =>
      have told : s.toldOpen := ⟨_,heard,rfl,rfl⟩
      dsimp only
      split
      · rename_i beyond
        refine drops (.failed none) ?_ rfl rfl rfl
        cases found : s.host.agent.sessions saved.id with
        | none => rfl
        | some session =>
          have one := ((joined.known saved stored).2 session found).2
          have two := ((joined.sound.known _ _ _ _ _ _ heard).2 session found).2
          obtain ⟨n,member,high⟩ := List.any_eq_true.mp beyond
          have low := range n member
          simp only [decide_eq_true_eq] at high
          omega
      · rcases phase with before | ⟨placement,after⟩
        · refine goes_on joined before.nothing ?_ ?_ (joined.known saved stored) stored rfl clear
          · intro id mail held
            have bides := (before.leases id mail held).2
            unfold State.bides at bides
            rw [stage] at bides
            exact bides told
          · intro mail flies id asked
            rcases before.theirs mail flies id asked with gone | ⟨again,same,mine⟩
            · exact .inl gone
            · rw [stored] at same
              cases same
              exact .inr mine
        · rcases after.held with done | ⟨_,_,learns⟩
          · exact absurd done busy
          · unfold State.learns at learns
            rw [stage] at learns
            exact absurd told learns
    | completed =>
      refine ⟨joined_moves joined nofun ⟨rfl,rfl⟩ nofun (Nat.le_refl _) (.inl rfl),?_⟩
      rcases phase with before | ⟨placement,after⟩
      · exact absurd (placed rfl) (not_placed before)
      · exact .inr ⟨placement,after_done after rfl⟩
    | failed => exact absurd rfl unfailed
  | refused code =>
    obtain ⟨calm,missing⟩ := truth
    by_cases gone : code = .notFound
    · subst gone
      exact drops .hashing (missing rfl) rfl rfl rfl
    · have fails : Kept sha256 source {s with upload := {s.upload with stage := .failed (some code)}} := by
        refine kept_ends ⟨joined,phase⟩ (.inr ⟨some code,rfl,?_⟩) rfl rfl busy
        simpa using calm
      cases code with
      | notFound => exact absurd rfl gone
      | _ => exact fails
  | noContent | completed => exact absurd truth id

theorem kept_before (stage : s.upload.stage.bare = true ∨ ∃ saved received n damaged, s.upload.stage = .sending saved received n damaged) : Before s := by
  rcases kept.2 with before | ⟨placement,after⟩
  · exact before
  · rcases after.held with done | ⟨⟨saved,stored,_⟩,_,learns⟩
    · rw [done] at stage
      rcases stage with bare | ⟨_,_,_,_,same⟩
      · cases bare
      · cases same
    · rcases stage with bare | ⟨_,_,_,_,same⟩
      · rw [kept.1.empty bare] at stored
        cases stored
      · unfold State.learns at learns
        rw [same] at learns
        exact learns.elim

theorem kept_bare (stage : s.upload.stage.bare = true) (clear : s.clear u.attempt)
    (later : s.upload.attempt ≤ u.attempt) (bare : u.session = none) (plain : u.stage.saved = none) (silent : u.stage.expects sha256 source = none)
    (unfinished : u.stage.ends = false) : Kept sha256 source {s with upload := u} := by
  have empty := kept.1.empty stage
  refine ⟨joined_moves kept.1 ?_ ⟨plain,silent⟩ (fun _ => bare) later (.inr clear),.inl (before_bare (kept_before kept (.inl stage)) empty unfinished)⟩
  intro saved stored
  rw [bare] at stored
  cases stored

theorem hear_opening (stage : s.upload.stage = .opening path how copy chunk)
    (heard : (s.upload.awaits,reply) ∈ s.host.answers) :
    Kept sha256 source (s.sends (s.upload.hears sha256 source reply).1 (s.upload.hears sha256 source reply).2) := by
  have bare : s.upload.stage.bare = true := by
    rw [stage]
    rfl
  have empty := kept.1.empty bare
  have before := kept_before kept (.inl bare)
  have works : s.upload.works = true := by
    unfold Upload.works
    rw [stage]
  have clear := clear_working kept.1 works (by rw [stage]; nofun)
  have moves : ∀ next : Stage, next.saved = none → next.expects sha256 source = none → next.ends = false →
      Kept sha256 source {s with upload := {s.upload with stage := next}} :=
    fun next plain silent unfinished => kept_bare kept bare clear (Nat.le_refl _) empty plain silent unfinished
  unfold Upload.hears
  rw [stage]
  cases reply with
  | session id chunkSize total received status =>
    dsimp only
    split
    · exact moves (.failed none) rfl rfl rfl
    · rename_i good
      have known := kept.1.sound.known _ _ _ _ _ _ heard
      simp only [badSession,Bool.or_eq_true,decide_eq_true_eq,bne_iff_ne,not_or,ne_eq,not_not] at good
      have chunks : ((chunkSize.toNat : Nat) : Int) = chunkSize := by omega
      have counts : ((total.toNat : Nat) : Int) = total := by omega
      have knows : Known s.host.agent id ((chunkSize.toNat : Nat) : Int) ((total.toNat : Nat) : Int) := by
        rw [chunks,counts]
        exact known
      refine goes_on (u := {s.upload with session := some ⟨id,chunkSize.toNat,total.toNat⟩}) kept.1 before.nothing ?_ ?_ knows rfl rfl clear
      · intro other mail held
        obtain ⟨⟨saved,stored,_⟩,_⟩ := before.leases other mail held
        rw [empty] at stored
        cases stored
      · intro mail flies other asked
        rcases before.theirs mail flies other asked with gone | ⟨saved,stored,_⟩
        · exact .inl gone
        · rw [empty] at stored
          cases stored
  | refused code =>
    cases code with
    | conflict => exact moves (.settling path copy chunk) rfl rfl rfl
    | _ => exact moves (.failed (some _)) rfl rfl rfl
  | noContent | completed => exact moves (.failed none) rfl rfl rfl

theorem hear_sending (stage : s.upload.stage = .sending saved received n damaged)
    (heard : (s.upload.awaits,reply) ∈ s.host.answers) :
    Kept sha256 source (s.sends (s.upload.hears sha256 source reply).1 (s.upload.hears sha256 source reply).2) := by
  have joined := kept.1
  have before := kept_before kept (.inr ⟨_,_,_,_,stage⟩)
  have stored := joined.held saved (by rw [stage]; rfl)
  have truth := heard_truth joined heard (by rw [stage]; rfl)
  have works : s.upload.works = true := by
    unfold Upload.works
    rw [stage]
  have clear := clear_working joined works (by rw [stage]; nofun)
  have busy : s.upload.stage ≠ .done := by
    rw [stage]
    nofun
  have idle : ∀ id mail, s.host.agent.completing id ≠ some mail := by
    intro id mail held
    have bides := (before.leases id mail held).2
    unfold State.bides at bides
    rw [stage] at bides
    exact bides
  unfold Upload.hears
  rw [stage]
  cases reply with
  | noContent =>
    refine goes_on joined before.nothing idle ?_ (joined.known saved stored) stored rfl clear
    intro mail flies id asked
    rcases before.theirs mail flies id asked with gone | ⟨again,same,mine⟩
    · exact .inl gone
    · rw [stored] at same
      cases same
      exact .inr mine
  | refused code =>
    dsimp only
    split
    · refine ⟨joined_sends joined joined.known ?_ nofun rfl ?_ (Nat.le_refl _) clear nofun,.inl ?_⟩
      · intro again same
        cases same
        exact stored
      · intro again _ _ _ same
        cases same
        exact joined.inside saved received n damaged stage
      · refine before_sends joined before.nothing before.theirs nofun ?_ rfl
        intro id mail held
        exact absurd held (idle id mail)
    · refine kept_ends kept (.inr ⟨some code,rfl,?_⟩) rfl rfl busy
      have calm : code ≠ .conflict := truth
      simpa using calm
  | session | completed => exact absurd truth id

theorem hear_completing (stage : s.upload.stage = .completing saved)
    (heard : (s.upload.awaits,reply) ∈ s.host.answers) :
    Kept sha256 source (s.sends (s.upload.hears sha256 source reply).1 (s.upload.hears sha256 source reply).2) := by
  obtain ⟨joined,phase⟩ := kept
  have truth := heard_truth joined heard (by rw [stage]; rfl)
  have busy : s.upload.stage ≠ .done := by
    rw [stage]
    nofun
  unfold Upload.hears
  rw [stage]
  rcases phase with before | ⟨placement,after⟩
  · cases reply with
    | refused code =>
      obtain ⟨mismatch,closed,taken⟩ := truth
      have calm : code ≠ .conflict := fun same => taken same before.nothing
      have isOpen : code ≠ .transferNotOpen := fun same => not_placed before (closed same)
      dsimp only
      rw [if_neg calm,if_neg (not_or.mpr ⟨mismatch,isOpen⟩)]
      refine kept_ends ⟨joined,.inl before⟩ (.inr ⟨some code,rfl,?_⟩) rfl rfl busy
      simpa using calm
    | completed => exact absurd truth (not_placed before)
    | session | noContent => exact absurd truth id
  · rcases after.held with done | ⟨_,_,learns⟩
    · exact absurd done busy
    · unfold State.learns at learns
      rw [stage] at learns
      cases joined.sound.once _ _ _ heard learns
      exact ⟨joined_moves joined nofun ⟨rfl,rfl⟩ nofun (Nat.le_refl _) (.inl rfl),.inr ⟨placement,after_done after rfl⟩⟩

theorem start_kept (stepped : step sha256 source remotePath s .start = some next) :
    Kept sha256 source next := by
  obtain ⟨joined,phase⟩ := kept
  obtain ⟨resting,stepped⟩ := Option.ite_none_left_eq_some.mp stepped
  rw [not_or] at resting
  obtain ⟨_,unfinished⟩ := resting
  have clear := clear_later joined
  split at stepped
  · rename_i saved stored
    cases stepped
    refine ⟨joined_sends joined joined.known ?_ nofun rfl nofun (Nat.le_succ _) clear nofun,?_⟩
    · intro again same
      cases same
      exact stored
    · rcases phase with before | ⟨placement,after⟩
      · refine .inl (before_sends joined before.nothing before.theirs nofun ?_ rfl)
        intro id mail held
        exact ⟨(before.leases id mail held).1,saved,rfl⟩
      · refine .inr ⟨placement,after.one,after.idle,?_,.inr ?_⟩
        · intro mail member id asked
          rcases List.mem_append.mp member with old | new
          · exact after.theirs mail old id asked
          · cases List.mem_singleton.mp new
            cases asked
        · rcases after.held with done | ⟨ours,there,_⟩
          · exact absurd done unfinished
          · refine ⟨ours,there,?_⟩
            rintro ⟨⟨mail,reply⟩,member,awaited,_⟩
            cases awaited
            exact unheard joined _ _ _ member
  · rename_i empty
    cases stepped
    refine ⟨joined_moves joined ?_ ⟨rfl,rfl⟩ (fun _ => empty) (Nat.le_succ _) (.inr clear),.inl ?_⟩
    · intro saved stored
      exact stored
    · rcases phase with before | ⟨placement,after⟩
      · exact before_bare before empty rfl
      · rcases after.held with done | ⟨⟨saved,stored,_⟩,_⟩
        · exact absurd done unfinished
        · cases empty.symm.trans stored

theorem hear_kept (listens : s.upload.listens = true)
    (heard : (s.upload.awaits,reply) ∈ s.host.answers) :
    Kept sha256 source (s.sends (s.upload.hears sha256 source reply).1 (s.upload.hears sha256 source reply).2) := by
  cases stage : s.upload.stage with
  | asking => exact hear_asking kept stage heard
  | opening => exact hear_opening kept stage heard
  | sending => exact hear_sending kept stage heard
  | completing => exact hear_completing kept stage heard
  | retiring saved tries =>
    rcases kept.2 with before | ⟨placement,after⟩
    · have unfinished := before.unfinished
      rw [stage] at unfinished
      cases unfinished
    · rcases after.held with done | ⟨_,_,learns⟩
      · rw [stage] at done
        cases done
      · unfold State.learns at learns
        rw [stage] at learns
        exact learns.elim
  | waiting | failed | skipped | done | hashing | settling =>
    unfold Upload.listens at listens
    rw [stage] at listens
    cases listens

theorem opens_kept (stage : s.upload.stage.bare = true) (works : s.upload.works = true) (now : u.stage = .opening path how copy chunkSize)
    (session : u.session = s.upload.session) (attempt : u.attempt = s.upload.attempt) :
    Kept sha256 source (s.sends u (some (openRequest sha256 source path how chunkSize))) := by
  have before := kept_before kept (.inl stage)
  have empty := kept.1.empty stage
  have clear := clear_working kept.1 works (by intro saved same; rw [same] at stage; cases stage)
  refine ⟨joined_sends kept.1 ?_ ?_ ?_ (by rw [now]; rfl) ?_ (Nat.le_of_eq attempt.symm) (by rw [attempt]; exact clear) ?_,.inl ?_⟩
  · intro saved stored
    rw [session] at stored
    exact kept.1.known saved stored
  · intro saved same
    rw [now] at same
    cases same
  · exact fun _ => session.trans empty
  · intro _ _ _ _ same
    rw [now] at same
    cases same
  · intro _ _ same
    rw [now] at same
    cases same
  · refine before_sends kept.1 before.nothing ?_ nofun ?_ (by rw [now]; rfl)
    · rw [session]
      exact before.theirs
    · intro id mail held
      obtain ⟨⟨saved,stored,_⟩,_⟩ := before.leases id mail held
      rw [empty] at stored
      cases stored

theorem step_kept (orderly : Orderly s event)
    (stepped : step sha256 source remotePath s event = some next) : Kept sha256 source next := by
  cases event with
  | start => exact start_kept kept stepped
  | hear reply =>
    obtain ⟨allowed,⟨⟩⟩ := Option.ite_none_right_eq_some.mp stepped
    exact hear_kept kept allowed.1 allowed.2
  | silence =>
    simp only [step] at stepped
    split at stepped
    · rename_i stage
      rcases kept.2 with before | ⟨placement,after⟩
      · have unfinished := before.unfinished
        rw [stage] at unfinished
        cases unfinished
      · rcases after.held with done | ⟨_,_,learns⟩
        · rw [stage] at done
          cases done
        · unfold State.learns at learns
          rw [stage] at learns
          exact learns.elim
    · obtain ⟨works,⟨⟩⟩ := Option.ite_none_right_eq_some.mp stepped
      refine kept_ends kept (.inr ⟨none,rfl,nofun⟩) rfl rfl ?_
      intro done
      unfold Upload.works at works
      rw [done] at works
      cases works
  | pause =>
    obtain ⟨works,⟨⟩⟩ := Option.ite_none_right_eq_some.mp stepped
    refine kept_ends kept (.inl rfl) rfl rfl ?_
    intro done
    unfold Upload.works at works
    rw [done] at works
    cases works
  | hashed chunkSize =>
    obtain ⟨stage,⟨⟩⟩ := Option.ite_none_right_eq_some.mp stepped
    have works : s.upload.works = true := by
      unfold Upload.works
      rw [stage]
    exact opens_kept kept (by rw [stage]; rfl) works rfl rfl rfl
  | settle policy how =>
    simp only [step] at stepped
    split at stepped
    · rename_i path copy chunkSize stage
      have bare : s.upload.stage.bare = true := by
        rw [stage]
        rfl
      have works : s.upload.works = true := by
        unfold Upload.works
        rw [stage]
      have clear := clear_working kept.1 works (by rw [stage]; nofun)
      have empty := kept.1.empty bare
      obtain ⟨_,stepped⟩ := Option.ite_none_right_eq_some.mp stepped
      split at stepped
      · cases stepped
        exact kept_bare kept bare clear (Nat.le_refl _) empty rfl rfl rfl
      · cases stepped
        exact opens_kept kept bare works rfl rfl rfl
      · split at stepped
        · cases stepped
          exact kept_bare kept bare clear (Nat.le_refl _) empty rfl rfl rfl
        · cases stepped
          exact opens_kept kept bare works rfl rfl rfl
    · cases stepped
  | agent act =>
    simp only [step] at stepped
    split at stepped
    · rename_i host acted
      cases stepped
      refine ⟨joined_act kept.1 acted,?_⟩
      rcases kept.2 with before | ⟨placement,after⟩
      · exact before_act kept.1 before orderly acted
      · exact .inr ⟨placement,after_act kept.1 after orderly acted⟩
    · cases stepped

end

theorem initial_kept (entries : String → Option Entry) : Kept sha256 source (initial entries) := by
  refine ⟨⟨sound_fresh entries,nofun,nofun,nofun,nofun,nofun,?_,?_,?_⟩,.inl ⟨rfl,?_,nofun,rfl⟩⟩
  all_goals
    intro mail member
    cases member

def Stage.opens : Stage → Bool
  | .hashing | .opening .. | .settling .. => true
  | _ => false

end Invariants

-- At most one file is published, a finished upload has published the source,
-- and once it has, no attempt opens a session or meets the file as a conflict.
structure Once (source : Bytes) (s : State) : Prop where
  most : s.host.agent.published.length ≤ 1
  done : s.upload.stage = .done → ∃ placement, s.host.agent.published = [placement] ∧
    s.host.agent.entries placement.path = some (.file source)
  calm : s.host.agent.published ≠ [] → s.upload.stage.opens = false ∧ s.upload.stage ≠ .failed (some .conflict)

theorem upload_published_once (sha256 : Bytes → String) (source : Bytes) (remotePath : Text) (entries : String → Option Entry) (events : List Event)
    (orderly : Every (step sha256 source remotePath) Orderly (initial entries) events)
    (ran : run (step sha256 source remotePath) (initial entries) events = some last) : Once source last := by
  have kept : Kept sha256 source last := run_preserves_when (Kept sha256 source)
    (fun _ _ _ kept allowed stepped => step_kept kept allowed stepped) (initial_kept entries) orderly ran
  rcases kept.2 with before | ⟨placement,after⟩
  · refine ⟨?_,?_,fun some => absurd before.nothing some⟩
    · rw [before.nothing]
      exact Nat.zero_le 1
    · intro done
      have unfinished := before.unfinished
      rw [done] at unfinished
      cases unfinished
  · have filed := kept.1.sound.agent.filed placement (by rw [after.one]; exact List.mem_singleton_self _)
    refine ⟨?_,fun _ => ⟨placement,after.one,filed⟩,fun _ => ?_⟩
    · rw [after.one]
      exact Nat.le_refl 1
    · rcases after.held with done | ⟨_,_,learns⟩
      · rw [done]
        exact ⟨rfl,nofun⟩
      · unfold State.learns at learns
        cases stage : last.upload.stage with
        | waiting | asking | completing => exact ⟨rfl,nofun⟩
        | failed error =>
          rw [stage] at learns
          exact ⟨rfl,fun same => learns (by cases same; rfl)⟩
        | skipped | done | hashing | opening | settling | sending | retiring =>
          rw [stage] at learns
          exact learns.elim

def oneByte : Bytes := [7]
def plainHash (_ : Bytes) : String := "h"
def besideF : Text := ['/','d','/','f']
def noEntries : String → Option Entry := fun _ => none

def sentWhole : List Event :=
  [.start,.hashed 1,.agent (.take ⟨0,1,.openSession "/d/f" 1 "h" 1 false⟩ none),.hear (.session 0 1 1 [] .isOpen),
    .agent (.take ⟨1,1,.chunk 0 0 [7] "h"⟩ none),.hear .noContent]

def lostAnswer : List Event :=
  sentWhole ++ [.agent (.take ⟨2,1,.complete 0⟩ none),.agent (.finish 0),.silence,.start,.agent (.take ⟨3,2,.status 0⟩ none),
    .hear (.session 0 1 1 [0] .completed)]

theorem lost_answer_once : ∃ last, run (step plainHash oneByte besideF) (initial noEntries) lostAnswer = some last ∧
    last.upload.stage = .done ∧ Once oneByte last := by
  have orderly : Every (step plainHash oneByte besideF) Orderly (initial noEntries) lostAnswer := by decide
  have ends : ∃ last, run (step plainHash oneByte besideF) (initial noEntries) lostAnswer = some last ∧ last.upload.stage = .done := ⟨_,rfl,rfl⟩
  obtain ⟨last,ran,done⟩ := ends
  exact ⟨last,ran,done,upload_published_once plainHash oneByte besideF noEntries lostAnswer orderly ran⟩

def lateCompletion : List Event :=
  sentWhole ++ [.pause,.start,.agent (.take ⟨3,2,.status 0⟩ none),.agent (.take ⟨2,1,.complete 0⟩ none),.agent (.finish 0),
    .hear (.session 0 1 1 [0] .isOpen),.agent (.take ⟨4,2,.complete 0⟩ none),.hear (.refused .transferNotOpen),
    .start,.hashed 1,.agent (.take ⟨5,3,.openSession "/d/f" 1 "h" 1 false⟩ none),.hear (.refused .conflict),
    .settle (.act .both) .both,.agent (.take ⟨6,3,.openSession "/d/f (1)" 1 "h" 1 false⟩ none),.hear (.session 1 1 1 [] .isOpen),
    .agent (.take ⟨7,3,.chunk 1 0 [7] "h"⟩ none),.hear .noContent,.agent (.take ⟨8,3,.complete 1⟩ none),.agent (.finish 1),.hear .completed]

theorem late_completion_publishes_twice : ¬ ∀ (sha256 : Bytes → String) (source : Bytes) (remotePath : Text) (entries : String → Option Entry)
    (events : List Event) (last : State), run (step sha256 source remotePath) (initial entries) events = some last → Once source last := by
  intro always
  have ends : ∃ last, run (step plainHash oneByte besideF) (initial noEntries) lateCompletion = some last ∧
      last.host.agent.published.length = 2 := ⟨_,rfl,rfl⟩
  obtain ⟨last,ran,twice⟩ := ends
  have most := (always plainHash oneByte besideF noEntries lateCompletion last ran).most
  omega

end RemoteFileExplorer.DesktopUploads
