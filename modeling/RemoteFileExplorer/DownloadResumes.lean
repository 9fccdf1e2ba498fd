import RemoteFileExplorer.Runs

namespace RemoteFileExplorer.DownloadResumes

abbrev Bytes := List UInt8

inductive TransferState where
  | queued
  | running
  | paused
  | done
  | failed
  | cancelled
  deriving DecidableEq, Repr

inductive Reason where
  | paused
  | cancelled
  deriving DecidableEq, Repr

def Reason.state : Reason → TransferState
  | .paused => .paused
  | .cancelled => .cancelled

theorem reason_open (reason : Reason) : reason.state ≠ .done := by
  cases reason <;> simp [Reason.state]

structure TransferRecord where
  state : TransferState
  received : Nat
  total : Int
  error : Option String
  publicUri : Option String
  validator : Option String

-- The file on the server in all the versions it may have while the transfer
-- lives. Each version has a validator of its own.
structure Remote (Version : Type) where
  content : Version → Bytes
  validator : Version → String
  own : Function.Injective validator

-- Where `run` stands between two effects. `changed` has a whole body in hand and
-- `resumed` the rest of one; `writing` holds what the body has yet to give, the
-- stated total, the bytes received and whether its file still has a name.
inductive Stage (Version : Type) where
  | idle
  | submitted
  | started
  | asked (offset : Nat)
  | changed (version : Version) (stated : Bool)
  | journaled (version : Version) (stated : Bool)
  | resumed (version : Version) (offset : Nat) (stated : Bool)
  | writing (rest : Bytes) (total : Option Nat) (received : Nat) (linked : Bool)
  | ended (total : Option Nat)
  | clearing
  | moving
  | renamed
  | copied (uri : String) (size : Nat)
  | finishing (uri : Option String) (size : Nat)

-- What survives the process: the journal entry, `<dest>.part`, the destination
-- and the copy in the shared folder.
structure Storage where
  journal : TransferRecord
  part : Option Bytes
  dest : Option Bytes
  shared : Option Bytes

structure Process (Version : Type) where
  record : TransferRecord
  stop : Option Reason
  stage : Stage Version

-- `dropping` says that `cancel` has stopped the transfer and has yet to drop the
-- partial file.
structure Phone (Version : Type) where
  storage : Storage
  process : Option (Process Version)
  dropping : Bool

variable {Version : Type}

def length (file : Option Bytes) : Nat := (file.getD []).length

-- The journal write is best effort: `saved` says whether it reached the disk.
def update (d : Storage) (p : Process Version) (record : TransferRecord) (saved : Bool) : Storage × Process Version :=
  ({d with journal := if saved then record else d.journal},{p with record := record})

inductive Answer (Version : Type) where
  | whole (version : Version) (stated : Bool)
  | rest (version : Version) (stated : Bool)
  | unsatisfiable

inductive Event (Version : Type) where
  | kills
  | restarts (saved : Bool)
  | resumes (saved : Bool)
  | pauses (saved : Bool)
  | cancels (saved : Bool)
  | drops
  | begins (saved : Bool)
  | measures
  | answers (answer : Answer Version)
  | journals (saved : Bool)
  | opens
  | reads (n : Nat)
  | reports (saved : Bool)
  | ends
  | checks
  | clears
  | renames
  | publishes (uri : Option String)
  | withdraws
  | finishes (saved : Bool)
  | fails (interrupted : Bool) (message : String) (saved : Bool)

def stops (d : Storage) (p : Process Version) (reason : Reason) (saved : Bool) : Storage × Process Version :=
  if p.record.state = .done then (d,p)
  else if p.record.state = .running then (d,{p with stop := some reason})
  else update d {p with stop := some reason} {p.record with state := reason.state} saved

def caught (d : Storage) (p : Process Version) (interrupted : Bool) (message : String) (saved : Bool) : Storage × Process Version :=
  match p.stop with
  | some reason => update d {p with stage := .idle} {p.record with state := reason.state} saved
  | none =>
    if interrupted then update d {p with stage := .idle} {p.record with state := .paused} saved
    else update d {p with stage := .idle} {p.record with state := .failed,error := some message} saved

-- The answer to `Range: bytes=offset-` with `If-Range`. The rest of a version is
-- sent only to a request that named that version.
def answered (remote : Remote Version) (d : Storage) (p : Process Version) (offset : Nat) : Answer Version → Option (Storage × Process Version)
  | .whole version stated => some (d,{p with stage := .changed version stated})
  | .rest version stated =>
    if 0 < offset ∧ p.record.validator = some (remote.validator version) ∧ offset ≤ (remote.content version).length then
      some (d,{p with stage := .resumed version offset stated})
    else none
  | .unsatisfiable =>
    if 0 < offset then some ({d with part := none},{p with stage := .submitted,stop := none}) else none

def live (remote : Remote Version) (d : Storage) (p : Process Version) : Event Version → Option (Storage × Process Version)
  | .resumes saved =>
    if p.record.state = .paused ∨ p.record.state = .failed then
      some (update d {p with stage := .submitted,stop := none} {p.record with state := .queued,error := none} saved)
    else some (d,p)
  | .pauses saved => some (stops d p .paused saved)
  | .begins saved =>
    match p.stage with
    | .submitted =>
      if p.stop.isSome then some (d,{p with stage := .idle})
      else some (update d {p with stage := .started} {p.record with state := .running,error := none} saved)
    | _ => none
  | .measures =>
    match p.stage with
    | .started =>
      if 0 < length d.part ∧ p.record.validator = none then some ({d with part := none},{p with stage := .asked 0})
      else some (d,{p with stage := .asked (length d.part)})
    | _ => none
  | .answers answer =>
    match p.stage with
    | .asked offset => answered remote d p offset answer
    | _ => none
  | .journals saved =>
    match p.stage with
    | .changed version stated =>
      some (update d {p with stage := .journaled version stated} {p.record with validator := some (remote.validator version)} saved)
    | _ => none
  | .opens =>
    match p.stage with
    | .journaled version stated =>
      let body := remote.content version
      some ({d with part := some []},{p with stage := .writing body (if stated then some body.length else none) 0 true})
    | .resumed version offset stated =>
      let body := (remote.content version).drop offset
      some ({d with part := some (d.part.getD [])},
        {p with stage := .writing body (if stated then some (offset+body.length) else none) offset true})
    | _ => none
  | .reads n =>
    match p.stage,p.stop with
    | .writing rest total received linked,none =>
      some (if linked then {d with part := d.part.map (· ++ rest.take n)} else d,
        {p with stage := .writing (rest.drop n) total (received+(rest.take n).length) linked})
    | _,_ => none
  | .reports saved =>
    match p.stage with
    | .writing _ total received _ =>
      some (update d p {p.record with received := received,total := (total.map Int.ofNat).getD (-1)} saved)
    | _ => none
  | .ends =>
    match p.stage,p.stop with
    | .writing rest total _ _,none =>
      -- a body without a stated length ends only where the framing says so
      if rest = [] ∨ total.isSome then some (d,{p with stage := .ended total}) else none
    | _,_ => none
  | .checks =>
    match p.stage,p.stop with
    | .ended total,none =>
      if total = none ∨ total = some (length d.part) then some (d,{p with stage := .clearing}) else none
    | _,_ => none
  | .clears =>
    match p.stage with
    | .clearing => some ({d with dest := none},{p with stage := .moving})
    | _ => none
  | .renames =>
    match p.stage,d.part with
    | .moving,some bytes => some ({d with part := none,dest := some bytes},{p with stage := .renamed})
    | _,_ => none
  | .publishes uri =>
    match p.stage,uri with
    | .renamed,some uri => some ({d with shared := d.dest},{p with stage := .copied uri (length d.dest)})
    | .renamed,none => some (d,{p with stage := .finishing none (length d.dest)})
    | _,_ => none
  | .withdraws =>
    match p.stage with
    | .copied uri size => some ({d with dest := none},{p with stage := .finishing (some uri) size})
    | _ => none
  | .finishes saved =>
    match p.stage with
    | .finishing uri size =>
      some (update d {p with stage := .idle}
        {p.record with state := .done,received := size,total := size,error := none,publicUri := uri} saved)
    | _ => none
  | .fails interrupted message saved =>
    match p.stage with
    | .idle | .submitted => none
    | _ => some (caught d p interrupted message saved)
  | _ => none

def unlinked : Stage Version → Stage Version
  | .writing rest total received _ => .writing rest total received false
  | stage => stage

-- Each command runs to its end before anything else happens, unless the process
-- is killed between its two effects.
def step (remote : Remote Version) (s : Phone Version) (event : Event Version) : Option (Phone Version) :=
  match s.process,event with
  | none,.restarts saved =>
    let record := s.storage.journal
    if record.state = .running ∨ record.state = .queued then
      let fixed := {record with state := .paused}
      some ⟨{s.storage with journal := if saved then fixed else record},some ⟨fixed,none,.idle⟩,false⟩
    else some ⟨s.storage,some ⟨record,none,.idle⟩,false⟩
  | none,_ => none
  | some _,.kills => some ⟨s.storage,none,false⟩
  | some p,.drops =>
    if s.dropping then some ⟨{s.storage with part := none},some {p with stage := unlinked p.stage},false⟩ else none
  | some p,.cancels saved =>
    if s.dropping then none
    else
      let (d,p) := stops s.storage p .cancelled saved
      some ⟨d,some p,true⟩
  | some p,event =>
    if s.dropping then none
    else
      match live remote s.storage p event with
      | none => none
      | some (d,p) => some ⟨d,some p,false⟩

def queued : TransferRecord := ⟨.queued,0,-1,none,none,none⟩

def enqueued (dest shared : Option Bytes) : Phone Version :=
  ⟨⟨queued,none,dest,shared⟩,some ⟨queued,none,.submitted⟩,false⟩

def Fits (remote : Remote Version) (validator : Option String) (part : Option Bytes) : Prop :=
  ∀ bytes, part = some bytes → bytes ≠ [] → ∃ version, validator = some (remote.validator version) ∧ bytes <+: remote.content version

def published (d : Storage) (record : TransferRecord) : Option Bytes :=
  if record.publicUri.isSome then d.shared else d.dest

def OneVersion (remote : Remote Version) (file : Option Bytes) : Prop := ∃ version, file = some (remote.content version)

-- What a stage of the attempt knows of the files. Once the attempt is told to
-- stop it writes nothing more, so little is asked of it then.
def StageOk (remote : Remote Version) (validator : Option String) (stop : Option Reason) (d : Storage) : Stage Version → Prop
  | .asked offset => stop = none → offset = length d.part
  | .journaled version _ => validator = some (remote.validator version)
  | .resumed version offset _ => validator = some (remote.validator version) ∧ 0 < offset ∧
      offset ≤ (remote.content version).length ∧ (stop = none → offset = length d.part)
  | .writing rest total _ linked =>
      (linked = false → d.part = none) ∧
      (linked = true → ∃ bytes, d.part = some bytes ∧ (stop = none → ∃ version, validator = some (remote.validator version) ∧
        bytes ++ rest = remote.content version ∧ ∀ n, total = some n → n = (remote.content version).length))
  | .ended total => ∀ bytes, d.part = some bytes → stop = none → ∃ version, bytes <+: remote.content version ∧
      (total = none → bytes = remote.content version) ∧ ∀ n, total = some n → n = (remote.content version).length
  | .clearing | .moving => ∀ bytes, d.part = some bytes → ∃ version, bytes = remote.content version
  | .renamed => OneVersion remote d.dest
  | .copied _ _ => OneVersion remote d.shared
  | .finishing uri _ => OneVersion remote (if uri.isSome then d.shared else d.dest)
  | _ => True

-- Between the journal write of another version's validator and the truncation
-- the partial file may be of the version before.
def Stage.window : Stage Version → Bool
  | .journaled _ _ => true
  | _ => false

structure Ready (remote : Remote Version) (d : Storage) (p : Process Version) : Prop where
  same : d.journal.validator = p.record.validator
  fits : p.stage.window = false → Fits remote p.record.validator d.part
  running : p.stage ≠ .idle → p.stage ≠ .submitted → p.record.state = .running
  stage : StageOk remote p.record.validator p.stop d p.stage
  finished : p.record.state = .done → p.stage = .idle ∧ OneVersion remote (published d p.record)
  journal : d.journal.state = .done → p.record.state = .done ∧ OneVersion remote (published d d.journal)

structure Stored (remote : Remote Version) (d : Storage) : Prop where
  fits : Fits remote d.journal.validator d.part
  journal : d.journal.state = .done → OneVersion remote (published d d.journal)

def Sound (remote : Remote Version) (s : Phone Version) : Prop :=
  match s.process with
  | none => Stored remote s.storage
  | some p => Ready remote s.storage p ∧ (s.dropping = true → p.record.state = .running → p.stop ≠ none)

variable {remote : Remote Version} {d : Storage} {p q : Process Version} {record : TransferRecord}

theorem update_ready (ok : Ready remote d p) (open_ : p.record.state ≠ .done) (saved : Bool) (state : record.state ≠ .done)
    (validator : record.validator = p.record.validator) (fits : q.stage.window = false → Fits remote p.record.validator d.part)
    (running : q.stage ≠ .idle → q.stage ≠ .submitted → record.state = .running)
    (stage : StageOk remote p.record.validator q.stop d q.stage) :
    Ready remote (update d q record saved).1 (update d q record saved).2 := by
  have shut : d.journal.state ≠ .done := by
    intro done
    exact open_ (ok.journal done).1
  have stageAfter : StageOk remote record.validator q.stop (update d q record saved).1 q.stage := by
    rw [validator]
    cases at_ : q.stage <;> rw [at_] at stage <;> exact stage
  refine ⟨?_,?_,running,stageAfter,fun done => absurd done state,?_⟩
  · cases saved with
    | true => rfl
    | false => exact ok.same.trans validator.symm
  · intro outside
    simpa only [update,validator] using fits outside
  · intro done
    cases saved with
    | true => exact absurd done state
    | false => exact absurd done shut

theorem attempt_ready (ok : Ready remote d p) (live : p.stage ≠ .idle) (journal : e.journal = d.journal)
    (same : q.record = p.record) (fits : q.stage.window = false → Fits remote p.record.validator e.part)
    (running : q.stage ≠ .idle → q.stage ≠ .submitted → p.record.state = .running)
    (stage : StageOk remote p.record.validator q.stop e q.stage) : Ready remote e q := by
  have open_ : p.record.state ≠ .done := by
    intro done
    exact live (ok.finished done).1
  refine ⟨?_,?_,?_,?_,?_,?_⟩
  · rw [journal,same]; exact ok.same
  · rw [same]; exact fits
  · rw [same]; exact running
  · rw [same]; exact stage
  · rw [same]; intro done; exact absurd done open_
  · rw [journal]; intro done; exact absurd (ok.journal done).1 open_

theorem at_stage (ok : Ready remote d p) (at_ : p.stage = stage) (active : stage ≠ .idle)
    (waits : stage ≠ .submitted) (outside : stage.window = false) :
    p.stage ≠ .idle ∧ p.record.state = .running ∧ Fits remote p.record.validator d.part ∧
      StageOk remote p.record.validator p.stop d stage := by
  cases at_
  exact ⟨active,ok.running active waits,ok.fits outside,ok.stage⟩

theorem stopped_stage (ok : StageOk remote validator stop d stage) :
    StageOk remote validator (some reason) d stage := by
  cases stage with
  | asked offset => exact nofun
  | resumed version offset stated => exact ⟨ok.1,ok.2.1,ok.2.2.1,nofun⟩
  | writing rest total received linked =>
    refine ⟨ok.1,?_⟩
    intro named
    obtain ⟨bytes,holds,_⟩ := ok.2 named
    exact ⟨bytes,holds,nofun⟩
  | ended total => exact nofun
  | _ => exact ok

theorem resting_stage (rests : stage = .idle ∨ stage = .submitted) :
    StageOk remote validator stop d stage := by
  rcases rests with rfl | rfl <;> exact trivial

theorem resting_window {stage : Stage Version} (rests : stage = .idle ∨ stage = .submitted) : stage.window = false := by
  rcases rests with rfl | rfl <;> rfl

theorem not_running (ok : Ready remote d p) (rests : p.record.state ≠ .running) : p.stage = .idle ∨ p.stage = .submitted := by
  by_cases idle : p.stage = .idle
  · exact .inl idle
  · by_cases submitted : p.stage = .submitted
    · exact .inr submitted
    · exact absurd (ok.running idle submitted) rests

theorem stops_ready (ok : Ready remote d p) (reason : Reason) (saved : Bool) :
    Ready remote (stops d p reason saved).1 (stops d p reason saved).2 := by
  unfold stops
  split
  · exact ok
  · rename_i open_
    split
    · exact ⟨ok.same,ok.fits,ok.running,stopped_stage ok.stage,ok.finished,ok.journal⟩
    · rename_i rests
      have resting := not_running ok rests
      refine update_ready ok open_ saved (reason_open reason) rfl ?_ ?_ (resting_stage resting)
      · intro _
        exact ok.fits (resting_window resting)
      · intro idle submitted
        rcases resting with at_ | at_
        · exact absurd at_ idle
        · exact absurd at_ submitted

theorem caught_ready (ok : Ready remote d p) (live : p.stage ≠ .idle) (waits : p.stage ≠ .submitted)
    (fits : Fits remote p.record.validator d.part) (interrupted : Bool) (message : String) (saved : Bool) :
    Ready remote (caught d p interrupted message saved).1 (caught d p interrupted message saved).2 := by
  have running := ok.running live waits
  have open_ : p.record.state ≠ .done := by
    rw [running]
    simp
  unfold caught
  split
  · rename_i reason told
    exact update_ready ok open_ saved (reason_open reason) rfl (fun _ => fits) (fun idle => absurd rfl idle) trivial
  · split
    all_goals exact update_ready ok open_ saved (by simp) rfl (fun _ => fits) (fun idle => absurd rfl idle) trivial

theorem fits_nothing : Fits remote validator none := by
  intro bytes present
  cases present

theorem fits_empty : Fits remote validator (some []) := by
  intro bytes present some_
  cases Option.some.inj present
  exact absurd rfl some_

theorem answered_ready (ok : Ready remote d p) (at_ : p.stage = .asked offset)
    (moved : answered remote d p offset answer = some (e,q)) : Ready remote e q := by
  obtain ⟨live,running,fits,stage⟩ := at_stage ok at_ (by simp) (by simp) rfl
  cases answer with
  | whole version stated =>
    cases Option.some.inj moved
    exact attempt_ready ok live rfl rfl (fun _ => fits) (fun _ _ => running) trivial
  | rest version stated =>
    obtain ⟨names,moved⟩ := Option.ite_none_right_eq_some.mp moved
    obtain ⟨positive,named,within⟩ := names
    cases Option.some.inj moved
    exact attempt_ready ok live rfl rfl (fun _ => fits) (fun _ _ => running) ⟨named,positive,within,stage⟩
  | unsatisfiable =>
    obtain ⟨_,⟨⟩⟩ := Option.ite_none_right_eq_some.mp moved
    exact attempt_ready ok live rfl rfl (fun _ => fits_nothing) (fun _ submitted => absurd rfl submitted) trivial

theorem rest_continues (fits : Fits remote validator part) (named : validator = some (remote.validator version))
    (positive : 0 < offset) (measured : offset = length part) :
    ∃ bytes, part = some bytes ∧ bytes ++ (remote.content version).drop offset = remote.content version := by
  cases part with
  | none => simp [length] at measured; omega
  | some bytes =>
    refine ⟨bytes,rfl,?_⟩
    have size : offset = bytes.length := measured
    have some_ : bytes ≠ [] := by
      intro empty
      rw [empty] at size
      simp at size
      omega
    obtain ⟨other,known,front⟩ := fits bytes rfl some_
    have same : other = version := remote.own (Option.some.inj (known.symm.trans named))
    cases same
    rw [size]
    exact List.prefix_iff_eq_append.mp front

section
variable (ok : Ready remote d p)
include ok

theorem opens_ready (moved : live remote d p .opens = some (e,q)) : Ready remote e q := by
  delta live at moved
  dsimp only at moved
  split at moved
  · rename_i version stated at_
    have active : p.stage ≠ .idle := by simp [at_]
    have running := ok.running active (by simp [at_])
    have named := ok.stage
    rw [at_] at named
    cases Option.some.inj moved
    refine attempt_ready ok active rfl rfl (fun _ => fits_empty) (fun _ _ => running) ⟨by simp,?_⟩
    intro _
    refine ⟨[],rfl,?_⟩
    intro _
    refine ⟨version,named,rfl,?_⟩
    intro n total
    cases stated with
    | true => exact (Option.some.inj total).symm
    | false => cases total
  · rename_i version offset stated at_
    obtain ⟨active,running,fits,stage⟩ := at_stage ok at_ (by simp) (by simp) rfl
    obtain ⟨named,positive,within,measured⟩ := stage
    cases Option.some.inj moved
    refine attempt_ready ok active rfl rfl ?_ (fun _ _ => running) ⟨by simp,?_⟩
    · intro _
      cases part : d.part with
      | none => exact fits_empty
      | some bytes => rw [part] at fits; exact fits
    · intro _
      refine ⟨d.part.getD [],rfl,?_⟩
      intro untold
      obtain ⟨bytes,part,whole⟩ := rest_continues fits named positive (measured untold)
      refine ⟨version,named,?_,?_⟩
      · rw [part]; exact whole
      · intro n total
        cases stated with
        | true =>
          have size : offset + ((remote.content version).drop offset).length = n := Option.some.inj total
          rw [List.length_drop] at size
          omega
        | false => cases total
  · cases moved

theorem reads_ready (moved : live remote d p (.reads n) = some (e,q)) : Ready remote e q := by
  delta live at moved
  dsimp only at moved
  split at moved
  · rename_i rest total received linked at_ untold
    obtain ⟨active,running,fits,stage⟩ := at_stage ok at_ (by simp) (by simp) rfl
    rw [untold] at stage
    obtain ⟨unnamed,named⟩ := stage
    cases Option.some.inj moved
    cases linked with
    | false => exact attempt_ready ok active rfl rfl (fun _ => fits) (fun _ _ => running) ⟨unnamed,by simp⟩
    | true =>
      obtain ⟨bytes,part,whole⟩ := named rfl
      obtain ⟨version,known,content,size⟩ := whole rfl
      have longer : (bytes ++ rest.take n) ++ rest.drop n = remote.content version := by
        rw [List.append_assoc,List.take_append_drop]
        exact content
      refine attempt_ready ok active rfl rfl ?_ (fun _ _ => running) ⟨by simp,?_⟩
      · intro _ now present _
        simp only [if_true,part,Option.map_some] at present
        cases Option.some.inj present
        exact ⟨version,known,⟨rest.drop n,longer⟩⟩
      · intro _
        refine ⟨bytes ++ rest.take n,by simp [part],?_⟩
        intro _
        exact ⟨version,known,longer,size⟩
  · cases moved

theorem ends_ready (moved : live remote d p .ends = some (e,q)) : Ready remote e q := by
  delta live at moved
  dsimp only at moved
  split at moved
  · rename_i rest total received linked at_ untold
    obtain ⟨active,running,fits,stage⟩ := at_stage ok at_ (by simp) (by simp) rfl
    rw [untold] at stage
    obtain ⟨unnamed,named⟩ := stage
    obtain ⟨atEnd,⟨⟩⟩ := Option.ite_none_right_eq_some.mp moved
    refine attempt_ready ok active rfl rfl (fun _ => fits) (fun _ _ => running) ?_
    intro bytes part _
    cases linked with
    | false => rw [unnamed rfl] at part; cases part
    | true =>
      obtain ⟨written,same,whole⟩ := named rfl
      cases Option.some.inj (part.symm.trans same)
      obtain ⟨version,_,content,size⟩ := whole rfl
      refine ⟨version,⟨rest,content⟩,?_,size⟩
      intro unstated
      rcases atEnd with empty | stated
      · rw [empty,List.append_nil] at content
        exact content
      · rw [unstated] at stated; cases stated
  · cases moved

theorem checks_ready (moved : live remote d p .checks = some (e,q)) : Ready remote e q := by
  delta live at moved
  dsimp only at moved
  split at moved
  · rename_i total at_ untold
    obtain ⟨active,running,fits,stage⟩ := at_stage ok at_ (by simp) (by simp) rfl
    rw [untold] at stage
    obtain ⟨agrees,⟨⟩⟩ := Option.ite_none_right_eq_some.mp moved
    refine attempt_ready ok active rfl rfl (fun _ => fits) (fun _ _ => running) ?_
    intro bytes part
    obtain ⟨version,front,whole,size⟩ := stage bytes part rfl
    refine ⟨version,?_⟩
    rcases agrees with unstated | stated
    · exact whole unstated
    · have full := size _ stated
      rw [part] at full
      exact front.eq_of_length full
  · cases moved

theorem publication_ready (which : event = .clears ∨ event = .renames ∨ (∃ uri, event = .publishes uri) ∨ event = .withdraws)
    (moved : live remote d p event = some (e,q)) : Ready remote e q := by
  rcases which with rfl | rfl | ⟨uri,rfl⟩ | rfl
  · delta live at moved
    dsimp only at moved
    split at moved
    · rename_i at_
      obtain ⟨active,running,fits,stage⟩ := at_stage ok at_ (by simp) (by simp) rfl
      cases Option.some.inj moved
      exact attempt_ready ok active rfl rfl (fun _ => fits) (fun _ _ => running) stage
    · cases moved
  · delta live at moved
    dsimp only at moved
    split at moved
    · rename_i bytes at_ part
      obtain ⟨active,running,_,stage⟩ := at_stage ok at_ (by simp) (by simp) rfl
      obtain ⟨version,content⟩ := stage bytes part
      cases Option.some.inj moved
      exact attempt_ready ok active rfl rfl (fun _ => fits_nothing) (fun _ _ => running) ⟨version,congrArg some content⟩
    · cases moved
  · delta live at moved
    dsimp only at moved
    split at moved
    · rename_i uri at_
      obtain ⟨active,running,fits,stage⟩ := at_stage ok at_ (by simp) (by simp) rfl
      cases Option.some.inj moved
      exact attempt_ready ok active rfl rfl (fun _ => fits) (fun _ _ => running) stage
    · rename_i at_
      obtain ⟨active,running,fits,stage⟩ := at_stage ok at_ (by simp) (by simp) rfl
      cases Option.some.inj moved
      exact attempt_ready ok active rfl rfl (fun _ => fits) (fun _ _ => running) stage
    · cases moved
  · delta live at moved
    dsimp only at moved
    split at moved
    · rename_i uri size at_
      obtain ⟨active,running,fits,stage⟩ := at_stage ok at_ (by simp) (by simp) rfl
      cases Option.some.inj moved
      exact attempt_ready ok active rfl rfl (fun _ => fits) (fun _ _ => running) stage
    · cases moved

theorem finishes_ready (moved : live remote d p (.finishes saved) = some (e,q)) : Ready remote e q := by
  delta live at moved
  dsimp only at moved
  split at moved
  · rename_i uri size at_
    obtain ⟨active,running,fits,stage⟩ := at_stage ok at_ (by simp) (by simp) rfl
    have shut : d.journal.state ≠ .done := by
      intro done
      have open_ := (ok.journal done).1
      rw [running] at open_
      cases open_
    cases Option.some.inj moved
    refine ⟨?_,fun _ => fits,fun idle => absurd rfl idle,trivial,fun _ => ⟨rfl,stage⟩,?_⟩
    · cases saved with
      | true => rfl
      | false => exact ok.same
    · intro done
      cases saved with
      | true => exact ⟨rfl,stage⟩
      | false => exact absurd done shut
  · cases moved

theorem journals_ready (moved : live remote d p (.journals true) = some (e,q)) : Ready remote e q := by
  delta live at moved
  dsimp only at moved
  split at moved
  · rename_i version stated at_
    obtain ⟨active,running,fits,stage⟩ := at_stage ok at_ (by simp) (by simp) rfl
    have open_ : p.record.state ≠ .done := by
      rw [running]
      simp
    cases Option.some.inj moved
    refine ⟨rfl,?_,fun _ _ => running,rfl,fun done => absurd done open_,fun done => absurd done open_⟩
    intro outside
    cases outside
  · cases moved

end

def Continues (remote : Remote Version) (d : Storage) (version : Version) : Bool :=
  match d.part with
  | none => true
  | some bytes => bytes.isPrefixOf (remote.content version)

theorem continues_fits (continues : Continues remote d version = true) :
    Fits remote (some (remote.validator version)) d.part := by
  intro bytes part _
  refine ⟨version,rfl,?_⟩
  rw [Continues,part] at continues
  exact List.isPrefixOf_iff_prefix.mp continues

-- A kill or an error between the journal write of a validator and the truncation
-- finds a partial file of that version, and no validator misses the journal.
def Undisturbed (remote : Remote Version) (s : Phone Version) (event : Event Version) : Bool :=
  match s.process with
  | none => true
  | some p =>
    match event,p.stage with
    | .kills,.journaled version _ => Continues remote s.storage version
    | .fails _ _ _,.journaled version _ => Continues remote s.storage version
    | .journals saved,_ => saved
    | _,_ => true

def Settled (remote : Remote Version) (s : Phone Version) (event : Event Version) : Bool :=
  match s.process with
  | none => true
  | some p =>
    match event,p.stage with
    | .journals saved,.changed version _ => saved && Continues remote s.storage version
    | .journals saved,_ => saved
    | _,_ => true

theorem fits_now (ok : Ready remote d p)
    (continues : ∀ version stated, p.stage = .journaled version stated → Continues remote d version = true) :
    Fits remote p.record.validator d.part := by
  cases at_ : p.stage with
  | journaled version stated =>
    have named := ok.stage
    rw [at_] at named
    rw [show p.record.validator = some (remote.validator version) from named]
    exact continues_fits (continues version stated at_)
  | _ => exact ok.fits (by rw [at_]; rfl)

theorem live_ready (ok : Ready remote d p) (undisturbed : Undisturbed remote ⟨d,some p,false⟩ event = true)
    (moved : live remote d p event = some (e,q)) : Ready remote e q := by
  cases event with
  | kills | restarts saved | drops | cancels saved => cases moved
  | resumes saved =>
    delta live at moved
    dsimp only at moved
    split at moved
    · rename_i rests
      have resting := not_running ok (by rcases rests with is | is <;> simp [is])
      have open_ : p.record.state ≠ .done := by rcases rests with is | is <;> simp [is]
      cases Option.some.inj moved
      exact update_ready ok open_ saved (by simp) rfl (fun _ => ok.fits (resting_window resting)) (fun _ waits => absurd rfl waits) trivial
    · cases Option.some.inj moved
      exact ok
  | pauses saved =>
    have same : stops d p .paused saved = (e,q) := Option.some.inj moved
    have ready := stops_ready ok .paused saved
    rw [same] at ready
    exact ready
  | begins saved =>
    delta live at moved
    dsimp only at moved
    split at moved
    · rename_i at_
      have active : p.stage ≠ .idle := by simp [at_]
      have open_ : p.record.state ≠ .done := by
        intro done
        exact active (ok.finished done).1
      have fits := ok.fits (by rw [at_]; rfl)
      split at moved <;> cases Option.some.inj moved
      · exact attempt_ready ok active rfl rfl (fun _ => fits) (fun idle => absurd rfl idle) trivial
      · exact update_ready ok open_ saved (by simp) rfl (fun _ => fits) (fun _ _ => rfl) trivial
    · cases moved
  | measures =>
    delta live at moved
    dsimp only at moved
    split at moved
    · rename_i at_
      obtain ⟨active,running,fits,_⟩ := at_stage ok at_ (by simp) (by simp) rfl
      split at moved <;> cases Option.some.inj moved
      · exact attempt_ready ok active rfl rfl (fun _ => fits_nothing) (fun _ _ => running) (fun _ => rfl)
      · exact attempt_ready ok active rfl rfl (fun _ => fits) (fun _ _ => running) (fun _ => rfl)
    · cases moved
  | answers answer =>
    delta live at moved
    dsimp only at moved
    split at moved
    · rename_i offset at_
      exact answered_ready ok at_ moved
    · cases moved
  | journals saved =>
    have kept : saved = true := by
      cases at_ : p.stage <;> simpa only [Undisturbed,at_] using undisturbed
    cases kept
    exact journals_ready ok moved
  | opens => exact opens_ready ok moved
  | reads n => exact reads_ready ok moved
  | reports saved =>
    delta live at moved
    dsimp only at moved
    split at moved
    · rename_i rest total received linked at_
      obtain ⟨active,running,fits,stage⟩ := at_stage ok at_ (by simp) (by simp) rfl
      have open_ : p.record.state ≠ .done := by
        rw [running]
        simp
      cases Option.some.inj moved
      exact update_ready ok open_ saved open_ rfl ok.fits (fun _ _ => running) ok.stage
    · cases moved
  | ends => exact ends_ready ok moved
  | checks => exact checks_ready ok moved
  | clears => exact publication_ready ok (.inl rfl) moved
  | renames => exact publication_ready ok (.inr (.inl rfl)) moved
  | publishes uri => exact publication_ready ok (.inr (.inr (.inl ⟨uri,rfl⟩))) moved
  | withdraws => exact publication_ready ok (.inr (.inr (.inr rfl))) moved
  | finishes saved => exact finishes_ready ok moved
  | fails interrupted message saved =>
    have fits := fits_now ok (by
      intro version stated at_
      simpa only [Undisturbed,at_] using undisturbed)
    delta live at moved
    dsimp only at moved
    split at moved
    · cases moved
    · cases moved
    · rename_i active waits
      have same : caught d p interrupted message saved = (e,q) := Option.some.inj moved
      have ready := caught_ready ok active waits fits interrupted message saved
      rw [same] at ready
      exact ready

theorem dropped_stage (ok : StageOk remote validator (some reason) d stage) :
    StageOk remote validator (some reason) {d with part := none} (unlinked stage) := by
  cases stage with
  | resumed version offset stated => exact ⟨ok.1,ok.2.1,ok.2.2.1,nofun⟩
  | writing rest total received linked => exact ⟨fun _ => rfl,nofun⟩
  | asked offset => exact nofun
  | ended total | clearing | moving => exact nofun
  | _ => exact ok

theorem dropped_ready (ok : Ready remote d p) (told : p.record.state = .running → p.stop ≠ none) :
    Ready remote {d with part := none} {p with stage := unlinked p.stage} := by
  have idle : unlinked p.stage ≠ .idle → p.stage ≠ .idle := by
    intro active at_
    rw [at_] at active
    exact active rfl
  have submitted : unlinked p.stage ≠ .submitted → p.stage ≠ .submitted := by
    intro waits at_
    rw [at_] at waits
    exact waits rfl
  refine ⟨ok.same,fun _ => fits_nothing,fun active waits => ok.running (idle active) (submitted waits),?_,?_,ok.journal⟩
  · by_cases running : p.record.state = .running
    · have stage := ok.stage
      cases stop : p.stop with
      | none => exact absurd stop (told running)
      | some reason =>
        rw [stop] at stage
        simpa only [stop] using dropped_stage stage
    · rcases not_running ok running with at_ | at_ <;> simp only [at_,unlinked] <;> exact trivial
  · intro done
    obtain ⟨at_,one⟩ := ok.finished done
    exact ⟨by simp only [at_,unlinked],one⟩

theorem stops_told (running : (stops d p reason saved).2.record.state = .running) : (stops d p reason saved).2.stop ≠ none := by
  unfold stops at running ⊢
  split at running
  · rename_i done
    rw [done] at running
    cases running
  · split at running
    · rename_i open_ active
      rw [if_neg open_,if_pos active]
      simp
    · cases reason <;> cases running

theorem restarts_sound (stored : Stored remote d) (saved : Bool)
    (moved : step remote ⟨d,none,dropping⟩ (.restarts saved) = some next) : Sound remote next := by
  simp only [step] at moved
  split at moved <;> cases Option.some.inj moved
  · rename_i active
    have open_ : d.journal.state ≠ .done := by rcases active with is | is <;> simp [is]
    refine ⟨⟨?_,fun _ => stored.fits,fun idle => absurd rfl idle,trivial,nofun,?_⟩,nofun⟩
    · cases saved <;> rfl
    · intro done
      cases saved with
      | true => cases done
      | false => exact absurd done open_
  · exact ⟨⟨rfl,fun _ => stored.fits,fun idle => absurd rfl idle,trivial,fun done => ⟨rfl,stored.journal done⟩,
      fun done => ⟨done,stored.journal done⟩⟩,nofun⟩

theorem step_sound (ok : Sound remote s) (undisturbed : Undisturbed remote s event = true)
    (moved : step remote s event = some next) : Sound remote next := by
  obtain ⟨d,process,dropping⟩ := s
  cases process with
  | none =>
    cases event with
    | restarts saved => exact restarts_sound ok saved moved
    | _ => cases moved
  | some p =>
    obtain ⟨ready,told⟩ : Ready remote d p ∧ (dropping = true → p.record.state = .running → p.stop ≠ none) := ok
    -- everything but a kill and a cancel is a step of the live process
    have lives : (if dropping = true then none else
        match live remote d p event with
        | none => none
        | some (d,p) => some (⟨d,some p,false⟩ : Phone Version)) = some next → Sound remote next := by
      intro moved
      obtain ⟨_,moved⟩ := Option.ite_none_left_eq_some.mp moved
      split at moved
      · cases moved
      · rename_i e q lived
        cases Option.some.inj moved
        exact ⟨live_ready ready undisturbed lived,nofun⟩
    cases event with
    | kills =>
      cases Option.some.inj moved
      have fits := fits_now ready (by
        intro version stated at_
        simpa only [Undisturbed,at_] using undisturbed)
      rw [← ready.same] at fits
      exact ⟨fits,fun done => (ready.journal done).2⟩
    | drops =>
      obtain ⟨pending,⟨⟩⟩ := Option.ite_none_right_eq_some.mp moved
      exact ⟨dropped_ready ready (told pending),nofun⟩
    | cancels saved =>
      obtain ⟨_,⟨⟩⟩ := Option.ite_none_left_eq_some.mp moved
      exact ⟨stops_ready ready .cancelled saved,fun _ running => stops_told running⟩
    | _ => exact lives moved

def Meets (condition : Phone Version → Event Version → Bool) (s : Phone Version) (event : Event Version) : Prop :=
  condition s event = true

theorem enqueued_sound (dest shared : Option Bytes) : Sound remote (enqueued dest shared) :=
  ⟨⟨rfl,fun _ => fits_nothing,fun _ waits => absurd rfl waits,trivial,nofun,nofun⟩,
    fun never => nomatch never⟩

theorem run_sound (start : Sound remote s)
    (undisturbed : Runs.Every (step remote) (Meets (Undisturbed remote)) s events)
    (ran : Runs.run (step remote) s events = some last) : Sound remote last := by
  refine Runs.run_preserves_when (Sound remote) ?_ start undisturbed ran
  intro before event next ok meets moved
  exact step_sound ok meets moved

def Matches (remote : Remote Version) (s : Phone Version) : Prop :=
  Fits remote s.storage.journal.validator s.storage.part

def DoneWhole (remote : Remote Version) (s : Phone Version) : Prop :=
  (s.storage.journal.state = .done → OneVersion remote (published s.storage s.storage.journal)) ∧
  ∀ p, s.process = some p → p.record.state = .done → OneVersion remote (published s.storage p.record)

theorem sound_done (ok : Sound remote s) : DoneWhole remote s := by
  obtain ⟨d,process,dropping⟩ := s
  cases process with
  | none =>
    have stored : Stored remote d := ok
    exact ⟨stored.journal,fun p same => by cases same⟩
  | some p =>
    have ready : Ready remote d p := ok.1
    refine ⟨fun done => (ready.journal done).2,?_⟩
    intro q same done
    cases Option.some.inj same
    exact (ready.finished done).2

def Unbroken (remote : Remote Version) (s : Phone Version) : Prop :=
  ∀ p version stated, s.process = some p → p.stage = .journaled version stated → Continues remote s.storage version = true

theorem sound_matches (ok : Sound remote s) (unbroken : Unbroken remote s) : Matches remote s := by
  obtain ⟨d,process,dropping⟩ := s
  cases process with
  | none =>
    have stored : Stored remote d := ok
    exact stored.fits
  | some p =>
    have ready : Ready remote d p := ok.1
    have fits := fits_now ready (unbroken p · · rfl)
    rw [← ready.same] at fits
    exact fits

theorem stops_frame (d : Storage) (p : Process Version) (reason : Reason) (saved : Bool) :
    (stops d p reason saved).2.stage = p.stage ∧ (stops d p reason saved).1.part = d.part := by
  unfold stops
  split
  · exact ⟨rfl,rfl⟩
  · split <;> exact ⟨rfl,rfl⟩

theorem caught_stage (d : Storage) (p : Process Version) (interrupted : Bool) (message : String) (saved : Bool) :
    (caught d p interrupted message saved).2.stage = .idle := by
  unfold caught
  split
  · rfl
  · split <;> rfl

theorem live_window (moved : live remote d p event = some (e,q)) (at_ : q.stage = .journaled version stated) :
    e.part = d.part ∧ ((∃ saved, event = .journals saved ∧ p.stage = .changed version stated) ∨ p.stage = .journaled version stated) := by
  cases event with
  | resumes saved =>
    delta live at moved
    dsimp only at moved
    split at moved <;> cases Option.some.inj moved
    · cases at_
    · exact ⟨rfl,.inr at_⟩
  | pauses saved =>
    have same : stops d p .paused saved = (e,q) := Option.some.inj moved
    obtain ⟨stage,part⟩ := stops_frame d p .paused saved
    rw [same] at stage part
    exact ⟨part,.inr (stage.symm.trans at_)⟩
  | begins saved | measures =>
    delta live at moved
    dsimp only at moved
    split at moved
    · split at moved <;> (cases Option.some.inj moved; cases at_)
    · cases moved
  | answers answer =>
    delta live at moved
    dsimp only at moved
    split at moved
    · cases answer with
      | whole version stated => cases Option.some.inj moved; cases at_
      | rest version stated | unsatisfiable =>
        obtain ⟨_,moved⟩ := Option.ite_none_right_eq_some.mp moved
        cases Option.some.inj moved; cases at_
    · cases moved
  | journals saved =>
    delta live at moved
    dsimp only at moved
    split at moved
    · rename_i found
      cases Option.some.inj moved
      cases at_
      exact ⟨rfl,.inl ⟨saved,rfl,found⟩⟩
    · cases moved
  | opens | publishes uri =>
    delta live at moved
    dsimp only at moved
    split at moved
    · cases Option.some.inj moved; cases at_
    · cases Option.some.inj moved; cases at_
    · cases moved
  | reports saved =>
    delta live at moved
    dsimp only at moved
    split at moved
    · cases Option.some.inj moved
      exact ⟨rfl,.inr at_⟩
    · cases moved
  | ends | checks =>
    delta live at moved
    dsimp only at moved
    split at moved
    · split at moved
      · cases Option.some.inj moved; cases at_
      · cases moved
    · cases moved
  | fails interrupted message saved =>
    delta live at moved
    dsimp only at moved
    split at moved
    · cases moved
    · cases moved
    · have same : caught d p interrupted message saved = (e,q) := Option.some.inj moved
      have stage := caught_stage d p interrupted message saved
      rw [same,at_] at stage
      cases stage
  | kills | restarts saved | cancels saved | drops => cases moved
  -- reads, clears, renames, withdraws and finishes go on to another stage
  | _ =>
    delta live at moved
    dsimp only at moved
    split at moved
    · cases Option.some.inj moved; cases at_
    · cases moved

theorem step_unbroken (unbroken : Unbroken remote s) (settled : Settled remote s event = true)
    (moved : step remote s event = some next) : Unbroken remote next := by
  obtain ⟨d,process,dropping⟩ := s
  cases process with
  | none =>
    cases event with
    | restarts saved =>
      simp only [step] at moved
      intro p version stated same at_
      split at moved <;> (cases Option.some.inj moved; cases Option.some.inj same; cases at_)
    | _ => cases moved
  | some p =>
    have lives : (if dropping = true then none else
        match live remote d p event with
        | none => none
        | some (d,p) => some (⟨d,some p,false⟩ : Phone Version)) = some next → Unbroken remote next := by
      intro moved
      obtain ⟨_,moved⟩ := Option.ite_none_left_eq_some.mp moved
      split at moved
      · cases moved
      · rename_i e q lived
        cases Option.some.inj moved
        intro r version stated same at_
        cases Option.some.inj same
        obtain ⟨part,which⟩ := live_window lived at_
        have before : Continues remote d version = true := by
          rcases which with ⟨saved,rfl,changed⟩ | window
          · simp only [Settled,changed,Bool.and_eq_true] at settled
            exact settled.2
          · exact unbroken p version stated rfl window
        simpa only [Continues,part] using before
    cases event with
    | kills =>
      cases Option.some.inj moved
      intro q version stated same
      cases same
    | drops =>
      obtain ⟨_,⟨⟩⟩ := Option.ite_none_right_eq_some.mp moved
      intro q version stated _ _
      rfl
    | cancels saved =>
      simp only [step] at moved
      split at moved
      · cases moved
      · cases Option.some.inj moved
        intro q version stated same at_
        cases Option.some.inj same
        obtain ⟨stage,part⟩ := stops_frame d p .cancelled saved
        simpa only [Continues,part] using unbroken p version stated rfl (stage.symm.trans at_)
    | _ => exact lives moved

theorem settled_undisturbed (unbroken : Unbroken remote s) (settled : Settled remote s event = true) :
    Undisturbed remote s event = true := by
  cases process : s.process with
  | none => simp only [Undisturbed,process]
  | some p =>
    have window : ∀ version stated, p.stage = .journaled version stated → Continues remote s.storage version = true :=
      fun version stated at_ => unbroken p version stated process at_
    cases event with
    | kills | fails interrupted message saved =>
      simp only [Undisturbed,process]
      cases at_ : p.stage with
      | journaled version stated => exact window version stated at_
      | _ => rfl
    | journals saved =>
      simp only [Undisturbed,process]
      cases at_ : p.stage with
      | changed version stated =>
        simp only [Settled,process,at_,Bool.and_eq_true] at settled
        exact settled.1
      | _ => simpa only [Settled,process,at_] using settled
    | _ => simp only [Undisturbed,process]

theorem enqueued_unbroken (dest shared : Option Bytes) : Unbroken remote (enqueued dest shared) := by
  intro p version stated same at_
  cases Option.some.inj same
  cases at_

theorem run_unbroken (start : Unbroken remote s)
    (settled : Runs.Every (step remote) (Meets (Settled remote)) s events)
    (ran : Runs.run (step remote) s events = some last) : Unbroken remote last := by
  refine Runs.run_preserves_when (Unbroken remote) ?_ start settled ran
  intro before event next ok meets moved
  exact step_unbroken ok meets moved

theorem every_settled (start : Unbroken remote s)
    (settled : Runs.Every (step remote) (Meets (Settled remote)) s events) :
    Runs.Every (step remote) (Meets (Undisturbed remote)) s events := by
  refine Runs.every_weakens (Unbroken remote) ?_ ?_ start settled
  · intro before event next ok meets moved
    exact step_unbroken ok meets moved
  · intro before event ok meets
    exact settled_undisturbed ok meets

theorem resume_crash_safe (ran : Runs.run (step remote) (enqueued dest shared) events = some s) :
    (Runs.Every (step remote) (Meets (Settled remote)) (enqueued dest shared) events → Matches remote s ∧ DoneWhole remote s) ∧
    (Runs.Every (step remote) (Meets (Undisturbed remote)) (enqueued dest shared) events →
      (Unbroken remote s → Matches remote s) ∧ DoneWhole remote s) := by
  have undisturbed : Runs.Every (step remote) (Meets (Undisturbed remote)) (enqueued dest shared) events →
      (Unbroken remote s → Matches remote s) ∧ DoneWhole remote s := by
    intro every
    have sound := run_sound (enqueued_sound dest shared) every ran
    exact ⟨sound_matches sound,sound_done sound⟩
  refine ⟨?_,undisturbed⟩
  intro settled
  have start : Unbroken remote (enqueued dest shared) := enqueued_unbroken dest shared
  obtain ⟨matches_,done⟩ := undisturbed (every_settled start settled)
  exact ⟨matches_ (run_unbroken start settled ran),done⟩

def edited : Remote Bool where
  content after := if after then [2,2,2,2] else [1,1,1]
  validator after := if after then "second" else "first"
  own := by intro one two same; revert same; revert one two; decide

instance (condition : Phone Version → Event Version → Bool) (s : Phone Version) (event : Event Version) :
    Decidable (Meets condition s event) := inferInstanceAs (Decidable (condition s event = true))

def attempt (answer : Answer Bool) : List (Event Bool) := [.begins true,.measures,.answers answer]

def publication : List (Event Bool) := [.ends,.checks,.clears,.renames,.publishes none,.finishes true]

def continued : List (Event Bool) :=
  attempt (.whole false true) ++ [.journals true,.opens,.reads 2,.kills,.restarts true,.resumes true] ++
  attempt (.rest false true) ++ [.opens,.reads 1] ++ publication

theorem continued_download : ∃ s, Runs.run (step edited) (enqueued none none) continued = some s ∧
    s.storage.journal.state = .done ∧ Matches edited s ∧ DoneWhole edited s := by
  have settled : Runs.Every (step edited) (Meets (Settled edited)) (enqueued none none) continued := by decide
  have reached : ∃ s, Runs.run (step edited) (enqueued none none) continued = some s ∧ s.storage.journal.state = .done := ⟨_,rfl,rfl⟩
  obtain ⟨s,ran,done⟩ := reached
  exact ⟨s,ran,done,(resume_crash_safe ran).1 settled⟩

def cutOver : List (Event Bool) :=
  attempt (.whole false true) ++ [.journals true,.opens,.reads 2,.kills,.restarts true,.resumes true] ++
  attempt (.whole true true) ++ [.journals true,.kills]

def carriedOn : List (Event Bool) :=
  [.restarts true,.resumes true] ++ attempt (.rest true true) ++ [.opens,.reads 2] ++ publication

theorem mixed_versions_published :
    (∃ s, Runs.run (step edited) (enqueued none none) cutOver = some s ∧ ¬ Matches edited s) ∧
    ∃ s, Runs.run (step edited) (enqueued none none) (cutOver ++ carriedOn) = some s ∧
      s.storage.journal.state = .done ∧ s.storage.dest = some [1,1,2,2] ∧ ¬ DoneWhole edited s := by
  constructor
  · have reached : ∃ s, Runs.run (step edited) (enqueued none none) cutOver = some s ∧
        s.storage.journal.validator = some "second" ∧ s.storage.part = some [1,1] := ⟨_,rfl,rfl,rfl⟩
    obtain ⟨s,ran,validator,part⟩ := reached
    refine ⟨s,ran,?_⟩
    intro fits
    obtain ⟨version,named,front⟩ := fits [1,1] part (by simp)
    rw [validator] at named
    revert named front
    revert version
    decide
  · have reached : ∃ s, Runs.run (step edited) (enqueued none none) (cutOver ++ carriedOn) = some s ∧
        s.storage.journal.state = .done ∧ s.storage.journal.publicUri = none ∧ s.storage.dest = some [1,1,2,2] := ⟨_,rfl,rfl,rfl,rfl⟩
    obtain ⟨s,ran,done,private_,dest⟩ := reached
    refine ⟨s,ran,done,dest,?_⟩
    intro whole
    obtain ⟨version,content⟩ := whole.1 done
    simp only [published,private_,Option.isSome_none,Bool.false_eq_true,if_false,dest] at content
    revert content
    revert version
    decide

end RemoteFileExplorer.DownloadResumes
