import RemoteFileExplorer.Runs

namespace RemoteFileExplorer.AgentCerts

variable {Key Cert : Type}

structure Files (Key Cert : Type) where
  cert : Option Cert
  key : Option Key
  deriving DecidableEq

-- Where a call of LoadOrCreateCert stands. `generated` has dropped nothing yet,
-- `removed` has dropped the old certificate and `keyed` has written its key.
inductive Phase (Key Cert : Type) where
  | started
  | certSeen
  | creating
  | generated (key : Key) (cert : Cert)
  | removed (key : Key) (cert : Cert)
  | keyed (key : Key) (cert : Cert)
  | loading
  | certRead (cert : Cert)
  | returned (cert : Cert)
  | ended
  deriving DecidableEq

structure State (Key Cert : Type) where
  files : Files Key Cert
  runs : List (Phase Key Cert)
  deriving DecidableEq

-- `call` begins a run in a process of its own; `stop` is a crash or an operation
-- that fails. A stat that is not answered counts as a missing file.
inductive Event (Key Cert : Type) where
  | call
  | statCert (i : Nat) (answered : Bool)
  | statKey (i : Nat) (answered : Bool)
  | generate (i : Nat) (key : Key) (cert : Cert)
  | removeCert (i : Nat)
  | writeKey (i : Nat)
  | writeCert (i : Nat)
  | readCert (i : Nat)
  | readKey (i : Nat)
  | stop (i : Nat)

def initial (files : Files Key Cert) : State Key Cert := ⟨files,[]⟩

def State.goes (s : State Key Cert) (i : Nat) (phase : Phase Key Cert) : State Key Cert := {s with runs := s.runs.set i phase}

def State.stores (s : State Key Cert) (files : Files Key Cert) : State Key Cert := {s with files := files}

section System
-- Whether the certificate is made for the public half of the key.
variable (belongs : Cert → Key → Bool)

def step (s : State Key Cert) : Event Key Cert → Option (State Key Cert)
  | .call => some {s with runs := s.runs ++ [.started]}
  | .statCert i answered =>
    match s.runs[i]? with
    | some .started => some (s.goes i (if answered && s.files.cert.isSome then .certSeen else .creating))
    | _ => none
  | .statKey i answered =>
    match s.runs[i]? with
    | some .certSeen => some (s.goes i (if answered && s.files.key.isSome then .loading else .creating))
    | _ => none
  | .generate i key cert =>
    match s.runs[i]? with
    | some .creating => if belongs cert key then some (s.goes i (.generated key cert)) else none
    | _ => none
  | .removeCert i =>
    match s.runs[i]? with
    | some (.generated key cert) => some ((s.stores {s.files with cert := none}).goes i (.removed key cert))
    | _ => none
  | .writeKey i =>
    match s.runs[i]? with
    | some (.removed key cert) => some ((s.stores {s.files with key := some key}).goes i (.keyed key cert))
    | _ => none
  | .writeCert i =>
    match s.runs[i]? with
    | some (.keyed _ cert) => some ((s.stores {s.files with cert := some cert}).goes i .loading)
    | _ => none
  | .readCert i =>
    match s.runs[i]? with
    | some .loading => some (s.goes i (s.files.cert.elim .ended .certRead))
    | _ => none
  | .readKey i =>
    match s.runs[i]? with
    | some (.certRead cert) => some (s.goes i (if s.files.key.any (belongs cert) then .returned cert else .ended))
    | _ => none
  | .stop i =>
    match s.runs[i]? with
    | some (.returned _) => none
    | some _ => some (s.goes i .ended)
    | none => none

end System

def Phase.writing : Phase Key Cert → Bool
  | .removed _ _ => true
  | .keyed _ _ => true
  | _ => false

def Files.whole (files : Files Key Cert) : Bool := files.cert.isSome && files.key.isSome

-- A run drops a certificate that has no key, and no other run is writing then.
def Alone (s : State Key Cert) : Event Key Cert → Prop
  | .removeCert i => s.files.whole = false ∧ ∀ phase ∈ s.runs.eraseIdx i, phase.writing = false
  | _ => True

def Matched (belongs : Cert → Key → Bool) (files : Files Key Cert) : Prop :=
  ∀ cert key, files.cert = some cert → files.key = some key → belongs cert key = true

def Returned (s : State Key Cert) (cert : Cert) : Prop := .returned cert ∈ s.runs

def Knows (belongs : Cert → Key → Bool) (files : Files Key Cert) : Phase Key Cert → Prop
  | .generated key cert => belongs cert key = true
  | .removed key cert => belongs cert key = true ∧ files.cert = none
  | .keyed key cert => belongs cert key = true ∧ files.cert = none ∧ files.key = some key
  | .loading => files.key.isSome = true
  | .certRead cert => files.cert = some cert ∧ files.key.isSome = true
  | .returned cert => files.cert = some cert ∧ files.key.isSome = true
  | _ => True

structure Kept (belongs : Cert → Key → Bool) (s : State Key Cert) : Prop where
  matched : Matched belongs s.files
  knows : ∀ (i : Nat) phase, s.runs[i]? = some phase → Knows belongs s.files phase
  single : ∀ (i j : Nat) one other, s.runs[i]? = some one → s.runs[j]? = some other → one.writing = true → other.writing = true → i = j

section Steps
variable {belongs : Cert → Key → Bool} {s next : State Key Cert} {event : Event Key Cert} {i : Nat} {old new : Phase Key Cert} {files : Files Key Cert}

theorem kept_moves (kept : Kept belongs s) (stood : s.runs[i]? = some old) (matched : Matched belongs files) (knows : Knows belongs files new)
    (others : ∀ (j : Nat) phase, j ≠ i → s.runs[j]? = some phase → Knows belongs s.files phase → Knows belongs files phase)
    (alone : new.writing = true → ∀ (j : Nat) phase, j ≠ i → s.runs[j]? = some phase → phase.writing = false) :
    Kept belongs ((s.stores files).goes i new) := by
  have inside : i < s.runs.length := (List.getElem?_eq_some_iff.mp stood).1
  have here : (s.runs.set i new)[i]? = some new := List.getElem?_set_self inside
  have there : ∀ j, j ≠ i → (s.runs.set i new)[j]? = s.runs[j]? := fun j differs => List.getElem?_set_ne differs.symm
  refine ⟨matched,?_,?_⟩
  · intro j phase found
    change (s.runs.set i new)[j]? = some phase at found
    by_cases same : j = i
    · rw [same,here] at found
      cases found
      exact knows
    · rw [there j same] at found
      exact others j phase same found (kept.knows j phase found)
  · intro j k one other foundOne foundOther writesOne writesOther
    change (s.runs.set i new)[j]? = some one at foundOne
    change (s.runs.set i new)[k]? = some other at foundOther
    by_cases first : j = i
    · by_cases second : k = i
      · rw [first,second]
      · rw [first,here] at foundOne
        rw [there k second] at foundOther
        cases foundOne
        rw [alone writesOne k other second foundOther] at writesOther
        cases writesOther
    · by_cases second : k = i
      · rw [there j first] at foundOne
        rw [second,here] at foundOther
        cases foundOther
        rw [alone writesOther j one first foundOne] at writesOne
        cases writesOne
      · rw [there j first] at foundOne
        rw [there k second] at foundOther
        exact kept.single j k one other foundOne foundOther writesOne writesOther

theorem kept_goes (kept : Kept belongs s) (stood : s.runs[i]? = some old) (knows : Knows belongs s.files new) (idle : new.writing = false) :
    Kept belongs (s.goes i new) := by
  refine kept_moves kept stood kept.matched knows (fun _ _ _ _ known => known) ?_
  intro writes
  rw [idle] at writes
  cases writes

theorem knows_other (knows : Knows belongs s.files phase) (idle : phase.writing = false) (partly : s.files.whole = false)
    (key : s.files.key.isSome = true → files.key.isSome = true) : Knows belongs files phase := by
  have broken : ∀ cert, ¬ (s.files.cert = some cert ∧ s.files.key.isSome = true) := by
    rintro cert ⟨stored,keyed⟩
    rw [Files.whole,stored,keyed] at partly
    cases partly
  cases phase with
  | started | certSeen | creating | ended => trivial
  | generated key cert => exact knows
  | removed key cert | keyed key cert => cases idle
  | loading => exact key knows
  | certRead cert | returned cert => exact absurd knows (broken cert)

section
variable (kept : Kept belongs s)
include kept

theorem others_idle (stood : s.runs[i]? = some old) (writes : old.writing = true) :
    ∀ (j : Nat) phase, j ≠ i → s.runs[j]? = some phase → phase.writing = false := by
  intro j phase differs found
  cases writing : phase.writing with
  | false => rfl
  | true => exact absurd (kept.single j i phase old found stood writing writes) differs

theorem removeCert_kept (alone : Alone s (.removeCert i)) (stood : s.runs[i]? = some (.generated key cert)) :
    Kept belongs ((s.stores {s.files with cert := none}).goes i (.removed key cert)) := by
  have idle : ∀ (j : Nat) phase, j ≠ i → s.runs[j]? = some phase → phase.writing = false := by
    intro j phase differs found
    exact alone.2 phase (List.mem_eraseIdx_iff_getElem?.mpr ⟨j,differs,found⟩)
  refine kept_moves kept stood ?_ ⟨kept.knows i _ stood,rfl⟩ ?_ fun _ => idle
  · intro cert key missing
    cases missing
  · intro j phase differs found knows
    exact knows_other knows (idle j phase differs found) alone.1 id

theorem writeKey_kept (stood : s.runs[i]? = some (.removed key cert)) :
    Kept belongs ((s.stores {s.files with key := some key}).goes i (.keyed key cert)) := by
  obtain ⟨own,dropped⟩ := kept.knows i _ stood
  have idle := others_idle kept stood rfl
  refine kept_moves kept stood ?_ ⟨own,dropped,rfl⟩ ?_ fun _ => idle
  · intro cert key stored
    rw [dropped] at stored
    cases stored
  · intro j phase differs found knows
    exact knows_other knows (idle j phase differs found) (by rw [Files.whole,dropped]; rfl) fun _ => rfl

theorem writeCert_kept (stood : s.runs[i]? = some (.keyed key cert)) :
    Kept belongs ((s.stores {s.files with cert := some cert}).goes i .loading) := by
  obtain ⟨own,dropped,written⟩ := kept.knows i _ stood
  have idle := others_idle kept stood rfl
  have keyed : s.files.key.isSome = true := by rw [written]; rfl
  refine kept_moves kept stood ?_ keyed ?_ nofun
  · intro other secret stored key
    cases stored
    rw [written] at key
    cases key
    exact own
  · intro j phase differs found knows
    exact knows_other knows (idle j phase differs found) (by rw [Files.whole,dropped]; rfl) id

theorem kept_called : Kept belongs {s with runs := s.runs ++ [.started]} := by
  have old : ∀ (j : Nat) phase, (s.runs ++ [.started])[j]? = some phase → phase = .started ∨ s.runs[j]? = some phase := by
    intro j phase found
    rcases List.mem_append.mp (List.mem_of_getElem? found) with member | last
    · by_cases short : j < s.runs.length
      · rw [List.getElem?_append_left short] at found
        exact .inr found
      · rw [List.getElem?_append_right (Nat.le_of_not_lt short)] at found
        exact .inl (List.mem_singleton.mp (List.mem_of_getElem? found))
    · exact .inl (List.mem_singleton.mp last)
  refine ⟨kept.matched,?_,?_⟩
  · intro j phase found
    rcases old j phase found with rfl | before
    · trivial
    · exact kept.knows j phase before
  · intro j k one other foundOne foundOther writesOne writesOther
    rcases old j one foundOne with rfl | first
    · cases writesOne
    · rcases old k other foundOther with rfl | second
      · cases writesOther
      · exact kept.single j k one other first second writesOne writesOther

theorem step_kept (alone : Alone s event) (stepped : step belongs s event = some next) : Kept belongs next := by
  cases event with
  | call =>
    cases stepped
    exact kept_called kept
  | statCert i answered =>
    simp only [step] at stepped
    split at stepped
    · rename_i stood
      cases stepped
      split
      all_goals exact kept_goes kept stood trivial rfl
    · cases stepped
  | statKey i answered =>
    simp only [step] at stepped
    split at stepped
    · rename_i stood
      cases stepped
      split
      · rename_i seen
        exact kept_goes kept stood (Bool.and_eq_true_iff.mp seen).2 rfl
      · exact kept_goes kept stood trivial rfl
    · cases stepped
  | generate i key cert =>
    simp only [step] at stepped
    split at stepped
    · rename_i stood
      obtain ⟨own,⟨⟩⟩ := Option.ite_none_right_eq_some.mp stepped
      exact kept_goes kept stood own rfl
    · cases stepped
  | removeCert i =>
    simp only [step] at stepped
    split at stepped
    · rename_i stood
      cases stepped
      exact removeCert_kept kept alone stood
    · cases stepped
  | writeKey i =>
    simp only [step] at stepped
    split at stepped
    · rename_i stood
      cases stepped
      exact writeKey_kept kept stood
    · cases stepped
  | writeCert i =>
    simp only [step] at stepped
    split at stepped
    · rename_i stood
      cases stepped
      exact writeCert_kept kept stood
    · cases stepped
  | readCert i =>
    simp only [step] at stepped
    split at stepped
    · rename_i stood
      cases stepped
      have keyed : s.files.key.isSome = true := kept.knows i _ stood
      cases stored : s.files.cert with
      | none => exact kept_goes kept stood trivial rfl
      | some cert => exact kept_goes kept stood ⟨stored,keyed⟩ rfl
    · cases stepped
  | readKey i =>
    simp only [step] at stepped
    split at stepped
    · rename_i cert stood
      cases stepped
      obtain ⟨stored,keyed⟩ := kept.knows i _ stood
      split
      · exact kept_goes kept stood ⟨stored,keyed⟩ rfl
      · exact kept_goes kept stood trivial rfl
    · cases stepped
  | stop i =>
    simp only [step] at stepped
    split at stepped
    · cases stepped
    · rename_i stood
      cases stepped
      exact kept_goes kept stood trivial rfl
    · cases stepped

end

end Steps

section Identity
variable {belongs : Cert → Key → Bool} {files : Files Key Cert} {events : List (Event Key Cert)} {last : State Key Cert}

theorem run_kept (matched : Matched belongs files) (alone : Runs.Every (step belongs) Alone (initial files) events)
    (ran : Runs.run (step belongs) (initial files) events = some last) : Kept belongs last := by
  refine Runs.run_preserves_when (Kept belongs) (fun _ _ _ kept meets stepped => step_kept kept meets stepped) ?_ alone ran
  refine ⟨matched,?_,?_⟩
  · intro i phase found
    cases found
  · intro i j one other found
    cases found

theorem identity_stable (matched : Matched belongs files) (alone : Runs.Every (step belongs) Alone (initial files) events)
    (ran : Runs.run (step belongs) (initial files) events = some last) :
    Matched belongs last.files ∧ ∀ one other, Returned last one → Returned last other → one = other := by
  have kept := run_kept matched alone ran
  refine ⟨kept.matched,?_⟩
  intro one other first second
  obtain ⟨i,foundOne⟩ := List.getElem?_of_mem first
  obtain ⟨j,foundOther⟩ := List.getElem?_of_mem second
  have here : last.files.cert = some one := (kept.knows i _ foundOne).1
  have there : last.files.cert = some other := (kept.knows j _ foundOther).1
  exact Option.some.inj (here.symm.trans there)

def creates (i key : Nat) : List (Event Nat Nat) :=
  [.generate i key key,.removeCert i,.writeKey i,.writeCert i,.readCert i,.readKey i]

-- A run that was cut off after its key, one that creates the pair and one that
-- loads it.
def restarts : List (Event Nat Nat) :=
  [.call,.statCert 0 true,.generate 0 1 1,.removeCert 0,.writeKey 0,.stop 0,.call,.statCert 1 true] ++ creates 1 2 ++
    [.call,.statCert 2 true,.statKey 2 true,.readCert 2,.readKey 2]

theorem restarted_agent_keeps_identity : ∃ last, Runs.run (step (· == ·)) (initial ⟨none,none⟩) restarts = some last ∧
    last.runs = [.ended,.returned 2,.returned 2] ∧ Matched (· == ·) last.files ∧ ∀ one other, Returned last one → Returned last other → one = other := by
  have matched : Matched (· == ·) (⟨none,none⟩ : Files Nat Nat) := by
    intro cert key missing
    cases missing
  have alone : Runs.Every (step (· == ·)) Alone (initial ⟨none,none⟩) restarts := by
    simp [restarts,creates,Runs.Every,Alone,step,initial,State.goes,State.stores,Files.whole,Phase.writing]
  exact ⟨_,rfl,rfl,identity_stable matched alone rfl⟩

-- The daemon and a command find no certificate; the command replaces the pair
-- that the daemon already serves.
def overlapping : List (Event Nat Nat) := [.call,.statCert 0 true,.call,.statCert 1 true] ++ creates 0 1 ++ creates 1 2

def crossed : List (Event Nat Nat) :=
  [.call,.statCert 0 true,.call,.statCert 1 true,.generate 0 1 1,.removeCert 0,.writeKey 0,.generate 1 2 2,.removeCert 1,.writeKey 1,.writeCert 0]

theorem overlapping_runs_change_identity :
    (∃ last, Runs.run (step (· == ·)) (initial ⟨none,none⟩) overlapping = some last ∧ Returned last 1 ∧ Returned last 2) ∧
    ∃ last, Runs.run (step (· == ·)) (initial ⟨none,none⟩) crossed = some last ∧ ¬ Matched (· == ·) last.files := by
  refine ⟨⟨_,rfl,?_,?_⟩,⟨_,rfl,?_⟩⟩
  · exact List.mem_cons_self ..
  · exact List.mem_cons_of_mem _ (List.mem_cons_self ..)
  · intro matched
    cases matched 1 2 rfl rfl

end Identity

end RemoteFileExplorer.AgentCerts
