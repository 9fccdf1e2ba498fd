import RemoteFileExplorer.Runs

namespace RemoteFileExplorer.OptimisticSaves
open Runs

variable {Content : Type}

-- Times in nanoseconds since the zero time.
def second : Nat := 1000000000

def truncate (time : Nat) : Nat := time - time % second

structure File (Content : Type) where
  content : Content
  modified : Nat
  mode : Nat

-- What a client has read; `version` counts how often the file had been replaced.
structure Reading (Content : Type) where
  content : Content
  modified : Nat
  version : Nat

inductive SaveError where
  | notFound
  | stale
  | failed
  deriving DecidableEq, Repr

-- Where a call of WriteContent stands: before its check, before its temporary
-- file, before the rename, before the final Meta, or over. `version` is that of
-- the file that was checked, `over` the content that the rename replaced.
inductive Phase (Content : Type) where
  | asked
  | checked (mode version : Nat)
  | written (mode stamp version : Nat)
  | published (earlier : Option Content)
  | done (earlier : Option Content) (ok : Bool)
  | refused (error : SaveError)

-- `reading` is none for a call without a base time.
structure Save (Content : Type) where
  reading : Option (Reading Content)
  data : Content
  phase : Phase Content

-- `stamps` are the modification times of the contents the file had before.
structure State (Content : Type) where
  file : Option (File Content)
  version : Nat
  stamps : List Nat
  readings : Nat → Option (Reading Content)
  saves : Nat → Option (Save Content)

def start (file : Option (File Content)) : State Content := ⟨file,0,[],fun _ => none,fun _ => none⟩

def put {α : Type} (f : Nat → Option α) (n : Nat) (a : α) : Nat → Option α := fun k => if k = n then some a else f k

def State.replace (s : State Content) (file : Option (File Content)) : State Content :=
  { s with file := file,version := s.version + 1,stamps := s.stamps ++ (s.file.map File.modified).toList }

def State.move (s : State Content) (i : Nat) (save : Save Content) (phase : Phase Content) : State Content :=
  { s with saves := put s.saves i { save with phase := phase } }

def newMode : Nat := 0o644

def check (s : State Content) (save : Save Content) : Except SaveError Nat :=
  match save.reading,s.file with
  | some _,none => .error .notFound
  | some reading,some file => if truncate file.modified = truncate reading.modified then .ok file.mode else .error .stale
  | none,some file => .ok file.mode
  | none,none => .ok newMode

-- `ok` is not set when a system call of that part fails. `edits` and `removes`
-- are whatever else happens to the file.
inductive Event (Content : Type) where
  | reads (client : Nat)
  | calls (i : Nat) (client : Option Nat) (data : Content)
  | checks (i : Nat) (ok : Bool)
  | writes (i : Nat) (now : Nat) (ok : Bool)
  | publishes (i : Nat) (ok : Bool)
  | answers (i : Nat) (ok : Bool)
  | edits (file : File Content)
  | removes

def step (s : State Content) : Event Content → Option (State Content)
  | .reads client =>
    match s.file with
    | none => none
    | some file => if (s.readings client).isSome then none else some { s with readings := put s.readings client ⟨file.content,file.modified,s.version⟩ }
  | .calls i client data =>
    if (s.saves i).isSome then none else
    match client with
    | none => some { s with saves := put s.saves i ⟨none,data,.asked⟩ }
    | some client => (s.readings client).map fun reading => { s with saves := put s.saves i ⟨some reading,data,.asked⟩ }
  | .checks i ok =>
    match s.saves i with
    | some ⟨reading,data,.asked⟩ =>
      if !ok then some (s.move i ⟨reading,data,.asked⟩ (.refused .failed)) else
      match check s ⟨reading,data,.asked⟩ with
      | .error e => some (s.move i ⟨reading,data,.asked⟩ (.refused e))
      | .ok mode => some (s.move i ⟨reading,data,.asked⟩ (.checked mode s.version))
    | _ => none
  | .writes i now ok =>
    match s.saves i with
    | some ⟨reading,data,.checked mode version⟩ =>
      some (s.move i ⟨reading,data,.checked mode version⟩ (if ok then .written mode now version else .refused .failed))
    | _ => none
  | .publishes i ok =>
    match s.saves i with
    | some ⟨reading,data,.written mode stamp version⟩ =>
      if ok then some ((s.replace (some ⟨data,stamp,mode⟩)).move i ⟨reading,data,.written mode stamp version⟩ (.published (s.file.map File.content)))
      else some (s.move i ⟨reading,data,.written mode stamp version⟩ (.refused .failed))
    | _ => none
  | .answers i ok =>
    match s.saves i with
    | some ⟨reading,data,.published earlier⟩ => some (s.move i ⟨reading,data,.published earlier⟩ (.done earlier ok))
    | _ => none
  | .edits file => some (s.replace (some file))
  | .removes => some (s.replace none)

def Phase.version : Phase Content → Option Nat
  | .checked _ version | .written _ _ version => some version
  | .asked | .published _ | .done _ _ | .refused _ => none

def Phase.earlier : Phase Content → Option (Option Content)
  | .published earlier | .done earlier _ => some earlier
  | .asked | .checked _ _ | .written _ _ _ | .refused _ => none

-- Of two calls with one base time at most one succeeds, and one that succeeds
-- has replaced what its client had read.
structure NoLostEdit (s : State Content) : Prop where
  single : ∀ i other save rival reading theirs earlier lost, s.saves i = some save → s.saves other = some rival →
    save.reading = some reading → rival.reading = some theirs → reading.modified = theirs.modified →
    save.phase = .done earlier true → rival.phase = .done lost true → i = other
  current : ∀ i save reading earlier, s.saves i = some save → save.reading = some reading → save.phase = .done earlier true → earlier = some reading.content

-- A client reads when no earlier content had the same time; a check that passes
-- finds the file as it was read, and a rename finds it as it was checked.
def Careful (s : State Content) : Event Content → Prop
  | .reads _ => ∀ file ∈ s.file, file.modified ∉ s.stamps
  | .checks i ok => ok = true → ∀ save ∈ s.saves i, ∀ reading ∈ save.reading, ∀ file ∈ s.file,
      truncate file.modified = truncate reading.modified → reading.version = s.version
  | .publishes i ok => ok = true → ∀ save ∈ s.saves i, ∀ _ ∈ save.reading, ∀ version ∈ save.phase.version, version = s.version
  | .calls _ _ _ | .writes _ _ _ | .answers _ _ | .edits _ | .removes => True

instance (s : State Content) (event : Event Content) : Decidable (Careful s event) := by
  cases event <;> unfold Careful <;> infer_instance

structure Fits (s : State Content) (reading : Reading Content) : Prop where
  early : reading.version ≤ s.version
  same : reading.version = s.version → ∃ file, s.file = some file ∧ file.content = reading.content ∧ file.modified = reading.modified
  past : reading.version < s.version → reading.modified ∈ s.stamps

structure Sound (s : State Content) : Prop where
  fits : ∀ client reading, s.readings client = some reading → Fits s reading
  alike : ∀ client other reading theirs, s.readings client = some reading → s.readings other = some theirs →
    reading.modified = theirs.modified → reading.version = theirs.version
  read : ∀ i save reading, s.saves i = some save → save.reading = some reading → ∃ client, s.readings client = some reading
  checked : ∀ i save reading version, s.saves i = some save → save.reading = some reading → save.phase.version = some version → version = reading.version
  replaced : ∀ i save reading earlier, s.saves i = some save → save.reading = some reading → save.phase.earlier = some earlier →
    earlier = some reading.content ∧ reading.version < s.version
  apart : ∀ i other save rival reading theirs earlier lost, s.saves i = some save → s.saves other = some rival → save.reading = some reading →
    rival.reading = some theirs → save.phase.earlier = some earlier → rival.phase.earlier = some lost → reading.version = theirs.version → i = other

section Steps
variable {s next : State Content}

theorem put_parts {α : Type} {f : Nat → Option α} {n k : Nat} {a b : α} (found : put f n a k = some b) : (k = n ∧ b = a) ∨ (k ≠ n ∧ f k = some b) := by
  unfold put at found
  split at found
  · cases found
    exact .inl ⟨‹_›,rfl⟩
  · exact .inr ⟨‹_›,found⟩

theorem put_fresh {α : Type} {f : Nat → Option α} {n k : Nat} {b : α} (fresh : f n = none) (a : α) (found : f k = some b) : put f n a k = some b := by
  have differs : k ≠ n := by
    rintro rfl
    rw [fresh] at found
    cases found
  rw [put,if_neg differs,found]

inductive Moves (s : State Content) : Event Content → State Content → Prop where
  | reads (stands : s.file = some file) (fresh : s.readings client = none) :
      Moves s (.reads client) { s with readings := put s.readings client ⟨file.content,file.modified,s.version⟩ }
  | calls (fresh : s.saves i = none) (read : ∀ reading, base = some reading → ∃ client, s.readings client = some reading) :
      Moves s (.calls i client data) { s with saves := put s.saves i ⟨base,data,.asked⟩ }
  | passes (found : s.saves i = some save) (asked : save.phase = .asked) (passed : check s save = .ok mode) :
      Moves s (.checks i true) (s.move i save (.checked mode s.version))
  | writes (found : s.saves i = some save) (was : save.phase = .checked mode version) :
      Moves s (.writes i now ok) (s.move i save (.written mode now version))
  | publishes (found : s.saves i = some save) (was : save.phase = .written mode stamp version) :
      Moves s (.publishes i true) ((s.replace (some ⟨save.data,stamp,mode⟩)).move i save (.published (s.file.map File.content)))
  | answers (found : s.saves i = some save) (was : save.phase = .published earlier) : Moves s (.answers i ok) (s.move i save (.done earlier ok))
  | refuses (found : s.saves i = some save) (error : SaveError) : Moves s event (s.move i save (.refused error))
  | replaces (file : Option (File Content)) : Moves s event (s.replace file)

theorem step_moves {event : Event Content} (stepped : step s event = some next) : Moves s event next := by
  cases event with
  | reads client =>
    simp only [step] at stepped
    split at stepped
    · cases stepped
    · rename_i file stands
      obtain ⟨fresh,same⟩ := Option.ite_none_left_eq_some.mp stepped
      cases same
      exact .reads stands (by simpa using fresh)
  | calls i client data =>
    obtain ⟨fresh,stepped⟩ := Option.ite_none_left_eq_some.mp stepped
    have unused : s.saves i = none := by simpa using fresh
    cases client with
    | none =>
      cases stepped
      exact .calls unused nofun
    | some client =>
      obtain ⟨reading,found,same⟩ := Option.map_eq_some_iff.mp stepped
      cases same
      exact .calls unused fun other same => by cases same; exact ⟨client,found⟩
  | checks i ok =>
    simp only [step] at stepped
    split at stepped
    · rename_i reading data found
      split at stepped
      · cases stepped
        exact .refuses found .failed
      · rename_i fine
        have worked : ok = true := by simpa using fine
        subst worked
        split at stepped
        · rename_i e _
          cases stepped
          exact .refuses found e
        · rename_i mode passed
          cases stepped
          exact .passes found rfl passed
    · cases stepped
  | writes i now ok =>
    simp only [step] at stepped
    split at stepped
    · rename_i reading data mode version found
      cases stepped
      cases ok with
      | true => exact .writes found rfl
      | false => exact .refuses found .failed
    · cases stepped
  | publishes i ok =>
    simp only [step] at stepped
    split at stepped
    · rename_i reading data mode stamp version found
      cases ok with
      | true =>
        cases stepped
        exact .publishes found rfl
      | false =>
        cases stepped
        exact .refuses found .failed
    · cases stepped
  | answers i ok =>
    simp only [step] at stepped
    split at stepped
    · rename_i reading data earlier found
      cases stepped
      exact .answers found rfl
    · cases stepped
  | edits file | removes =>
    cases stepped
    exact .replaces _

variable {save : Save Content} {phase : Phase Content}

theorem fits_replace (fits : Fits s reading) (file : Option (File Content)) : Fits (s.replace file) reading := by
  refine ⟨Nat.le_succ_of_le fits.early,?_,?_⟩
  · intro same
    have early := fits.early
    change reading.version = s.version + 1 at same
    omega
  · intro _
    rcases Nat.lt_or_eq_of_le fits.early with before | now
    · exact List.mem_append_left _ (fits.past before)
    · obtain ⟨old,stands,_,stamp⟩ := fits.same now
      refine List.mem_append_right _ ?_
      rw [stands]
      simp [stamp]

theorem replace_sound (sound : Sound s) (file : Option (File Content)) : Sound (s.replace file) := by
  refine ⟨fun client reading found => fits_replace (sound.fits client reading found) file,sound.alike,sound.read,sound.checked,?_,sound.apart⟩
  intro i save reading earlier found own gone
  obtain ⟨content,before⟩ := sound.replaced i save reading earlier found own gone
  exact ⟨content,Nat.lt_succ_of_lt before⟩

theorem move_sound (sound : Sound s) (found : s.saves i = some save)
    (checked : ∀ reading version, save.reading = some reading → phase.version = some version → version = reading.version)
    (replaced : ∀ reading earlier, save.reading = some reading → phase.earlier = some earlier → earlier = some reading.content ∧ reading.version < s.version)
    (apart : ∀ other rival reading theirs earlier lost, other ≠ i → s.saves other = some rival → save.reading = some reading →
      rival.reading = some theirs → phase.earlier = some earlier → rival.phase.earlier = some lost → reading.version ≠ theirs.version) : Sound (s.move i save phase) := by
  refine ⟨fun client reading found => ⟨(sound.fits client reading found).early,(sound.fits client reading found).same,(sound.fits client reading found).past⟩,
    sound.alike,?_,?_,?_,?_⟩ <;> dsimp only [State.move]
  · intro k other reading stored own
    rcases put_parts stored with ⟨rfl,rfl⟩ | ⟨_,kept⟩
    · exact sound.read k save reading found own
    · exact sound.read k other reading kept own
  · intro k other reading version stored own version_
    rcases put_parts stored with ⟨rfl,rfl⟩ | ⟨_,kept⟩
    · exact checked reading version own version_
    · exact sound.checked k other reading version kept own version_
  · intro k other reading earlier stored own gone
    rcases put_parts stored with ⟨rfl,rfl⟩ | ⟨_,kept⟩
    · exact replaced reading earlier own gone
    · exact sound.replaced k other reading earlier kept own gone
  · intro k other one rival reading theirs earlier lost stored known own foreign gone also same
    rcases put_parts stored with ⟨rfl,rfl⟩ | ⟨differs,kept⟩
    · rcases put_parts known with ⟨rfl,rfl⟩ | ⟨apart_,told⟩
      · rfl
      · exact absurd same (apart other rival reading theirs earlier lost apart_ told own foreign gone also)
    · rcases put_parts known with ⟨rfl,rfl⟩ | ⟨_,told⟩
      · exact absurd same.symm (apart k one theirs reading lost earlier differs kept foreign own also gone)
      · exact sound.apart k other one rival reading theirs earlier lost kept told own foreign gone also same

theorem published_sound (sound : Sound s) (found : s.saves i = some save) (was : save.phase = .written mode stamp version)
    (careful : ∀ reading, save.reading = some reading → version = s.version) :
    Sound ((s.replace (some ⟨save.data,stamp,mode⟩)).move i save (.published (s.file.map File.content))) := by
  have now : ∀ reading, save.reading = some reading → reading.version = s.version ∧ s.file.map File.content = some reading.content := by
    intro reading own
    have same := sound.checked i save reading version found own (by rw [was]; rfl)
    have last : reading.version = s.version := same.symm.trans (careful reading own)
    obtain ⟨client,read⟩ := sound.read i save reading found own
    obtain ⟨file,stands,content,_⟩ := (sound.fits client reading read).same last
    exact ⟨last,by rw [stands,Option.map_some,content]⟩
  refine move_sound (replace_sound sound _) found nofun ?_ ?_
  · intro reading earlier own gone
    cases gone
    obtain ⟨last,content⟩ := now reading own
    exact ⟨content,last ▸ Nat.lt_succ_self _⟩
  · intro other rival reading theirs earlier lost _ told own foreign _ also
    obtain ⟨last,_⟩ := now reading own
    have before := (sound.replaced other rival theirs lost told foreign also).2
    rw [last]
    exact Nat.ne_of_gt before

theorem step_sound {event : Event Content} (sound : Sound s) (careful : Careful s event) (stepped : step s event = some next) : Sound next := by
  cases step_moves stepped with
  | @reads file client stands fresh =>
    have now : Fits s ⟨file.content,file.modified,s.version⟩ := ⟨Nat.le_refl _,fun _ => ⟨file,stands,rfl,rfl⟩,fun less => absurd less (Nat.lt_irrefl _)⟩
    have apart : ∀ other theirs, s.readings other = some theirs → file.modified = theirs.modified → s.version = theirs.version := by
      intro other theirs told same
      have fits := sound.fits other theirs told
      rcases Nat.lt_or_eq_of_le fits.early with before | last
      · exact absurd (same ▸ fits.past before) (careful file stands)
      · exact last.symm
    refine ⟨?_,?_,?_,sound.checked,sound.replaced,sound.apart⟩
    · intro other reading found
      rcases put_parts found with ⟨_,rfl⟩ | ⟨_,kept⟩
      · exact ⟨now.early,now.same,now.past⟩
      · exact ⟨(sound.fits other reading kept).early,(sound.fits other reading kept).same,(sound.fits other reading kept).past⟩
    · intro one other reading theirs found told same
      rcases put_parts found with ⟨_,rfl⟩ | ⟨_,kept⟩
      · rcases put_parts told with ⟨_,rfl⟩ | ⟨_,known⟩
        · rfl
        · exact apart other theirs known same
      · rcases put_parts told with ⟨_,rfl⟩ | ⟨_,known⟩
        · exact (apart one reading kept same.symm).symm
        · exact sound.alike one other reading theirs kept known same
    · intro i save reading found own
      obtain ⟨other,read⟩ := sound.read i save reading found own
      exact ⟨other,put_fresh fresh _ read⟩
  | @calls i base client data fresh read =>
    refine ⟨fun client reading found => ⟨(sound.fits client reading found).early,(sound.fits client reading found).same,(sound.fits client reading found).past⟩,
      sound.alike,?_,?_,?_,?_⟩
    · intro k save reading found own
      rcases put_parts found with ⟨_,rfl⟩ | ⟨_,kept⟩
      · exact read reading own
      · exact sound.read k save reading kept own
    · intro k save reading version found own at_
      rcases put_parts found with ⟨_,rfl⟩ | ⟨_,kept⟩
      · cases at_
      · exact sound.checked k save reading version kept own at_
    · intro k save reading earlier found own gone
      rcases put_parts found with ⟨_,rfl⟩ | ⟨_,kept⟩
      · cases gone
      · exact sound.replaced k save reading earlier kept own gone
    · intro k other save rival reading theirs earlier lost found told own foreign gone also same
      rcases put_parts found with ⟨_,rfl⟩ | ⟨_,kept⟩
      · cases gone
      · rcases put_parts told with ⟨_,rfl⟩ | ⟨_,known⟩
        · cases also
        · exact sound.apart k other save rival reading theirs earlier lost kept known own foreign gone also same
  | @passes i save mode found asked passed =>
    refine move_sound sound found ?_ nofun fun _ _ _ _ _ _ _ _ _ _ gone => by cases gone
    intro reading version own at_
    cases at_
    unfold check at passed
    rw [own] at passed
    cases stands : s.file with
    | none =>
      rw [stands] at passed
      cases passed
    | some file =>
      rw [stands] at passed
      dsimp only at passed
      split at passed
      · exact (careful rfl save found reading own file stands ‹_›).symm
      · cases passed
  | @writes i save mode version now ok found was =>
    refine move_sound sound found ?_ nofun fun _ _ _ _ _ _ _ _ _ _ gone => by cases gone
    intro reading other own at_
    cases at_
    exact sound.checked i save reading version found own (by rw [was]; rfl)
  | @publishes i save mode stamp version found was =>
    exact published_sound sound found was fun reading own => careful rfl save found reading own version (by rw [was]; rfl)
  | @answers i save earlier ok found was =>
    have same : ∀ lost, (Phase.done earlier ok : Phase Content).earlier = some lost → save.phase.earlier = some lost := by
      intro lost gone
      rw [was]
      exact gone
    refine move_sound sound found nofun ?_ ?_
    · intro reading lost own gone
      exact sound.replaced i save reading lost found own (same lost gone)
    · intro other rival reading theirs lost their differs told own foreign gone also alike
      exact differs (sound.apart i other save rival reading theirs lost their found told own foreign (same lost gone) also alike).symm
  | refuses found error =>
    exact move_sound sound found nofun nofun fun _ _ _ _ _ _ _ _ _ _ gone => by cases gone
  | replaces file => exact replace_sound sound file

theorem start_sound (file : Option (File Content)) : Sound (start file) := ⟨nofun,nofun,nofun,nofun,nofun,fun i other save rival reading theirs earlier lost found => by cases found⟩

theorem sound_safe (sound : Sound s) : NoLostEdit s := by
  refine ⟨?_,?_⟩
  · intro i other save rival reading theirs earlier lost found told own foreign same done also
    obtain ⟨client,read⟩ := sound.read i save reading found own
    obtain ⟨peer,known⟩ := sound.read other rival theirs told foreign
    exact sound.apart i other save rival reading theirs earlier lost found told own foreign (by rw [done]; rfl) (by rw [also]; rfl)
      (sound.alike client peer reading theirs read known same)
  · intro i save reading earlier found own done
    exact (sound.replaced i save reading earlier found own (by rw [done]; rfl)).1

theorem saves_lose_no_edit {file : Option (File Content)} {events : List (Event Content)} (careful : Every step Careful (start file) events)
    (ran : run step (start file) events = some s) : NoLostEdit s :=
  sound_safe (run_preserves_when Sound (fun _ _ _ sound careful stepped => step_sound sound careful stepped) (start_sound file) careful ran)

end Steps

def crossed : List (Event Nat) :=
  [.reads 0,.reads 1,.calls 0 (some 0) 10,.calls 1 (some 1) 11,.checks 0 true,.checks 1 true,.writes 0 (5 * second) true,.publishes 0 true,
    .writes 1 (6 * second) true,.publishes 1 true,.answers 0 true,.answers 1 true]

def sameSecond : List (Event Nat) :=
  [.reads 0,.reads 1,.calls 0 (some 0) 10,.checks 0 true,.writes 0 (second + 7) true,.publishes 0 true,.answers 0 true,
    .calls 1 (some 1) 11,.checks 1 true,.writes 1 (9 * second) true,.publishes 1 true,.answers 1 true]

def old : Option (File Nat) := some ⟨1,second + 3,newMode⟩

theorem stale_saves_pass : (¬ ∀ s, run step (start old) crossed = some s → NoLostEdit s) ∧ ¬ ∀ s, run step (start old) sameSecond = some s → NoLostEdit s := by
  constructor
  all_goals
    intro always
    have safe := always _ rfl
    have same := safe.single 0 1 _ _ _ _ _ _ rfl rfl rfl rfl rfl rfl rfl
    cases same

def turns : List (Event Nat) :=
  [.reads 0,.calls 0 (some 0) 10,.checks 0 true,.writes 0 (5 * second) true,.publishes 0 true,.answers 0 true]

theorem saves_lose_no_edit_turns : ∃ s, run step (start old) turns = some s ∧ NoLostEdit s := by
  have careful : Every step Careful (start old) turns := by decide
  exact ⟨_,rfl,saves_lose_no_edit careful rfl⟩

end RemoteFileExplorer.OptimisticSaves
