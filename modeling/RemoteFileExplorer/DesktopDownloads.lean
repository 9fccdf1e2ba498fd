import RemoteFileExplorer.Runs
import RemoteFileExplorer.PathTexts

namespace RemoteFileExplorer.DesktopDownloads
open Runs PathTexts

abbrev Bytes := List UInt8

-- The headers that are read of an answer; one that is no plain text counts as missing.
structure Headers where
  etag : Option Text
  lastModified : Option Text
  contentRange : Option Text
  contentLength : Option Nat

def withoutPlus : Text → Text
  | '+'::rest => rest
  | text => text

def parseU64 (text : Text) : Option Nat :=
  let digits := withoutPlus text
  if digits = [] ∨ ¬ digits.all Char.isDigit then none else
  let n := Nat.ofDigitChars 10 digits 0
  if n < 2 ^ 64 then some n else none

def stripPrefix (front text : Text) : Option Text := if front.isPrefixOf text then some (text.drop front.length) else none

def splitOnce (c : Char) (text : Text) : Option (Text × Text) :=
  if c ∈ text then some (text.takeWhile (· ≠ c),(text.dropWhile (· ≠ c)).tail) else none

def rangeFront : Text := ['b','y','t','e','s',' ']
def unsatisfiedFront : Text := ['b','y','t','e','s',' ','*','/']

def parseContentRange (h : Headers) : Option (Nat × Nat × Nat) :=
  (h.contentRange.bind (stripPrefix rangeFront)).bind fun v =>
  (splitOnce '/' v).bind fun (range,total) =>
  (splitOnce '-' range).bind fun (a,b) =>
  (parseU64 a).bind fun a => (parseU64 b).bind fun b => (parseU64 total).bind fun total =>
  if a ≤ b ∧ b < total then some (a,b,total) else none

def parseUnsatisfied (h : Headers) : Option Nat := (h.contentRange.bind (stripPrefix unsatisfiedFront)).bind parseU64

def validator (h : Headers) : Option Text :=
  let modified := (h.lastModified.map trimSpace).filter (· ≠ [])
  match h.etag.map trimSpace with
  | some tag => if tag ≠ [] ∧ ¬ ['W','/'].isPrefixOf tag then some tag else modified
  | none => modified

def rangeText (first last total : Nat) : Text :=
  rangeFront ++ (Nat.toDigits 10 first ++ '-'::(Nat.toDigits 10 last ++ '/'::Nat.toDigits 10 total))

def unsatisfiedText (total : Nat) : Text := unsatisfiedFront ++ Nat.toDigits 10 total

theorem digits_plain (other : c.isDigit = false) : c ∉ Nat.toDigits 10 n := by
  intro member
  rw [Nat.isDigit_of_mem_toDigits (by decide) (by decide) member] at other
  cases other

theorem parseU64_digits (n : Nat) : parseU64 (Nat.toDigits 10 n) = if n < 2 ^ 64 then some n else none := by
  have all : (Nat.toDigits 10 n).all Char.isDigit = true := by
    rw [List.all_eq_true]
    exact fun c member => Nat.isDigit_of_mem_toDigits (by decide) (by decide) member
  have plain : withoutPlus (Nat.toDigits 10 n) = Nat.toDigits 10 n := by
    unfold withoutPlus
    split
    · rename_i rest same
      have member : '+' ∈ Nat.toDigits 10 n := by
        rw [same]
        exact List.mem_cons_self ..
      exact absurd member (digits_plain rfl)
    · rfl
  unfold parseU64
  rw [plain,if_neg (by simp [all,Nat.toDigits_ne_nil]),Nat.ofDigitChars_ten_toDigits]

theorem stripPrefix_append (front rest : Text) : stripPrefix front (front ++ rest) = some rest := by
  unfold stripPrefix
  rw [if_pos (List.isPrefixOf_iff_prefix.mpr (List.prefix_append _ _)),List.drop_left]

theorem splitOnce_append (free : c ∉ front) (rest : Text) : splitOnce c (front ++ c::rest) = some (front,rest) := by
  have all : ∀ d ∈ front, (decide (d ≠ c)) = true := by
    intro d member
    rw [decide_eq_true_eq]
    rintro rfl
    exact free member
  unfold splitOnce
  rw [if_pos (List.mem_append_right _ (List.mem_cons_self ..)),List.takeWhile_append_of_pos all,List.dropWhile_append_of_pos all,
    List.takeWhile_cons_of_neg (by simp),List.dropWhile_cons_of_neg (by simp),List.append_nil]
  rfl

theorem contentRange_read (written : h.contentRange = some (rangeText first last total)) {read : Nat × Nat × Nat}
    (parsed : parseContentRange h = some read) : read = (first,last,total) := by
  have dash : '/' ∉ Nat.toDigits 10 first ++ '-'::Nat.toDigits 10 last := by
    rw [List.mem_append,List.mem_cons,not_or,not_or]
    exact ⟨digits_plain rfl,by decide,digits_plain rfl⟩
  have outer : splitOnce '/' (Nat.toDigits 10 first ++ '-'::(Nat.toDigits 10 last ++ '/'::Nat.toDigits 10 total)) =
      some (Nat.toDigits 10 first ++ '-'::Nat.toDigits 10 last,Nat.toDigits 10 total) := by
    have split := splitOnce_append dash (Nat.toDigits 10 total)
    rwa [List.append_assoc] at split
  unfold parseContentRange at parsed
  rw [written,Option.bind_some,rangeText,stripPrefix_append,Option.bind_some,outer,Option.bind_some] at parsed
  dsimp only at parsed
  rw [splitOnce_append (digits_plain rfl),Option.bind_some] at parsed
  obtain ⟨a,one,parsed⟩ := Option.bind_eq_some_iff.mp parsed
  obtain ⟨b,two,parsed⟩ := Option.bind_eq_some_iff.mp parsed
  obtain ⟨t,three,parsed⟩ := Option.bind_eq_some_iff.mp parsed
  have known {n m : Nat} (read : parseU64 (Nat.toDigits 10 n) = some m) : m = n := by
    rw [parseU64_digits] at read
    split at read
    · exact (Option.some.inj read).symm
    · cases read
  rw [known one,known two,known three] at parsed
  split at parsed
  · exact (Option.some.inj parsed).symm
  · cases parsed

theorem unsatisfied_read {total read : Nat} (written : h.contentRange = some (unsatisfiedText total)) (parsed : parseUnsatisfied h = some read) :
    read = total := by
  unfold parseUnsatisfied at parsed
  rw [written,Option.bind_some,unsatisfiedText,stripPrefix_append,Option.bind_some,parseU64_digits] at parsed
  split at parsed
  · exact (Option.some.inj parsed).symm
  · cases parsed

section Server

-- The remote file in all the versions it may have. Each has a strong validator
-- of its own.
structure Remote (Version : Type) where
  content : Version → Bytes
  etag : Version → Option Text
  lastModified : Version → Option Text
  strong : ∀ version, validator ⟨etag version,lastModified version,none,none⟩ ≠ none
  own : Function.Injective fun version => validator ⟨etag version,lastModified version,none,none⟩

variable {Version : Type}

def Remote.tag (remote : Remote Version) (version : Version) : Option Text := validator ⟨remote.etag version,remote.lastModified version,none,none⟩

structure Request where
  offset : Nat
  ifRange : Option Text

structure Response where
  status : Nat
  headers : Headers
  body : Bytes

-- `stated` says that a whole file comes with its length, `named` that a refused
-- range comes with the version's validators.
inductive Answer where
  | segment (last : Nat)
  | whole (stated : Bool)
  | unsatisfied (named : Bool)
  | refuses (status : Nat)

-- The range is served only to a request that names no version or this one.
def Remote.answer (remote : Remote Version) (request : Request) (version : Version) : Answer → Option Response
  | .segment last =>
    if (request.ifRange = none ∨ request.ifRange = remote.tag version) ∧ request.offset ≤ last ∧ last < (remote.content version).length then
      let body := ((remote.content version).drop request.offset).take (last + 1 - request.offset)
      some ⟨206,⟨remote.etag version,remote.lastModified version,some (rangeText request.offset last (remote.content version).length),some body.length⟩,body⟩
    else none
  | .whole stated =>
    some ⟨200,⟨remote.etag version,remote.lastModified version,none,if stated then some (remote.content version).length else none⟩,remote.content version⟩
  | .unsatisfied named =>
    if (request.ifRange = none ∨ request.ifRange = remote.tag version) ∧ (remote.content version).length ≤ request.offset then
      some ⟨416,⟨if named then remote.etag version else none,if named then remote.lastModified version else none,some (unsatisfiedText (remote.content version).length),none⟩,[]⟩
    else none
  | .refuses status => if status ∈ [200,206,416] then none else some ⟨status,⟨none,none,none,none⟩,[]⟩

end Server

section Transfer
variable {Version : Type}

structure Attempt where
  verify : Bool
  total : Option Nat
  restarted : Bool
  version : Option Text

-- Where `download` stands. `reading` holds what the body has yet to give, how
-- much was asked for, how much was written and whether the file came whole.
inductive Stage where
  | idle
  | asking (a : Attempt)
  | asked (a : Attempt) (offset : Nat)
  | reading (a : Attempt) (rest : Bytes) (expect written : Nat) (whole : Bool)
  | checking
  | placing
  | done

-- `remoteVersion` and the part file outlive an attempt. `placed` holds the files
-- put under a real name and `served` the versions that answered.
structure State (Version : Type) where
  part : Option Bytes
  remoteVersion : Option Text
  stage : Stage
  placed : List Bytes
  served : List Version

def State.bytes (s : State Version) : Bytes := s.part.getD []

inductive Event (Version : Type) where
  | starts (verify created : Bool)
  | asks
  | answers (version : Version) (answer : Answer) (opened : Bool)
  | reads (n : Nat)
  | jams (n kept : Nat)
  | ends
  | checks (sum : Option (Option Text)) (removed : Bool)
  | places (moved cleared stopped : Bool)
  | fails
  | pauses
  | cancels (removed : Bool)

def State.fail (s : State Version) : State Version := {s with stage := .idle}

def resumeIsUnsafe (offset : Nat) (version : Option Text) : Bool := decide (0 < offset) && version.isNone

def State.begin (s : State Version) (verify created : Bool) : State Version :=
  let a : Attempt := ⟨verify,none,false,s.remoteVersion⟩
  if resumeIsUnsafe s.bytes.length s.remoteVersion then (if created then {s with part := some [],stage := .asking a} else s.fail)
  else {s with stage := .asking a}

def State.finish (s : State Version) (a : Attempt) : State Version := {s with stage := if a.verify then .checking else .placing}

def State.ask (s : State Version) (a : Attempt) : State Version :=
  let offset := s.bytes.length
  if a.total.any fun t => decide (t ≤ offset) then s.finish a else {s with stage := .asked a offset}

def request (a : Attempt) (offset : Nat) : Request := ⟨offset,if 0 < offset then a.version else none⟩

def firstBytes (offset : Nat) (response : Response) : Bool := offset == 0 || response.status == 200

def Attempt.hear (a : Attempt) (offset : Nat) (response : Response) : Attempt :=
  if firstBytes offset response then {a with version := validator response.headers} else a

def State.hear (s : State Version) (offset : Nat) (response : Response) : State Version :=
  if firstBytes offset response then {s with remoteVersion := validator response.headers} else s

-- `open_part` can fail, in either mode.
def State.handle (s : State Version) (a : Attempt) (offset : Nat) (response : Response) (opened : Bool) : State Version :=
  let a := a.hear offset response
  let s := s.hear offset response
  if response.status = 206 then
    match parseContentRange response.headers with
    | none => s.fail
    | some (first,last,size) =>
      if first ≠ offset then s.fail else
      if opened then {s with part := some s.bytes,stage := .reading {a with total := some size} response.body (last - first + 1) 0 false} else s.fail
  else if response.status = 200 then
    match response.headers.contentLength with
    | none => s.fail
    | some size =>
      if opened then {s with part := some [],stage := .reading {a with total := some size} response.body size 0 true} else s.fail
  else if response.status = 416 then
    match parseUnsatisfied response.headers with
    | none => s.fail
    | some size =>
      if size = offset then {s with stage := .asking {a with total := some size}}
      else if size < offset ∧ a.restarted = false then
        (if opened then {s with part := some [],stage := .asking {a with restarted := true}} else s.fail)
      else s.fail
  else s.fail

def State.read (s : State Version) (a : Attempt) (rest : Bytes) (expect written : Nat) (whole : Bool) (n : Nat) : State Version :=
  let chunk := rest.take n
  if expect < written + chunk.length then s.fail
  else {s with part := some (s.bytes ++ chunk),stage := .reading a (rest.drop n) expect (written + chunk.length) whole}

-- A chunk of which only the front could be written.
def State.jam (s : State Version) (rest : Bytes) (expect written n kept : Nat) : State Version :=
  let chunk := rest.take n
  if expect < written + chunk.length then s.fail else {s.fail with part := some (s.bytes ++ chunk.take kept)}

def State.close (s : State Version) (a : Attempt) (expect written : Nat) (whole : Bool) : State Version :=
  if written ≠ expect then s.fail else if whole ∧ expect = 0 then s.finish a else {s with stage := .asking a}

def lower (sum : Text) : Text := sum.map Char.toLower

-- `sum` is the agent's answer: none for a failure, none inside for an agent that
-- offers no checksum. A copy that differs is discarded, as far as it can be.
def State.check (sha256 : Bytes → Text) (s : State Version) (sum : Option (Option Text)) (removed : Bool) : State Version :=
  match s.part,sum with
  | some bytes,some (some sum) =>
    if lower sum = lower (sha256 bytes) then {s with stage := .placing} else {s.fail with part := if removed then none else s.part}
  | some _,some none => {s with stage := .placing}
  | _,_ => s.fail

-- The file is put in place by a task of its own, which a pause does not stop.
def State.place (s : State Version) (moved cleared stopped : Bool) : State Version :=
  match s.part with
  | none => s.fail
  | some bytes =>
    if moved then {s with part := if cleared then none else s.part,placed := bytes::s.placed,stage := if stopped then .idle else .done} else s.fail

def State.cancel (s : State Version) (removed : Bool) : State Version := {s.fail with part := if removed then none else s.part}

def step (remote : Remote Version) (sha256 : Bytes → Text) (s : State Version) (event : Event Version) : Option (State Version) :=
  match event,s.stage with
  | .starts verify created,.idle => some (s.begin verify created)
  | .asks,.asking a => some (s.ask a)
  | .answers version answer opened,.asked a offset =>
    (remote.answer (request a offset) version answer).map fun response => {s with served := version::s.served}.handle a offset response opened
  | .reads n,.reading a rest expect written whole => some (s.read a rest expect written whole n)
  | .jams n kept,.reading _ rest expect written _ => some (s.jam rest expect written n kept)
  | .ends,.reading a _ expect written whole => some (s.close a expect written whole)
  | .checks sum removed,.checking => some (s.check sha256 sum removed)
  | .places moved cleared stopped,.placing => some (s.place moved cleared stopped)
  | .cancels removed,stage => match stage with | .done => none | _ => some (s.cancel removed)
  | .fails,stage | .pauses,stage => match stage with | .idle => none | .done => none | _ => some s.fail
  | _,_ => none

def fresh (part : Option Bytes) : State Version := ⟨part,none,.idle,[],[]⟩

end Transfer

section Versions
variable {Version : Type} {remote : Remote Version} {sha256 : Bytes → Text} {s next : State Version} {a : Attempt}

def Fits (remote : Remote Version) (s : State Version) (bytes : Bytes) (version : Version) : Prop :=
  version ∈ s.served ∧ bytes <+: remote.content version ∧ (bytes ≠ [] → s.remoteVersion = remote.tag version)

def Ready (remote : Remote Version) (s : State Version) : Prop := s.bytes = [] ∨ ∃ version, Fits remote s s.bytes version

def Known (remote : Remote Version) (s : State Version) (a : Attempt) : Prop :=
  a.version = s.remoteVersion ∧ ∀ t, a.total = some t → ∃ version, t = (remote.content version).length ∧ Fits remote s s.bytes version

def Whole (remote : Remote Version) (s : State Version) (bytes : Bytes) : Prop := ∃ version ∈ s.served, bytes = remote.content version

def StageOk (remote : Remote Version) (s : State Version) : Stage → Prop
  | .idle => True
  | .asking a => Known remote s a
  | .asked a offset => Known remote s a ∧ offset = s.bytes.length
  | .reading a rest expect _ whole => a.version = s.remoteVersion ∧ ∃ version ∈ s.served, a.total = some (remote.content version).length ∧
      s.remoteVersion = remote.tag version ∧ s.bytes ++ rest <+: remote.content version ∧ (whole = true → expect = (remote.content version).length)
  | .checking | .placing => Whole remote s s.bytes
  | .done => True

structure Kept (remote : Remote Version) (s : State Version) : Prop where
  ready : Ready remote s ∨ (s.stage = .idle ∧ s.remoteVersion = none)
  stage : StageOk remote s s.stage
  placed : ∀ bytes ∈ s.placed, Whole remote s bytes

def Careful (remote : Remote Version) (s : State Version) : Event Version → Prop
  | .answers version (.whole stated) opened => s.bytes ≠ [] → s.remoteVersion ≠ remote.tag version → stated = true ∧ opened = true
  | _ => True

instance (remote : Remote Version) (s : State Version) : (event : Event Version) → Decidable (Careful remote s event)
  | .answers version (.whole stated) opened => inferInstanceAs (Decidable (s.bytes ≠ [] → s.remoteVersion ≠ remote.tag version → stated = true ∧ opened = true))
  | .answers _ (.segment _) _ | .answers _ (.unsatisfied _) _ | .answers _ (.refuses _) _ => .isTrue trivial
  | .starts _ _ | .asks | .reads _ | .jams _ _ | .ends | .checks _ _ | .places _ _ _ | .fails | .pauses | .cancels _ => .isTrue trivial

theorem Remote.tag_some (remote : Remote Version) (version : Version) : remote.tag version ≠ none := remote.strong version

section
variable (kept : Kept remote s)
include kept

theorem Kept.live (active : s.stage ≠ .idle) : Ready remote s := kept.ready.resolve_right fun both => active both.1

theorem idle_kept : Kept remote s.fail :=
  ⟨kept.ready.imp_right fun both => ⟨rfl,both.2⟩,trivial,kept.placed⟩

theorem begin_kept (verify created : Bool) : Kept remote (s.begin verify created) := by
  have start : Known remote s ⟨verify,none,false,s.remoteVersion⟩ := ⟨rfl,nofun⟩
  unfold State.begin
  split
  · split
    · exact ⟨Or.inl (Or.inl rfl),⟨rfl,nofun⟩,kept.placed⟩
    · exact idle_kept kept
  · rename_i safe
    refine ⟨Or.inl ?_,start,kept.placed⟩
    rcases kept.ready with ready | ⟨_,none_⟩
    · exact ready
    · have empty : s.bytes = [] := by
        rw [none_] at safe
        simpa [resumeIsUnsafe] using safe
      exact Or.inl empty

theorem finish_kept (active : s.stage ≠ .idle) (whole : Whole remote s s.bytes) (a : Attempt) : Kept remote (s.finish a) := by
  refine ⟨Or.inl (kept.live active),?_,kept.placed⟩
  unfold State.finish
  cases a.verify <;> exact whole

theorem ask_kept (at_ : s.stage = .asking a) : Kept remote (s.ask a) := by
  have active : s.stage ≠ .idle := by simp [at_]
  have known := kept.stage
  rw [at_] at known
  unfold State.ask
  dsimp only
  split
  · rename_i past
    obtain ⟨t,total,reached⟩ := (Option.any_eq_true ..).mp past
    obtain ⟨version,rfl,served,front,_⟩ := known.2 t total
    exact finish_kept kept active ⟨version,served,front.eq_of_length_le (of_decide_eq_true reached)⟩ a
  · exact ⟨Or.inl (kept.live active),⟨known,rfl⟩,kept.placed⟩

theorem read_kept (at_ : s.stage = .reading a rest expect written whole) (n : Nat) :
    Kept remote (s.read a rest expect written whole n) := by
  obtain ⟨same,version,served,total,tag,front,size⟩ : StageOk remote s (.reading a rest expect written whole) := at_ ▸ kept.stage
  unfold State.read
  dsimp only
  split
  · exact idle_kept kept
  · have longer : (s.bytes ++ rest.take n) ++ rest.drop n <+: remote.content version := by
      rw [List.append_assoc,List.take_append_drop]
      exact front
    refine ⟨Or.inl (Or.inr ⟨version,served,(List.prefix_append _ _).trans longer,fun _ => tag⟩),?_,kept.placed⟩
    exact ⟨same,version,served,total,tag,longer,size⟩

theorem jam_kept (at_ : s.stage = .reading a rest expect written whole)
    (n some_ : Nat) : Kept remote (s.jam rest expect written n some_) := by
  obtain ⟨same,version,served,total,tag,front,size⟩ : StageOk remote s (.reading a rest expect written whole) := at_ ▸ kept.stage
  unfold State.jam
  dsimp only
  split
  · exact idle_kept kept
  · have shorter : s.bytes ++ (rest.take n).take some_ <+: remote.content version := by
      refine List.IsPrefix.trans ?_ front
      exact (List.prefix_append_right_inj _).mpr ((List.take_prefix _ _).trans (List.take_prefix _ _))
    exact ⟨Or.inl (Or.inr ⟨version,served,shorter,fun _ => tag⟩),trivial,kept.placed⟩

theorem close_kept (at_ : s.stage = .reading a rest expect written whole) :
    Kept remote (s.close a expect written whole) := by
  have active : s.stage ≠ .idle := by simp [at_]
  obtain ⟨same,version,served,total,tag,front,size⟩ : StageOk remote s (.reading a rest expect written whole) := at_ ▸ kept.stage
  have part := (List.prefix_append _ _).trans front
  unfold State.close
  split
  · exact idle_kept kept
  · split
    · rename_i empty
      have none_ : remote.content version = [] := List.length_eq_zero_iff.mp ((size empty.1).symm.trans empty.2)
      refine finish_kept kept active ⟨version,served,?_⟩ a
      rw [none_] at part ⊢
      exact List.prefix_nil.mp part
    · refine ⟨Or.inl (kept.live active),⟨same,?_⟩,kept.placed⟩
      intro t stated
      rw [total] at stated
      cases stated
      exact ⟨version,rfl,served,part,fun _ => tag⟩

theorem check_kept (at_ : s.stage = .checking) (sum : Option (Option Text)) (removed : Bool) : Kept remote (s.check sha256 sum removed) := by
  have active : s.stage ≠ .idle := by simp [at_]
  have whole : Whole remote s s.bytes := by
    have stage := kept.stage
    rwa [at_] at stage
  unfold State.check
  split
  · split
    · exact ⟨Or.inl (kept.live active),whole,kept.placed⟩
    · cases removed with
      | true => exact ⟨Or.inl (Or.inl rfl),trivial,kept.placed⟩
      | false => exact idle_kept kept
  · exact ⟨Or.inl (kept.live active),whole,kept.placed⟩
  · exact idle_kept kept

theorem place_kept (at_ : s.stage = .placing) (moved cleared stopped : Bool) : Kept remote (s.place moved cleared stopped) := by
  have active : s.stage ≠ .idle := by simp [at_]
  have whole : Whole remote s s.bytes := by
    have stage := kept.stage
    rwa [at_] at stage
  unfold State.place
  split
  · exact idle_kept kept
  · rename_i bytes part
    split
    · refine ⟨Or.inl ?_,?_,?_⟩
      · cases cleared with
        | true => exact Or.inl rfl
        | false => exact kept.live active
      · cases stopped <;> exact trivial
      · intro other member
        rcases List.mem_cons.mp member with rfl | before
        · rw [State.bytes,part] at whole
          exact whole
        · exact kept.placed other before
    · exact idle_kept kept

theorem cancel_kept (removed : Bool) : Kept remote (s.cancel removed) := by
  cases removed with
  | true => exact ⟨Or.inl (Or.inl rfl),trivial,kept.placed⟩
  | false => exact idle_kept kept

theorem served_kept (version : Version) : Kept remote {s with served := version::s.served} := by
  have later {bytes : Bytes} (whole : Whole remote s bytes) : Whole remote {s with served := version::s.served} bytes := by
    obtain ⟨other,member,same⟩ := whole
    exact ⟨other,List.mem_cons_of_mem _ member,same⟩
  have fits {other : Version} (held : Fits remote s s.bytes other) : Fits remote {s with served := version::s.served} s.bytes other :=
    ⟨List.mem_cons_of_mem _ held.1,held.2⟩
  have known {a : Attempt} (held : Known remote s a) : Known remote {s with served := version::s.served} a := by
    refine ⟨held.1,fun t total => ?_⟩
    obtain ⟨other,size,front⟩ := held.2 t total
    exact ⟨other,size,fits front⟩
  refine ⟨?_,?_,fun bytes member => later (kept.placed bytes member)⟩
  · rcases kept.ready with (empty | ⟨other,front⟩) | begin_
    · exact Or.inl (Or.inl empty)
    · exact Or.inl (Or.inr ⟨other,fits front⟩)
    · exact Or.inr begin_
  · have stage := kept.stage
    cases at_ : s.stage with
    | idle => trivial
    | asking a => rw [at_] at stage; exact known stage
    | asked a offset => rw [at_] at stage; exact ⟨known stage.1,stage.2⟩
    | reading a rest expect written whole =>
      rw [at_] at stage
      obtain ⟨same,other,member,more⟩ := stage
      exact ⟨same,other,List.mem_cons_of_mem _ member,more⟩
    | checking | placing => rw [at_] at stage; exact later stage
    | done => trivial

end

section Answers
variable {offset : Nat} {version : Version}

theorem served_front (kept : Kept remote s) (at_ : s.stage = .asked a offset)
    (named : (request a offset).ifRange = none ∨ (request a offset).ifRange = remote.tag version) :
    (offset = 0 ∧ s.bytes = []) ∨ (0 < offset ∧ s.remoteVersion = remote.tag version ∧ s.bytes <+: remote.content version) := by
  obtain ⟨⟨same,_⟩,size⟩ : StageOk remote s (.asked a offset) := at_ ▸ kept.stage
  rcases Nat.eq_zero_or_pos offset with zero | some_
  · exact Or.inl ⟨zero,List.length_eq_zero_iff.mp (size.symm.trans zero)⟩
  · have nonempty : s.bytes ≠ [] := by
      intro empty
      rw [empty] at size
      exact absurd size (by simpa using Nat.ne_of_gt some_)
    obtain ⟨other,_,front,tag⟩ := (kept.live (by simp [at_])).resolve_left nonempty
    have stored := tag nonempty
    unfold request at named
    rw [if_pos some_,same,stored] at named
    have tags : remote.tag other = remote.tag version := named.resolve_left (remote.tag_some other)
    obtain rfl : other = version := remote.own tags
    exact Or.inr ⟨some_,stored,front⟩

@[simp] theorem hear_part (s : State Version) (offset : Nat) (response : Response) : (s.hear offset response).part = s.part := by
  unfold State.hear
  split <;> rfl

theorem hear_bytes (s : State Version) (offset : Nat) (response : Response) : (s.hear offset response).bytes = s.bytes :=
  congrArg (·.getD []) (hear_part s offset response)

@[simp] theorem hear_placed (s : State Version) (offset : Nat) (response : Response) : (s.hear offset response).placed = s.placed := by
  unfold State.hear
  split <;> rfl

@[simp] theorem hear_served (s : State Version) (offset : Nat) (response : Response) : (s.hear offset response).served = s.served := by
  unfold State.hear
  split <;> rfl

theorem hear_same (same : a.version = s.remoteVersion) (offset : Nat) (response : Response) :
    (a.hear offset response).version = (s.hear offset response).remoteVersion := by
  unfold Attempt.hear State.hear
  split
  · rfl
  · exact same

theorem placed_kept (kept : Kept remote s) (placed : t.placed = s.placed) (served : t.served = s.served) :
    ∀ bytes ∈ t.placed, Whole remote t bytes := by
  intro bytes member
  rw [placed] at member
  obtain ⟨version,inside,same⟩ := kept.placed bytes member
  exact ⟨version,by rwa [served],same⟩

theorem hear_kept (kept : Kept remote s) (response : Response) (offset : Nat) (ready : Ready remote (s.hear offset response)) :
    Kept remote (s.hear offset response).fail :=
  ⟨Or.inl ready,trivial,placed_kept kept (hear_placed ..) (hear_served ..)⟩

section
variable (kept : Kept remote s) (at_ : s.stage = .asked a offset)
include kept at_

theorem segment_kept (served : version ∈ s.served) {last : Nat} {response : Response}
    (answered : remote.answer (request a offset) version (.segment last) = some response) (opened : Bool) :
    Kept remote (s.handle a offset response opened) := by
  obtain ⟨⟨same,_⟩,size⟩ : StageOk remote s (.asked a offset) := at_ ▸ kept.stage
  obtain ⟨named,status,tags,range,body⟩ : ((request a offset).ifRange = none ∨ (request a offset).ifRange = remote.tag version) ∧ response.status = 206 ∧
      validator response.headers = remote.tag version ∧ response.headers.contentRange = some (rangeText offset last (remote.content version).length) ∧
      response.body = ((remote.content version).drop offset).take (last + 1 - offset) := by
    rw [Remote.answer] at answered
    split at answered
    · rename_i allowed
      cases answered
      exact ⟨allowed.1,rfl,rfl,rfl,rfl⟩
    · cases answered
  have front : (s.hear offset response).remoteVersion = remote.tag version ∧ s.bytes <+: remote.content version := by
    rcases served_front kept at_ named with ⟨zero,empty⟩ | ⟨some_,stored,front⟩
    · rw [empty]
      refine ⟨?_,List.nil_prefix⟩
      unfold State.hear firstBytes
      rw [if_pos (by simp [zero])]
      exact tags
    · refine ⟨?_,front⟩
      unfold State.hear firstBytes
      rw [if_neg (by simp [status]; omega)]
      exact stored
  have ready : Ready remote (s.hear offset response) := Or.inr ⟨version,by rwa [hear_served],by rw [hear_bytes]; exact front.2,fun _ => front.1⟩
  unfold State.handle
  rw [if_pos status]
  split
  · exact hear_kept kept response offset ready
  · rename_i first last' total parsed
    cases contentRange_read range parsed
    rw [if_neg (fun other => other rfl)]
    split
    · have longer : s.bytes ++ response.body <+: remote.content version := by
        rw [List.prefix_iff_eq_take.mp front.2,← size,body,← List.take_add]
        exact List.take_prefix _ _
      refine ⟨Or.inl ?_,⟨hear_same same offset response,version,by simpa using served,rfl,front.1,?_,nofun⟩,?_⟩
      · simpa [Ready,Fits,State.bytes] using ready
      · simpa [State.bytes] using longer
      · exact placed_kept kept (hear_placed ..) (hear_served ..)
    · exact hear_kept kept response offset ready

theorem whole_kept (served : version ∈ s.served)
    (answered : remote.answer (request a offset) version (.whole stated) = some response)
    (careful : Careful remote s (.answers version (.whole stated) opened)) : Kept remote (s.handle a offset response opened) := by
  obtain ⟨⟨same,_⟩,size⟩ : StageOk remote s (.asked a offset) := at_ ▸ kept.stage
  cases answered
  have heard : (s.hear offset ⟨200,⟨remote.etag version,remote.lastModified version,none,if stated then some (remote.content version).length else none⟩,
      remote.content version⟩).remoteVersion = remote.tag version := by
    unfold State.hear firstBytes
    rw [if_pos (by simp)]
    rfl
  -- An answer that leaves the old bytes is one of the same version.
  have left (loose : ¬ (stated = true ∧ opened = true)) : Ready remote (s.hear offset ⟨200,⟨remote.etag version,remote.lastModified version,none,
      if stated then some (remote.content version).length else none⟩,remote.content version⟩) := by
    rcases kept.live (by simp [at_]) with empty | ⟨other,inside,front,tag⟩
    · exact Or.inl ((hear_bytes ..).trans empty)
    · by_cases empty : s.bytes = []
      · exact Or.inl ((hear_bytes ..).trans empty)
      · have held : s.remoteVersion = remote.tag version := by
          by_contra differs
          exact loose (careful empty differs)
        have tags : remote.tag other = remote.tag version := (tag empty).symm.trans held
        obtain rfl : other = version := remote.own tags
        exact Or.inr ⟨other,by simpa using inside,by rw [hear_bytes]; exact front,fun _ => heard⟩
  unfold State.handle
  cases stated with
  | false => exact hear_kept kept _ offset (left nofun)
  | true =>
    cases opened with
    | false => exact hear_kept kept _ offset (left nofun)
    | true =>
      refine ⟨Or.inl (Or.inl rfl),⟨hear_same same offset _,version,by simpa using served,rfl,heard,List.prefix_refl _,fun _ => rfl⟩,?_⟩
      exact placed_kept kept (hear_placed ..) (hear_served ..)

theorem quiet_ready (status : response.status ≠ 200) :
    Ready remote (s.hear offset response) := by
  obtain ⟨_,size⟩ : StageOk remote s (.asked a offset) := at_ ▸ kept.stage
  by_cases zero : offset = 0
  · exact Or.inl ((hear_bytes ..).trans (List.length_eq_zero_iff.mp (size.symm.trans zero)))
  · have same : s.hear offset response = s := by
      unfold State.hear firstBytes
      rw [if_neg (by simp [zero,status])]
    rw [same]
    exact kept.live (by simp [at_])

theorem unsatisfied_kept (served : version ∈ s.served) {response : Response}
    (answered : remote.answer (request a offset) version (.unsatisfied named) = some response) (opened : Bool) :
    Kept remote (s.handle a offset response opened) := by
  obtain ⟨⟨same,totals⟩,size⟩ : StageOk remote s (.asked a offset) := at_ ▸ kept.stage
  obtain ⟨matches_,status,range⟩ : ((request a offset).ifRange = none ∨ (request a offset).ifRange = remote.tag version) ∧ response.status = 416 ∧
      response.headers.contentRange = some (unsatisfiedText (remote.content version).length) := by
    rw [Remote.answer] at answered
    split at answered
    · rename_i allowed
      cases answered
      exact ⟨allowed.1,rfl,rfl⟩
    · cases answered
  have ready : Ready remote (s.hear offset response) := quiet_ready kept at_ (by rw [status]; decide)
  have totals_same : (a.hear offset response).total = a.total := by
    unfold Attempt.hear
    split <;> rfl
  unfold State.handle
  rw [if_neg (by rw [status]; decide),if_neg (by rw [status]; decide),if_pos status]
  split
  · exact hear_kept kept response offset ready
  · rename_i total parsed
    obtain rfl := unsatisfied_read range parsed
    split
    · refine ⟨Or.inl ready,⟨hear_same same offset response,?_⟩,placed_kept kept (hear_placed ..) (hear_served ..)⟩
      intro t stated
      cases stated
      refine ⟨version,rfl,by simpa using served,?_⟩
      change (s.hear offset response).bytes <+: _ ∧ ((s.hear offset response).bytes ≠ [] → (s.hear offset response).remoteVersion = _)
      rw [hear_bytes]
      rcases served_front kept at_ matches_ with ⟨_,empty⟩ | ⟨some_,stored,front⟩
      · rw [empty]
        exact ⟨List.nil_prefix,fun none_ => absurd rfl none_⟩
      · refine ⟨front,fun _ => ?_⟩
        unfold State.hear firstBytes
        rw [if_neg (by simp [status]; omega)]
        exact stored
    · split
      · split
        · refine ⟨Or.inl (Or.inl rfl),⟨hear_same same offset response,?_⟩,placed_kept kept (hear_placed ..) (hear_served ..)⟩
          intro t stated
          obtain ⟨other,long,inside,_⟩ := totals t (totals_same.symm.trans stated)
          exact ⟨other,long,by simpa using inside,List.nil_prefix,fun some_ => absurd rfl some_⟩
        · exact hear_kept kept response offset ready
      · exact hear_kept kept response offset ready

theorem handle_kept (served : version ∈ s.served)
    (answered : remote.answer (request a offset) version answer = some response) (careful : Careful remote s (.answers version answer opened)) :
    Kept remote (s.handle a offset response opened) := by
  cases answer with
  | segment last => exact segment_kept kept at_ served answered opened
  | whole stated => exact whole_kept kept at_ served answered careful
  | unsatisfied named => exact unsatisfied_kept kept at_ served answered opened
  | refuses status =>
    rw [Remote.answer] at answered
    split at answered
    · cases answered
    · rename_i other
      cases answered
      simp only [List.mem_cons,List.not_mem_nil,or_false,not_or] at other
      unfold State.handle
      rw [if_neg other.2.1,if_neg other.1,if_neg other.2.2]
      exact hear_kept kept _ offset (quiet_ready kept at_ other.1)

end

end Answers

theorem step_kept (kept : Kept remote s) (careful : Careful remote s event) (stepped : step remote sha256 s event = some next) :
    Kept remote next := by
  cases event with
  | starts verify created =>
    cases at_ : s.stage <;> simp only [step,at_,Option.some.injEq,reduceCtorEq] at stepped
    subst stepped
    exact begin_kept kept verify created
  | asks =>
    cases at_ : s.stage <;> simp only [step,at_,Option.some.injEq,reduceCtorEq] at stepped
    subst stepped
    exact ask_kept kept at_
  | answers version answer opened =>
    cases at_ : s.stage <;> simp only [step,at_,reduceCtorEq,Option.map_eq_some_iff] at stepped
    obtain ⟨response,answered,rfl⟩ := stepped
    rw [← at_]
    exact handle_kept (served_kept kept version) at_ (List.mem_cons_self ..) answered (careful : Careful remote s (.answers version answer opened))
  | reads n =>
    cases at_ : s.stage <;> simp only [step,at_,Option.some.injEq,reduceCtorEq] at stepped
    subst stepped
    exact read_kept kept at_ n
  | jams n some_ =>
    cases at_ : s.stage <;> simp only [step,at_,Option.some.injEq,reduceCtorEq] at stepped
    subst stepped
    exact jam_kept kept at_ n some_
  | ends =>
    cases at_ : s.stage <;> simp only [step,at_,Option.some.injEq,reduceCtorEq] at stepped
    subst stepped
    exact close_kept kept at_
  | checks sum removed =>
    cases at_ : s.stage <;> simp only [step,at_,Option.some.injEq,reduceCtorEq] at stepped
    subst stepped
    exact check_kept kept at_ sum removed
  | places moved cleared stopped =>
    cases at_ : s.stage <;> simp only [step,at_,Option.some.injEq,reduceCtorEq] at stepped
    subst stepped
    exact place_kept kept at_ moved cleared stopped
  | fails | pauses =>
    cases at_ : s.stage <;> simp only [step,at_,Option.some.injEq,reduceCtorEq] at stepped
    all_goals subst stepped; exact idle_kept kept
  | cancels removed =>
    cases at_ : s.stage <;> simp only [step,at_,Option.some.injEq,reduceCtorEq] at stepped
    all_goals subst stepped; exact cancel_kept kept removed

theorem downloads_one_version (remote : Remote Version) (sha256 : Bytes → Text) (part : Option Bytes) (events : List (Event Version)) (last : State Version)
    (ran : run (step remote sha256) (fresh part) events = some last) (careful : Every (step remote sha256) (Careful remote) (fresh part) events) :
    ∀ bytes ∈ last.placed, ∃ version ∈ last.served, bytes = remote.content version := by
  have start : Kept remote (fresh part) := ⟨Or.inr ⟨rfl,rfl⟩,trivial,nofun⟩
  exact (run_preserves_when (Kept remote) (fun _ _ _ kept meets stepped => step_kept kept meets stepped) start careful ran).placed

def replacedFile : Remote Bool where
  content version := if version then [4,5,6,7] else [1,2,3]
  etag version := some (if version then ['"','b','"'] else ['"','a','"'])
  lastModified _ := none
  strong version := by cases version <;> decide
  own one other same := by
    cases one <;> cases other
    · rfl
    · exact absurd same (by decide)
    · exact absurd same (by decide)
    · rfl

-- The first two bytes of one version, a whole answer that another version is
-- refused for, and the rest of that version.
def refusedWhole (opened : Bool) : List (Event Bool) :=
  [.starts false true,.asks,.answers false (.segment 1) true,.reads 2,.fails,.starts false true,.asks,.answers true (.whole true) opened]

def resumed : List (Event Bool) := [.starts false true,.asks,.answers true (.segment 3) true,.reads 2,.ends,.asks,.places true true false]

theorem versions_mixed : ∃ last, run (step replacedFile fun _ => []) (fresh none) (refusedWhole false ++ resumed) = some last ∧
    [1,2,6,7] ∈ last.placed ∧ ∀ version, replacedFile.content version ≠ [1,2,6,7] := by
  refine ⟨_,rfl,List.mem_cons_self ..,?_⟩
  intro version
  cases version <;> decide

def restartedWhole : List (Event Bool) := refusedWhole true ++ [.jams 3 2,.starts false true,.asks,.answers true (.segment 3) true,.reads 2,.ends,.asks,.places true true false]

theorem restarted_one_version : ∃ last, run (step replacedFile fun _ => []) (fresh none) restartedWhole = some last ∧
    last.placed = [[4,5,6,7]] ∧ ∀ bytes ∈ last.placed, ∃ version ∈ last.served, bytes = replacedFile.content version := by
  refine ⟨_,rfl,rfl,?_⟩
  exact downloads_one_version replacedFile (fun _ => []) none restartedWhole _ rfl (by decide)

end Versions

end RemoteFileExplorer.DesktopDownloads
