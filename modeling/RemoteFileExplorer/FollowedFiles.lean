import RemoteFileExplorer.TextDecodes
import RemoteFileExplorer.Runs

namespace RemoteFileExplorer.FollowedFiles
open CodeUnits TextDecodes

def followChunkBytes : Nat := 1024 * 1024

-- The range is from its first to its last byte, both included.
inductive FollowStep where
  | idle
  | append (first last : Nat)
  | truncated
  deriving DecidableEq,Repr

def followStep (known current : Nat) : FollowStep :=
  if current < known then .truncated else
  if current = known then .idle else
  .append known (min current (known + followChunkBytes) - 1)

def newline : UInt8 := 0x0a

def linesBefore (bytes : Bytes) : Nat → Nat
  | 0 => 0
  | i + 1 => if bytes[i]? = some newline then i + 1 else linesBefore bytes i

def completeLines (bytes : Bytes) : Nat := linesBefore bytes bytes.length

def continues (bytes : Bytes) (i : Nat) : Bool := bytes[i]?.any fun b => b.toNat &&& 0xc0 == 0x80

-- Steps back over at most three continuation bytes. The result is the
-- position after the lead byte, and the number of steps.
def stepBack (bytes : Bytes) : Nat → Nat → Nat × Nat
  | 0,back => (0,back)
  | i + 1,back => if back < 3 && continues bytes i then stepBack bytes i (back + 1) else (i + 1,back)

def need (lead : UInt8) : Nat :=
  if lead.toNat ≥ 0xf0 then 4 else if lead.toNat ≥ 0xe0 then 3 else if lead.toNat ≥ 0xc0 then 2 else 1

def utf8SafeLength (bytes : Bytes) : Nat :=
  let (i,back) := stepBack bytes bytes.length 0
  if i = 0 then bytes.length else
  if back + 1 < need (bytes.getD (i - 1) 0) then i - 1 else bytes.length

def followChunk (bytes : Bytes) : Option (Units × Nat) :=
  let lines := completeLines bytes
  let consumed := if lines = 0 ∧ bytes.length ≥ followChunkBytes then utf8SafeLength bytes else lines
  if consumed = 0 then some ([],0) else (decodeAsText (bytes.take consumed)).map (·,consumed)

structure Follower where
  known : Nat
  text : Units
  stopped : Bool
  deriving DecidableEq,Repr

-- What came of asking for the range: the bytes of it, a range that is gone,
-- or nothing (a lost connection, or following was switched off meanwhile).
inductive Fetch where
  | slice
  | gone
  | lost
  deriving DecidableEq,Repr

structure Poll where
  size : Option Nat
  fetch : Fetch
  deriving DecidableEq,Repr

def slice (file : Bytes) (first last : Nat) : Bytes := (file.drop first).take (last + 1 - first)

def tick (file : Bytes) (f : Follower) (poll : Poll) : Follower :=
  match followStep f.known (poll.size.getD f.known) with
  | .truncated => { f with stopped := true }
  | .idle => f
  | .append first last =>
    match poll.fetch with
    | .lost => f
    | .gone => { f with stopped := true }
    | .slice =>
      match followChunk (slice file first last) with
      | none => { f with stopped := true }
      | some (text,consumed) =>
        { known := f.known + consumed, text := f.text ++ text, stopped := if text = [] then f.stopped else false }

def step (file : Bytes) (f : Follower) (poll : Poll) : Option Follower :=
  if ∀ size, poll.size = some size → size ≤ file.length then some (tick file f poll) else none

def started (shown : Nat) : Follower := ⟨shown,[],false⟩

def fetched (file : Bytes) (known current : Nat) : Bytes := (file.drop known).take (min current (known + followChunkBytes) - known)

def Exact (file : Bytes) (shown : Nat) (f : Follower) : Prop :=
  ∃ chars, utf8 chars = (file.take f.known).drop shown ∧ f.text = utf16 chars

theorem append_range (grown : known < current) : followStep known current = .append known (min current (known + followChunkBytes) - 1) := by
  rw [followStep,if_neg (by omega),if_neg (by omega)]

theorem slice_fetched (file : Bytes) (grown : known < current) :
    slice file known (min current (known + followChunkBytes) - 1) = fetched file known current := by
  have later : known < min current (known + followChunkBytes) := by
    simp only [followChunkBytes]
    omega
  rw [slice,fetched]
  congr 1
  omega

def isCont (b : UInt8) : Prop := 0x80 ≤ b.toNat ∧ b.toNat < 0xc0

theorem continues_iff (bytes : Bytes) (i : Nat) : continues bytes i = true ↔ ∃ b, bytes[i]? = some b ∧ isCont b := by
  simp only [continues,Option.any_eq_true,beq_iff_eq,mask_iff,isCont]

theorem encoded_shape (known : Encoded c bytes) : ∃ lead tail, bytes = lead::tail ∧ ¬isCont lead ∧ (∀ b ∈ tail,isCont b) ∧
    tail.length ≤ 3 ∧ need lead = tail.length + 1 ∧ (tail ≠ [] → 0xc0 ≤ lead.toNat) := by
  cases known with
  | one small lead => exact ⟨_,_,rfl,by unfold isCont; omega,nofun,by simp,by rw [need]; split_ifs <;> first | rfl | omega,nofun⟩
  | two large small lead first =>
      refine ⟨_,_,rfl,by unfold isCont; omega,?_,by simp,by rw [need]; split_ifs <;> first | rfl | omega,fun _ => by omega⟩
      simp only [List.mem_singleton,forall_eq,isCont]
      omega
  | three large small lead first second | four large lead first second third =>
      refine ⟨_,_,rfl,by unfold isCont; omega,?_,by simp,by rw [need]; split_ifs <;> first | rfl | omega,fun _ => by omega⟩
      simp only [List.mem_cons,List.not_mem_nil,or_false,forall_eq_or_imp,forall_eq,isCont]
      omega

theorem cut_chars (written : utf8 chars = bytes ++ more) :
    ∃ done part, bytes = utf8 done ++ part ∧ (part = [] ∨ ∃ c left, String.utf8EncodeChar c = part ++ left ∧ left ≠ []) := by
  induction chars generalizing bytes with
  | nil =>
      have empty : bytes = [] := by
        rw [utf8_nil,eq_comm,List.append_eq_nil_iff] at written
        exact written.1
      exact ⟨[],[],by rw [empty]; rfl,.inl rfl⟩
  | cons c chars ih =>
      rw [utf8_cons,List.append_eq_append_iff] at written
      rcases written with ⟨later,rfl,rest⟩ | ⟨left,whole,rest⟩
      · obtain ⟨done,part,same,tail⟩ := ih rest
        exact ⟨c::done,part,by rw [utf8_cons,same,List.append_assoc],tail⟩
      · by_cases complete : left = []
        · subst complete
          exact ⟨[c],[],by simpa [utf8] using whole.symm,.inl rfl⟩
        · exact ⟨[],bytes,rfl,.inr ⟨c,left,whole,complete⟩⟩

theorem part_shape (whole : String.utf8EncodeChar c = part ++ left) (incomplete : left ≠ []) (solid : part ≠ []) :
    ∃ lead tail, part = lead::tail ∧ 0xc0 ≤ lead.toNat ∧ (∀ b ∈ tail,isCont b) ∧ tail.length ≤ 3 ∧ tail.length + 1 < need lead := by
  obtain ⟨lead,tail,same,_,conts,few,wanted,large⟩ := encoded_shape ((encoded_iff c _).mpr whole)
  cases part with
  | nil => exact absurd rfl solid
  | cons b rest =>
      rw [List.cons_append,List.cons.injEq] at same
      obtain ⟨rfl,rfl⟩ := same
      have missing : 0 < left.length := List.length_pos_iff.mpr incomplete
      rw [List.length_append] at few wanted
      refine ⟨b,rest,rfl,large (by simp [incomplete]),fun u member => conts u (List.mem_append_left _ member),by omega,by omega⟩

theorem cut_after_newline (written : utf8 chars = bytes ++ more) (ended : bytes.getLast? = some newline) : WellFormed bytes := by
  obtain ⟨done,part,rfl,shape⟩ := cut_chars written
  rcases shape with rfl | ⟨c,left,whole,incomplete⟩
  · exact ⟨done,by simp⟩
  · by_cases solid : part = []
    · exact ⟨done,by simp [solid]⟩
    · obtain ⟨lead,tail,rfl,large,conts,_,_⟩ := part_shape whole incomplete solid
      have last : (lead::tail).getLast? = some newline := by
        rwa [List.getLast?_append_of_ne_nil _ solid] at ended
      rcases List.mem_cons.mp (List.mem_of_getLast? last) with rfl | member
      · exact absurd large (by decide)
      · have range := (conts _ member).1
        exact absurd range (by decide)

theorem stepBack_over (k : Nat) (conts : ∀ j < k,continues bytes (i + j) = true) (few : back + k ≤ 3)
    (stops : i = 0 ∨ back + k = 3 ∨ continues bytes (i - 1) = false) : stepBack bytes (i + k) back = (i,back + k) := by
  induction k generalizing back with
  | zero =>
      cases i with
      | zero => rfl
      | succ i =>
          have stuck : (back < 3 && continues bytes i) = false := by
            rcases stops with zero | full | other
            · cases zero
            · simp [show ¬back < 3 by omega]
            · simp only [Nat.add_sub_cancel] at other
              simp [other]
          simp [stepBack,stuck]
  | succ k ih =>
      have last := conts k (by omega)
      have onward := ih (fun j inside => conts j (by omega)) (show back + 1 + k ≤ 3 by omega) (stops.imp_right (Or.imp_left (by omega)))
      rw [← Nat.add_assoc,stepBack,last,decide_eq_true (show back < 3 by omega),Bool.and_self,if_pos rfl,onward]
      congr 1
      omega

theorem safe_length (front : Bytes) (leads : ¬isCont lead) (conts : ∀ b ∈ tail,isCont b) (few : tail.length ≤ 3) :
    utf8SafeLength (front ++ lead::tail) =
      if tail.length + 1 < need lead then front.length else (front ++ lead::tail).length := by
  have reached : stepBack (front ++ lead::tail) (front ++ lead::tail).length 0 = (front.length + 1,tail.length) := by
    have inside : ∀ j < tail.length,continues (front ++ lead::tail) (front.length + 1 + j) = true := by
      intro j small
      refine (continues_iff _ _).mpr ⟨tail[j],?_,conts _ (List.getElem_mem small)⟩
      rw [List.getElem?_append_right (by omega),show front.length + 1 + j - front.length = j + 1 by omega]
      simp
    have stops : continues (front ++ lead::tail) (front.length + 1 - 1) = false := by
      rw [Bool.eq_false_iff,ne_eq,continues_iff,Nat.add_sub_cancel]
      rintro ⟨b,found,range⟩
      rw [List.getElem?_append_right (Nat.le_refl _),Nat.sub_self,List.getElem?_cons_zero] at found
      cases found
      exact leads range
    have atEnd := stepBack_over tail.length inside (show 0 + tail.length ≤ 3 by omega) (.inr (.inr stops))
    have length : (front ++ lead::tail).length = front.length + 1 + tail.length := by
      simp only [List.length_append,List.length_cons]
      omega
    rw [length,atEnd,Nat.zero_add]
  have found : (front ++ lead::tail).getD front.length 0 = lead := by simp
  simp only [utf8SafeLength,reached,Nat.add_sub_cancel,found]
  simp

theorem utf8_last (solid : chars ≠ []) : ∃ before c, utf8 chars = utf8 before ++ String.utf8EncodeChar c := by
  refine ⟨chars.dropLast,chars.getLast solid,?_⟩
  conv_lhs => rw [← List.dropLast_concat_getLast solid]
  simp

theorem safe_cut (written : utf8 chars = bytes ++ more) (solid : bytes ≠ []) :
    WellFormed (bytes.take (utf8SafeLength bytes)) ∧ bytes.length ≤ utf8SafeLength bytes + 3 ∧ utf8SafeLength bytes ≤ bytes.length := by
  obtain ⟨done,part,same,shape⟩ := cut_chars written
  by_cases empty : part = []
  · have chars : done ≠ [] := by
      intro none
      rw [none,empty] at same
      exact solid same
    obtain ⟨before,c,last⟩ := utf8_last chars
    obtain ⟨lead,tail,encoding,leads,conts,few,wanted,_⟩ := encoded_shape (encoded c)
    have whole : utf8SafeLength bytes = bytes.length := by
      rw [same,empty,List.append_nil,last,encoding,safe_length _ leads conts few,if_neg (by omega)]
    rw [whole,List.take_length]
    exact ⟨⟨done,by rw [same,empty,List.append_nil]⟩,by omega,Nat.le_refl _⟩
  · rcases shape with none | ⟨c,left,encoding,incomplete⟩
    · exact absurd none empty
    · obtain ⟨lead,tail,rfl,large,conts,few,wanted⟩ := part_shape encoding incomplete empty
      have short : utf8SafeLength bytes = (utf8 done).length := by
        rw [same,safe_length _ (by unfold isCont; omega) conts few,if_pos wanted]
      have longer : bytes.length = (utf8 done).length + (tail.length + 1) := by rw [same]; simp
      have small : need lead ≤ 4 := by unfold need; split_ifs <;> omega
      refine ⟨⟨done,?_⟩,by omega,by omega⟩
      rw [short,same,List.take_left']
      rfl

theorem lines_found (bytes : Bytes) (n : Nat) :
    linesBefore bytes n = 0 ∧ (∀ i < n,bytes[i]? ≠ some newline) ∨
      ∃ i, linesBefore bytes n = i + 1 ∧ bytes[i]? = some newline := by
  induction n with
  | zero => exact .inl ⟨rfl,nofun⟩
  | succ n ih =>
      by_cases found : bytes[n]? = some newline
      · exact .inr ⟨n,by simp [linesBefore,found],found⟩
      · have skipped : linesBefore bytes (n + 1) = linesBefore bytes n := by simp [linesBefore,found]
        rw [skipped]
        rcases ih with ⟨zero,absent⟩ | present
        · refine .inl ⟨zero,fun i small => ?_⟩
          by_cases same : i = n
          · rwa [same]
          · exact absent i (by omega)
        · exact .inr present

theorem complete_cut (written : utf8 chars = bytes ++ more) :
    WellFormed (bytes.take (completeLines bytes)) ∧ completeLines bytes ≤ bytes.length ∧ (newline ∈ bytes → 0 < completeLines bytes) := by
  rcases lines_found bytes bytes.length with ⟨zero,absent⟩ | ⟨i,lines,found⟩
  · refine ⟨⟨[],by simp [completeLines,zero]⟩,by simp [completeLines,zero],fun member => ?_⟩
    obtain ⟨i,small,same⟩ := List.mem_iff_getElem.mp member
    exact absurd (List.getElem?_eq_some_iff.mpr ⟨small,same⟩) (absent i small)
  · obtain ⟨small,same⟩ := List.getElem?_eq_some_iff.mp found
    rw [completeLines,lines]
    refine ⟨?_,small,fun _ => Nat.succ_pos i⟩
    have split : utf8 chars = bytes.take (i + 1) ++ (bytes.drop (i + 1) ++ more) := by
      rw [← List.append_assoc,List.take_append_drop,written]
    refine cut_after_newline split ?_
    rw [List.take_add_one,found]
    simp

def Taken (bytes : Bytes) : Prop := newline ∈ bytes ∨ followChunkBytes ≤ bytes.length

theorem chunk_taken (written : utf8 chars = bytes ++ more) (solid : bytes ≠ []) : ∃ taken,
    followChunk bytes = (if taken = 0 then some ([],0) else (decodeAsText (bytes.take taken)).map (·,taken)) ∧
      taken ≤ bytes.length ∧ WellFormed (bytes.take taken) ∧ (0 < taken ↔ Taken bytes) := by
  obtain ⟨cut,fits,progress⟩ := complete_cut written
  refine ⟨_,rfl,?_⟩
  split
  next long =>
    obtain ⟨zero,full⟩ := long
    obtain ⟨safe,near,inside⟩ := safe_cut written solid
    have some : 0 < utf8SafeLength bytes := by
      simp only [followChunkBytes] at full
      omega
    exact ⟨inside,safe,fun _ => .inr full,fun _ => some⟩
  next short =>
    refine ⟨fits,cut,?_,?_⟩
    · intro some
      by_contra untaken
      rcases lines_found bytes bytes.length with ⟨zero,_⟩ | ⟨i,_,found⟩
      · exact Nat.lt_irrefl 0 (by rwa [completeLines,zero] at some)
      · exact untaken (.inl (List.mem_of_getElem? found))
    · rintro (member | full)
      · exact progress member
      · by_contra none
        exact short ⟨by omega,full⟩

theorem mark_char : mark = utf8 ['\ufeff'] := by decide

theorem decoded_whole (written : utf8 chars = bytes) (textual : 0 ∉ bytes) :
    ∃ units, decodeAsText bytes = some units ∧ (bytes.take 3 ≠ mark → units = utf16 chars) := by
  have allowed : 0 ∉ bytes.take sample := fun member => textual (List.mem_of_mem_take member)
  rw [decodeAsText,if_neg allowed,unmarked]
  split
  next marked =>
    have split : WellFormed (utf8 ['\ufeff'] ++ bytes.drop 3) := by
      rw [← mark_char,← marked,List.take_append_drop]
      exact ⟨chars,written⟩
    obtain ⟨rest,same⟩ := well_formed_right ⟨_,rfl⟩ split
    exact ⟨utf16 rest,(decode_iff _ _).mpr ⟨rest,same,rfl⟩,fun other => absurd marked other⟩
  next => exact ⟨utf16 chars,(decode_iff _ _).mpr ⟨chars,written,rfl⟩,fun _ => rfl⟩

structure Sound (file : Bytes) (shown : Nat) (f : Follower) : Prop where
  after : shown ≤ f.known
  fits : f.known ≤ file.length
  boundary : WellFormed (file.take f.known)

theorem fetched_length (grown : known < size) (inside : size ≤ file.length) :
    (fetched file known size).length = min size (known + followChunkBytes) - known ∧ 0 < (fetched file known size).length := by
  simp only [fetched,List.length_take,List.length_drop,followChunkBytes]
  omega

theorem rest_written (valid : WellFormed file) (sound : Sound file shown f) (size : Nat) :
    ∃ chars, utf8 chars = fetched file f.known size ++ (file.drop f.known).drop (min size (f.known + followChunkBytes) - f.known) := by
  rw [← List.take_append_drop f.known file] at valid
  obtain ⟨chars,same⟩ := well_formed_right sound.boundary valid
  exact ⟨chars,by rw [fetched,List.take_append_drop,same]⟩

-- What a poll takes of the slice it brought. A mark in front is the one case
-- in which the units are not those of the characters taken.
structure Takes (file : Bytes) (known size taken : Nat) (chars : List Char) (units : Units) : Prop where
  written : utf8 chars = (file.drop known).take taken
  fits : known + taken ≤ file.length
  progress : 0 < taken ↔ Taken (fetched file known size)
  decoded : ((fetched file known size).take 3 = mark → ¬Taken (fetched file known size)) → units = utf16 chars

theorem slice_polled (valid : WellFormed file) (textual : 0 ∉ file) (sound : Sound file shown f) (grown : f.known < size)
    (inside : size ≤ file.length) : ∃ taken chars units, Takes file f.known size taken chars units ∧
      tick file f ⟨some size,.slice⟩ =
        { known := f.known + taken, text := f.text ++ units, stopped := if units = [] then f.stopped else false } := by
  obtain ⟨all,split⟩ := rest_written valid sound size
  obtain ⟨length,solid⟩ := fetched_length grown inside
  obtain ⟨taken,chunk,fits,⟨chars,written⟩,progress⟩ := chunk_taken split (List.length_pos_iff.mp solid)
  have front : (fetched file f.known size).take taken = (file.drop f.known).take taken := by
    rw [fetched,List.take_take,Nat.min_eq_left (by omega)]
  have polled : tick file f ⟨some size,.slice⟩ =
      match followChunk (fetched file f.known size) with
      | none => { f with stopped := true }
      | some (text,consumed) =>
        { known := f.known + consumed, text := f.text ++ text, stopped := if text = [] then f.stopped else false } := by
    simp only [tick,Option.getD_some,append_range grown,slice_fetched file grown]
  have bound : f.known + taken ≤ file.length := by omega
  by_cases zero : taken = 0
  · subst zero
    refine ⟨0,[],[],⟨by simp,by omega,progress,fun _ => rfl⟩,?_⟩
    rw [polled,chunk,if_pos rfl]
  · have free : 0 ∉ (fetched file f.known size).take taken := by
      intro member
      rw [front] at member
      exact textual (List.mem_of_mem_drop (List.mem_of_mem_take member))
    obtain ⟨units,decoded,exactly⟩ := decoded_whole written free
    refine ⟨taken,chars,units,⟨by rw [written,front],bound,progress,fun plain => exactly ?_⟩,?_⟩
    · intro marked
      have three := congrArg List.length marked
      simp only [List.length_take,mark,List.length_cons,List.length_nil] at three
      rw [List.take_take,Nat.min_eq_left (by omega)] at marked
      exact plain marked (progress.mp (by omega))
    · rw [polled,chunk,if_neg zero,decoded]
      rfl

-- The poll fetches no byte-order mark in front of bytes that are then shown.
def Plain (file : Bytes) (f : Follower) (poll : Poll) : Prop :=
  ∀ size, poll = ⟨some size,.slice⟩ → f.known < size → (fetched file f.known size).take 3 = mark → ¬Taken (fetched file f.known size)

def Progress (file : Bytes) (f : Follower) : Prop :=
  ∀ size, f.known < size → size ≤ file.length → Taken (fetched file f.known size) → f.known < (tick file f ⟨some size,.slice⟩).known

theorem sound_progress (valid : WellFormed file) (textual : 0 ∉ file) (sound : Sound file shown f) : Progress file f := by
  intro size grown inside taking
  obtain ⟨taken,chars,units,takes,polled⟩ := slice_polled valid textual sound grown inside
  have forward := takes.progress.mpr taking
  rw [polled]
  exact Nat.lt_add_of_pos_right forward

theorem tick_cases (stepped : step file f poll = some next) :
    (next.known = f.known ∧ next.text = f.text) ∨
      ∃ size, poll = ⟨some size,.slice⟩ ∧ f.known < size ∧ size ≤ file.length ∧ next = tick file f poll := by
  unfold step at stepped
  split at stepped
  next inside =>
    cases stepped
    rcases poll with ⟨size,fetch⟩
    cases size with
    | none => exact .inl (by simp [tick,followStep])
    | some size =>
        by_cases grown : f.known < size
        · cases fetch with
          | slice => exact .inr ⟨size,rfl,grown,inside size rfl,rfl⟩
          | gone | lost => exact .inl (by simp [tick,append_range grown])
        · left
          simp only [tick,Option.getD_some,followStep]
          by_cases shorter : size < f.known
          · simp [shorter]
          · simp [show size = f.known by omega]
  · cases stepped

theorem taken_front (file : Bytes) (known taken : Nat) : file.take (known + taken) = file.take known ++ (file.drop known).take taken := by
  rw [List.take_add]

theorem step_sound (valid : WellFormed file) (textual : 0 ∉ file) (sound : Sound file shown f) (stepped : step file f poll = some next) :
    Sound file shown next := by
  rcases tick_cases stepped with ⟨known,_⟩ | ⟨size,rfl,grown,inside,rfl⟩
  · exact ⟨known ▸ sound.after,known ▸ sound.fits,known ▸ sound.boundary⟩
  · obtain ⟨taken,chars,units,takes,polled⟩ := slice_polled valid textual sound grown inside
    obtain ⟨before,same⟩ := sound.boundary
    rw [polled]
    refine ⟨Nat.le_add_right_of_le sound.after,takes.fits,before ++ chars,?_⟩
    rw [utf8_append,same,takes.written,taken_front]

theorem step_exact (valid : WellFormed file) (textual : 0 ∉ file) (sound : Sound file shown f) (exactly : Exact file shown f)
    (plain : Plain file f poll) (stepped : step file f poll = some next) : Exact file shown next := by
  rcases tick_cases stepped with ⟨known,text⟩ | ⟨size,rfl,grown,inside,rfl⟩
  · obtain ⟨chars,written,same⟩ := exactly
    exact ⟨chars,by rw [written,known],by rw [text,same]⟩
  · obtain ⟨taken,chars,units,takes,polled⟩ := slice_polled valid textual sound grown inside
    obtain ⟨before,written,same⟩ := exactly
    have decoded := takes.decoded (plain size rfl grown)
    have long : shown ≤ (file.take f.known).length := by
      rw [List.length_take,Nat.min_eq_left sound.fits]
      exact sound.after
    rw [polled]
    refine ⟨before ++ chars,?_,?_⟩
    · rw [utf8_append,written,takes.written,taken_front,List.drop_append_of_le_length long]
    · rw [utf16_append,same,decoded]

theorem following_exact (valid : WellFormed file) (textual : 0 ∉ file) (fits : shown ≤ file.length) (copy : WellFormed (file.take shown))
    (plain : Runs.Every (step file) (Plain file) (started shown) polls)
    (ran : Runs.run (step file) (started shown) polls = some f) : Exact file shown f ∧ Progress file f := by
  have start : Sound file shown (started shown) ∧ Exact file shown (started shown) :=
    ⟨⟨Nat.le_refl _,fits,copy⟩,[],by simp [started],rfl⟩
  have reached := Runs.run_preserves_when (fun f => Sound file shown f ∧ Exact file shown f)
    (fun s event next before meets stepped =>
      ⟨step_sound valid textual before.1 stepped,step_exact valid textual before.1 before.2 meets stepped⟩) start plain ran
  exact ⟨reached.2,sound_progress valid textual reached.1⟩

theorem following_exact_line : Exact [0x61,0x0a,0x62,0x0a] 2 ⟨4,[0x62,0x0a],false⟩ ∧ Progress [0x61,0x0a,0x62,0x0a] ⟨4,[0x62,0x0a],false⟩ :=
  following_exact ⟨['a','\n','b','\n'],by decide⟩ (by decide) (by decide) ⟨['a','\n'],by decide⟩
    (show Runs.Every _ _ _ [⟨some 4,.slice⟩] from
      ⟨fun size same _ marked => by cases same; exact absurd marked (by decide),fun _ _ => trivial⟩) (by decide)

theorem mark_lost : WellFormed [0x61,0x0a,0xef,0xbb,0xbf,0x62,0x0a] ∧ 0 ∉ ([0x61,0x0a,0xef,0xbb,0xbf,0x62,0x0a] : Bytes) ∧
    Runs.run (step [0x61,0x0a,0xef,0xbb,0xbf,0x62,0x0a]) (started 2) [⟨some 7,.slice⟩] = some ⟨7,[0x62,0x0a],false⟩ ∧
    ¬Exact [0x61,0x0a,0xef,0xbb,0xbf,0x62,0x0a] 2 ⟨7,[0x62,0x0a],false⟩ := by
  refine ⟨⟨['a','\n','\ufeff','b','\n'],by decide⟩,by decide,by decide,?_⟩
  rintro ⟨chars,written,same⟩
  have decoded := decode_utf8 chars
  rw [written] at decoded
  have units : decodeFrom [0xef,0xbb,0xbf,0x62,0x0a] = some [0xfeff,0x62,0x0a] := by decide
  have other : some (utf16 chars) = some [0xfeff,0x62,0x0a] := decoded.symm.trans units
  rw [← same] at other
  exact absurd other (by decide)

end RemoteFileExplorer.FollowedFiles
