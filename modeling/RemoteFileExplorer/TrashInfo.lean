import RemoteFileExplorer.PercentCodes

namespace RemoteFileExplorer.TrashInfo
open PercentCodes

-- White space as strings.TrimSpace knows it, each character with its UTF-8 bytes.
def spaces : List Bytes :=
  [[9],[10],[11],[12],[13],[32],[0xC2,0x85],[0xC2,0xA0],[0xE1,0x9A,0x80],[0xE2,0x80,0x80],[0xE2,0x80,0x81],[0xE2,0x80,0x82],
    [0xE2,0x80,0x83],[0xE2,0x80,0x84],[0xE2,0x80,0x85],[0xE2,0x80,0x86],[0xE2,0x80,0x87],[0xE2,0x80,0x88],[0xE2,0x80,0x89],
    [0xE2,0x80,0x8A],[0xE2,0x80,0xA8],[0xE2,0x80,0xA9],[0xE2,0x80,0xAF],[0xE2,0x81,0x9F],[0xE3,0x80,0x80]]

-- One run of the loop takes one character away; no text has more of them than bytes.
def trimFront (blanks : List Bytes) : Nat → Bytes → Bytes
  | 0,text => text
  | fuel + 1,text =>
    match blanks.find? (·.isPrefixOf text) with
    | some blank => trimFront blanks fuel (text.drop blank.length)
    | none => text

def trimSpace (text : Bytes) : Bytes :=
  let left := trimFront spaces text.length text
  (trimFront (spaces.map List.reverse) left.length left.reverse).reverse

def encodeTrashPath (path : Bytes) : Bytes := [slash].intercalate ((path.splitOn slash).map pathEscape)

-- The wall clock as the trash information shows it, to the second and without zone.
structure Stamp where
  year : Nat
  month : Nat
  day : Nat
  hour : Nat
  minute : Nat
  second : Nat
  deriving DecidableEq, Repr

def padded (width n : Nat) : List Char := List.replicate (width - (Nat.toDigits 10 n).length) '0' ++ Nat.toDigits 10 n

def Stamp.chars (t : Stamp) : List Char :=
  padded 4 t.year ++ '-'::padded 2 t.month ++ '-'::padded 2 t.day ++ 'T'::padded 2 t.hour ++ ':'::padded 2 t.minute ++
    ':'::padded 2 t.second

def Stamp.format (t : Stamp) : Bytes := t.chars.map fun c => UInt8.ofNat c.toNat

def header : Bytes := ascii "[Trash Info]"
def pathKey : Bytes := ascii "Path="
def dateKey : Bytes := ascii "DeletionDate="

def content (path : Bytes) (now : Stamp) : Bytes :=
  header ++ newline::pathKey ++ encodeTrashPath path ++ newline::dateKey ++ now.format ++ [newline]

structure Read where
  originalPath : Bytes
  deletedAt : Bytes
  deriving DecidableEq, Repr

def cutPrefix (key line : Bytes) : Option Bytes := if key.isPrefixOf line then some (line.drop key.length) else none

-- A later line of the same key wins.
def readLine (read : Read) (line : Bytes) : Option Read :=
  match cutPrefix pathKey line with
  | some value => (pathUnescape (trimSpace value)).map fun path => {read with originalPath := path}
  | none =>
    match cutPrefix dateKey line with
    | some value => some {read with deletedAt := trimSpace value}
    | none => some read

def isAbs (path : Bytes) : Bool := path.head? == some slash

def readTrashInfo (data : Bytes) : Option Read :=
  ((data.splitOn newline).foldlM readLine ⟨[],[]⟩).filter fun read => isAbs read.originalPath

theorem blank_ungraphic : ∀ blank ∈ spaces, ∀ c ∈ blank, c.toNat < 33 ∨ 126 < c.toNat := by
  decide +kernel

theorem trimFront_kept {blanks : List Bytes} (blank : ∀ b ∈ blanks, b ≠ [] ∧ ∀ c ∈ b, c.toNat < 33 ∨ 126 < c.toNat)
    (graphic : ∀ c ∈ text, Graphic c) (fuel : Nat) : trimFront blanks fuel text = text := by
  cases fuel with
  | zero => rfl
  | succ fuel =>
    have unmatched : blanks.find? (·.isPrefixOf text) = none := by
      rw [List.find?_eq_none]
      intro b member starts
      obtain ⟨rest,rfl⟩ := List.isPrefixOf_iff_prefix.mp starts
      obtain ⟨nonempty,outside⟩ := blank b member
      obtain ⟨c,more,rfl⟩ := List.exists_cons_of_ne_nil nonempty
      have inside := graphic c (by simp)
      have apart := outside c List.mem_cons_self
      unfold Graphic at inside
      omega
    unfold trimFront
    rw [unmatched]

theorem trimSpace_graphic (graphic : ∀ c ∈ text, Graphic c) : trimSpace text = text := by
  have front : ∀ b ∈ spaces, b ≠ [] ∧ ∀ c ∈ b, c.toNat < 33 ∨ 126 < c.toNat :=
    fun b member => ⟨by revert member b; decide,blank_ungraphic b member⟩
  have back : ∀ b ∈ spaces.map List.reverse, b ≠ [] ∧ ∀ c ∈ b, c.toNat < 33 ∨ 126 < c.toNat := by
    intro b member
    obtain ⟨blank,known,rfl⟩ := List.mem_map.mp member
    obtain ⟨nonempty,outside⟩ := front blank known
    exact ⟨by simpa using nonempty,fun c inside => outside c (List.mem_reverse.mp inside)⟩
  unfold trimSpace
  dsimp only
  rw [trimFront_kept front graphic,trimFront_kept back fun c member => graphic c (List.mem_reverse.mp member),List.reverse_reverse]

theorem encodeTrashPath_graphic (path : Bytes) : ∀ c ∈ encodeTrashPath path, Graphic c := by
  have joined : ∀ segments : List Bytes, (∀ segment ∈ segments, ∀ c ∈ segment, Graphic c) →
      ∀ c ∈ [slash].intercalate segments, Graphic c := by
    intro segments
    induction segments with
    | nil => simp
    | cons segment rest ih =>
      intro graphic c member
      cases rest with
      | nil => exact graphic segment (by simp) c (by simpa using member)
      | cons next rest =>
        have split : [slash].intercalate (segment::next::rest) = segment ++ slash::[slash].intercalate (next::rest) := by simp
        rcases List.mem_append.mp member with first | later
        · exact graphic segment List.mem_cons_self c first
        · rcases List.mem_cons.mp later with rfl | later
          · exact ⟨by decide,by decide⟩
          · exact ih (fun other known => graphic other (List.mem_cons_of_mem _ known)) c later
  refine joined _ ?_
  intro segment member
  obtain ⟨plain,_,rfl⟩ := List.mem_map.mp member
  exact pathEscape_graphic plain

theorem encodeTrashPath_unescaped (path : Bytes) : pathUnescape (encodeTrashPath path) = some path := by
  unfold encodeTrashPath
  rw [pathUnescape_segments,List.intercalate_splitOn]

def Shown (c : Char) : Prop := c.isDigit = true ∨ c = '-' ∨ c = 'T' ∨ c = ':'

theorem padded_shown : ∀ c ∈ padded width n, Shown c := by
  intro c member
  rcases List.mem_append.mp member with zero | digit
  · rw [(List.mem_replicate.mp zero).2]
    exact .inl rfl
  · exact .inl (Nat.isDigit_of_mem_toDigits (by decide) (by decide) digit)

theorem chars_shown (t : Stamp) : ∀ c ∈ t.chars, Shown c := by
  intro c member
  simp only [Stamp.chars,List.mem_append,List.mem_cons] at member
  rcases member with ((((year | rfl | month) | rfl | day) | rfl | hour) | rfl | minute) | rfl | second
  · exact padded_shown c year
  · exact .inr (.inl rfl)
  · exact padded_shown c month
  · exact .inr (.inl rfl)
  · exact padded_shown c day
  · exact .inr (.inr (.inl rfl))
  · exact padded_shown c hour
  · exact .inr (.inr (.inr rfl))
  · exact padded_shown c minute
  · exact .inr (.inr (.inr rfl))
  · exact padded_shown c second

theorem shown_graphic (shown : Shown c) : Graphic (UInt8.ofNat c.toNat) := by
  rcases shown with digit | rfl | rfl | rfl
  · have bounds : 48 ≤ c.toNat ∧ c.toNat ≤ 57 := by
      simp only [Char.isDigit,Bool.and_eq_true,decide_eq_true_eq,ge_iff_le,UInt32.le_iff_toNat_le] at digit
      exact digit
    have code : (UInt8.ofNat c.toNat).toNat = c.toNat := by
      exact Nat.mod_eq_of_lt (by omega)
    unfold Graphic
    omega
  all_goals exact ⟨by decide,by decide⟩

theorem format_graphic (t : Stamp) : ∀ c ∈ t.format, Graphic c := by
  intro c member
  obtain ⟨shown,known,rfl⟩ := List.mem_map.mp member
  exact shown_graphic (chars_shown t shown known)

theorem cutPrefix_own (key value : Bytes) : cutPrefix key (key ++ value) = some value := by
  unfold cutPrefix
  rw [if_pos (List.isPrefixOf_iff_prefix.mpr ⟨value,rfl⟩),List.drop_left]

theorem graphic_line {line : Bytes} (graphic : ∀ c ∈ line, Graphic c) : newline ∉ line := by
  intro member
  have inside := graphic newline member
  revert inside
  unfold Graphic
  decide

theorem content_lines (path : Bytes) (now : Stamp) :
    (content path now).splitOn newline = [header,pathKey ++ encodeTrashPath path,dateKey ++ now.format,[]] := by
  have joined : content path now = [newline].intercalate [header,pathKey ++ encodeTrashPath path,dateKey ++ now.format,[]] := by
    simp [content]
  rw [joined]
  refine List.splitOn_intercalate newline ?_ (by simp)
  intro line member
  simp only [List.mem_cons,List.not_mem_nil,or_false] at member
  rcases member with rfl | rfl | rfl | rfl
  · decide
  · rw [List.mem_append]
    rintro (key | value)
    · revert key
      decide
    · exact graphic_line (encodeTrashPath_graphic path) value
  · rw [List.mem_append]
    rintro (key | value)
    · revert key
      decide
    · exact graphic_line (format_graphic now) value
  · simp

theorem readTrashInfo_content (path : Bytes) (absolute : isAbs path = true) (now : Stamp) :
    readTrashInfo (content path now) = some ⟨path,now.format⟩ := by
  have pathLine : readLine ⟨[],[]⟩ (pathKey ++ encodeTrashPath path) = some ⟨path,[]⟩ := by
    unfold readLine
    rw [cutPrefix_own]
    dsimp only
    rw [trimSpace_graphic (encodeTrashPath_graphic path),encodeTrashPath_unescaped]
    rfl
  have dateLine : readLine ⟨path,[]⟩ (dateKey ++ now.format) = some ⟨path,now.format⟩ := by
    have other : cutPrefix pathKey (dateKey ++ now.format) = none := rfl
    unfold readLine
    rw [other,cutPrefix_own]
    dsimp only
    rw [trimSpace_graphic (format_graphic now)]
  have first : readLine ⟨[],[]⟩ header = some ⟨[],[]⟩ := rfl
  have last : readLine ⟨path,now.format⟩ [] = some ⟨path,now.format⟩ := rfl
  unfold readTrashInfo
  rw [content_lines]
  simp only [List.foldlM_cons,first,Option.bind_eq_bind,Option.bind_some,pathLine,dateLine,last,List.foldlM_nil,Option.pure_def,
    Option.filter_some,absolute,if_true]

end RemoteFileExplorer.TrashInfo
