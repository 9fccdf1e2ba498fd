import RemoteFileExplorer.CodeUnits
import RemoteFileExplorer.TransferNames

namespace RemoteFileExplorer.LocalNames
open PathTexts TransferNames

def forbidden : List Char := ['<','>',':','"','|','?','*']

def deviceNames : List Text :=
  [['C','O','N'],['P','R','N'],['A','U','X'],['N','U','L']] ++
    [['C','O','M'],['L','P','T']].flatMap fun port => ['1','2','3','4','5','6','7','8','9'].map fun digit => port ++ [digit]

local instance texts_lawful : LawfulBEq Text := inferInstance

def reserved (name : Text) : Bool := decide (((name.takeWhile (· ≠ '.')).rdropWhile isSpace).map asciiUpper ∈ deviceNames)

-- A text of characters is valid UTF-8, and one without a separator or a first
-- dot is a single component.
structure Safe (name : Text) : Prop where
  given : name ≠ []
  short : utf8Len name ≤ 200
  plain : ∀ c ∈ name, isSeparator c = false ∧ isControl c = false ∧ c ∉ forbidden
  front : name.head? ≠ some '.'
  back : ∀ c, name.getLast? = some c → c ≠ '.' ∧ c ≠ ' '
  free : reserved name = false

def lastPart (path : Text) : Text := ((path.splitOnP isSeparator).reverse.find? (· ≠ [])).getD []
def cleaned (path : Text) : Text := (shown (lastPart path)).map fun c => if c ∈ ['<','>',':','"','|','?','*'] then '_' else c
def trimmed (path : Text) : Text := ((cleaned path).dropWhile edge).rdropWhile edge
def localName (path : Text) : Text :=
  if trimmed path = [] then unnamed else if isWindowsDevice (trimmed path) then '_'::trimmed path else trimmed path

def cut (name : Text) : Text :=
  if utf8Len name ≤ 200 then name else
  let (stem,ext) := splitExt name
  let keep := max (200 - utf8Len ext) 1
  let short := (takeBytes (min keep (utf8Len stem)) stem).rdropWhile edge
  (if short = [] then unnamed else short) ++ ext

def fitting (name : Text) : Text := takeBytes (200 - utf8Len (splitExt name).2) (splitExt name).1

def numberBytes (n : Nat) : Nat := if n = 0 then 0 else (Nat.toDigits 10 n).length + 3

-- A name that is not cut leaves room for the number. In one that is, every
-- beginning of the stem that fits without the number and not with it ends in a
-- dot or in white space.
def Room (name : Text) (n : Nat) : Prop :=
  if utf8Len name ≤ 200 then utf8Len name + numberBytes n ≤ 200
  else ∀ front, front <+: (splitExt name).1 → utf8Len front + utf8Len (splitExt name).2 ≤ 200 →
    200 < utf8Len front + utf8Len (splitExt name).2 + numberBytes n → ∃ c, front.getLast? = some c ∧ edge c = true

-- The cut does not come between a device name and what made it none.
def Unexposed (name : Text) : Prop := 200 < utf8Len name → reserved (fitting name) = false

theorem utf8Len_nil : utf8Len [] = 0 := rfl

theorem utf8Len_cons (c : Char) (text : Text) : utf8Len (c::text) = c.utf8Size + utf8Len text := rfl

theorem utf8Len_append (left right : Text) : utf8Len (left ++ right) = utf8Len left + utf8Len right := by
  unfold utf8Len
  rw [List.map_append,List.sum_append]

theorem utf8Len_front {front text : Text} (start : front <+: text) : utf8Len front ≤ utf8Len text := by
  obtain ⟨rest,rfl⟩ := start
  rw [utf8Len_append]
  omega

theorem takeBytes_front (room : Nat) (text : Text) : takeBytes room text <+: text := by
  induction text generalizing room with
  | nil => exact List.prefix_refl _
  | cons c rest ih =>
    unfold takeBytes
    split
    · exact List.cons_prefix_cons.mpr ⟨rfl,ih _⟩
    · exact List.nil_prefix

theorem takeBytes_fits (room : Nat) (text : Text) : utf8Len (takeBytes room text) ≤ room := by
  induction text generalizing room with
  | nil => exact Nat.zero_le _
  | cons c rest ih =>
    unfold takeBytes
    split
    · have less := ih (room - c.utf8Size)
      rw [utf8Len_cons]
      omega
    · exact Nat.zero_le _

theorem takeBytes_longest {front text : Text} (start : front <+: text) (fits : utf8Len front ≤ room) : front <+: takeBytes room text := by
  induction text generalizing front room with
  | nil => exact start
  | cons c rest ih =>
    cases front with
    | nil => exact List.nil_prefix
    | cons d front =>
      obtain ⟨rfl,below⟩ := List.cons_prefix_cons.mp start
      rw [utf8Len_cons] at fits
      unfold takeBytes
      rw [if_pos (by omega)]
      exact List.cons_prefix_cons.mpr ⟨rfl,ih below (by omega)⟩

theorem splitExt_dotless {name : Text} (plain : '.' ∉ name) : splitExt name = (name,[]) := by
  unfold splitExt
  rw [if_neg fun split => plain split.1]

-- The extension starts at the last dot, unless it is long or the whole name.
theorem splitExt_at {front after : Text} (plain : '.' ∉ after) : splitExt (front ++ '.'::after) =
    if front ≠ [] ∧ utf8Len ('.'::after) ≤ 16 then (front,'.'::after) else (front ++ '.'::after,[]) := by
  have last : (front ++ '.'::after).rtakeWhile (fun c => decide (c ≠ '.')) = after := by
    unfold List.rtakeWhile
    rw [List.reverse_append,List.reverse_cons,List.append_assoc,List.takeWhile_append_of_pos]
    · simp
    · intro c member
      rw [decide_eq_true_eq]
      rintro rfl
      exact plain (List.mem_reverse.mp member)
  have stem : (front ++ '.'::after).take ((front ++ '.'::after).length - after.length - 1) = front := by
    have size : (front ++ '.'::after).length - after.length - 1 = front.length := by
      rw [List.length_append,List.length_cons]
      omega
    rw [size,List.take_left]
  unfold splitExt
  simp only [last,stem]
  by_cases split : front ≠ [] ∧ utf8Len ('.'::after) ≤ 16
  · rw [if_pos split,if_pos ⟨by simp,split⟩]
  · rw [if_neg split,if_neg fun all => split all.2]

theorem splitExt_cases (name : Text) : splitExt name = (name,[]) ∨ ∃ front after, name = front ++ '.'::after ∧ front ≠ [] ∧ '.' ∉ after ∧
    utf8Len ('.'::after) ≤ 16 ∧ splitExt name = (front,'.'::after) := by
  by_cases dotted : '.' ∈ name
  · obtain ⟨back,rest,same,plain⟩ := List.eq_append_cons_of_mem (List.mem_reverse.mpr dotted)
    have whole : name = rest.reverse ++ '.'::back.reverse := by
      rw [← List.reverse_reverse name,same]
      simp
    have absent : '.' ∉ back.reverse := by simpa using plain
    have parts := @splitExt_at rest.reverse back.reverse absent
    rw [← whole] at parts
    split at parts
    · rename_i split
      exact .inr ⟨rest.reverse,back.reverse,whole,split.1,absent,split.2,parts⟩
    · exact .inl parts
  · exact .inl (splitExt_dotless dotted)

theorem digit_mem (low : '1' ≤ c) (high : c ≤ '9') : c ∈ ['1','2','3','4','5','6','7','8','9'] := by
  have known : ∀ code < 58, 49 ≤ code → Char.ofNat code ∈ ['1','2','3','4','5','6','7','8','9'] := by decide
  have bound : c.toNat ≤ 57 := high
  rw [← Char.ofNat_toNat c]
  exact known c.toNat (Nat.lt_succ_of_le bound) low

theorem port_mem {port up : Text} (size : utf8Len up = 4) (own : utf8Len port = 3) (first : up.take 3 = port)
    (digits : (up.drop 3).all (fun c => '1' ≤ c && c ≤ '9') = true) :
    up ∈ ['1','2','3','4','5','6','7','8','9'].map fun digit => port ++ [digit] := by
  have whole := List.take_append_drop 3 up
  rw [first] at whole
  rw [← whole,utf8Len_append,own] at size
  cases rest : up.drop 3 with
  | nil =>
    rw [rest,utf8Len_nil] at size
    omega
  | cons c more =>
    rw [rest] at size digits whole
    rw [utf8Len_cons] at size
    have wide := Char.utf8Size_pos c
    cases more with
    | nil =>
      simp only [List.all_cons,List.all_nil,Bool.and_true,Bool.and_eq_true,decide_eq_true_eq] at digits
      rw [← whole]
      exact List.mem_map.mpr ⟨c,digit_mem digits.1 digits.2,rfl⟩
    | cons d more =>
      have wider := Char.utf8Size_pos d
      rw [utf8Len_cons] at size
      omega

theorem reserved_eq (name : Text) : reserved name = isWindowsDevice name := by
  unfold reserved isWindowsDevice
  generalize ((name.takeWhile (· ≠ '.')).rdropWhile isSpace).map asciiUpper = up
  rw [Bool.eq_iff_iff]
  constructor
  · intro named
    have known : ∀ device ∈ deviceNames, (decide (device ∈ [['C','O','N'],['P','R','N'],['A','U','X'],['N','U','L']]) ||
        (utf8Len device == 4 && (device.take 3 == ['C','O','M'] || device.take 3 == ['L','P','T']) &&
          ((device.drop 3).all fun c => '1' ≤ c && c ≤ '9'))) = true := by decide
    exact known up (of_decide_eq_true named)
  · intro device
    rw [decide_eq_true_eq]
    rcases Bool.or_eq_true_iff.mp device with plain | port
    · exact List.mem_append_left _ (of_decide_eq_true plain)
    · rw [Bool.and_eq_true,Bool.and_eq_true,Bool.or_eq_true,beq_iff_eq,beq_iff_eq,beq_iff_eq] at port
      obtain ⟨⟨size,serial | printer⟩,digits⟩ := port
      · exact List.mem_append_right _ (List.mem_flatMap.mpr ⟨_,List.mem_cons_self,port_mem size rfl serial digits⟩)
      · exact List.mem_append_right _ (List.mem_flatMap.mpr ⟨_,List.mem_cons_of_mem _ List.mem_cons_self,port_mem size rfl printer digits⟩)

theorem rdropWhile_head {p : Char → Bool} {c : Char} (stays : p c = false) (rest : Text) : ((c::rest).rdropWhile p).head? = some c := by
  have start := List.rdropWhile_prefix p (c::rest)
  cases kept : (c::rest).rdropWhile p with
  | nil =>
    have all := List.rdropWhile_eq_nil_iff.mp kept c List.mem_cons_self
    rw [stays] at all
    cases all
  | cons d more =>
    rw [kept] at start
    rw [(List.cons_prefix_cons.mp start).1]
    rfl

theorem reserved_mark (name : Text) : reserved ('_'::name) = false := by
  have other : ∀ device ∈ deviceNames, device.head? ≠ some '_' := by decide
  have first := rdropWhile_head (p := isSpace) (c := '_') rfl (name.takeWhile (· ≠ '.'))
  unfold reserved
  rw [List.takeWhile_cons_of_pos (by decide)]
  rw [decide_eq_false_iff_not]
  intro member
  refine other _ member ?_
  rw [List.head?_map,first]
  rfl

structure Shaped (name : Text) : Prop where
  given : name ≠ []
  plain : ∀ c ∈ name, isSeparator c = false ∧ isControl c = false ∧ c ∉ forbidden
  front : ∀ c, name.head? = some c → edge c = false
  back : ∀ c, name.getLast? = some c → edge c = false

theorem lastPart_free (path : Text) : ∀ c ∈ lastPart path, isSeparator c = false := by
  intro c member
  unfold lastPart at member
  cases found : (path.splitOnP isSeparator).reverse.find? (· ≠ []) with
  | none => rw [found] at member; cases member
  | some part =>
    rw [found] at member
    exact CodeUnits.split_free (List.mem_reverse.mp (List.mem_of_find?_eq_some found)) c member

theorem cleaned_plain (path : Text) : ∀ c ∈ cleaned path, isSeparator c = false ∧ isControl c = false ∧ c ∉ forbidden := by
  intro c member
  obtain ⟨d,kept,rfl⟩ := List.mem_map.mp member
  obtain ⟨inside,seen⟩ := List.mem_filter.mp kept
  split
  · decide
  · rename_i allowed
    rw [Bool.and_eq_true,Bool.not_eq_true'] at seen
    exact ⟨lastPart_free path d inside,seen.1,allowed⟩

theorem trimmed_shaped (given : trimmed path ≠ []) : Shaped (trimmed path) := by
  refine ⟨given,?_,?_,?_⟩
  · intro c member
    exact cleaned_plain path c (List.dropWhile_subset _ ((List.rdropWhile_prefix _ _).subset member))
  · intro c first
    have start : (trimmed path) <+: (cleaned path).dropWhile edge := List.rdropWhile_prefix _ _
    have head : ((cleaned path).dropWhile edge).head? = some c := by
      obtain ⟨rest,whole⟩ := start
      rw [← whole,List.head?_append,first]
      rfl
    have found := List.head?_dropWhile_not edge (cleaned path)
    rwa [head] at found
  · intro c last
    have ends := List.rdropWhile_last_not edge ((cleaned path).dropWhile edge) given
    rw [List.getLast?_eq_some_getLast given] at last
    cases last
    exact Bool.eq_false_iff.mpr ends

theorem localName_shaped (path : Text) : Shaped (localName path) := by
  have plain : (unnamed.all fun c => decide (isSeparator c = false ∧ isControl c = false ∧ c ∉ forbidden)) = true := by decide
  unfold localName
  split
  · refine ⟨by decide,fun c member => of_decide_eq_true (List.all_eq_true.mp plain c member),?_,?_⟩ <;> intro c at_ <;> cases at_ <;> decide
  · rename_i given
    have shaped := trimmed_shaped given
    split
    · refine ⟨by simp,?_,?_,?_⟩
      · intro c member
        rcases List.mem_cons.mp member with rfl | inside
        · decide
        · exact shaped.plain c inside
      · intro c first
        cases first
        decide
      · intro c last
        rw [List.getLast?_cons,List.getLast?_eq_some_getLast given] at last
        exact shaped.back c (by rw [List.getLast?_eq_some_getLast given]; exact last)
    · exact shaped

theorem localName_free (path : Text) : isWindowsDevice (localName path) = false := by
  unfold localName
  split
  · decide
  · split
    · rw [← reserved_eq]
      exact reserved_mark _
    · rename_i free
      simpa using free

theorem safeName_cut (path : Text) : safeName path = cut (localName path) := by
  unfold safeName localName trimmed cleaned lastPart
  simp only
  split
  · rfl
  · unfold cut
    simp only

theorem head_append {front rest : Text} (given : front ≠ []) : (front ++ rest).head? = front.head? := by
  cases front with
  | nil => exact absurd rfl given
  | cons c front => rfl

theorem stem_head (name : Text) : (splitExt name).1.head? = name.head? := by
  rcases splitExt_cases name with same | ⟨front,after,whole,stem,_,_,same⟩
  · rw [same]
  · rw [same,whole,head_append stem]

theorem stem_front (name : Text) : (splitExt name).1 <+: name := by
  rcases splitExt_cases name with same | ⟨front,after,whole,_,_,_,same⟩
  · exact ⟨[],by rw [same,List.append_nil]⟩
  · rw [same,whole]
    exact List.prefix_append _ _

theorem ext_bytes (name : Text) : utf8Len (splitExt name).2 ≤ 16 := by
  rcases splitExt_cases name with same | ⟨_,_,_,_,_,short,same⟩
  · rw [same]
    exact Nat.zero_le _
  · rw [same]
    exact short

theorem ext_suffix (name : Text) : (splitExt name).2 <:+ name := by
  rcases splitExt_cases name with same | ⟨front,after,whole,_,_,_,same⟩
  · exact ⟨name,by rw [same,List.append_nil]⟩
  · rw [same,whole]
    exact List.suffix_append _ _

theorem fitting_front (name : Text) : fitting name <+: (splitExt name).1 := takeBytes_front _ _

theorem fitting_head (shaped : Shaped name) : ((fitting name).rdropWhile edge).head? = name.head? := by
  obtain ⟨c,rest,stem⟩ := List.exists_cons_of_ne_nil (l := (splitExt name).1) (by
    intro empty
    have head := stem_head name
    rw [empty] at head
    exact shaped.given (List.head?_eq_none_iff.mp head.symm))
  have first : name.head? = some c := by
    rw [← stem_head name,stem]
    rfl
  have room := ext_bytes name
  have small := Char.utf8Size_le_four c
  have kept : fitting name = c::takeBytes (200 - utf8Len (splitExt name).2 - c.utf8Size) rest := by
    unfold fitting
    rw [stem]
    conv_lhs => unfold takeBytes
    rw [if_pos (by omega)]
  rw [kept,first]
  exact rdropWhile_head (shaped.front c first) _

theorem stem_bytes (name : Text) : utf8Len (splitExt name).1 + utf8Len (splitExt name).2 = utf8Len name := by
  rcases splitExt_cases name with same | ⟨front,after,whole,_,_,_,same⟩
  · rw [same]
    rfl
  · rw [same,whole,utf8Len_append]

theorem cut_short (shaped : Shaped name) (long : 200 < utf8Len name) : cut name = (fitting name).rdropWhile edge ++ (splitExt name).2 := by
  have bytes := stem_bytes name
  have room := ext_bytes name
  have keep : min (max (200 - utf8Len (splitExt name).2) 1) (utf8Len (splitExt name).1) = 200 - utf8Len (splitExt name).2 := by omega
  have given : (fitting name).rdropWhile edge ≠ [] := by
    intro empty
    have head := fitting_head shaped
    rw [empty] at head
    exact shaped.given (List.head?_eq_none_iff.mp head.symm)
  unfold cut
  simp only
  unfold fitting at given ⊢
  rw [if_neg (Nat.not_le.mpr long),keep,if_neg given]

theorem last_kept {front : Text} (given : front.rdropWhile edge ≠ []) (last : (front.rdropWhile edge).getLast? = some c) : edge c = false := by
  have ends := List.rdropWhile_last_not edge front given
  rw [List.getLast?_eq_some_getLast given] at last
  cases last
  exact Bool.eq_false_iff.mpr ends

theorem cut_shaped (shaped : Shaped name) : Shaped (cut name) := by
  by_cases long : 200 < utf8Len name
  · have head := fitting_head shaped
    have given : (fitting name).rdropWhile edge ≠ [] := by
      intro empty
      rw [empty] at head
      exact shaped.given (List.head?_eq_none_iff.mp head.symm)
    rw [cut_short shaped long]
    refine ⟨by simp [given],?_,?_,?_⟩
    · intro c member
      rcases List.mem_append.mp member with inside | inside
      · exact shaped.plain c ((stem_front name).subset ((fitting_front name).subset ((List.rdropWhile_prefix _ _).subset inside)))
      · exact shaped.plain c ((ext_suffix name).subset inside)
    · intro c first
      rw [head_append given,head] at first
      exact shaped.front c first
    · intro c last
      rcases splitExt_cases name with same | ⟨front,after,whole,_,_,_,same⟩
      · rw [same,List.append_nil] at last
        exact last_kept given last
      · rw [same,List.getLast?_append_of_ne_nil _ (List.cons_ne_nil _ _)] at last
        refine shaped.back c ?_
        rw [whole,List.getLast?_append_of_ne_nil _ (List.cons_ne_nil _ _)]
        exact last
  · unfold cut
    rw [if_pos (Nat.not_lt.mp long)]
    exact shaped

def base (name : Text) : Text := (name.takeWhile (· ≠ '.')).rdropWhile isSpace

theorem reserved_base (same : base left = base right) : reserved left = reserved right := by
  unfold reserved
  unfold base at same
  rw [same]

theorem before_dot {front : Text} (plain : '.' ∉ front) : ∀ c ∈ front, decide (c ≠ '.') = true := by
  intro c member
  rw [decide_eq_true_eq]
  rintro rfl
  exact plain member

theorem base_dotted {front : Text} (dotted : '.' ∈ front) (rest : Text) : base (front ++ rest) = base front := by
  obtain ⟨before,after,rfl,plain⟩ := List.eq_append_cons_of_mem dotted
  unfold base
  rw [List.append_assoc,List.takeWhile_append_of_pos (before_dot plain),List.takeWhile_append_of_pos (before_dot plain)]
  rfl

theorem base_dotless {front : Text} (plain : '.' ∉ front) (rest : Text) :
    base (front ++ rest) = (front ++ rest.takeWhile (· ≠ '.')).rdropWhile isSpace := by
  unfold base
  rw [List.takeWhile_append_of_pos (before_dot plain)]

theorem base_alone (plain : '.' ∉ front) : base front = front.rdropWhile isSpace := by
  have alone := base_dotless plain []
  rwa [List.append_nil,List.takeWhile_nil,List.append_nil] at alone

theorem base_ext (dot : ∀ c, rest.head? = some c → c = '.') : base (front ++ rest) = base front := by
  by_cases dotted : '.' ∈ front
  · exact base_dotted dotted rest
  · have nothing : rest.takeWhile (fun c => decide (c ≠ '.')) = [] := by
      cases rest with
      | nil => rfl
      | cons c rest =>
        rw [dot c rfl]
        rfl
    rw [base_dotless dotted,nothing,List.append_nil,base_alone dotted]

theorem rdropWhile_all (all : ∀ c ∈ back, p c = true) (front : Text) : (front ++ back).rdropWhile p = front.rdropWhile p := by
  unfold List.rdropWhile
  rw [List.reverse_append,List.dropWhile_append_of_pos]
  intro c member
  exact all c (List.mem_reverse.mp member)

theorem base_edges (name : Text) : base (name.rdropWhile edge) = base name := by
  have whole : name.rdropWhile edge ++ name.rtakeWhile edge = name := List.rdropWhile_append_rtakeWhile
  by_cases dotted : '.' ∈ name.rdropWhile edge
  · have same := base_dotted dotted (name.rtakeWhile edge)
    rw [whole] at same
    exact same.symm
  · have same := base_dotless dotted (name.rtakeWhile edge)
    rw [whole,rdropWhile_all] at same
    · rw [same,base_alone dotted]
    · intro c member
      have last := List.mem_rtakeWhile_imp (List.takeWhile_subset _ member)
      have other := List.mem_takeWhile_imp member
      rcases Bool.or_eq_true_iff.mp last with dot | space
      · rw [beq_iff_eq.mp dot] at other
        cases other
      · exact space

theorem ext_head (name : Text) : ∀ c, (splitExt name).2.head? = some c → c = '.' := by
  intro c first
  rcases splitExt_cases name with same | ⟨_,_,_,_,_,_,same⟩
  · rw [same] at first
    cases first
  · rw [same] at first
    cases first
    rfl

theorem cut_reserved (shaped : Shaped name) (long : 200 < utf8Len name) : reserved (cut name) = reserved (fitting name) := by
  apply reserved_base
  rw [cut_short shaped long,base_ext (ext_head name),base_edges]

theorem kept_front (name : Text) : (fitting name).rdropWhile edge <+: name :=
  (List.rdropWhile_prefix _ _).trans ((fitting_front name).trans (stem_front name))

theorem cut_dotless (shaped : Shaped name) (free : reserved name = false) (device : reserved (cut name) = true) : '.' ∉ (splitExt (cut name)).1 := by
  by_cases long : 200 < utf8Len name
  · have plain : '.' ∉ (fitting name).rdropWhile edge := by
      intro dotted
      obtain ⟨rest,whole⟩ := kept_front name
      have same : reserved (cut name) = reserved name := by
        apply reserved_base
        rw [cut_short shaped long,base_dotted dotted]
        conv_rhs => rw [← whole]
        exact (base_dotted dotted rest).symm
      rw [same,free] at device
      cases device
    rw [cut_short shaped long]
    rcases splitExt_cases name with same | ⟨_,after,_,_,dotless,short,same⟩
    · rw [same,List.append_nil,splitExt_dotless plain]
      exact plain
    · rw [same,splitExt_at dotless]
      split
      · exact plain
      · rename_i other
        refine absurd ⟨?_,short⟩ other
        intro empty
        have head := fitting_head shaped
        rw [empty] at head
        exact shaped.given (List.head?_eq_none_iff.mp head.symm)
  · unfold cut at device
    rw [if_pos (Nat.not_lt.mp long),free] at device
    cases device

def number (n : Nat) : Text := [' ','('] ++ Nat.toDigits 10 n ++ [')']

theorem numbered_eq (counted : n ≠ 0) : numberedName name n = (splitExt name).1 ++ (number n ++ (splitExt name).2) := by
  unfold numberedName number
  rw [if_neg counted]
  simp only [List.append_assoc]

theorem digit_plain (member : c ∈ Nat.toDigits 10 n) : c ∈ ['0','1','2','3','4','5','6','7','8','9'] := by
  have digit := Nat.isDigit_of_mem_toDigits (by decide) (by decide) member
  unfold Char.isDigit at digit
  rw [Bool.and_eq_true,decide_eq_true_eq,decide_eq_true_eq] at digit
  have known : ∀ code < 58, 48 ≤ code → Char.ofNat code ∈ ['0','1','2','3','4','5','6','7','8','9'] := by decide
  have bound : c.toNat ≤ 57 := digit.2
  rw [← Char.ofNat_toNat c]
  exact known c.toNat (Nat.lt_succ_of_le bound) digit.1

theorem number_chars (member : c ∈ number n) : c ∈ [' ','(',')','0','1','2','3','4','5','6','7','8','9'] := by
  unfold number at member
  rw [List.mem_append,List.mem_append] at member
  rcases member with (mark | digit) | mark
  · rcases List.mem_cons.mp mark with rfl | mark
    · decide
    · rw [List.mem_singleton.mp mark]
      decide
  · exact List.mem_cons_of_mem _ (List.mem_cons_of_mem _ (List.mem_cons_of_mem _ (digit_plain digit)))
  · rw [List.mem_singleton.mp mark]
    decide

theorem number_last (n : Nat) : (number n).getLast? = some ')' := List.getLast?_concat

theorem number_bytes (counted : n ≠ 0) : utf8Len (number n) = numberBytes n := by
  have digits : utf8Len (Nat.toDigits 10 n) = (Nat.toDigits 10 n).length := by
    have ones : (Nat.toDigits 10 n).map Char.utf8Size = (Nat.toDigits 10 n).map fun _ => 1 := by
      refine List.map_congr_left fun c member => ?_
      have narrow : (['0','1','2','3','4','5','6','7','8','9'].all fun c => decide (Char.utf8Size c = 1)) = true := by decide
      exact of_decide_eq_true (List.all_eq_true.mp narrow c (digit_plain member))
    unfold utf8Len
    rw [ones,List.map_const',List.sum_replicate_nat,Nat.mul_one]
  unfold number numberBytes
  rw [if_neg counted,utf8Len_append,utf8Len_append,digits]
  have front : utf8Len [' ','('] = 2 := by decide
  have back : utf8Len [')'] = 1 := by decide
  omega

theorem numbered_bytes (name : Text) (n : Nat) : utf8Len (numberedName name n) = utf8Len name + numberBytes n := by
  by_cases counted : n = 0
  · subst counted
    rfl
  · have bytes := stem_bytes name
    rw [numbered_eq counted,utf8Len_append,utf8Len_append,number_bytes counted]
    omega

theorem stem_given (given : name ≠ []) : (splitExt name).1 ≠ [] := by
  intro empty
  have head := stem_head name
  rw [empty] at head
  exact given (List.head?_eq_none_iff.mp head.symm)

theorem numbered_shaped (shaped : Shaped name) (n : Nat) : Shaped (numberedName name n) := by
  by_cases counted : n = 0
  · subst counted
    exact shaped
  · have given := stem_given shaped.given
    rw [numbered_eq counted]
    refine ⟨by simp [given],?_,?_,?_⟩
    · intro c member
      have allowed : ([' ','(',')','0','1','2','3','4','5','6','7','8','9'].all fun c =>
          decide (isSeparator c = false ∧ isControl c = false ∧ c ∉ forbidden)) = true := by decide
      rcases List.mem_append.mp member with inside | later
      · exact shaped.plain c ((stem_front name).subset inside)
      · rcases List.mem_append.mp later with mark | inside
        · exact of_decide_eq_true (List.all_eq_true.mp allowed c (number_chars mark))
        · exact shaped.plain c ((ext_suffix name).subset inside)
    · intro c first
      rw [head_append given,stem_head] at first
      exact shaped.front c first
    · intro c last
      have some_ : number n ++ (splitExt name).2 ≠ [] := by simp [number]
      rw [List.getLast?_append_of_ne_nil _ some_] at last
      rcases splitExt_cases name with same | ⟨front,after,whole,_,_,_,same⟩
      · rw [same,List.append_nil,number_last] at last
        cases last
        decide
      · rw [same,List.getLast?_append_of_ne_nil _ (List.cons_ne_nil _ _)] at last
        refine shaped.back c ?_
        rw [whole,List.getLast?_append_of_ne_nil _ (List.cons_ne_nil _ _)]
        exact last

theorem numbered_free (plain : reserved name = true → '.' ∉ (splitExt name).1) (counted : n ≠ 0) : reserved (numberedName name n) = false := by
  by_cases dotted : '.' ∈ (splitExt name).1
  · have free : reserved name = false := by
      cases device : reserved name with
      | false => rfl
      | true => exact absurd dotted (plain device)
    rw [← free]
    apply reserved_base
    obtain ⟨rest,whole⟩ := stem_front name
    rw [numbered_eq counted,base_dotted dotted]
    conv_rhs => rw [← whole]
    exact (base_dotted dotted rest).symm
  · have free : '.' ∉ (splitExt name).1 ++ number n := by
      intro member
      rcases List.mem_append.mp member with inside | mark
      · exact dotted inside
      · exact absurd (number_chars mark) (by decide)
    have last : ((splitExt name).1 ++ number n).getLast? = some ')' := by
      rw [List.getLast?_append_of_ne_nil _ (by simp [number]),number_last]
    have stays : ((splitExt name).1 ++ number n).rdropWhile isSpace = (splitExt name).1 ++ number n := by
      rw [List.rdropWhile_eq_self_iff]
      intro given
      rw [List.getLast?_eq_some_getLast given] at last
      rw [Option.some.inj last]
      decide
    have bracket : ∀ device ∈ deviceNames, device.getLast? ≠ some ')' := by decide
    have same : base (numberedName name n) = (splitExt name).1 ++ number n := by
      rw [numbered_eq counted,← List.append_assoc,base_ext (ext_head name),base_alone free,stays]
    unfold reserved
    unfold base at same
    rw [same,decide_eq_false_iff_not]
    intro member
    refine bracket _ member ?_
    rw [List.getLast?_map,last]
    rfl

theorem cut_room (shaped : Shaped name) (n : Nat) : utf8Len (cut name) + numberBytes n ≤ 200 ↔ Room name n := by
  unfold Room
  split
  · rename_i short
    unfold cut
    rw [if_pos short]
  · rename_i other
    have long : 200 < utf8Len name := Nat.not_le.mp other
    rw [cut_short shaped long,utf8Len_append]
    constructor
    · intro fits front start small large
      have whole : (fitting name).rdropWhile edge ++ (fitting name).rtakeWhile edge = fitting name := List.rdropWhile_append_rtakeWhile
      have within : front <+: fitting name := takeBytes_longest start (by omega)
      rcases List.prefix_or_prefix_of_prefix within (List.rdropWhile_prefix edge (fitting name)) with less | ⟨more,longer⟩
      · have bytes := utf8Len_front less
        omega
      · have both : (fitting name).rdropWhile edge ++ more <+: (fitting name).rdropWhile edge ++ (fitting name).rtakeWhile edge := by
          rw [longer,whole]
          exact within
        have edges := (List.prefix_append_right_inj _).mp both
        cases last : more.getLast? with
        | none =>
          rw [List.getLast?_eq_none_iff.mp last,List.append_nil] at longer
          rw [longer] at fits
          omega
        | some c =>
          have inside := edges.subset (List.mem_of_getLast? last)
          refine ⟨c,?_,List.mem_rtakeWhile_imp inside⟩
          rw [← longer,List.getLast?_append,last]
          rfl
    · intro ends
      by_contra wide
      have room := ext_bytes name
      have bytes := takeBytes_fits (200 - utf8Len (splitExt name).2) (splitExt name).1
      have less := utf8Len_front (List.rdropWhile_prefix edge (fitting name))
      have less' : utf8Len ((fitting name).rdropWhile edge) ≤ 200 - utf8Len (splitExt name).2 := less.trans bytes
      obtain ⟨c,last,at_⟩ := ends _ ((List.rdropWhile_prefix edge _).trans (fitting_front name)) (by omega) (by omega)
      have given : (fitting name).rdropWhile edge ≠ [] := by
        intro empty
        rw [empty] at last
        cases last
      rw [last_kept given last] at at_
      cases at_

theorem safe_parts (shaped : Shaped name) : Safe name ↔ utf8Len name ≤ 200 ∧ reserved name = false := by
  constructor
  · exact fun safe => ⟨safe.short,safe.free⟩
  · rintro ⟨short,free⟩
    refine ⟨shaped.given,short,shaped.plain,?_,?_,free⟩
    · intro first
      cases shaped.front _ first
    · intro c last
      have inner := shaped.back c last
      constructor <;> rintro rfl <;> cases inner

theorem cut_exposed (shaped : Shaped name) (free : reserved name = false) : reserved (cut name) = false ↔ Unexposed name := by
  by_cases long : 200 < utf8Len name
  · rw [cut_reserved shaped long]
    exact ⟨fun safe _ => safe,fun safe => safe long⟩
  · unfold cut
    rw [if_pos (Nat.not_lt.mp long)]
    exact ⟨fun _ other => absurd other long,fun _ => free⟩

theorem local_name_safe_iff (path : Text) (n : Nat) :
    Safe (numberedName (safeName path) n) ↔ Room (localName path) n ∧ (n = 0 → Unexposed (localName path)) := by
  have shaped := localName_shaped path
  have free : reserved (localName path) = false := by rw [reserved_eq,localName_free]
  rw [safeName_cut,safe_parts (numbered_shaped (cut_shaped shaped) n),numbered_bytes,cut_room shaped n]
  refine and_congr_right fun _ => ?_
  by_cases counted : n = 0
  · subst counted
    have same : numberedName (cut (localName path)) 0 = cut (localName path) := if_pos rfl
    rw [← cut_exposed shaped free,same]
    exact ⟨fun safe _ => safe,fun safe => safe rfl⟩
  · have safe : reserved (numberedName (cut (localName path)) n) = false := numbered_free (cut_dotless shaped free) counted
    exact ⟨fun _ none => absurd none counted,fun _ => safe⟩

def blanked : Text := ['C','O','N'] ++ List.replicate 200 ' ' ++ ['x']

theorem blanked_device : ¬ Safe (numberedName (safeName blanked) 0) := by
  intro safe
  have device : reserved (numberedName (safeName blanked) 0) = true := by decide +kernel
  rw [safe.free] at device
  cases device

end RemoteFileExplorer.LocalNames
