import RemoteFileExplorer.CodeUnits

namespace RemoteFileExplorer.InternetAddresses
open CodeUnits

def colon : UInt16 := 0x3a
def dot : UInt16 := 0x2e
def hyphen : UInt16 := 0x2d
def opening : UInt16 := 0x5b
def closing : UInt16 := 0x5d

def isDigit (u : UInt16) : Bool := 0x30 ≤ u && u ≤ 0x39
def isAlnum (u : UInt16) : Bool := isDigit u || (0x41 ≤ u && u ≤ 0x5a) || (0x61 ≤ u && u ≤ 0x7a)
def isHex (u : UInt16) : Bool := isDigit u || (0x41 ≤ u && u ≤ 0x46) || (0x61 ≤ u && u ≤ 0x66)

def parseInt (digits : Units) : Nat := digits.foldl (fun n u => 10 * n + (u.toNat - 0x30)) 0

def allDigits (text : Units) : Bool := text ≠ [] && text.all isDigit

def validPort : Option Units → Bool
  | none => true
  | some port => 1 ≤ parseInt port && parseInt port ≤ 65535 && allDigits port

def validOctet (o : Units) : Bool := !(o.length = 0 || o.length > 3 || !allDigits o) && parseInt o ≤ 255

def validIpv4 (address : Units) : Bool := (address.splitOn dot).length = 4 && (address.splitOn dot).all validOctet

def cut : Units → Option (Units × Units)
  | [] => none
  | [_] => none
  | a::b::rest => if a = colon ∧ b = colon then some ([],rest) else (cut (b::rest)).map (fun p => (a::p.1,p.2))

def pieces (text : Units) : List Units := if text = [] then [] else text.splitOn colon

def hexGroup (s : Units) : Bool := s ≠ [] && s.length ≤ 4 && s.all isHex

def units : List Units → Option Nat
  | [] => some 0
  | s::rest =>
    if dot ∈ s then if rest = [] ∧ validIpv4 s then some 2 else none
    else if hexGroup s then (units rest).map (· + 1) else none

def validIpv6 (address : Units) : Bool :=
  if colon ∉ address then false else
  match cut address with
  | some (before,after) =>
    if (cut after).isSome then false else
    let segments := pieces before ++ pieces after
    if segments.any (· = []) then false else
    match units segments with
    | some n => n < 8
    | none => false
  | none =>
    let segments := address.splitOn colon
    if segments.any (· = []) then false else
    match units segments with
    | some n => n = 8
    | none => false

def portOf : Units → Option (Option Units)
  | [] => some none
  | u::port => if u = colon ∧ port.length ≤ 5 ∧ allDigits port then some (some port) else none

-- ^\[([0-9A-Fa-f:.]+)\](?::([0-9]{1,5}))?$
def inBrackets : Units → Option (Units × Option Units)
  | [] => none
  | u::rest =>
    if u ≠ opening then none else
    let within := rest.takeWhile (fun u => isHex u || u = colon || u = dot)
    if within = [] then none else
    match rest.dropWhile (fun u => isHex u || u = colon || u = dot) with
    | [] => none
    | v::after => if v = closing then (portOf after).map (fun port => (within,port)) else none

def plain (u : UInt16) : Bool := u ≠ colon && u ≠ opening && u ≠ closing

-- ^([^:[\]]+)(?::([0-9]{1,5}))?$
def named (value : Units) : Option (Units × Option Units) :=
  if value.takeWhile plain = [] then none else (portOf (value.dropWhile plain)).map (fun port => (value.takeWhile plain,port))

-- ^[0-9]+(?:\.[0-9]+){3}$
def numericQuad (hostname : Units) : Bool := (hostname.splitOn dot).length = 4 && (hostname.splitOn dot).all allDigits

def validLabel (l : Units) : Bool :=
  !(l.length = 0 || l.length > 63) && l.all (fun u => isAlnum u || u = hyphen) && l.head?.all isAlnum && l.getLast?.all isAlnum

def reserved (u : UInt16) : Bool := u ∈ ascii "/\\?#@"

def isValidInternetAddress (value : Units) : Bool :=
  if value.length = 0 || value ≠ trim value then false else
  if value.any (fun u => isWhite u || u ≤ 0x1f || u = 0x7f) || value.any reserved then false else
  match inBrackets value with
  | some (address,port) => validIpv6 address && validPort port
  | none =>
    match named value with
    | none => false
    | some (hostname,port) =>
      if hostname.length > 253 then false else
      if numericQuad hostname && !validIpv4 hostname then false else
      if (hostname.splitOn dot).any (fun l => !validLabel l) then false else validPort port

-- The grammar.

structure Port (port : Units) : Prop where
  digits : allDigits port = true
  short : port.length ≤ 5
  range : 1 ≤ parseInt port ∧ parseInt port ≤ 65535

structure Label (l : Units) : Prop where
  solid : l ≠ []
  short : l.length ≤ 63
  letters : ∀ u ∈ l,isAlnum u = true ∨ u = hyphen
  first : ∀ u, l.head? = some u → u ≠ hyphen
  last : ∀ u, l.getLast? = some u → u ≠ hyphen

structure DnsName (host : Units) : Prop where
  short : host.length ≤ 253
  labels : ∃ labels : List Units, labels ≠ [] ∧ host = [dot].intercalate labels ∧ ∀ l ∈ labels,Label l

structure Octet (o : Units) : Prop where
  digits : allDigits o = true
  short : o.length ≤ 3
  range : parseInt o ≤ 255

def Ipv4 (host : Units) : Prop := ∃ a b c d, host = [dot].intercalate [a,b,c,d] ∧ Octet a ∧ Octet b ∧ Octet c ∧ Octet d

structure HexGroup (g : Units) : Prop where
  solid : g ≠ []
  short : g.length ≤ 4
  hex : ∀ u ∈ g,isHex u = true

-- Groups of 16 bits; an IPv4 address stands for the last two.
inductive Groups : List Units → Nat → Prop where
  | none : Groups [] 0
  | ipv4 (address : Ipv4 g) : Groups [g] 2
  | more (group : HexGroup g) (rest : Groups gs n) : Groups (g::gs) (n + 1)

def Ipv6 (address : Units) : Prop :=
  (∃ groups, Groups groups 8 ∧ address = [colon].intercalate groups) ∨
    ∃ left right n, (∀ g ∈ left,HexGroup g) ∧ Groups right n ∧ left.length + n ≤ 7 ∧
      address = [colon].intercalate left ++ colon::colon::[colon].intercalate right

def BadQuad (host : Units) : Prop := ∃ a b c d, host = [dot].intercalate [a,b,c,d] ∧ allDigits a = true ∧ allDigits b = true ∧
  allDigits c = true ∧ allDigits d = true ∧ ¬Ipv4 host

inductive PortText : Units → Prop where
  | none : PortText []
  | some (port : Port p) : PortText (colon::p)

inductive Address : Units → Prop where
  | name (dns : DnsName host) (good : ¬BadQuad host) (port : PortText p) : Address (host ++ p)
  | ipv4 (address : Ipv4 host) (port : PortText p) : Address (host ++ p)
  | ipv6 (address : Ipv6 within) (port : PortText p) : Address (opening::within ++ closing::p)

section Characters

theorem digit_range (u : UInt16) : isDigit u = true ↔ 0x30 ≤ u.toNat ∧ u.toNat ≤ 0x39 := by
  simp [isDigit,UInt16.le_iff_toNat_le]

theorem alnum_range (u : UInt16) : isAlnum u = true ↔
    (0x30 ≤ u.toNat ∧ u.toNat ≤ 0x39) ∨ (0x41 ≤ u.toNat ∧ u.toNat ≤ 0x5a) ∨ (0x61 ≤ u.toNat ∧ u.toNat ≤ 0x7a) := by
  simp [isAlnum,digit_range,UInt16.le_iff_toNat_le,or_assoc]

theorem hex_range (u : UInt16) : isHex u = true ↔
    (0x30 ≤ u.toNat ∧ u.toNat ≤ 0x39) ∨ (0x41 ≤ u.toNat ∧ u.toNat ≤ 0x46) ∨ (0x61 ≤ u.toNat ∧ u.toNat ≤ 0x66) := by
  simp [isHex,digit_range,UInt16.le_iff_toNat_le,or_assoc]

theorem unit_iff (u v : UInt16) : u = v ↔ u.toNat = v.toNat := UInt16.toNat_inj.symm

theorem hyphen_other : isAlnum hyphen = false := by decide

theorem digit_alnum (digit : isDigit u = true) : isAlnum u = true := by
  simp [isAlnum,digit]

theorem white_range (white : isWhite u = true) : u.toNat ≤ 0x20 ∨ 0xa0 ≤ u.toNat := by
  simp only [isWhite,Bool.or_eq_true,decide_eq_true_eq,Bool.and_eq_true,List.mem_cons,List.not_mem_nil,or_false,UInt16.le_iff_toNat_le,unit_iff] at white
  simp at white
  omega

def Ordinary (u : UInt16) : Prop := isAlnum u = true ∨ u = hyphen ∨ u = dot ∨ u = colon ∨ u = opening ∨ u = closing

theorem ordinary_range (ordinary : Ordinary u) : 0x2d ≤ u.toNat ∧ u.toNat ≤ 0x7a ∧ u.toNat ≠ 0x2f ∧ u.toNat ≠ 0x3f ∧ u.toNat ≠ 0x40 ∧ u.toNat ≠ 0x5c := by
  simp only [Ordinary,alnum_range,unit_iff,hyphen,dot,colon,opening,closing] at ordinary
  simp at ordinary
  omega

theorem ordinary_plain (ordinary : Ordinary u) : (isWhite u || decide (u ≤ 0x1f) || decide (u = 0x7f)) = false ∧ reserved u = false := by
  have range := ordinary_range ordinary
  refine ⟨?_,?_⟩
  · rw [Bool.eq_false_iff]
    intro bad
    simp only [Bool.or_eq_true,decide_eq_true_eq,UInt16.le_iff_toNat_le,unit_iff] at bad
    rcases bad with (white | low) | delete
    · have outside := white_range white
      omega
    · simp at low
      omega
    · simp at delete
      omega
  · rw [Bool.eq_false_iff]
    intro bad
    have listed : u ∈ ascii "/\\?#@" := of_decide_eq_true bad
    rw [show ascii "/\\?#@" = [0x2f,0x5c,0x3f,0x23,0x40] by decide] at listed
    simp only [List.mem_cons,List.not_mem_nil,or_false,unit_iff] at listed
    simp at listed
    omega

end Characters

section Hosts

theorem label_iff (l : Units) : validLabel l = true ↔ Label l := by
  simp only [validLabel,Bool.and_eq_true,Bool.not_eq_true',Bool.or_eq_false_iff,decide_eq_false_iff_not,List.length_eq_zero_iff,
    List.all_eq_true,Bool.or_eq_true,decide_eq_true_eq]
  constructor
  · rintro ⟨⟨⟨⟨solid,short⟩,letters⟩,first⟩,last⟩
    refine ⟨solid,by omega,letters,fun u head same => ?_,fun u end_ same => ?_⟩
    · rw [head,same] at first
      exact absurd first (by simp [hyphen_other])
    · rw [end_,same] at last
      exact absurd last (by simp [hyphen_other])
  · intro label
    refine ⟨⟨⟨⟨label.solid,by have := label.short; omega⟩,label.letters⟩,?_⟩,?_⟩
    · cases head : l.head? with
      | none => rfl
      | some u => exact (label.letters u (List.mem_of_mem_head? head)).resolve_right (label.first u head)
    · cases last : l.getLast? with
      | none => rfl
      | some u => exact (label.letters u (List.mem_of_getLast? last)).resolve_right (label.last u last)

theorem label_free (label : Label l) : dot ∉ l := by
  intro inside
  rcases label.letters dot inside with alnum | same
  · exact absurd alnum (by decide)
  · exact absurd same (by decide)

theorem dns_iff (host : Units) : host.length ≤ 253 ∧ (∀ l ∈ host.splitOn dot,Label l) ↔ DnsName host := by
  constructor
  · rintro ⟨short,labels⟩
    exact ⟨short,host.splitOn dot,List.splitOn_ne_nil _ _,(List.intercalate_splitOn dot).symm,labels⟩
  · rintro ⟨short,labels,some,rfl,each⟩
    rw [List.splitOn_intercalate dot (fun l member => label_free (each l member)) some]
    exact ⟨short,each⟩

theorem digits_iff (text : Units) : allDigits text = true ↔ text ≠ [] ∧ ∀ u ∈ text,isDigit u = true := by
  simp [allDigits]

theorem digits_free (digits : allDigits text = true) (other : isDigit v = false) : v ∉ text := by
  intro inside
  have digit := ((digits_iff text).mp digits).2 v inside
  rw [other] at digit
  cases digit

theorem octet_iff (o : Units) : validOctet o = true ↔ Octet o := by
  simp only [validOctet,Bool.and_eq_true,Bool.not_eq_true',Bool.or_eq_false_iff,decide_eq_false_iff_not,Bool.not_eq_false',decide_eq_true_eq]
  constructor
  · rintro ⟨⟨⟨_,short⟩,digits⟩,range⟩
    exact ⟨digits,by omega,range⟩
  · intro octet
    have solid := ((digits_iff o).mp octet.digits).1
    exact ⟨⟨⟨by simpa using solid,by have := octet.short; omega⟩,octet.digits⟩,octet.range⟩

theorem quad_iff (P : Units → Prop) (free : ∀ o, P o → dot ∉ o) (host : Units) :
    ((host.splitOn dot).length = 4 ∧ ∀ o ∈ host.splitOn dot,P o) ↔
      ∃ a b c d, host = [dot].intercalate [a,b,c,d] ∧ P a ∧ P b ∧ P c ∧ P d := by
  constructor
  · rintro ⟨four,each⟩
    have joined : [dot].intercalate (host.splitOn dot) = host := List.intercalate_splitOn dot
    match parts : host.splitOn dot with
    | [a,b,c,d] =>
        rw [parts] at each joined
        exact ⟨a,b,c,d,joined.symm,each a (by simp),each b (by simp),each c (by simp),each d (by simp)⟩
    | [] | [_] | [_,_] | [_,_,_] | _::_::_::_::_::_ =>
        rw [parts] at four
        simp at four
  · rintro ⟨a,b,c,d,rfl,pa,pb,pc,pd⟩
    have each : ∀ o ∈ [a,b,c,d],P o := by simp [pa,pb,pc,pd]
    rw [List.splitOn_intercalate dot (fun o member => free o (each o member)) (by simp)]
    exact ⟨rfl,each⟩

theorem ipv4_iff (host : Units) : validIpv4 host = true ↔ Ipv4 host := by
  rw [Ipv4,← quad_iff Octet (fun o octet => digits_free octet.digits (by decide))]
  simp only [validIpv4,Bool.and_eq_true,decide_eq_true_eq,List.all_eq_true,octet_iff]

theorem bad_quad_iff (host : Units) : (numericQuad host && !validIpv4 host) = true ↔ BadQuad host := by
  have quad := quad_iff (allDigits · = true) (fun o digits => digits_free digits (by decide)) host
  simp only [numericQuad,Bool.and_eq_true,decide_eq_true_eq,List.all_eq_true,Bool.not_eq_true',Bool.eq_false_iff,ne_eq,ipv4_iff,BadQuad]
  rw [quad]
  constructor
  · rintro ⟨⟨a,b,c,d,joined,da,db,dc,dd⟩,bad⟩
    exact ⟨a,b,c,d,joined,da,db,dc,dd,bad⟩
  · rintro ⟨a,b,c,d,joined,da,db,dc,dd,bad⟩
    exact ⟨⟨a,b,c,d,joined,da,db,dc,dd⟩,bad⟩

theorem octet_label (octet : Octet o) : Label o := by
  obtain ⟨solid,digits⟩ := (digits_iff o).mp octet.digits
  have apart : ∀ u ∈ o,u ≠ hyphen := by
    rintro u inside rfl
    exact absurd (digits hyphen inside) (by decide)
  exact ⟨solid,by have := octet.short; omega,fun u inside => .inl (digit_alnum (digits u inside)),
    fun u head => apart u (List.mem_of_mem_head? head),fun u last => apart u (List.mem_of_getLast? last)⟩

theorem ipv4_dns (address : Ipv4 host) : DnsName host := by
  obtain ⟨a,b,c,d,rfl,oa,ob,oc,od⟩ := address
  refine ⟨?_,[a,b,c,d],by simp,rfl,?_⟩
  · have := oa.short
    have := ob.short
    have := oc.short
    have := od.short
    simp [List.intercalate_cons_cons]
    omega
  · simp [octet_label oa,octet_label ob,octet_label oc,octet_label od]

end Hosts

section Ports

theorem port_iff (text : Units) : (∃ port, portOf text = some port ∧ validPort port = true) ↔ PortText text := by
  constructor
  · rintro ⟨port,found,valid⟩
    cases text with
    | nil => exact .none
    | cons u digits =>
        simp only [portOf] at found
        split at found
        next matched =>
          cases found
          obtain ⟨rfl,short,all⟩ := matched
          simp only [validPort,Bool.and_eq_true,decide_eq_true_eq] at valid
          exact .some ⟨all,short,valid.1⟩
        · cases found
  · intro text
    cases text with
    | none => exact ⟨none,rfl,rfl⟩
    | @some p port =>
        refine ⟨some p,by simp [portOf,port.short,port.digits],?_⟩
        simp [validPort,port.range,port.digits]

theorem port_head (port : PortText p) : ∀ u, p.head? = some u → u = colon := by
  cases port with
  | none => nofun
  | some => intro u head; exact (Option.some.inj head).symm

theorem port_ordinary (port : PortText p) : ∀ u ∈ p,Ordinary u := by
  cases port with
  | none => nofun
  | some port =>
      intro u inside
      rcases List.mem_cons.mp inside with rfl | digit
      · exact .inr (.inr (.inr (.inl rfl)))
      · exact .inl (digit_alnum (((digits_iff _).mp port.digits).2 u digit))

theorem span_exact {body rest : Units} {p : UInt16 → Bool} (inside : ∀ u ∈ body,p u = true) (stop : ∀ u, rest.head? = some u → p u = false) :
    (body ++ rest).takeWhile p = body ∧ (body ++ rest).dropWhile p = rest := by
  rw [List.takeWhile_append_of_pos inside,List.dropWhile_append_of_pos inside]
  cases rest with
  | nil => simp
  | cons u rest => simp [stop u rfl]

end Ports

section Names

theorem joined_mem {sep : UInt16} {parts : List Units} (inside : u ∈ [sep].intercalate parts) : u = sep ∨ ∃ part ∈ parts,u ∈ part := by
  induction parts with
  | nil => simp at inside
  | cons first rest ih =>
      cases rest with
      | nil => exact .inr ⟨first,List.mem_cons_self,by simpa using inside⟩
      | cons second more =>
          rw [List.intercalate_cons_cons,List.mem_append,List.mem_append,List.mem_singleton] at inside
          rcases inside with (here | same) | later
          · exact .inr ⟨first,List.mem_cons_self,here⟩
          · exact .inl same
          · rcases ih later with same | ⟨part,member,found⟩
            · exact .inl same
            · exact .inr ⟨part,List.mem_cons_of_mem _ member,found⟩

theorem mem_joined {sep : UInt16} {parts : List Units} (member : part ∈ parts) (inside : u ∈ part) : u ∈ [sep].intercalate parts := by
  induction parts with
  | nil => cases member
  | cons first rest ih =>
      cases rest with
      | nil =>
          cases List.mem_singleton.mp member
          simpa using inside
      | cons second more =>
          rw [List.intercalate_cons_cons,List.mem_append]
          rcases List.mem_cons.mp member with rfl | later
          · exact .inl (List.mem_append_left _ inside)
          · exact .inr (ih later)

theorem joined_head (sep : UInt16) {first : Units} (rest : List Units) (solid : first ≠ []) :
    ([sep].intercalate (first::rest)).head? = first.head? := by
  cases first with
  | nil => exact absurd rfl solid
  | cons u more =>
      cases rest with
      | nil => simp
      | cons => simp [List.intercalate_cons_cons]

theorem dns_units (dns : DnsName host) : host ≠ [] ∧ ∀ u ∈ host,isAlnum u = true ∨ u = hyphen ∨ u = dot := by
  obtain ⟨labels,some,rfl,each⟩ := dns.labels
  constructor
  · cases labels with
    | nil => exact absurd rfl some
    | cons first rest =>
        have solid := (each first List.mem_cons_self).solid
        intro none
        have head := joined_head dot rest solid
        rw [none] at head
        exact solid (List.head?_eq_none_iff.mp head.symm)
  · intro u inside
    rcases joined_mem inside with same | ⟨l,member,found⟩
    · exact .inr (.inr same)
    · rcases (each l member).letters u found with alnum | same
      · exact .inl alnum
      · exact .inr (.inl same)

theorem named_exact (solid : host ≠ []) (plains : ∀ u ∈ host,plain u = true) (port : PortText p) :
    named (host ++ p) = (portOf p).map (fun port => (host,port)) := by
  obtain ⟨front,back⟩ := span_exact plains (fun u head => by rw [port_head port u head]; decide)
  rw [named,front,back,if_neg solid]

end Names

section Groups

theorem cut_split (found : cut text = some (before,after)) : text = before ++ colon::colon::after := by
  induction text generalizing before with
  | nil => cases found
  | cons a rest ih =>
      cases rest with
      | nil => cases found
      | cons b rest =>
          rw [cut] at found
          split at found
          next pair =>
            obtain ⟨rfl,rfl⟩ := pair
            cases found
            rfl
          next =>
            obtain ⟨⟨within,tail⟩,deeper,same⟩ := Option.map_eq_some_iff.mp found
            obtain ⟨rfl,rfl⟩ := same
            rw [ih deeper]
            rfl

theorem cut_other (other : a ≠ colon) (text : Units) : cut (a::text) = (cut text).map (fun p => (a::p.1,p.2)) := by
  cases text with
  | nil => rfl
  | cons b rest => rw [cut,if_neg (fun pair => other pair.1)]

theorem cut_word {word : Units} (free : colon ∉ word) (text : Units) : cut (word ++ text) = (cut text).map (fun p => (word ++ p.1,p.2)) := by
  induction word with
  | nil => simp
  | cons a word ih =>
      rw [List.mem_cons,not_or] at free
      rw [List.cons_append,cut_other (Ne.symm free.1),ih free.2,Option.map_map]
      rfl

theorem cut_single (other : ∀ u, text.head? = some u → u ≠ colon) (some : text ≠ []) :
    cut (colon::text) = (cut text).map (fun p => (colon::p.1,p.2)) := by
  cases text with
  | nil => exact absurd rfl some
  | cons b rest => rw [cut,if_neg (fun pair => other b rfl pair.2)]

def Words (parts : List Units) : Prop := ∀ part ∈ parts,part ≠ [] ∧ colon ∉ part

theorem cut_words {parts : List Units} (words : Words parts) (text : Units) :
    cut ([colon].intercalate parts ++ text) = (cut text).map (fun p => ([colon].intercalate parts ++ p.1,p.2)) := by
  induction parts with
  | nil => simp
  | cons first rest ih =>
      obtain ⟨solid,free⟩ := words first List.mem_cons_self
      cases rest with
      | nil => simpa using cut_word free text
      | cons second more =>
          have later := ih (fun part member => words part (List.mem_cons_of_mem _ member))
          obtain ⟨solid2,free2⟩ := words second (by simp)
          have head := joined_head colon more solid2
          have some : [colon].intercalate (second::more) ++ text ≠ [] := by
            intro none
            rw [(List.append_eq_nil_iff.mp none).1] at head
            exact solid2 (List.head?_eq_none_iff.mp head.symm)
          have other : ∀ u, ([colon].intercalate (second::more) ++ text).head? = Option.some u → u ≠ colon := by
            rintro u first rfl
            rw [List.head?_append,head] at first
            cases found : second.head? with
            | none => exact solid2 (List.head?_eq_none_iff.mp found)
            | some v =>
                rw [found] at first
                cases first
                exact free2 (List.mem_of_mem_head? found)
          rw [List.intercalate_cons_cons,List.append_assoc,List.append_assoc,cut_word free,List.singleton_append,cut_single other some,later,
            Option.map_map,Option.map_map]
          simp [Function.comp_def]

theorem pieces_joined {parts : List Units} (words : Words parts) : pieces ([colon].intercalate parts) = parts := by
  cases parts with
  | nil => rfl
  | cons first rest =>
      have solid := (words first List.mem_cons_self).1
      have some : [colon].intercalate (first::rest) ≠ [] := by
        intro none
        have head := joined_head colon rest solid
        rw [none] at head
        exact solid (List.head?_eq_none_iff.mp head.symm)
      rw [pieces,if_neg some,List.splitOn_intercalate colon (fun part member => (words part member).2) (by simp)]

theorem joined_pieces (text : Units) : [colon].intercalate (pieces text) = text := by
  unfold pieces
  split
  next none => rw [none]; rfl
  next => exact List.intercalate_splitOn colon

theorem hex_group_iff (g : Units) : hexGroup g = true ↔ HexGroup g := by
  simp only [hexGroup,Bool.and_eq_true,decide_eq_true_eq,List.all_eq_true]
  exact ⟨fun ⟨⟨solid,short⟩,hex⟩ => ⟨solid,short,hex⟩,fun group => ⟨⟨group.solid,group.short⟩,group.hex⟩⟩

theorem hex_free (group : HexGroup g) (other : isHex v = false) : v ∉ g := by
  intro inside
  have hex := group.hex v inside
  rw [other] at hex
  cases hex

theorem ipv4_units (address : Ipv4 g) : dot ∈ g ∧ ∀ u ∈ g,isDigit u = true ∨ u = dot := by
  obtain ⟨a,b,c,d,rfl,oa,ob,oc,od⟩ := address
  refine ⟨by simp [List.intercalate_cons_cons],fun u inside => ?_⟩
  rcases joined_mem inside with same | ⟨o,member,found⟩
  · exact .inr same
  · have octet : Octet o := by
      simp only [List.mem_cons,List.not_mem_nil,or_false] at member
      rcases member with rfl | rfl | rfl | rfl
      · exact oa
      · exact ob
      · exact oc
      · exact od
    exact .inl (((digits_iff o).mp octet.digits).2 u found)

theorem units_iff (segments : List Units) (n : Nat) : units segments = some n ↔ Groups segments n := by
  induction segments generalizing n with
  | nil =>
      constructor
      · intro found
        cases found
        exact .none
      · intro groups
        cases groups
        rfl
  | cons s rest ih =>
      constructor
      · intro found
        rw [units] at found
        split at found
        · split at found
          next last =>
            cases found
            obtain ⟨rfl,valid⟩ := last
            exact .ipv4 ((ipv4_iff s).mp valid)
          · cases found
        · split at found
          next group =>
            obtain ⟨m,deeper,rfl⟩ := Option.map_eq_some_iff.mp found
            exact .more ((hex_group_iff s).mp group) ((ih m).mp deeper)
          · cases found
      · intro groups
        cases groups with
        | ipv4 address => rw [units,if_pos (ipv4_units address).1,if_pos ⟨rfl,(ipv4_iff s).mpr address⟩]
        | @more _ _ m group later =>
            rw [units,if_neg (hex_free group (by decide)),if_pos ((hex_group_iff s).mpr group),(ih m).mpr later]
            rfl

theorem groups_words (groups : Groups gs n) : Words gs := by
  induction groups with
  | none => nofun
  | @ipv4 g address =>
      intro part member
      cases List.mem_singleton.mp member
      obtain ⟨inside,each⟩ := ipv4_units address
      refine ⟨List.ne_nil_of_mem inside,fun bad => ?_⟩
      rcases each colon bad with digit | same
      · exact absurd digit (by decide)
      · exact absurd same (by decide)
  | @more g gs n group _ ih =>
      intro part member
      rcases List.mem_cons.mp member with rfl | later
      · exact ⟨group.solid,hex_free group (by decide)⟩
      · exact ih part later

theorem groups_right {left right : List Units} (groups : Groups (left ++ right) n) (some : right ≠ []) :
    ∃ m, (∀ g ∈ left,HexGroup g) ∧ Groups right m ∧ n = left.length + m := by
  induction left generalizing n with
  | nil => exact ⟨n,nofun,groups,by simp⟩
  | cons g left ih =>
      generalize whole : g::left ++ right = segments at groups
      cases groups with
      | none => cases whole
      | ipv4 address =>
          rw [List.cons_append,List.cons.injEq] at whole
          exact absurd (List.append_eq_nil_iff.mp whole.2).2 some
      | more group later =>
          obtain ⟨rfl,rfl⟩ := whole
          obtain ⟨m,hexes,rest,rfl⟩ := ih later
          refine ⟨m,fun h member => ?_,rest,by simp only [List.length_cons]; omega⟩
          rcases List.mem_cons.mp member with rfl | deeper
          · exact group
          · exact hexes h deeper

theorem groups_hex (groups : Groups gs n) (free : ∀ g ∈ gs,dot ∉ g) : (∀ g ∈ gs,HexGroup g) ∧ n = gs.length := by
  induction groups with
  | none => exact ⟨nofun,rfl⟩
  | ipv4 address => exact absurd (ipv4_units address).1 (free _ List.mem_cons_self)
  | more group _ ih =>
      obtain ⟨hexes,same⟩ := ih (fun g member => free g (List.mem_cons_of_mem _ member))
      refine ⟨fun g member => ?_,by rw [same,List.length_cons]⟩
      rcases List.mem_cons.mp member with rfl | deeper
      · exact group
      · exact hexes g deeper

theorem groups_join {left right : List Units} (hexes : ∀ g ∈ left,HexGroup g) (groups : Groups right m) : Groups (left ++ right) (left.length + m) := by
  induction left with
  | nil => simpa using groups
  | cons g left ih =>
      have later := ih (fun h member => hexes h (List.mem_cons_of_mem _ member))
      rw [List.cons_append,List.length_cons,Nat.succ_add]
      exact .more (hexes g List.mem_cons_self) later

theorem groups_length (groups : Groups gs n) : n ≤ gs.length + 1 := by
  induction groups with
  | none => simp
  | ipv4 => simp
  | more _ _ ih => simp only [List.length_cons]; omega

theorem words_filled (words : Words segments) : segments.any (fun s => decide (s = [])) = false := by
  rw [List.any_eq_false]
  intro s member
  simpa using (words s member).1

theorem hex_words (hexes : ∀ g ∈ gs,HexGroup g) : Words gs := fun g member =>
  ⟨(hexes g member).solid,hex_free (hexes g member) (by decide)⟩

-- An embedded IPv4 address right before a final "::".
def EmbeddedBefore (address : Units) : Prop := dot ∈ address ∧ ∃ before, address = before ++ [colon,colon]

theorem ipv6_accepted (address : Ipv6 text) : validIpv6 text = true := by
  rcases address with ⟨groups,eight,rfl⟩ | ⟨left,right,n,hexes,groups,few,rfl⟩
  · have words := groups_words eight
    have whole := cut_words words []
    rw [List.append_nil] at whole
    have length := groups_length eight
    have inside : colon ∈ [colon].intercalate groups := by
      match groups with
      | [] | [_] => simp at length
      | first::second::rest => simp [List.intercalate_cons_cons]
    have split : ([colon].intercalate groups).splitOn colon = groups := by
      refine List.splitOn_intercalate colon (fun g member => (words g member).2) ?_
      rintro rfl
      simp at length
    simp [validIpv6,inside,whole,cut,split,words_filled words,(units_iff groups 8).mpr eight]
  · have words := groups_words groups
    have lefts := hex_words hexes
    have first : cut ([colon].intercalate left ++ colon::colon::[colon].intercalate right) =
        some ([colon].intercalate left,[colon].intercalate right) := by
      rw [cut_words lefts]
      simp [cut]
    have second : cut ([colon].intercalate right) = none := by
      have passed := cut_words words []
      rwa [List.append_nil] at passed
    have joined := groups_join hexes groups
    have filled := words_filled (groups_words joined)
    have inside : colon ∈ [colon].intercalate left ++ colon::colon::[colon].intercalate right := by simp
    rw [validIpv6,if_neg (not_not.mpr inside),first]
    simp only [second,pieces_joined lefts,pieces_joined words,filled,(units_iff _ _).mpr joined]
    simp only [Option.isSome_none,Bool.false_eq_true,if_false,decide_eq_true_eq]
    omega

theorem ipv6_grammar (valid : validIpv6 text = true) (other : ¬EmbeddedBefore text) : Ipv6 text := by
  unfold validIpv6 at valid
  split at valid
  · cases valid
  next colons =>
    split at valid
    next before after found =>
      have split := cut_split found
      split at valid
      · cases valid
      next =>
        simp only at valid
        split at valid
        · cases valid
        next =>
          split at valid
          next n counted =>
            have groups := (units_iff _ n).mp counted
            have few : n < 8 := by simpa using valid
            refine .inr ⟨pieces before,pieces after,?_⟩
            by_cases last : pieces after = []
            · have empty : after = [] := by rw [← joined_pieces after,last]; rfl
              have free : dot ∉ text := fun inside => other ⟨inside,before,by rw [split,empty]⟩
              rw [last,List.append_nil] at groups
              obtain ⟨hexes,same⟩ := groups_hex groups (by
                intro g member inside
                apply free
                rw [split,List.mem_append]
                left
                rw [← joined_pieces before]
                exact mem_joined member inside)
              refine ⟨0,hexes,last ▸ .none,by omega,?_⟩
              rw [joined_pieces,joined_pieces,split]
            · obtain ⟨m,hexes,rest,same⟩ := groups_right groups last
              refine ⟨m,hexes,rest,by omega,?_⟩
              rw [joined_pieces,joined_pieces,split]
          · cases valid
    next =>
      simp only at valid
      split at valid
      · cases valid
      next =>
        split at valid
        next n counted =>
          have eight : n = 8 := by simpa using valid
          exact .inl ⟨text.splitOn colon,eight ▸ (units_iff _ n).mp counted,(List.intercalate_splitOn colon).symm⟩
        · cases valid

end Groups

section Addresses

theorem inBrackets_split (found : inBrackets value = some (within,port)) :
    ∃ after, value = opening::within ++ closing::after ∧ portOf after = some port := by
  cases value with
  | nil => cases found
  | cons u rest =>
      simp only [inBrackets] at found
      split at found
      · cases found
      next opens =>
        split at found
        · cases found
        · split at found
          · cases found
          next v after tail =>
            split at found
            next closes =>
              obtain ⟨found,ported,same⟩ := Option.map_eq_some_iff.mp found
              obtain ⟨rfl,rfl⟩ := same
              refine ⟨after,?_,ported⟩
              rw [not_not.mp opens,List.cons_append,← closes,← tail,List.takeWhile_append_dropWhile]
            · cases found

theorem named_split (found : named value = some (host,port)) : ∃ p, value = host ++ p ∧ portOf p = some port := by
  unfold named at found
  split at found
  · cases found
  · obtain ⟨found,ported,same⟩ := Option.map_eq_some_iff.mp found
    obtain ⟨rfl,rfl⟩ := same
    exact ⟨value.dropWhile plain,List.takeWhile_append_dropWhile.symm,ported⟩

-- The one kind of address the grammar does not speak of.
def EmbeddedEnd (value : Units) : Prop := ∃ within p, value = opening::within ++ closing::p ∧ EmbeddedBefore within

theorem accepted_grammar (accepted : isValidInternetAddress value = true) (other : ¬EmbeddedEnd value) : Address value := by
  unfold isValidInternetAddress at accepted
  split at accepted
  · cases accepted
  · split at accepted
    · cases accepted
    · split at accepted
      next within port found =>
        obtain ⟨after,rfl,ported⟩ := inBrackets_split found
        rw [Bool.and_eq_true] at accepted
        exact .ipv6 (ipv6_grammar accepted.1 (fun before => other ⟨within,after,rfl,before⟩)) ((port_iff after).mp ⟨port,ported,accepted.2⟩)
      next =>
        split at accepted
        · cases accepted
        next host port found =>
          obtain ⟨p,rfl,ported⟩ := named_split found
          split at accepted
          · cases accepted
          next short =>
            split at accepted
            · cases accepted
            next quad =>
              split at accepted
              · cases accepted
              next labels =>
                rw [List.any_eq_true] at labels
                have dns : DnsName host := (dns_iff host).mp ⟨by omega,fun l member => (label_iff l).mp (by
                  by_contra bad
                  exact labels ⟨l,member,by simpa using bad⟩)⟩
                exact .name dns (fun bad => quad ((bad_quad_iff host).mpr bad)) ((port_iff p).mp ⟨port,ported,accepted⟩)

theorem hex_alnum (hex : isHex u = true) : isAlnum u = true := by
  rw [hex_range] at hex
  rw [alnum_range]
  omega

theorem group_units (groups : Groups gs n) : ∀ g ∈ gs,∀ u ∈ g,isHex u = true ∨ u = dot := by
  induction groups with
  | none => nofun
  | ipv4 address =>
      intro g member u inside
      cases List.mem_singleton.mp member
      rcases (ipv4_units address).2 u inside with digit | same
      · exact .inl (by simp [isHex,digit])
      · exact .inr same
  | more group _ ih =>
      intro g member u inside
      rcases List.mem_cons.mp member with rfl | later
      · exact .inl (group.hex u inside)
      · exact ih g later u inside

theorem ipv6_units (address : Ipv6 within) : within ≠ [] ∧ ∀ u ∈ within,(isHex u || decide (u = colon) || decide (u = dot)) = true := by
  have parts : ∀ gs n, Groups gs n → ∀ u ∈ [colon].intercalate gs,(isHex u || decide (u = colon) || decide (u = dot)) = true := by
    intro gs n groups u inside
    rcases joined_mem inside with rfl | ⟨g,member,found⟩
    · decide
    · rcases group_units groups g member u found with hex | rfl
      · simp [hex]
      · decide
  rcases address with ⟨groups,eight,rfl⟩ | ⟨left,right,n,hexes,groups,few,rfl⟩
  · refine ⟨fun none => ?_,parts groups 8 eight⟩
    have joined := pieces_joined (groups_words eight)
    rw [none] at joined
    have length := groups_length eight
    rw [← joined] at length
    simp [pieces] at length
  · refine ⟨by simp,fun u inside => ?_⟩
    simp only [List.mem_append,List.mem_cons] at inside
    rcases inside with before | rfl | rfl | after
    · have lefts : Groups (left ++ []) (left.length + 0) := groups_join hexes .none
      rw [List.append_nil] at lefts
      exact parts left _ lefts u before
    · decide
    · decide
    · exact parts right n groups u after

theorem address_ordinary (address : Address value) : value ≠ [] ∧ ∀ u ∈ value,Ordinary u := by
  have dns : ∀ host p, DnsName host → PortText p → host ++ p ≠ [] ∧ ∀ u ∈ host ++ p,Ordinary u := by
    intro host p dns port
    obtain ⟨solid,each⟩ := dns_units dns
    refine ⟨by simp [solid],fun u inside => ?_⟩
    rcases List.mem_append.mp inside with named | ported
    · rcases each u named with alnum | same | same
      · exact .inl alnum
      · exact .inr (.inl same)
      · exact .inr (.inr (.inl same))
    · exact port_ordinary port u ported
  cases address with
  | name known _ port => exact dns _ _ known port
  | ipv4 known port => exact dns _ _ (ipv4_dns known) port
  | @ipv6 within p known port =>
      refine ⟨by simp,fun u inside => ?_⟩
      simp only [List.cons_append,List.mem_cons,List.mem_append] at inside
      rcases inside with same | within | same | ported
      · exact .inr (.inr (.inr (.inr (.inl same))))
      · have class_ := (ipv6_units known).2 u within
        simp only [Bool.or_eq_true,decide_eq_true_eq] at class_
        rcases class_ with (hex | same) | same
        · exact .inl (hex_alnum hex)
        · exact .inr (.inr (.inr (.inl same)))
        · exact .inr (.inr (.inl same))
      · exact .inr (.inr (.inr (.inr (.inr same))))
      · exact port_ordinary port u ported

theorem ordinary_passes (solid : value ≠ []) (ordinary : ∀ u ∈ value,Ordinary u) :
    (decide (value.length = 0) || decide (value ≠ trim value)) = false ∧
      (value.any (fun u => isWhite u || decide (u ≤ 0x1f) || decide (u = 0x7f)) || value.any reserved) = false := by
  have white : ∀ u ∈ value,isWhite u = false := by
    intro u inside
    have passed := (ordinary_plain (ordinary u inside)).1
    simp only [Bool.or_eq_false_iff] at passed
    exact passed.1.1
  have trimmed : trim value = value :=
    (trim_same_iff value).mpr ⟨fun u head => white u (List.mem_of_mem_head? head),fun u last => white u (List.mem_of_getLast? last)⟩
  refine ⟨by simp [trimmed,solid],?_⟩
  rw [Bool.or_eq_false_iff,List.any_eq_false,List.any_eq_false]
  exact ⟨fun u inside => by simp [(ordinary_plain (ordinary u inside)).1],fun u inside => by simp [(ordinary_plain (ordinary u inside)).2]⟩

theorem inBrackets_exact (address : Ipv6 within) (p : Units) :
    inBrackets (opening::within ++ closing::p) = (portOf p).map (fun port => (within,port)) := by
  obtain ⟨solid,each⟩ := ipv6_units address
  obtain ⟨front,back⟩ := span_exact each (fun u (head : (closing::p).head? = some u) => by cases head; decide)
  simp only [List.cons_append,inBrackets,front,back,solid,ne_eq,not_true_eq_false,if_false,if_true]

theorem dns_accepted (dns : DnsName host) (good : ¬BadQuad host) (port : PortText p) : isValidInternetAddress (host ++ p) = true := by
  obtain ⟨solid,ordinary⟩ := address_ordinary (.name dns good port)
  obtain ⟨first,second⟩ := ordinary_passes solid ordinary
  obtain ⟨filled,each⟩ := dns_units dns
  have plains : ∀ u ∈ host,plain u = true := by
    intro u inside
    rcases each u inside with alnum | rfl | rfl
    · rw [alnum_range] at alnum
      simp only [plain,Bool.and_eq_true,decide_eq_true_eq,ne_eq,unit_iff,colon,opening,closing]
      simp
      omega
    · decide
    · decide
  have outside : inBrackets (host ++ p) = none := by
    cases host with
    | nil => exact absurd rfl filled
    | cons u rest =>
        have other : u ≠ opening := by
          rintro rfl
          exact absurd (plains opening List.mem_cons_self) (by decide)
        simp [inBrackets,other]
  obtain ⟨found,ported,valid⟩ := (port_iff p).mpr port
  obtain ⟨short,labels⟩ := (dns_iff host).mpr dns
  have quad : (numericQuad host && !validIpv4 host) = false := Bool.eq_false_iff.mpr fun bad => good ((bad_quad_iff host).mp bad)
  have named_ : (host.splitOn dot).any (fun l => !validLabel l) = false := by
    rw [List.any_eq_false]
    intro l member
    simp [(label_iff l).mpr (labels l member)]
  rw [isValidInternetAddress,first,second,outside,named_exact filled plains port,ported]
  simp [quad,named_,valid,Nat.not_lt.mpr short]

theorem grammar_accepted (address : Address value) : isValidInternetAddress value = true := by
  cases address with
  | name dns good port => exact dns_accepted dns good port
  | ipv4 known port =>
      refine dns_accepted (ipv4_dns known) ?_ port
      rintro ⟨_,_,_,_,_,_,_,_,_,bad⟩
      exact bad known
  | @ipv6 within p known port =>
      obtain ⟨solid,ordinary⟩ := address_ordinary (.ipv6 known port)
      obtain ⟨first,second⟩ := ordinary_passes solid ordinary
      obtain ⟨found,ported,valid⟩ := (port_iff p).mpr port
      rw [isValidInternetAddress,first,second,inBrackets_exact known p,ported]
      simp [ipv6_accepted known,valid]

def urlParts (url : Units) : Option (Units × Units × Units) :=
  if url.take 8 = ascii "https://" then
    let rest := url.drop 8
    let authority := rest.takeWhile (fun u => u ∉ ascii "/\\?#")
    let tail := rest.dropWhile (fun u => u ∉ ascii "/\\?#")
    some (authority,tail.takeWhile (fun u => u ∉ ascii "?#"),tail.dropWhile (fun u => u ∉ ascii "?#"))
  else none

def atSign : UInt16 := 0x40

theorem accepted_free (accepted : isValidInternetAddress value = true) : ∀ u ∈ value,reserved u = false := by
  unfold isValidInternetAddress at accepted
  split at accepted
  · cases accepted
  · split at accepted
    · cases accepted
    next free =>
      simp only [Bool.or_eq_true,not_or,Bool.not_eq_true,List.any_eq_false] at free
      exact fun u inside => by simpa using free.2 u inside

theorem accepted_url (accepted : isValidInternetAddress value = true) :
    urlParts (ascii "https://" ++ value ++ ascii "/v1") = some (value,ascii "/v1",[]) ∧ atSign ∉ value := by
  have free := accepted_free accepted
  have listed : ascii "/\\?#" ⊆ ascii "/\\?#@" := by decide
  have inside : ∀ u ∈ value,(fun u => decide (u ∉ ascii "/\\?#")) u = true := by
    intro u member
    have apart := of_decide_eq_false (free u member)
    exact decide_eq_true fun bad => apart (listed bad)
  obtain ⟨front,back⟩ := span_exact inside (fun u (head : (ascii "/v1").head? = some u) => by cases head; decide)
  refine ⟨?_,fun member => absurd (free atSign member) (by decide)⟩
  have start : (ascii "https://" ++ (value ++ ascii "/v1")).take 8 = ascii "https://" := List.take_left' (by decide)
  have rest : (ascii "https://" ++ (value ++ ascii "/v1")).drop 8 = value ++ ascii "/v1" := List.drop_left' (by decide)
  rw [List.append_assoc,urlParts,if_pos start,rest]
  simp only [front,back]
  rfl

theorem address_grammar (value : Units) :
    (¬EmbeddedEnd value → (isValidInternetAddress value = true ↔ Address value)) ∧
      (isValidInternetAddress value = true →
        urlParts (ascii "https://" ++ value ++ ascii "/v1") = some (value,ascii "/v1",[]) ∧ atSign ∉ value) :=
  ⟨fun other => ⟨fun accepted => accepted_grammar accepted other,grammar_accepted⟩,accepted_url⟩

theorem address_grammar_bracketed : Address (ascii "[2001:db8::1]:8765") := by
  refine ((address_grammar (ascii "[2001:db8::1]:8765")).1 ?_).mp (by decide)
  rintro ⟨within,p,same,dots,_⟩
  have inside : dot ∈ ascii "[2001:db8::1]:8765" := same ▸ List.mem_append_left _ (List.mem_cons_of_mem _ dots)
  exact absurd inside (by decide)

theorem quad_refused : DnsName (ascii "256.1.1.1") ∧ isValidInternetAddress (ascii "256.1.1.1") = false := by
  refine ⟨(dns_iff _).mp ⟨by decide,?_⟩,by decide⟩
  have labels : ∀ l ∈ (ascii "256.1.1.1").splitOn dot,validLabel l = true := by decide
  exact fun l member => (label_iff l).mp (labels l member)

end Addresses

end RemoteFileExplorer.InternetAddresses
