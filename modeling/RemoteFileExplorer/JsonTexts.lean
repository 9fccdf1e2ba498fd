import Mathlib.Data.List.Basic
import Mathlib.Tactic.Common

namespace RemoteFileExplorer.JsonTexts

abbrev Text := List Char

inductive Json (Num : Type) where
  | null
  | bool (b : Bool)
  | num (n : Num)
  | str (s : Text)
  | arr (items : List (Json Num))
  | obj (fields : List (Text × Json Num))

structure Numerals where
  Num : Type
  read : Text → Num
  write : Num → Text
  finite : Num → Bool
  integer : Num → Bool

-- How far a number literal has come.
inductive Mark where
  | start
  | minus
  | zero
  | whole
  | dot
  | fraction
  | exponent
  | sign
  | power
  deriving DecidableEq, Repr

def isDigit (c : Char) : Bool := '0' ≤ c && c ≤ '9'

def Mark.next (mark : Mark) (c : Char) : Option Mark :=
  if isDigit c then
    match mark with
    | .start | .minus => some (if c = '0' then .zero else .whole)
    | .zero => none
    | .whole => some .whole
    | .dot | .fraction => some .fraction
    | .exponent | .sign | .power => some .power
  else if c = '-' then
    match mark with
    | .start => some .minus
    | .exponent => some .sign
    | _ => none
  else if c = '+' then
    match mark with
    | .exponent => some .sign
    | _ => none
  else if c = '.' then
    match mark with
    | .zero | .whole => some .dot
    | _ => none
  else if c = 'e' ∨ c = 'E' then
    match mark with
    | .zero | .whole | .fraction => some .exponent
    | _ => none
  else none

def Mark.complete : Mark → Bool
  | .zero | .whole | .fraction | .power => true
  | _ => false

-- The longest run of a literal, the mark it ends at and the rest.
def scan : Mark → Text → Text × Mark × Text
  | mark,[] => ([],mark,[])
  | mark,c::rest =>
    match mark.next c with
    | none => ([],mark,c::rest)
    | some later =>
      let (run,last,left) := scan later rest
      (c::run,last,left)

def isNumeral (text : Text) : Bool :=
  match scan .start text with
  | (_,mark,rest) => mark.complete && rest == []

def hexDigit (n : Nat) : Char := if n < 10 then Char.ofNat (48 + n) else Char.ofNat (87 + n)

def hexValue (c : Char) : Option Nat :=
  if isDigit c then some (c.toNat - 48)
  else if 'a' ≤ c ∧ c ≤ 'f' then some (c.toNat - 87)
  else if 'A' ≤ c ∧ c ≤ 'F' then some (c.toNat - 55)
  else none

def shortEscape (c : Char) : Option Char :=
  if c = '"' ∨ c = '\\' then some c
  else if c = '\x08' then some 'b'
  else if c = '\x0c' then some 'f'
  else if c = '\n' then some 'n'
  else if c = '\r' then some 'r'
  else if c = '\t' then some 't'
  else none

def escaped (c : Char) : Text :=
  match shortEscape c with
  | some short => ['\\',short]
  | none => if c.toNat < 32 then ['\\','u','0','0',hexDigit (c.toNat / 16),hexDigit (c.toNat % 16)] else [c]

def quoted (s : Text) : Text := '"'::s.flatMap escaped ++ ['"']

def hexUnit (a b c d : Char) : Option Nat :=
  match hexValue a,hexValue b,hexValue c,hexValue d with
  | some w,some x,some y,some z => some (((w * 16 + x) * 16 + y) * 16 + z)
  | _,_,_,_ => none

def simpleEscape (c : Char) : Option Char :=
  if c = '"' ∨ c = '\\' ∨ c = '/' then some c
  else if c = 'b' then some '\x08'
  else if c = 'f' then some '\x0c'
  else if c = 'n' then some '\n'
  else if c = 'r' then some '\r'
  else if c = 't' then some '\t'
  else none

-- The characters up to the closing quote. Two escaped surrogates make one
-- character; a single one is replaced.
def string : Text → Option (Text × Text)
  | [] => none
  | '"'::rest => some ([],rest)
  | '\\':: 'u'::a::b::c::d::rest =>
    match hexUnit a b c d with
    | none => none
    | some unit =>
      if 0xd800 ≤ unit ∧ unit < 0xdc00 then
        match rest with
        | '\\':: 'u'::e::f::g::h::after =>
          match hexUnit e f g h with
          | none => none
          | some low =>
            if 0xdc00 ≤ low ∧ low < 0xe000 then
              (string after).map (fun p => (Char.ofNat (0x10000 + (unit - 0xd800) * 0x400 + (low - 0xdc00))::p.1,p.2))
            else (string ('\\':: 'u'::e::f::g::h::after)).map (fun p => ('\ufffd'::p.1,p.2))
        | other => (string other).map (fun p => ('\ufffd'::p.1,p.2))
      else if 0xdc00 ≤ unit ∧ unit < 0xe000 then (string rest).map (fun p => ('\ufffd'::p.1,p.2))
      else (string rest).map (fun p => (Char.ofNat unit::p.1,p.2))
  | '\\'::c::rest =>
    match simpleEscape c with
    | none => none
    | some plain => (string rest).map (fun p => (plain::p.1,p.2))
  | c::rest => if c.toNat < 32 ∨ c = '\\' then none else (string rest).map (fun p => (c::p.1,p.2))

section Values
variable (N : Numerals)

def isBlank (c : Char) : Bool := c = ' ' || c = '\t' || c = '\n' || c = '\r'

def skip (text : Text) : Text := text.dropWhile isBlank

def number (text : Text) : Option (Json N.Num × Text) :=
  match scan .start text with
  | (run,mark,rest) => if mark.complete then some (.num (N.read run),rest) else none

-- A key that comes twice keeps its place and takes the later value.
def assign (key : Text) (value : Json N.Num) : List (Text × Json N.Num) → List (Text × Json N.Num)
  | [] => [(key,value)]
  | field::rest => if field.1 = key then (key,value)::rest else field::assign key value rest

mutual

def value : Nat → Text → Option (Json N.Num × Text)
  | 0,_ => none
  | fuel + 1,text =>
    match skip text with
    | '"'::rest => (string rest).map (fun p => (.str p.1,p.2))
    | '['::rest =>
      match skip rest with
      | ']'::after => some (.arr [],after)
      | inside => (items fuel inside).map (fun p => (.arr p.1,p.2))
    | '{'::rest =>
      match skip rest with
      | '}'::after => some (.obj [],after)
      | inside => (fields fuel [] inside).map (fun p => (.obj p.1,p.2))
    | 'n':: 'u':: 'l':: 'l'::rest => some (.null,rest)
    | 't':: 'r':: 'u':: 'e'::rest => some (.bool true,rest)
    | 'f':: 'a':: 'l':: 's':: 'e'::rest => some (.bool false,rest)
    | other => number N other

def items : Nat → Text → Option (List (Json N.Num) × Text)
  | 0,_ => none
  | fuel + 1,text =>
    match value fuel text with
    | none => none
    | some (first,rest) =>
      match skip rest with
      | ','::more => (items fuel more).map (fun p => (first::p.1,p.2))
      | ']'::after => some ([first],after)
      | _ => none

def fields : Nat → List (Text × Json N.Num) → Text → Option (List (Text × Json N.Num) × Text)
  | 0,_,_ => none
  | fuel + 1,seen,text =>
    match skip text with
    | '"'::named =>
      match string named with
      | none => none
      | some (key,rest) =>
        match skip rest with
        | ':'::rest =>
          match value fuel rest with
          | none => none
          | some (found,rest) =>
            match skip rest with
            | ','::more => fields fuel (assign N key found seen) more
            | '}'::after => some (assign N key found seen,after)
            | _ => none
        | _ => none
    | _ => none

end

def parse (text : Text) : Option (Json N.Num) :=
  match value N (text.length + 1) text with
  | some (found,rest) => if skip rest = [] then some found else none
  | none => none

-- JSON.stringify.
mutual

def stringify : Json N.Num → Text
  | .null => ['n','u','l','l']
  | .bool true => ['t','r','u','e']
  | .bool false => ['f','a','l','s','e']
  | .num n => if N.finite n then N.write n else ['n','u','l','l']
  | .str s => quoted s
  | .arr [] => ['[',']']
  | .arr (first::rest) => '['::stringify first ++ stringifyItems rest
  | .obj [] => ['{','}']
  | .obj ((key,first)::rest) => '{'::quoted key ++ ':'::stringify first ++ stringifyFields rest

def stringifyItems : List (Json N.Num) → Text
  | [] => [']']
  | first::rest => ','::stringify first ++ stringifyItems rest

def stringifyFields : List (Text × Json N.Num) → Text
  | [] => ['}']
  | (key,first)::rest => ','::quoted key ++ ':'::stringify first ++ stringifyFields rest

end

-- What a reader gets back: numbers as their texts are read again.
mutual

def settled : Json N.Num → Json N.Num
  | .num n => if N.finite n then .num (N.read (N.write n)) else .null
  | .arr items => .arr (settledItems items)
  | .obj fields => .obj (settledFields fields)
  | other => other

def settledItems : List (Json N.Num) → List (Json N.Num)
  | [] => []
  | first::rest => settled first::settledItems rest

def settledFields : List (Text × Json N.Num) → List (Text × Json N.Num)
  | [] => []
  | (key,first)::rest => (key,settled first)::settledFields rest

end

mutual

def Proper : Json N.Num → Prop
  | .arr items => ProperItems items
  | .obj fields => (fields.map Prod.fst).Nodup ∧ ProperFields fields
  | _ => True

def ProperItems : List (Json N.Num) → Prop
  | [] => True
  | first::rest => Proper first ∧ ProperItems rest

def ProperFields : List (Text × Json N.Num) → Prop
  | [] => True
  | (_,first)::rest => Proper first ∧ ProperFields rest

end

structure Numerals.Lawful : Prop where
  literal : ∀ n, N.finite n = true → isNumeral (N.write n) = true
  finite : ∀ n, N.finite n = true → N.finite (N.read (N.write n)) = true
  rewrite : ∀ n, N.finite n = true → N.write (N.read (N.write n)) = N.write n

end Values

section Scanning
variable {text rest run left : Text} {mark last : Mark}

theorem scan_splits (scanned : scan mark text = (run,last,left)) : text = run ++ left := by
  induction text generalizing mark run with
  | nil =>
    cases scanned
    rfl
  | cons c text ih =>
    simp only [scan] at scanned
    split at scanned
    · cases scanned
      rfl
    · rename_i later _
      cases inner : scan later text with
      | mk run' more =>
        rw [inner] at scanned
        cases scanned
        rw [List.cons_append,← ih inner]

theorem scan_append (scanned : scan mark text = (text,last,[])) (stops : ∀ c, rest.head? = some c → last.next c = none) :
    scan mark (text ++ rest) = (text,last,rest) := by
  induction text generalizing mark with
  | nil =>
    cases scanned
    cases rest with
    | nil => rfl
    | cons c rest => simp [scan,stops c rfl]
  | cons c text ih =>
    simp only [scan] at scanned
    split at scanned
    · cases scanned
    · rename_i later moved
      cases inner : scan later text with
      | mk run' more =>
        obtain ⟨last',left'⟩ := more
        rw [inner] at scanned
        obtain ⟨rfl,rfl,rfl⟩ := scanned
        simp only [List.cons_append,scan,moved,ih inner]

theorem numeral_scanned (numeral : isNumeral text = true) : ∃ last, scan .start text = (text,last,[]) ∧ last.complete = true := by
  unfold isNumeral at numeral
  cases inner : scan .start text with
  | mk run more =>
    obtain ⟨last,left⟩ := more
    rw [inner] at numeral
    simp only [Bool.and_eq_true,beq_iff_eq] at numeral
    obtain ⟨complete,rfl⟩ := numeral
    have whole := scan_splits inner
    rw [List.append_nil] at whole
    exact ⟨last,by rw [whole],complete⟩

theorem numeral_head (numeral : isNumeral text = true) : ∃ c more, text = c::more ∧ (isDigit c = true ∨ c = '-') := by
  obtain ⟨last,scanned,complete⟩ := numeral_scanned numeral
  cases text with
  | nil =>
    cases scanned
    cases complete
  | cons c more =>
    refine ⟨c,more,rfl,?_⟩
    simp only [scan] at scanned
    split at scanned
    · cases scanned
    · rename_i later moved
      by_contra neither
      have digit : isDigit c = false := by simpa using fun yes => neither (.inl yes)
      have minus : c ≠ '-' := fun yes => neither (.inr yes)
      simp [Mark.next,digit,minus] at moved

end Scanning

theorem hexValue_hexDigit : ∀ n, n < 16 → hexValue (hexDigit n) = some n := by decide

theorem shortEscape_simple (short : shortEscape c = some e) : simpleEscape e = some c ∧ e ≠ 'u' := by
  unfold shortEscape at short
  split_ifs at short with same same same same same same
  · cases short
    rcases same with rfl | rfl <;> decide
  all_goals
    cases short
    subst same
    decide

theorem shortEscape_none (plain : shortEscape c = none) : c ≠ '"' ∧ c ≠ '\\' := by
  unfold shortEscape at plain
  split_ifs at plain with either
  exact ⟨fun same => either (.inl same),fun same => either (.inr same)⟩

theorem string_short (short : simpleEscape e = some c) (other : e ≠ 'u') (rest : Text) :
    string ('\\'::e::rest) = (string rest).map (fun p => (c::p.1,p.2)) := by
  rw [string.eq_def]
  split
  · rename_i none
    cases none
  · rename_i none
    cases none
  · rename_i same
    cases same
    exact absurd rfl other
  · rename_i same
    cases same
    rw [short]
  · rename_i differs same
    cases same
    exact (differs e rest rfl rfl).elim

theorem string_escaped (c : Char) (rest : Text) : string (escaped c ++ rest) = (string rest).map (fun p => (c::p.1,p.2)) := by
  unfold escaped
  split
  · rename_i short known
    obtain ⟨simple,other⟩ := shortEscape_simple known
    exact string_short simple other rest
  · rename_i plain
    obtain ⟨quote,slash⟩ := shortEscape_none plain
    split
    · rename_i low
      have unit : hexUnit '0' '0' (hexDigit (c.toNat / 16)) (hexDigit (c.toNat % 16)) = some c.toNat := by
        have zero : hexValue '0' = some 0 := by decide
        simp only [hexUnit,zero,hexValue_hexDigit _ (show c.toNat / 16 < 16 by omega),hexValue_hexDigit _ (show c.toNat % 16 < 16 by omega)]
        congr 1
        omega
      have high : ¬ (0xd800 ≤ c.toNat ∧ c.toNat < 0xdc00) := by omega
      have tail : ¬ (0xdc00 ≤ c.toNat ∧ c.toNat < 0xe000) := by omega
      simp only [List.cons_append,List.nil_append]
      rw [string.eq_def]
      simp only [unit,if_neg high,if_neg tail,Char.ofNat_toNat]
    · rename_i printable
      have taken : ¬ (c.toNat < 32 ∨ c = '\\') := fun either => either.elim printable slash
      simp only [List.cons_append,List.nil_append]
      rw [string.eq_def]
      split
      · rename_i none
        cases none
      · rename_i same
        cases same
        exact absurd rfl quote
      · rename_i same
        cases same
        exact absurd rfl slash
      · rename_i same
        cases same
        exact absurd rfl slash
      · rename_i same
        cases same
        rw [if_neg taken]

theorem string_quoted (s rest : Text) : string (s.flatMap escaped ++ '"'::rest) = some (s,rest) := by
  induction s with
  | nil => rfl
  | cons c s ih =>
    rw [List.flatMap_cons,List.append_assoc,string_escaped,ih]
    rfl

section RoundTrip
variable {N : Numerals}

def Ends (rest : Text) : Prop := ∀ c, rest.head? = some c → c = ',' ∨ c = ']' ∨ c = '}'

theorem ends_next (mark : Mark) (ends : c = ',' ∨ c = ']' ∨ c = '}') : mark.next c = none := by
  rcases ends with rfl | rfl | rfl <;> cases mark <;> rfl

theorem number_written (lawful : N.Lawful) (finite : N.finite n = true) (ends : Ends rest) :
    number N (N.write n ++ rest) = some (.num (N.read (N.write n)),rest) := by
  obtain ⟨last,scanned,complete⟩ := numeral_scanned (lawful.literal n finite)
  have whole : scan .start (N.write n ++ rest) = (N.write n,last,rest) := scan_append scanned (fun c head => ends_next last (ends c head))
  simp only [number,whole,complete,if_true]

theorem literal_other (head : isDigit c = true ∨ c = '-') (plain : isDigit d = false) (dash : d ≠ '-') : c ≠ d := by
  rintro rfl
  rcases head with digit | minus
  · rw [digit] at plain
    cases plain
  · exact dash minus

theorem literal_solid (head : isDigit c = true ∨ c = '-') : isBlank c = false := by
  have space := literal_other head (show isDigit ' ' = false by decide) (by decide)
  have tab := literal_other head (show isDigit '\t' = false by decide) (by decide)
  have line := literal_other head (show isDigit '\n' = false by decide) (by decide)
  have back := literal_other head (show isDigit '\r' = false by decide) (by decide)
  simp [isBlank,space,tab,line,back]

theorem skip_solid (solid : isBlank c = false) (more : Text) : skip (c::more) = c::more := by
  simp [skip,solid]

theorem value_number (head : isDigit c = true ∨ c = '-') (more : Text) : value N (fuel + 1) (c::more) = number N (c::more) := by
  have quote := literal_other head (show isDigit '"' = false by decide) (by decide)
  have bracket := literal_other head (show isDigit '[' = false by decide) (by decide)
  have brace := literal_other head (show isDigit '{' = false by decide) (by decide)
  have n := literal_other head (show isDigit 'n' = false by decide) (by decide)
  have t := literal_other head (show isDigit 't' = false by decide) (by decide)
  have f := literal_other head (show isDigit 'f' = false by decide) (by decide)
  rw [value,skip_solid (literal_solid head)]
  split
  · rename_i same
    exact absurd (List.cons.inj same).1 quote
  · rename_i same
    exact absurd (List.cons.inj same).1 bracket
  · rename_i same
    exact absurd (List.cons.inj same).1 brace
  · rename_i same
    exact absurd (List.cons.inj same).1 n
  · rename_i same
    exact absurd (List.cons.inj same).1 t
  · rename_i same
    exact absurd (List.cons.inj same).1 f
  · rfl

theorem assign_fresh (fresh : key ∉ seen.map Prod.fst) (found : Json N.Num) :
    assign N key found seen = seen ++ [(key,found)] := by
  induction seen with
  | nil => rfl
  | cons field seen ih =>
    simp only [List.map_cons,List.mem_cons,not_or] at fresh
    rw [assign,if_neg (Ne.symm fresh.1),ih fresh.2,List.cons_append]

theorem items_end (rest : List (Json N.Num)) (tail : Text) : Ends (stringifyItems N rest ++ tail) := by
  intro c head
  cases rest with
  | nil =>
    cases head
    exact .inr (.inl rfl)
  | cons first rest =>
    cases head
    exact .inl rfl

theorem fields_end (rest : List (Text × Json N.Num)) (tail : Text) : Ends (stringifyFields N rest ++ tail) := by
  intro c head
  cases rest with
  | nil =>
    cases head
    exact .inr (.inr rfl)
  | cons first rest =>
    cases head
    exact .inl rfl

theorem stringify_head (lawful : N.Lawful) (v : Json N.Num) : ∃ c more, stringify N v = c::more ∧ isBlank c = false ∧ c ≠ ']' := by
  cases v with
  | null | str s => exact ⟨_,_,rfl,by decide,by decide⟩
  | bool b => cases b <;> exact ⟨_,_,rfl,by decide,by decide⟩
  | num n =>
    rw [stringify]
    split
    · rename_i finite
      obtain ⟨c,more,same,head⟩ := numeral_head (lawful.literal n finite)
      exact ⟨c,more,same,literal_solid head,literal_other head (by decide) (by decide)⟩
    · exact ⟨_,_,rfl,by decide,by decide⟩
  | arr items => cases items <;> exact ⟨_,_,rfl,by decide,by decide⟩
  | obj fields => cases fields <;> exact ⟨_,_,rfl,by decide,by decide⟩

structure ReadsBack (N : Numerals) (fuel : Nat) : Prop where
  value : ∀ v rest, Proper N v → (stringify N v).length < fuel → Ends rest → value N fuel (stringify N v ++ rest) = some (settled N v,rest)
  items : ∀ first more rest, Proper N first → ProperItems N more → (stringify N first ++ stringifyItems N more).length < fuel →
    items N fuel (stringify N first ++ (stringifyItems N more ++ rest)) = some (settledItems N (first::more),rest)
  fields : ∀ seen key first more rest, Proper N first → ProperFields N more → (seen.map Prod.fst ++ key::more.map Prod.fst).Nodup →
    (stringify N first ++ stringifyFields N more).length < fuel →
    fields N fuel seen (quoted key ++ ':'::(stringify N first ++ (stringifyFields N more ++ rest))) = some (seen ++ settledFields N ((key,first)::more),rest)

theorem string_read (fuel : Nat) (s rest : Text) : value N (fuel + 1) (quoted s ++ rest) = some (.str s,rest) := by
  have text : quoted s ++ rest = '"'::(s.flatMap escaped ++ '"'::rest) := by simp [quoted]
  rw [text,value,skip_solid (by decide)]
  simp only [string_quoted,Option.map_some]

section
variable (lawful : N.Lawful) (before : ReadsBack N fuel)
include lawful before

theorem value_reads (v : Json N.Num) (rest : Text) (proper : Proper N v)
    (enough : (stringify N v).length < fuel + 1) (ends : Ends rest) : value N (fuel + 1) (stringify N v ++ rest) = some (settled N v,rest) := by
  cases v with
  | null => rfl
  | bool b => cases b <;> rfl
  | num n =>
    rw [stringify,settled]
    split
    · rename_i finite
      obtain ⟨c,more,same,head⟩ := numeral_head (lawful.literal n finite)
      have read := number_written lawful finite ends
      rw [same,List.cons_append] at read ⊢
      rw [value_number head,read]
    · rfl
  | str s => exact string_read fuel s rest
  | arr items =>
    cases items with
    | nil => rfl
    | cons first more =>
      rw [stringify] at enough ⊢
      have shorter : (stringify N first ++ stringifyItems N more).length < fuel := by
        simp only [List.cons_append,List.length_cons] at enough
        omega
      have read := before.items first more rest proper.1 proper.2 shorter
      obtain ⟨c,tail,head,solid,open_⟩ := stringify_head lawful first
      rw [head,List.cons_append] at read
      rw [List.cons_append,List.cons_append,List.append_assoc,value,skip_solid (by decide),head,List.cons_append]
      simp only [skip_solid solid]
      split
      · rename_i same
        exact absurd (List.cons.inj same).1 open_
      · rw [read]
        rfl
  | obj fields =>
    cases fields with
    | nil => rfl
    | cons field more =>
      obtain ⟨key,first⟩ := field
      rw [stringify] at enough ⊢
      have shorter : (stringify N first ++ stringifyFields N more).length < fuel := by
        simp only [List.cons_append,List.length_cons,List.length_append] at enough ⊢
        omega
      have read := before.fields [] key first more rest proper.2.1 proper.2.2 proper.1 shorter
      have text : '{'::quoted key ++ ':'::stringify N first ++ stringifyFields N more ++ rest =
          '{':: '"'::(key.flatMap escaped ++ ['"'] ++ ':'::(stringify N first ++ (stringifyFields N more ++ rest))) := by simp [quoted]
      have inside : quoted key ++ ':'::(stringify N first ++ (stringifyFields N more ++ rest)) =
          '"'::(key.flatMap escaped ++ ['"'] ++ ':'::(stringify N first ++ (stringifyFields N more ++ rest))) := by simp [quoted]
      rw [inside] at read
      rw [text,value,skip_solid (by decide)]
      simp only [skip_solid (show isBlank '"' = false by decide)]
      split
      · rename_i same
        exact absurd (List.cons.inj same).1 (by decide)
      · rw [read]
        rfl

theorem items_read (first : Json N.Num) (more : List (Json N.Num)) (rest : Text)
    (proper : Proper N first) (properMore : ProperItems N more) (enough : (stringify N first ++ stringifyItems N more).length < fuel + 1) :
    items N (fuel + 1) (stringify N first ++ (stringifyItems N more ++ rest)) = some (settledItems N (first::more),rest) := by
  rw [List.length_append] at enough
  have some_ : 0 < (stringifyItems N more).length := by cases more <;> simp [stringifyItems]
  rw [items,before.value first _ proper (by omega) (items_end more rest)]
  cases more with
  | nil =>
    rfl
  | cons second more =>
    simp only [stringifyItems,List.cons_append,List.append_assoc,skip_solid (show isBlank ',' = false by decide)]
    rw [stringifyItems] at enough
    rw [before.items second more rest properMore.1 properMore.2 (by simp only [List.cons_append,List.length_cons] at enough; omega)]
    rfl

theorem fields_read (seen : List (Text × Json N.Num)) (key : Text) (first : Json N.Num)
    (more : List (Text × Json N.Num)) (rest : Text) (proper : Proper N first) (properMore : ProperFields N more)
    (distinct : (seen.map Prod.fst ++ key::more.map Prod.fst).Nodup) (enough : (stringify N first ++ stringifyFields N more).length < fuel + 1) :
    fields N (fuel + 1) seen (quoted key ++ ':'::(stringify N first ++ (stringifyFields N more ++ rest))) = some (seen ++ settledFields N ((key,first)::more),rest) := by
  rw [List.length_append] at enough
  have some_ : 0 < (stringifyFields N more).length := by cases more <;> simp [stringifyFields]
  have fresh : key ∉ seen.map Prod.fst := fun member => (List.nodup_append.mp distinct).2.2 key member key (List.mem_cons_self ..) rfl
  have text : quoted key ++ ':'::(stringify N first ++ (stringifyFields N more ++ rest)) =
      '"'::(key.flatMap escaped ++ '"':: ':'::(stringify N first ++ (stringifyFields N more ++ rest))) := by simp [quoted]
  rw [text,fields,skip_solid (by decide)]
  simp only [string_quoted,skip_solid (show isBlank ':' = false by decide)]
  rw [before.value first _ proper (by omega) (fields_end more rest)]
  simp only [assign_fresh fresh]
  cases more with
  | nil =>
    rfl
  | cons second more =>
    obtain ⟨name,next⟩ := second
    simp only [stringifyFields,List.cons_append,List.append_assoc,skip_solid (show isBlank ',' = false by decide)]
    have later : ((seen ++ [(key,settled N first)]).map Prod.fst ++ name::more.map Prod.fst).Nodup := by
      simpa using distinct
    have shorter : (stringify N next ++ stringifyFields N more).length < fuel := by
      simp only [stringifyFields,List.cons_append,List.length_cons,List.length_append] at enough ⊢
      omega
    rw [before.fields _ name next more rest properMore.1 properMore.2 later shorter]
    simp [settledFields]

end

theorem reads_back (lawful : N.Lawful) (fuel : Nat) : ReadsBack N fuel := by
  induction fuel with
  | zero => exact ⟨nofun,nofun,nofun⟩
  | succ fuel before => exact ⟨value_reads lawful before,items_read lawful before,fields_read lawful before⟩

theorem parse_stringify (lawful : N.Lawful) (proper : Proper N v) : parse N (stringify N v) = some (settled N v) := by
  have read := (reads_back lawful ((stringify N v).length + 1)).value v [] proper (Nat.lt_succ_self _) nofun
  rw [List.append_nil] at read
  simp [parse,read,skip]

end RoundTrip

end RemoteFileExplorer.JsonTexts
