import Mathlib.Data.List.DropRight
import Mathlib.Tactic.Linarith

namespace RemoteFileExplorer.CodeUnits

-- A string of the language is a list of UTF-16 code units, paired or not.
abbrev Units := List UInt16
abbrev Bytes := List UInt8

def ascii (text : String) : Units := text.toList.map fun c => UInt16.ofNat c.toNat

def isWhite (u : UInt16) : Bool :=
  u ∈ [0x9,0xa,0xb,0xc,0xd,0x20,0xa0,0x1680,0x2028,0x2029,0x202f,0x205f,0x3000,0xfeff] || (0x2000 ≤ u && u ≤ 0x200a)

def trim (text : Units) : Units := (text.dropWhile isWhite).rdropWhile isWhite

def isHigh (u : UInt16) : Bool := 0xd800 ≤ u && u ≤ 0xdbff

def isLow (u : UInt16) : Bool := 0xdc00 ≤ u && u ≤ 0xdfff

def unitsOf (cp : Nat) : Units :=
  if cp > 0xffff then [UInt16.ofNat (0xd800 + (cp - 0x10000) / 1024),UInt16.ofNat (0xdc00 + (cp - 0x10000) % 1024)]
  else [UInt16.ofNat cp]

def utf16 (text : List Char) : Units := text.flatMap fun c => unitsOf c.toNat

def utf8 (text : List Char) : Bytes := text.flatMap String.utf8EncodeChar

def pairOf (high low : UInt16) : Char := Char.ofNat (0x10000 + (high.toNat - 0xd800) * 1024 + (low.toNat - 0xdc00))

def aloneOf (u : UInt16) : Char := if isHigh u || isLow u then '\ufffd' else Char.ofNat u.toNat

-- The scalar values of a string; a surrogate that has no partner is replaced.
def scalars : Units → List Char
  | [] => []
  | [u] => [aloneOf u]
  | u::v::rest => if isHigh u && isLow v then pairOf u v::scalars rest else aloneOf u::scalars (v::rest)

def encode (text : Units) : Bytes := utf8 (scalars text)

def WellFormed (bytes : Bytes) : Prop := ∃ text : List Char, utf8 text = bytes

@[simp] theorem utf8_nil : utf8 [] = [] := rfl

@[simp] theorem utf8_cons (c : Char) (text : List Char) : utf8 (c::text) = String.utf8EncodeChar c ++ utf8 text := rfl

@[simp] theorem utf8_append (text rest : List Char) : utf8 (text ++ rest) = utf8 text ++ utf8 rest := by
  simp [utf8]

@[simp] theorem utf16_nil : utf16 [] = [] := rfl

@[simp] theorem utf16_cons (c : Char) (text : List Char) : utf16 (c::text) = unitsOf c.toNat ++ utf16 text := rfl

@[simp] theorem utf16_append (text rest : List Char) : utf16 (text ++ rest) = utf16 text ++ utf16 rest := by
  simp [utf16]

theorem split_free {text part : List α} (member : part ∈ text.splitOnP p) : ∀ u ∈ part,p u = false := by
  induction text generalizing part with
  | nil => simp_all
  | cons c rest ih =>
      rw [List.splitOnP_cons_eq_if_modifyHead] at member
      split at member
      · rcases List.mem_cons.mp member with rfl | later
        · nofun
        · exact ih later
      next other =>
        cases parts : rest.splitOnP p with
        | nil => simp [parts] at member
        | cons first more =>
            rw [parts,List.modifyHead_cons] at member
            rcases List.mem_cons.mp member with rfl | later
            · intro u inside
              rcases List.mem_cons.mp inside with rfl | deeper
              · simpa using other
              · exact ih (by rw [parts]; exact List.mem_cons_self) u deeper
            · exact ih (by rw [parts]; exact List.mem_cons_of_mem _ later)

theorem dropped_head {text : Units} (head : (text.dropWhile isWhite).head? = some u) : isWhite u = false := by
  have found := List.head?_dropWhile_not isWhite text
  rwa [head] at found

theorem trim_mem (inside : u ∈ trim text) : u ∈ text :=
  List.dropWhile_subset _ (List.IsPrefix.subset (List.rdropWhile_prefix _ _) inside)

@[simp] theorem trim_nil : trim [] = [] := rfl

theorem trim_length (text : Units) : (trim text).length ≤ text.length :=
  Nat.le_trans (List.IsPrefix.length_le (List.rdropWhile_prefix _ _)) (List.IsSuffix.length_le (List.dropWhile_suffix _))

theorem trim_head {text : Units} (head : (trim text).head? = some u) : isWhite u = false := by
  obtain ⟨rest,split⟩ := List.rdropWhile_prefix isWhite (text.dropWhile isWhite)
  refine dropped_head (?_ : (text.dropWhile isWhite).head? = some u)
  rw [← split,List.head?_append]
  change (trim text).head?.or rest.head? = some u
  rw [head]
  rfl

theorem trim_last (last : (trim text).getLast? = some u) : isWhite u = false := by
  rw [trim,List.rdropWhile,List.getLast?_reverse] at last
  exact dropped_head last

theorem trim_same_iff (text : Units) :
    trim text = text ↔ (∀ u, text.head? = some u → isWhite u = false) ∧ ∀ u, text.getLast? = some u → isWhite u = false := by
  constructor
  · intro same
    exact ⟨fun u head => trim_head (by rwa [same]),fun u last => trim_last (by rwa [same])⟩
  · rintro ⟨head,last⟩
    have front : text.dropWhile isWhite = text := by
      cases text with
      | nil => rfl
      | cons u rest => rw [List.dropWhile_cons_of_neg (by simp [head u rfl])]
    rw [trim,front,List.rdropWhile_eq_self_iff]
    intro solid
    rw [last _ (List.getLast?_eq_some_getLast solid)]
    exact Bool.false_ne_true

theorem scalar_bounds (c : Char) : c.toNat < 0xd800 ∨ 0xdfff < c.toNat ∧ c.toNat < 0x110000 := c.valid

theorem unit_low (small : n < 0x10000) : (UInt16.ofNat n).toNat = n := by
  rw [UInt16.toNat_ofNat']
  omega

theorem high_iff (u : UInt16) : isHigh u = true ↔ 0xd800 ≤ u.toNat ∧ u.toNat ≤ 0xdbff := by
  simp [isHigh,UInt16.le_iff_toNat_le]

theorem low_iff (u : UInt16) : isLow u = true ↔ 0xdc00 ≤ u.toNat ∧ u.toNat ≤ 0xdfff := by
  simp [isLow,UInt16.le_iff_toNat_le]

theorem scalars_single (other : isHigh u = false) (rest : Units) : scalars (u::rest) = aloneOf u::scalars rest := by
  cases rest with
  | nil => rfl
  | cons v rest => simp [scalars,other]

theorem scalars_units (c : Char) (rest : Units) : scalars (unitsOf c.toNat ++ rest) = c::scalars rest := by
  have bounds := scalar_bounds c
  unfold unitsOf
  split
  next large =>
    have high := unit_low (n := 0xd800 + (c.toNat - 0x10000) / 1024) (by omega)
    have low := unit_low (n := 0xdc00 + (c.toNat - 0x10000) % 1024) (by omega)
    have first := (high_iff (UInt16.ofNat (0xd800 + (c.toNat - 0x10000) / 1024))).mpr (by omega)
    have second := (low_iff (UInt16.ofNat (0xdc00 + (c.toNat - 0x10000) % 1024))).mpr (by omega)
    have whole : 0x10000 + (0xd800 + (c.toNat - 0x10000) / 1024 - 0xd800) * 1024 + (0xdc00 + (c.toNat - 0x10000) % 1024 - 0xdc00) = c.toNat := by
      omega
    simp only [List.cons_append,List.nil_append,scalars,first,second,Bool.and_self,if_true,pairOf,high,low,whole,Char.ofNat_toNat]
  next small =>
    have same := unit_low (n := c.toNat) (by omega)
    have first : isHigh (UInt16.ofNat c.toNat) = false := by
      rw [Bool.eq_false_iff,ne_eq,high_iff]
      omega
    have second : isLow (UInt16.ofNat c.toNat) = false := by
      rw [Bool.eq_false_iff,ne_eq,low_iff]
      omega
    rw [List.singleton_append,scalars_single first]
    simp [aloneOf,first,second,same]

theorem scalars_utf16 (text : List Char) : scalars (utf16 text) = text := by
  induction text with
  | nil => rfl
  | cons c text ih => rw [utf16_cons,scalars_units,ih]

theorem encode_utf16 (text : List Char) : encode (utf16 text) = utf8 text := by
  rw [encode,scalars_utf16]

end RemoteFileExplorer.CodeUnits
