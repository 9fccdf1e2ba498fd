import Mathlib.Data.List.Basic
import Mathlib.Tactic.IntervalCases

namespace RemoteFileExplorer.PercentCodes

abbrev Bytes := List UInt8

def ascii (text : String) : Bytes := text.toList.map fun c => UInt8.ofNat c.toNat

def slash : UInt8 := 47
def percent : UInt8 := 37
def newline : UInt8 := 10

def upperhex (n : Nat) : UInt8 := UInt8.ofNat (if n < 10 then 48 + n else 55 + n)

def unhex (c : UInt8) : Option Nat :=
  let n := c.toNat
  if 48 ≤ n ∧ n ≤ 57 then some (n - 48) else
  if 97 ≤ n ∧ n ≤ 102 then some (n - 87) else
  if 65 ≤ n ∧ n ≤ 70 then some (n - 55) else none

-- Letters, digits and - _ . ~ stand for themselves everywhere; within one
-- segment of a path $ & + : = @ do as well, and / ; , ? do not.
def shouldEscape (c : UInt8) : Bool :=
  let n := c.toNat
  !((48 ≤ n && n ≤ 57) || (65 ≤ n && n ≤ 90) || (97 ≤ n && n ≤ 122) || [45,95,46,126,36,38,43,58,61,64].contains n)

def escapeByte (c : UInt8) : Bytes := if shouldEscape c then [percent,upperhex (c.toNat / 16),upperhex (c.toNat % 16)] else [c]

def pathEscape (segment : Bytes) : Bytes := segment.flatMap escapeByte

def pathUnescape : Bytes → Option Bytes
  | [] => some []
  | c::rest =>
    if c = percent then
      match rest with
      | high::low::rest =>
        match unhex high,unhex low with
        | some high,some low => (pathUnescape rest).map (UInt8.ofNat (16 * high + low)::·)
        | _,_ => none
      | _ => none
    else (pathUnescape rest).map (c::·)

def Graphic (c : UInt8) : Prop := 33 ≤ c.toNat ∧ c.toNat ≤ 126

theorem unhex_upperhex (small : n < 16) : unhex (upperhex n) = some n := by
  interval_cases n <;> rfl

theorem upperhex_graphic (small : n < 16) : Graphic (upperhex n) := by
  interval_cases n <;> exact ⟨by decide,by decide⟩

theorem plain_graphic (plain : shouldEscape c = false) : Graphic c ∧ c ≠ percent := by
  simp only [shouldEscape,Bool.not_eq_false',Bool.or_eq_true,Bool.and_eq_true,decide_eq_true_eq,List.contains_eq_mem,
    List.mem_cons,List.not_mem_nil,or_false] at plain
  refine ⟨⟨by omega,by omega⟩,?_⟩
  rintro rfl
  have code : percent.toNat = 37 := rfl
  omega

theorem escapeByte_graphic (c : UInt8) : ∀ b ∈ escapeByte c, Graphic b := by
  have bound := c.toNat_lt
  intro b member
  unfold escapeByte at member
  split at member
  · simp only [List.mem_cons,List.not_mem_nil,or_false] at member
    rcases member with rfl | rfl | rfl
    · exact ⟨by decide,by decide⟩
    all_goals exact upperhex_graphic (by omega)
  · rename_i plain
    rw [List.mem_singleton.mp member]
    exact (plain_graphic (Bool.eq_false_iff.mpr plain)).1

theorem pathEscape_graphic (segment : Bytes) : ∀ b ∈ pathEscape segment, Graphic b := by
  intro b member
  obtain ⟨c,_,inside⟩ := List.mem_flatMap.mp member
  exact escapeByte_graphic c b inside

theorem pathUnescape_plain (plain : c ≠ percent) (rest : Bytes) : pathUnescape (c::rest) = (pathUnescape rest).map (c::·) := by
  rw [pathUnescape.eq_def]
  exact if_neg plain

theorem pathUnescape_byte (c : UInt8) (rest : Bytes) : pathUnescape (escapeByte c ++ rest) = (pathUnescape rest).map (c::·) := by
  have bound := c.toNat_lt
  unfold escapeByte
  split
  · have whole : UInt8.ofNat (16 * (c.toNat / 16) + c.toNat % 16) = c := by
      rw [Nat.div_add_mod]
      exact UInt8.ofNat_toNat
    rw [pathUnescape.eq_def]
    simp only [List.cons_append,List.nil_append,if_true,unhex_upperhex (show c.toNat / 16 < 16 by omega),
      unhex_upperhex (show c.toNat % 16 < 16 by omega),whole]
  · rename_i plain
    exact pathUnescape_plain (plain_graphic (Bool.eq_false_iff.mpr plain)).2 rest

theorem pathUnescape_segment (segment rest : Bytes) :
    pathUnescape (pathEscape segment ++ rest) = (pathUnescape rest).map (segment ++ ·) := by
  induction segment with
  | nil => simp [pathEscape]
  | cons c segment ih =>
    have front : pathEscape (c::segment) = escapeByte c ++ pathEscape segment := rfl
    rw [front,List.append_assoc,pathUnescape_byte,ih,Option.map_map]
    rfl

-- The separators between the segments are left alone both ways.
theorem pathUnescape_segments (segments : List Bytes) :
    pathUnescape ([slash].intercalate (segments.map pathEscape)) = some ([slash].intercalate segments) := by
  induction segments with
  | nil => rfl
  | cons segment rest ih =>
    cases rest with
    | nil =>
      have alone := pathUnescape_segment segment []
      simpa [pathUnescape] using alone
    | cons next rest =>
      have escaped : [slash].intercalate ((segment::next::rest).map pathEscape) =
          pathEscape segment ++ slash::[slash].intercalate ((next::rest).map pathEscape) := by simp
      have joined : [slash].intercalate (segment::next::rest) = segment ++ slash::[slash].intercalate (next::rest) := by simp
      rw [escaped,joined,pathUnescape_segment,pathUnescape_plain (by decide),ih]
      rfl

end RemoteFileExplorer.PercentCodes
