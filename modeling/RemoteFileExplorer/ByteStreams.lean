import Mathlib.Data.List.Basic
import Mathlib.Tactic.Linarith

namespace RemoteFileExplorer.ByteStreams

variable {α : Type}

-- A stream as its reader meets it: the pieces that single reads can return.
-- A read returns nothing only at the end of the stream.
abbrev Source (α : Type) := List {piece : List α // piece ≠ []}

def content (source : Source α) : List α := (source.map Subtype.val).flatten

def read (want : Nat) : Source α → List α × Source α
  | [] => ([],[])
  | piece::rest =>
    if long : want < piece.1.length then
      (piece.1.take want,⟨piece.1.drop want,by simpa using long⟩::rest)
    else (piece.1,rest)

def fillWithin : Nat → Nat → Source α → List α × Source α
  | 0,_,source => ([],source)
  | reads + 1,want,source =>
    if want = 0 then ([],source) else
    match read want source with
    | ([],rest) => ([],rest)
    | (got,rest) =>
      let (more,last) := fillWithin reads (want - got.length) rest
      (got ++ more,last)

def fill (want : Nat) (source : Source α) : List α × Source α := fillWithin want want source

theorem read_parts (want : Nat) (source : Source α) :
    (read want source).1 ++ content (read want source).2 = content source ∧ (read want source).1.length ≤ want := by
  cases source with
  | nil => simp [read,content]
  | cons piece rest =>
    simp only [read]
    split
    · refine ⟨?_,?_⟩
      · simp only [content,List.map_cons,List.flatten_cons,←List.append_assoc,List.take_append_drop]
      · rw [List.length_take]
        exact Nat.min_le_left ..
    · rename_i short
      refine ⟨?_,Nat.not_lt.mp short⟩
      simp [content]

theorem read_nothing (wanted : want ≠ 0) (nothing : (read want source).1 = []) : content source = [] := by
  cases source with
  | nil => rfl
  | cons piece rest =>
    simp only [read] at nothing
    split at nothing
    · rcases List.take_eq_nil_iff.mp nothing with zero | empty
      · exact absurd zero wanted
      · exact absurd empty piece.2
    · exact absurd nothing piece.2

theorem fillWithin_content (reads want : Nat) (source : Source α) (enough : want ≤ reads) :
    (fillWithin reads want source).1 = (content source).take want ∧
      content (fillWithin reads want source).2 = (content source).drop want := by
  induction reads generalizing want source with
  | zero =>
    obtain rfl : want = 0 := by omega
    simp [fillWithin]
  | succ reads ih =>
    unfold fillWithin
    by_cases zero : want = 0
    · simp [zero]
    · rw [if_neg zero]
      obtain ⟨whole,short⟩ := read_parts want source
      split
      · rename_i rest result
        have empty : content source = [] := read_nothing zero (by rw [result])
        rw [result] at whole
        simp only [List.nil_append] at whole
        simp [empty,whole]
      · rename_i got rest some result
        rw [result] at whole short
        have positive : 0 < got.length := List.length_pos_iff.mpr some
        obtain ⟨taken,left⟩ := ih (want - got.length) rest (by omega)
        dsimp only
        rw [taken,left,←whole]
        constructor
        · rw [List.take_append,List.take_of_length_le short]
        · rw [List.drop_append,List.drop_of_length_le short,List.nil_append]

theorem fill_content (want : Nat) (source : Source α) :
    (fill want source).1 = (content source).take want ∧ content (fill want source).2 = (content source).drop want :=
  fillWithin_content want want source (Nat.le_refl want)

def be32 (n : Nat) : List UInt8 :=
  [UInt8.ofNat (n / 2^24),UInt8.ofNat (n / 2^16),UInt8.ofNat (n / 2^8),UInt8.ofNat n]

def fromBE : List UInt8 → Nat := List.foldl (fun n byte => n * 256 + byte.toNat) 0

@[simp] theorem be32_length (n : Nat) : (be32 n).length = 4 := rfl

theorem fromBE_be32 (fits : n < 2^32) : fromBE (be32 n) = n := by
  simp only [fromBE,be32,List.foldl_cons,List.foldl_nil,UInt8.toNat_ofNat']
  omega

end RemoteFileExplorer.ByteStreams
