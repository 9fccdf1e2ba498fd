import Mathlib.Data.List.Basic
import Mathlib.Data.Nat.Basic

namespace RemoteFileExplorer.Slices

variable {α : Type}

def slice (content : List α) (offset count : Nat) : List α := (content.drop offset).take count

-- A positioned write. A write past the end first fills the gap, as a file does.
def writeAt (gap : α) (content : List α) (offset : Nat) (data : List α) : List α :=
  (content ++ List.replicate (offset - content.length) gap).take offset ++ data ++ content.drop (offset + data.length)

theorem writeAt_inside (inside : offset + data.length ≤ content.length) :
    writeAt gap content offset data = content.take offset ++ data ++ content.drop (offset + data.length) := by
  have full : offset - content.length = 0 := by omega
  simp [writeAt,full]

theorem writeAt_length (inside : offset + data.length ≤ content.length) :
    (writeAt gap content offset data).length = content.length := by
  rw [writeAt_inside inside]
  simp only [List.length_append,List.length_take,List.length_drop]
  omega

theorem slice_writeAt_same (inside : offset + data.length ≤ content.length) :
    slice (writeAt gap content offset data) offset data.length = data := by
  have start : (content.take offset).length = offset := by
    rw [List.length_take]
    omega
  rw [writeAt_inside inside,slice,List.append_assoc]
  calc ((content.take offset ++ (data ++ content.drop (offset + data.length))).drop offset).take data.length
      = (data ++ content.drop (offset + data.length)).take data.length := by rw [List.drop_left' start]
    _ = data := List.take_left

theorem getElem?_writeAt_apart (inside : offset + data.length ≤ content.length)
    (apart : i < offset ∨ offset + data.length ≤ i) : (writeAt gap content offset data)[i]? = content[i]? := by
  rw [writeAt_inside inside]
  have start : (content.take offset).length = offset := by
    rw [List.length_take]
    omega
  rcases apart with before | after
  · rw [List.append_assoc,List.getElem?_append_left (by omega),List.getElem?_take_of_lt before]
  · rw [List.getElem?_append_right (by simp only [List.length_append]; omega),List.getElem?_drop]
    congr 1
    simp only [List.length_append]
    omega

theorem slice_writeAt_apart
    (inside : offset + data.length ≤ content.length) (apart : start + count ≤ offset ∨ offset + data.length ≤ start) :
    slice (writeAt gap content offset data) start count = slice content start count := by
  apply List.ext_getElem?
  intro i
  unfold slice
  by_cases within : i < count
  · rw [List.getElem?_take_of_lt within,List.getElem?_take_of_lt within,List.getElem?_drop,List.getElem?_drop]
    exact getElem?_writeAt_apart inside (by omega)
  · rw [List.getElem?_take_eq_none (by omega),List.getElem?_take_eq_none (by omega)]

theorem getElem?_slice (low : start ≤ i) (high : i < start + count) :
    (slice content start count)[i - start]? = content[i]? := by
  unfold slice
  rw [List.getElem?_take_of_lt (by omega),List.getElem?_drop]
  congr 1
  omega

theorem eq_take_of_slices {left right : List α} (ranges : Nat → Nat × Nat)
    (covers : ∀ i < left.length, ∃ n, (ranges n).1 ≤ i ∧ i < (ranges n).1 + (ranges n).2 ∧
      slice left (ranges n).1 (ranges n).2 = slice right (ranges n).1 (ranges n).2) : left = right.take left.length := by
  apply List.ext_getElem?
  intro i
  by_cases inside : i < left.length
  · obtain ⟨n,low,high,agree⟩ := covers i inside
    rw [List.getElem?_take_of_lt inside,← getElem?_slice low high,← getElem?_slice low high,agree]
  · rw [List.getElem?_eq_none (by omega),List.getElem?_take_eq_none (by omega)]

end RemoteFileExplorer.Slices
