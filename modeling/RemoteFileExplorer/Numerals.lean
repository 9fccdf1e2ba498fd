import Mathlib.Data.List.Basic
import Mathlib.Tactic.Linarith

namespace RemoteFileExplorer.Numerals

abbrev value (text : List Char) : Nat := Nat.ofDigitChars 10 text 0

def withoutZeros (text : List Char) : List Char := text.dropWhile (· == '0')

theorem digit_value (digit : c.isDigit = true) : c.toNat - '0'.toNat < 10 ∧ Nat.digitChar (c.toNat - '0'.toNat) = c := by
  have range : 48 ≤ c.toNat ∧ c.toNat ≤ 57 := Char.isDigit_iff_toNat.mp digit
  have small : c.toNat - '0'.toNat < 10 := by
    simp only [Char.reduceToNat]
    omega
  refine ⟨small,Char.toNat_inj.mp ?_⟩
  rw [Nat.toNat_digitChar_of_lt_ten small]
  exact Nat.add_sub_cancel' range.1

@[simp] theorem value_toDigits (n : Nat) : value (Nat.toDigits 10 n) = n := Nat.ofDigitChars_ten_toDigits

theorem toDigits_continue (digits : ∀ c ∈ text, c.isDigit = true) (positive : 0 < n) :
    Nat.toDigits 10 (Nat.ofDigitChars 10 text n) = Nat.toDigits 10 n ++ text := by
  induction text generalizing n with
  | nil => rw [Nat.ofDigitChars_nil,List.append_nil]
  | cons c rest ih =>
    obtain ⟨small,back⟩ := digit_value (digits c (List.mem_cons_self ..))
    have more : 0 < 10 * n + (c.toNat - '0'.toNat) := by omega
    have one : Nat.toDigits 10 n ++ [c] = Nat.toDigits 10 (10 * n + (c.toNat - '0'.toNat)) := by
      have written := Nat.toDigits_append_toDigits (b := 10) (by decide) positive small
      rwa [Nat.toDigits_of_lt_base small,back] at written
    rw [Nat.ofDigitChars_cons,ih (fun d member => digits d (List.mem_cons_of_mem _ member)) more,← one,List.append_assoc]
    rfl

theorem withoutZeros_digits (digits : ∀ c ∈ text, c.isDigit = true) :
    withoutZeros text = if value text = 0 then [] else Nat.toDigits 10 (value text) := by
  induction text with
  | nil => rfl
  | cons c rest ih =>
    have tail := ih fun d member => digits d (List.mem_cons_of_mem _ member)
    by_cases zero : c = '0'
    · have same : value (c::rest) = value rest := by rw [zero]; rfl
      rw [same,← tail,withoutZeros,List.dropWhile_cons_of_pos (by simp [zero])]
      rfl
    · obtain ⟨small,back⟩ := digit_value (digits c (List.mem_cons_self ..))
      have positive : 0 < c.toNat - '0'.toNat := by
        rw [Nat.pos_iff_ne_zero]
        intro none
        rw [none] at back
        exact zero back.symm
      have written : Nat.toDigits 10 (value (c::rest)) = c::rest := by
        have after := toDigits_continue (fun d member => digits d (List.mem_cons_of_mem c member)) positive
        rw [Nat.toDigits_of_lt_base small,back] at after
        rw [value,Nat.ofDigitChars_cons,Nat.mul_zero,Nat.zero_add,after]
        rfl
      have some : value (c::rest) ≠ 0 := by
        intro none
        rw [none] at written
        have head := List.head_eq_of_cons_eq written
        exact zero head.symm
      rw [if_neg some,written,withoutZeros,List.dropWhile_cons_of_neg (by simp [zero])]

theorem value_same_iff (digitsA : ∀ c ∈ a, c.isDigit = true) (digitsB : ∀ c ∈ b, c.isDigit = true) :
    value a = value b ↔ withoutZeros a = withoutZeros b := by
  rw [withoutZeros_digits digitsA,withoutZeros_digits digitsB]
  constructor
  · intro same
    rw [same]
  · intro same
    by_cases zeroA : value a = 0
    · by_cases zeroB : value b = 0
      · rw [zeroA,zeroB]
      · rw [if_pos zeroA,if_neg zeroB] at same
        exact absurd same.symm Nat.toDigits_ne_nil
    · by_cases zeroB : value b = 0
      · rw [if_neg zeroA,if_pos zeroB] at same
        exact absurd same Nat.toDigits_ne_nil
      · rw [if_neg zeroA,if_neg zeroB] at same
        have read := congrArg value same
        rwa [value_toDigits,value_toDigits] at read

def fixed : Nat → Nat → List Char
  | 0,_ => []
  | width + 1,n => fixed width (n / 10) ++ [Nat.digitChar (n % 10)]

section Fixed
variable {width n : Nat}

@[simp] theorem fixed_length (width n : Nat) : (fixed width n).length = width := by
  induction width generalizing n with
  | zero => rfl
  | succ width ih => rw [fixed,List.length_append,ih,List.length_singleton]

theorem fixed_digits (width n : Nat) : ∀ c ∈ fixed width n, c.isDigit = true := by
  induction width generalizing n with
  | zero => simp [fixed]
  | succ width ih =>
    rw [fixed,List.forall_mem_append,List.forall_mem_singleton,Nat.isDigit_digitChar]
    exact ⟨ih _,decide_eq_true (Nat.mod_lt _ (by decide))⟩

theorem value_fixed (small : n < 10 ^ width) : value (fixed width n) = n := by
  induction width generalizing n with
  | zero =>
    rw [Nat.lt_one_iff.mp small]
    rfl
  | succ width ih =>
    have front := ih (Nat.div_lt_of_lt_mul (by rwa [Nat.mul_comm,← Nat.pow_succ]))
    rw [fixed,value,Nat.ofDigitChars_append]
    rw [value] at front
    rw [front,Nat.ofDigitChars_cons_digitChar_of_lt_ten (Nat.mod_lt _ (by decide)),Nat.ofDigitChars_nil]
    exact Nat.div_add_mod n 10

theorem fixed_zero (width : Nat) : fixed width 0 = List.replicate width '0' := by
  induction width with
  | zero => rfl
  | succ width ih =>
    have digit : Nat.digitChar (0 % 10) = '0' := rfl
    rw [fixed,Nat.zero_div,ih,digit,List.replicate_succ']

theorem padded_fixed (small : n < 10 ^ (width + 1)) :
    List.replicate (width + 1 - (Nat.toDigits 10 n).length) '0' ++ Nat.toDigits 10 n = fixed (width + 1) n := by
  induction width generalizing n with
  | zero =>
    rw [Nat.zero_add,Nat.pow_one] at small
    rw [Nat.toDigits_of_lt_base small,fixed,Nat.mod_eq_of_lt small]
    rfl
  | succ width ih =>
    by_cases single : n < 10
    · rw [Nat.toDigits_of_lt_base single,fixed,Nat.mod_eq_of_lt single,Nat.div_eq_of_lt single,fixed_zero]
      rfl
    · have front := ih (Nat.div_lt_of_lt_mul (by rwa [Nat.mul_comm,← Nat.pow_succ]))
      rw [Nat.toDigits_of_base_le (by decide) (Nat.le_of_not_lt single),List.length_append,List.length_singleton,Nat.add_sub_add_right,
        ← List.append_assoc,front]
      rfl

theorem digitChar_lt (less : a < b) (small : b < 10) : Nat.digitChar a < Nat.digitChar b := by
  rw [Char.lt_def,UInt32.lt_iff_toNat_lt]
  have left := Nat.toNat_digitChar_of_lt_ten (Nat.lt_trans less small)
  have right := Nat.toNat_digitChar_of_lt_ten small
  rw [Char.toNat] at left right
  omega

theorem append_lt {front first second : List Char} (less : first < second) : front ++ first < front ++ second := by
  induction front with
  | nil => exact less
  | cons c rest ih => exact List.cons_lt_cons_self.mpr ih

theorem fixed_lt {a b : Nat} (less : a < b) (small : b < 10 ^ width) (first second : List Char) : fixed width a ++ first < fixed width b ++ second := by
  induction width generalizing a b first second with
  | zero =>
    omega
  | succ width ih =>
    rw [fixed,fixed,List.append_assoc,List.append_assoc]
    rcases Nat.lt_or_eq_of_le (Nat.div_le_div_right (c := 10) (Nat.le_of_lt less)) with front | same
    · exact ih front (Nat.div_lt_of_lt_mul (by rwa [Nat.mul_comm,← Nat.pow_succ])) _ _
    · rw [same]
      apply append_lt
      refine List.cons_lt_cons_iff.mpr (.inl (digitChar_lt ?_ (Nat.mod_lt _ (by decide))))
      omega

end Fixed

end RemoteFileExplorer.Numerals
