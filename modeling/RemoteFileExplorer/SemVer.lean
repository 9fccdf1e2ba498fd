import Mathlib.Data.List.Basic
import Mathlib.Data.Nat.Digits.Defs

namespace RemoteFileExplorer.SemVer

def isWordChar (c : Char) : Bool := c.isAlphanum || c == '-'

structure Word where
  text : List Char
  allowed : ∀ c ∈ text, isWordChar c = true
  worded : ∃ c ∈ text, c.isDigit = false
  deriving DecidableEq

inductive Identifier
  | numeric (n : Nat)
  | word (w : Word)
  deriving DecidableEq

def Identifier.text : Identifier → List Char
  | .numeric n => Nat.toDigits 10 n
  | .word w => w.text

def identifierOrder : Identifier → Identifier → Ordering
  | .numeric n,.numeric m => compare n m
  | .numeric _,.word _ => .lt
  | .word _,.numeric _ => .gt
  | .word v,.word w => compare v.text w.text

abbrev Core := Nat × Nat × Nat

def coreOrder : Core → Core → Ordering := compareLex (compareOn Prod.fst) (compareLex (compareOn fun c => c.2.1) (compareOn fun c => c.2.2))

-- Without a pre-release part is after every pre-release of the same core.
def ranked {α : Type} (order : α → α → Ordering) : List α → List α → Ordering
  | [],[] => .eq
  | [],_::_ => .gt
  | _::_,[] => .lt
  | first,second => List.compareLex order first second

structure Release where
  core : Core
  pre : List Identifier
  deriving DecidableEq

def coreText (core : Core) : List Char := ['.'].intercalate [Nat.toDigits 10 core.1,Nat.toDigits 10 core.2.1,Nat.toDigits 10 core.2.2]

def preText (pre : List Identifier) : List Char := ['.'].intercalate (pre.map Identifier.text)

-- Every valid version text without build metadata is the text of one release.
def Release.text (r : Release) : List Char := coreText r.core ++ if r.pre = [] then [] else '-'::preText r.pre

def precedence (r s : Release) : Ordering := (coreOrder r.core s.core).then (ranked identifierOrder r.pre s.pre)

section Orders
variable {α : Type} {order : α → α → Ordering}

instance [Std.OrientedCmp order] : Std.OrientedCmp (ranked order) where
  eq_swap {a b} := by
    cases a with
    | nil => cases b <;> rfl
    | cons x xs =>
      cases b with
      | nil => rfl
      | cons y ys =>
        have swap : List.compareLex order (x::xs) (y::ys) = (List.compareLex order (y::ys) (x::xs)).swap := Std.OrientedCmp.eq_swap
        exact swap

instance [Std.TransCmp order] : Std.TransCmp (ranked order) where
  isLE_trans {a b c} below above := by
    cases a with
    | nil =>
      cases b with
      | nil => exact above
      | cons y ys => cases below
    | cons x xs =>
      cases c with
      | nil => rfl
      | cons z zs =>
        cases b with
        | nil => cases above
        | cons y ys =>
          have chain : (List.compareLex order (x::xs) (z::zs)).isLE = true := Std.TransCmp.isLE_trans below above
          exact chain

instance : Std.TransCmp coreOrder := inferInstanceAs (Std.TransCmp (compareLex _ _))

theorem coreOrder_same (same : coreOrder a b = .eq) : a = b := by
  obtain ⟨major,rest⟩ := compareLex_eq_eq.mp same
  obtain ⟨minor,patch⟩ := compareLex_eq_eq.mp rest
  exact Prod.ext (Nat.compare_eq_eq.mp major) (Prod.ext (Nat.compare_eq_eq.mp minor) (Nat.compare_eq_eq.mp patch))

end Orders

section Identifiers
variable {i j : Identifier}

theorem word_head (w : Word) : w.text ≠ [] := by
  obtain ⟨c,member,_⟩ := w.worded
  exact List.ne_nil_of_mem member

theorem identifier_text_allowed (i : Identifier) : ∀ c ∈ i.text, isWordChar c = true := by
  cases i with
  | numeric n =>
    intro c member
    have digit := Nat.isDigit_of_mem_toDigits (by decide) (by decide) member
    simp [isWordChar,Char.isAlphanum,digit]
  | word w => exact w.allowed

theorem identifier_text_head (i : Identifier) : i.text ≠ [] := by
  cases i with
  | numeric n => exact Nat.toDigits_ne_nil
  | word w => exact word_head w

theorem identifierOrder_same (same : identifierOrder i j = .eq) : i = j := by
  cases i with
  | numeric n =>
    cases j with
    | numeric m => rw [Nat.compare_eq_eq.mp same]
    | word w => cases same
  | word v =>
    cases j with
    | numeric m => cases same
    | word w =>
      obtain ⟨text,_,_⟩ := v
      obtain ⟨other,_,_⟩ := w
      have equal : text = other := Std.LawfulEqCmp.eq_of_compare same
      cases equal
      rfl

theorem identifierOrder_self (i : Identifier) : identifierOrder i i = .eq := by
  cases i with
  | numeric n => exact Nat.compare_eq_eq.mpr rfl
  | word w =>
    have self : compare w.text w.text = .eq := Std.ReflCmp.compare_self
    exact self

end Identifiers

end RemoteFileExplorer.SemVer
