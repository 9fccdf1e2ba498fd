import Mathlib.Tactic.Linarith

namespace RemoteFileExplorer.FixedWidths

structure Width where
  low : Int
  high : Int
  deriving DecidableEq, Repr

def int32 : Width := ⟨-2^31,2^31-1⟩
def int64 : Width := ⟨-2^63,2^63-1⟩
def uint64 : Width := ⟨0,2^64-1⟩

def Width.Holds (w : Width) (v : Int) : Prop := w.low ≤ v ∧ v ≤ w.high

instance (w : Width) (v : Int) : Decidable (w.Holds v) := inferInstanceAs (Decidable (w.low ≤ v ∧ v ≤ w.high))

-- A result that leaves the width is none: what a checked run reports and an
-- unchecked one wraps.
def Width.check (w : Width) (v : Int) : Option Int := if w.Holds v then some v else none

def Width.add (w : Width) (a b : Int) : Option Int := w.check (a+b)
def Width.sub (w : Width) (a b : Int) : Option Int := w.check (a-b)
def Width.mul (w : Width) (a b : Int) : Option Int := w.check (a*b)

def Width.div (w : Width) (a b : Int) : Option Int := if b = 0 then none else w.check (a.tdiv b)

def toInt32 (v : Int) : Int := v.bmod (2^32)

variable {w : Width} {a b v : Int}

theorem check_holds (holds : w.Holds v) : w.check v = some v := if_pos holds

theorem div_holds (above : 0 ≤ a) (positive : 0 < b) (low : w.low ≤ 0) (high : a ≤ w.high) : w.div a b = some (a / b) := by
  have quotient : a.tdiv b = a / b := Int.tdiv_eq_ediv_of_nonneg above
  have least : 0 ≤ a / b := Int.ediv_nonneg above (Int.le_of_lt positive)
  have most : a / b ≤ a := Int.ediv_le_self b above
  unfold Width.div
  rw [if_neg (by omega),quotient]
  exact check_holds ⟨by omega,by omega⟩

theorem toInt32_same (holds : int32.Holds v) : toInt32 v = v := by
  unfold int32 Width.Holds at holds
  unfold toInt32
  rw [Int.bmod_eq_of_le] <;> simp only at holds ⊢ <;> omega

end RemoteFileExplorer.FixedWidths
