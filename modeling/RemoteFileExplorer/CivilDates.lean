import Mathlib.Data.Int.Order.Basic
import Mathlib.Tactic.Common
import Mathlib.Tactic.IntervalCases

namespace RemoteFileExplorer.CivilDates

-- The Gregorian calendar, also before its time and before the year 1.
def isLeap (year : Int) : Prop := year % 4 = 0 ∧ (year % 100 ≠ 0 ∨ year % 400 = 0)

instance (year : Int) : Decidable (isLeap year) := inferInstanceAs (Decidable (_ ∧ _))

def monthLength (year month : Int) : Int :=
  if month = 2 then (if isLeap year then 29 else 28) else
  if month = 4 ∨ month = 6 ∨ month = 9 ∨ month = 11 then 30 else 31

structure Date where
  year : Int
  month : Int
  day : Int
  monthed : 1 ≤ month ∧ month ≤ 12
  dayed : 1 ≤ day ∧ day ≤ monthLength year month

-- Leap years up to and with this one, counted from the year 0 on.
def leaps (year : Int) : Int := year / 4 - year / 100 + year / 400

def beforeYear (year : Int) : Int := 365 * (year - 1970) + (leaps (year - 1) - leaps 1969)

def beforeMonth (year : Int) : Nat → Int
  | 0 => 0
  | passed + 1 => beforeMonth year passed + monthLength year (passed + 1)

-- The days from 1970-01-01 on.
def Date.number (d : Date) : Int := beforeYear d.year + beforeMonth d.year (d.month.toNat - 1) + (d.day - 1)

section Years
variable {year : Int}

theorem leaps_next (year : Int) : leaps year = leaps (year - 1) + if isLeap year then 1 else 0 := by
  unfold leaps
  split
  · rename_i leap
    obtain ⟨four,rest⟩ := leap
    rcases rest with century | whole <;> omega
  · rename_i common
    unfold isLeap at common
    omega

def yearLength (year : Int) : Int := if isLeap year then 366 else 365

theorem beforeYear_next (year : Int) : beforeYear (year + 1) = beforeYear year + yearLength year := by
  have next := leaps_next year
  have back : year + 1 - 1 = year := by omega
  unfold beforeYear yearLength
  rw [back]
  split at next <;> rename_i leap <;> simp only [leap,if_true,if_false] <;> omega

theorem beforeMonth_year (year : Int) : beforeMonth year 12 = yearLength year := by
  simp only [beforeMonth,monthLength,yearLength]
  norm_num
  split <;> norm_num

theorem monthLength_pos (year month : Int) : 28 ≤ monthLength year month := by
  unfold monthLength
  split
  · split <;> omega
  · split <;> omega

theorem beforeMonth_le (year : Int) (le : fewer ≤ more) : beforeMonth year fewer ≤ beforeMonth year more := by
  induction more, le using Nat.le_induction with
  | base => exact le_refl _
  | succ more _ ih =>
    have length := monthLength_pos year (more + 1)
    have step : beforeMonth year (more + 1) = beforeMonth year more + monthLength year (more + 1) := rfl
    omega

theorem beforeYear_le (le : earlier ≤ later) : beforeYear earlier ≤ beforeYear later := by
  unfold beforeYear leaps
  omega

end Years

section Numbers
variable {a b : Date}

theorem month_ends (d : Date) : beforeMonth d.year (d.month.toNat - 1) + (d.day - 1) < beforeMonth d.year d.month.toNat := by
  obtain ⟨passed,month⟩ : ∃ passed : Nat, d.month = passed + 1 := ⟨(d.month - 1).toNat,by have := d.monthed; omega⟩
  have dayed := d.dayed
  have whole : d.month.toNat = passed + 1 := by omega
  rw [whole,Nat.add_sub_cancel,beforeMonth]
  rw [month] at dayed
  omega

theorem number_first (d : Date) : beforeYear d.year ≤ d.number := by
  have dayed := d.dayed
  have start := beforeMonth_le d.year (Nat.zero_le (d.month.toNat - 1))
  unfold Date.number
  rw [beforeMonth] at start
  omega

theorem number_last (d : Date) : d.number < beforeYear (d.year + 1) := by
  have ends := month_ends d
  have monthed := d.monthed
  have within := beforeMonth_le d.year (show d.month.toNat ≤ 12 by omega)
  rw [beforeMonth_year] at within
  rw [beforeYear_next]
  unfold Date.number
  omega

theorem number_year (before : a.year < b.year) : a.number < b.number := by
  have last := number_last a
  have first := number_first b
  have years := beforeYear_le (show a.year + 1 ≤ b.year by omega)
  omega

theorem number_month (same : a.year = b.year) (before : a.month < b.month) : a.number < b.number := by
  have ends := month_ends a
  have dayed := b.dayed
  have months := beforeMonth_le a.year (show a.month.toNat ≤ b.month.toNat - 1 by omega)
  unfold Date.number
  rw [← same]
  omega

theorem number_day (sameYear : a.year = b.year) (sameMonth : a.month = b.month) : a.number - a.day = b.number - b.day := by
  unfold Date.number
  rw [sameYear,sameMonth]
  omega

theorem number_injective (same : a.number = b.number) : a = b := by
  have year : a.year = b.year := by
    rcases lt_trichotomy a.year b.year with before | equal | after
    · have less := number_year before
      omega
    · exact equal
    · have less := number_year after
      omega
  have month : a.month = b.month := by
    rcases lt_trichotomy a.month b.month with before | equal | after
    · have less := number_month year before
      omega
    · exact equal
    · have less := number_month year.symm after
      omega
  have day : a.day = b.day := by
    have left := number_day year month
    omega
  cases a
  cases b
  cases year
  cases month
  cases day
  rfl

end Numbers

-- A date and a time of that day, without leap seconds.
structure Instant where
  date : Date
  hour : Int
  minute : Int
  second : Int
  houred : 0 ≤ hour ∧ hour < 24
  minuted : 0 ≤ minute ∧ minute < 60
  seconded : 0 ≤ second ∧ second < 60

def Instant.seconds (i : Instant) : Int := i.date.number * 86400 + i.hour * 3600 + i.minute * 60 + i.second

theorem seconds_injective {i j : Instant} (same : i.seconds = j.seconds) : i = j := by
  obtain ⟨date,hour,minute,second,houred,minuted,seconded⟩ := i
  obtain ⟨otherDate,otherHour,otherMinute,otherSecond,otherHoured,otherMinuted,otherSeconded⟩ := j
  unfold Instant.seconds at same
  dsimp only at same
  have number : date.number = otherDate.number := by omega
  cases number_injective number
  have hours : hour = otherHour := by omega
  have minutes : minute = otherMinute := by omega
  have left : second = otherSecond := by omega
  cases hours
  cases minutes
  cases left
  rfl

end RemoteFileExplorer.CivilDates
