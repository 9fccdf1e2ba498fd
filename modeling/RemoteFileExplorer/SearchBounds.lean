import RemoteFileExplorer.SearchFilters
import RemoteFileExplorer.FixedWidths

namespace RemoteFileExplorer.SearchBounds
open FileTree FixedWidths SearchFilters

-- A time as both languages split it: seconds from 1970 and the nanoseconds
-- after that second.
structure Time where
  seconds : Int
  nanos : Nat
  nanos_lt : nanos < 1000000000
  deriving DecidableEq, Repr

def Time.ns (t : Time) : Int := t.seconds*1000000000+t.nanos

def Time.before (t u : Time) : Bool := decide (t.seconds < u.seconds) || (decide (t.seconds = u.seconds) && decide (t.nanos < u.nanos))

-- The seconds from year 1, where time.Time counts from, to 1970.
def unixToInternal : Int := 62135596800

-- time.Unix moves the seconds to year 1 in 64 bits.
def Time.unix (t : Time) : Time := ⟨(t.seconds+unixToInternal).bmod (2^64)-unixToInternal,t.nanos,t.nanos_lt⟩

-- What the parser makes of an RFC 3339 text: years 0 to 9999, moved by an
-- offset of at most 24 hours and 60 minutes.
structure BoundTime extends Time where
  from_year : -62167219200-90000 ≤ seconds
  to_year : seconds < 253402300800+90000
  deriving DecidableEq, Repr

structure Bounds where
  minSize : Option Int
  maxSize : Option Int
  modAfter : Option BoundTime
  modBefore : Option BoundTime
  min_holds : ∀ least, minSize = some least → int64.Holds least
  max_holds : ∀ most, maxSize = some most → int64.Holds most

structure File where
  name : Name
  isDir : Bool
  size : Nat
  modified : Time
  size_holds : int64.Holds size
  seconds_holds : int64.Holds modified.seconds

def File.Dated (f : File) : Prop := int64.Holds (f.modified.seconds+unixToInternal)

instance (f : File) : Decidable f.Dated := inferInstanceAs (Decidable (int64.Holds (f.modified.seconds+unixToInternal)))

def modTime (f : File) : Time := f.modified.unix

def matchEntry (b : Bounds) (f : File) : Bool :=
  (if b.minSize.isSome || b.maxSize.isSome then
    !f.isDir && (b.minSize.elim true fun least => !decide ((f.size : Int) < least)) && (b.maxSize.elim true fun most => !decide ((f.size : Int) > most))
  else true) &&
  (b.modAfter.elim true fun after => !(modTime f).before after.toTime) &&
  (b.modBefore.elim true fun last => !last.toTime.before (modTime f))

def Bounds.filters (b : Bounds) : Filters :=
  {glob := "",needle := "",types := none,exts := none,minSize := b.minSize,maxSize := b.maxSize
   modAfter := b.modAfter.map fun t => t.ns,modBefore := b.modBefore.map fun t => t.ns}

def saturating (v : Int) : Int := max int64.low (min int64.high v)

def statOf (t : Time) : Int := saturating (saturating (t.seconds*1000000000)+t.nanos)

def mtimeNs (f : File) : Int := statOf f.modified

def accepts (casing : Casing) (b : Bounds) (f : File) : Bool :=
  SearchFilters.matchAttrs (toWireFilters b.filters) (extOf casing f.name) f.isDir f.size (mtimeNs f)

variable {b : Bounds} {f : File} {t u : Time} {v : Int} {casing : Casing}

theorem before_iff : t.before u = true ↔ t.ns < u.ns := by
  have first := t.nanos_lt
  have second := u.nanos_lt
  unfold Time.before Time.ns
  simp only [Bool.or_eq_true,Bool.and_eq_true,decide_eq_true_eq]
  omega

theorem unix_same (held : int64.Holds (t.seconds+unixToInternal)) : t.unix = t := by
  have whole : (t.seconds+unixToInternal).bmod (2^64) = t.seconds+unixToInternal :=
    Int.bmod_eq_of_le (by have := held.1; simp only [int64] at this; omega) (by have := held.2; simp only [int64] at this; omega)
  unfold Time.unix
  rw [whole]
  cases t
  simp

theorem unix_early (f : File) (late : ¬f.Dated) : (modTime f).ns < -2^63*1000000000 ∧ 2^63-1 < f.modified.ns := by
  have low := f.seconds_holds.1
  have high := f.seconds_holds.2
  have nanos := f.modified.nanos_lt
  simp only [File.Dated,Width.Holds,int64,unixToInternal] at late low high
  have once : (f.modified.seconds+62135596800).bmod (2^64) = f.modified.seconds+62135596800-2^64 := by
    rw [← Int.sub_bmod_right,Int.bmod_eq_of_le] <;> omega
  unfold modTime Time.ns Time.unix unixToInternal
  dsimp only
  omega

theorem unixNano_bounds (v : Int) : -2^63 ≤ unixNano v ∧ unixNano v ≤ 2^63-1 := by
  unfold unixNano
  have low := @Int.le_bmod v (2^64) (by decide)
  have high := @Int.bmod_lt v (2^64) (by decide)
  omega

theorem unixNano_same (low : -2^63 ≤ v) (high : v ≤ 2^63-1) : unixNano v = v :=
  Int.bmod_eq_of_le (by omega) (by omega)

theorem statOf_low (low : t.seconds*1000000000 < -2^63) : statOf t = -2^63+t.nanos := by
  have nanos := t.nanos_lt
  simp only [statOf,saturating,int64]
  omega

theorem statOf_high (high : 2^63-1 ≤ t.ns) : statOf t = 2^63-1 := by
  unfold Time.ns at high
  simp only [statOf,saturating,int64]
  omega

theorem statOf_same (low : -2^63 ≤ t.seconds*1000000000) (high : t.ns ≤ 2^63-1) : statOf t = t.ns := by
  unfold Time.ns at high ⊢
  simp only [statOf,saturating,int64]
  omega

def timeAt (v : Int) : Time := ⟨v/1000000000,(v%1000000000).toNat,by omega⟩

theorem timeAt_ns (v : Int) : (timeAt v).ns = v := by
  unfold timeAt Time.ns
  dsimp only
  omega

def first (nanos : Nat) (small : nanos < 1000000000) : Time := ⟨-2^63,nanos,small⟩

-- A time either side can be asked about: a second of 64 bits that time.Time
-- has as well.
def Common (t : Time) : Prop := int64.Holds t.seconds ∧ int64.Holds (t.seconds+unixToInternal)

section
variable (nanos : Nat) (small : nanos < 1000000000)
include nanos small

theorem first_common : Common (first nanos small) := by
  simp only [Common,Width.Holds,int64,first,unixToInternal]
  omega

theorem first_ns : (first nanos small).ns < -10^22 := by
  simp only [Time.ns,first]
  omega

theorem statOf_first : statOf (first nanos small) = -2^63+nanos := by
  refine statOf_low ?_
  simp only [first]
  omega

end

theorem timeAt_common (low : -10^22 ≤ v) (high : v ≤ 10^22) : Common (timeAt v) := by
  simp only [Common,Width.Holds,int64,timeAt,unixToInternal]
  omega

theorem statOf_onto (low : -2^63 ≤ v) (high : v ≤ 2^63-1) : ∃ t, Common t ∧ statOf t = v := by
  by_cases near : v < -2^63+1000000000
  · refine ⟨first (v+2^63).toNat (by omega),first_common _ _,?_⟩
    rw [statOf_first]
    omega
  · refine ⟨timeAt v,timeAt_common (by omega) (by omega),?_⟩
    rw [statOf_same,timeAt_ns]
    · simp only [timeAt]
      omega
    · rw [timeAt_ns]
      omega

def Between (after last : Option Int) (v : Int) : Prop := (∀ a ∈ after, a ≤ v) ∧ ∀ l ∈ last, v ≤ l

theorem between_wire (after last : Option Int) (v : Int) :
    Between (after.map unixNano) (last.map unixNano) v ↔ (∀ a ∈ after, unixNano a ≤ v) ∧ ∀ l ∈ last, v ≤ unixNano l := by
  simp [Between]

section Windows
variable {after last : Option Int}

def SameTimes (after last : Option Int) : Prop :=
  ∀ t, Common t → (Between after last t.ns ↔ Between (after.map unixNano) (last.map unixNano) (statOf t))

variable (same : SameTimes after last) (years : ∀ v, v ∈ after ∨ v ∈ last → -10^21 ≤ v ∧ v ≤ 10^21)

theorem same_at (same : SameTimes after last) (low : -10^22 ≤ v) (high : v ≤ 10^22) :
    Between after last v ↔ Between (after.map unixNano) (last.map unixNano) (statOf (timeAt v)) := by
  have point := same (timeAt v) (timeAt_common low high)
  rwa [timeAt_ns] at point

-- Bounds out of order for one side only would let a file pass on the other.
include same years in
theorem open_both (a l : Int) (low : a ∈ after) (high : l ∈ last) (apart : ¬(l < a ∧ unixNano l < unixNano a)) :
    a ≤ l ∧ unixNano a ≤ unixNano l := by
  have range := years a (Or.inl low)
  by_cases wire : unixNano a ≤ unixNano l
  · obtain ⟨t,common,stat⟩ := statOf_onto (unixNano_bounds a).1 (unixNano_bounds a).2
    have passes : Between (after.map unixNano) (last.map unixNano) (statOf t) := by
      rw [between_wire,stat]
      refine ⟨?_,?_⟩
      · intro v mem
        rw [Option.mem_unique mem low]
      · intro v mem
        rw [Option.mem_unique mem high]
        exact wire
    have held := (same t common).mpr passes
    exact ⟨Int.le_trans (held.1 a low) (held.2 l high),wire⟩
  · have ordered : a ≤ l := by omega
    have held : Between after last a := by
      refine ⟨?_,?_⟩
      · intro v mem
        rw [Option.mem_unique mem low]
      · intro v mem
        rw [Option.mem_unique mem high]
        exact ordered
    have passes := (between_wire _ _ _).mp ((same_at same (by omega) (by omega)).mp held)
    exact absurd (Int.le_trans (passes.1 a low) (passes.2 l high)) wire

-- A lower bound outside of the clock's range wraps to another time, and one in
-- its first second sees times that have lost their seconds.
include same years in
theorem after_inner (a : Int) (low : a ∈ after) (opened : ∀ l ∈ last, a ≤ l ∧ unixNano a ≤ unixNano l) :
    -2^63+1000000000 ≤ a ∧ a ≤ 2^63-1 := by
  have range := years a (Or.inl low)
  have wire := unixNano_bounds a
  have held : Between after last a := by
    refine ⟨?_,fun l mem => (opened l mem).1⟩
    intro v mem
    rw [Option.mem_unique mem low]
  have passes := (between_wire _ _ _).mp ((same_at same (by omega) (by omega)).mp held)
  refine ⟨?_,?_⟩
  · by_contra below
    obtain ⟨nanos,small,stat⟩ : ∃ nanos : Nat, ∃ _ : nanos < 1000000000,unixNano a ≤ -2^63+(nanos : Int) ∧
        ∀ l ∈ last, -2^63+(nanos : Int) ≤ unixNano l := by
      by_cases fits : -2^63 ≤ a
      · have exactly := unixNano_same fits (by omega)
        refine ⟨(a+2^63).toNat,by omega,by omega,?_⟩
        intro l mem
        have upper := (opened l mem).2
        omega
      · have stat : statOf (timeAt a) = -2^63+((timeAt a).nanos : Int) := by
          refine statOf_low ?_
          simp only [timeAt]
          omega
        rw [stat] at passes
        exact ⟨(timeAt a).nanos,(timeAt a).nanos_lt,passes.1 a low,passes.2⟩
    have early := first_ns nanos small
    have allowed : Between (after.map unixNano) (last.map unixNano) (statOf (first nanos small)) := by
      rw [between_wire,statOf_first]
      refine ⟨?_,stat.2⟩
      intro v mem
      rw [Option.mem_unique mem low]
      exact stat.1
    have lower := ((same _ (first_common nanos small)).mpr allowed).1 a low
    omega
  · by_contra above
    have top : statOf (timeAt a) = 2^63-1 := statOf_high (by rw [timeAt_ns]; omega)
    have last_top : statOf (timeAt (2^63-1)) = 2^63-1 := statOf_high (by rw [timeAt_ns])
    have allowed : Between (after.map unixNano) (last.map unixNano) (statOf (timeAt (2^63-1))) := by
      rw [last_top,← top]
      exact (between_wire _ _ _).mpr passes
    have lower := ((same_at same (by omega) (by omega)).mpr allowed).1 a low
    omega

include same years in
theorem before_inner (l : Int) (high : l ∈ last) (opened : ∀ a ∈ after, -2^63+1000000000 ≤ a ∧ a ≤ l ∧ unixNano a ≤ unixNano l) :
    -2^63+999999999 ≤ l ∧ l < 2^63-1 := by
  have range := years l (Or.inr high)
  have wire := unixNano_bounds l
  have next (allowed : Between (after.map unixNano) (last.map unixNano) (statOf (timeAt (l+1)))) : False := by
    have upper := ((same_at same (by omega) (by omega)).mpr allowed).2 l high
    omega
  refine ⟨?_,?_⟩
  · by_contra below
    have unbounded : ∀ a, a ∉ after := fun a mem => by
      have lower := opened a mem
      omega
    have held : Between after last (first 999999999 (by decide)).ns := by
      have early := first_ns 999999999 (by decide)
      refine ⟨fun a mem => absurd mem (unbounded a),?_⟩
      intro v mem
      rw [Option.mem_unique mem high]
      omega
    have passes := (between_wire _ _ _).mp ((same _ (first_common 999999999 (by decide))).mp held)
    have upper := passes.2 l high
    rw [statOf_first] at upper
    by_cases fits : -2^63 ≤ l
    · have exactly := unixNano_same fits (by omega)
      omega
    · have nanos := (timeAt (l+1)).nanos_lt
      have stat : statOf (timeAt (l+1)) = -2^63+((timeAt (l+1)).nanos : Int) := by
        refine statOf_low ?_
        simp only [timeAt]
        omega
      refine next ((between_wire _ _ _).mpr ⟨fun a mem => absurd mem (unbounded a),?_⟩)
      intro v mem
      rw [Option.mem_unique mem high,stat]
      omega
  · by_contra above
    have held : Between after last l := by
      refine ⟨fun a mem => (opened a mem).2.1,?_⟩
      intro v mem
      rw [Option.mem_unique mem high]
    have passes := (same_at same (by omega) (by omega)).mp held
    have top : statOf (timeAt l) = 2^63-1 := statOf_high (by rw [timeAt_ns]; omega)
    have next_top : statOf (timeAt (l+1)) = 2^63-1 := statOf_high (by rw [timeAt_ns]; omega)
    rw [top,← next_top] at passes
    exact next passes

end Windows

def SizePasses (b : Bounds) (f : File) : Prop :=
  (b.minSize.isSome ∨ b.maxSize.isSome) → f.isDir = false ∧ (∀ least ∈ b.minSize, least ≤ f.size) ∧ ∀ most ∈ b.maxSize, (f.size : Int) ≤ most

def Bounds.afterNs (b : Bounds) : Option Int := b.modAfter.map fun t => t.ns
def Bounds.beforeNs (b : Bounds) : Option Int := b.modBefore.map fun t => t.ns

theorem elim_true {α : Type} (o : Option α) (p : α → Bool) : o.elim true p = true ↔ ∀ v ∈ o, p v = true := by
  cases o with
  | none => simp
  | some v => simp

theorem matchEntry_iff : matchEntry b f = true ↔ SizePasses b f ∧ Between b.afterNs b.beforeNs (modTime f).ns := by
  have later (t u : Time) : t.before u = false ↔ u.ns ≤ t.ns := by
    rw [← Bool.not_eq_true,before_iff]
    omega
  simp only [matchEntry,SizePasses,Between,Bounds.afterNs,Bounds.beforeNs,Bool.and_eq_true,elim_true,later,Bool.not_eq_true',
    gt_iff_lt,Option.mem_map,forall_exists_index,and_imp,forall_apply_eq_imp_iff₂,Bool.or_eq_true]
  split <;> simp_all [elim_true,and_assoc]

theorem accepts_iff : accepts casing b f = true ↔
    SizePasses b f ∧ Between (b.afterNs.map unixNano) (b.beforeNs.map unixNano) (mtimeNs f) := by
  simp only [accepts,matchAttrs,toWireFilters,Bounds.filters,Option.elim_none,Bool.true_and,atLeast,atMost,SizePasses,Between,Bounds.afterNs,Bounds.beforeNs,
    Bool.and_eq_true,elim_true,decide_eq_true_eq,Bool.or_eq_true]
  split <;> simp_all [elim_true,and_assoc]

def NoSize (b : Bounds) : Prop := ∃ most ∈ b.maxSize, most < 0 ∨ ∃ least ∈ b.minSize, most < least

def Reversed (b : Bounds) : Prop :=
  ∃ after ∈ b.afterNs, ∃ last ∈ b.beforeNs, last < after ∧ unixNano last < unixNano after

-- What is set lies in the range of a 64-bit nanosecond clock, away from its
-- first second and its last instant.
def Inner (b : Bounds) : Prop :=
  (∀ after ∈ b.afterNs, -2^63+1000000000 ≤ after ∧ after ≤ 2^63-1) ∧
  ∀ last ∈ b.beforeNs, -2^63+999999999 ≤ last ∧ last < 2^63-1

theorem sized (some_size : ¬NoSize b) : ∃ size : Nat, int64.Holds size ∧ ∀ f : File, f.isDir = false → f.size = size → SizePasses b f := by
  refine ⟨((b.minSize.getD 0)).toNat,?_,?_⟩
  · cases least : b.minSize with
    | none => decide
    | some v =>
      have held := b.min_holds v least
      simp only [Width.Holds,int64] at held ⊢
      simp only [Option.getD_some]
      omega
  · intro f plain size _
    refine ⟨plain,?_,?_⟩
    · intro least set
      rw [size,set,Option.getD_some]
      omega
    · intro most set
      have enough : 0 ≤ most := by
        by_contra negative
        exact some_size ⟨most,set,Or.inl (by omega)⟩
      rw [size]
      cases least : b.minSize with
      | none => simpa using enough
      | some v =>
        have ordered : v ≤ most := by
          by_contra apart
          exact some_size ⟨most,set,Or.inr ⟨v,least,by omega⟩⟩
        rw [Option.getD_some]
        omega

theorem sizes_fail (none_fits : NoSize b) : ¬SizePasses b f := by
  intro passes
  obtain ⟨most,set,reason⟩ := none_fits
  obtain ⟨_,low,high⟩ := passes (Or.inr (by rw [set]; rfl))
  have upper := high most set
  rcases reason with negative | ⟨least,least_set,apart⟩
  · omega
  · have lower := low least least_set
    omega

theorem years_hold (b : Bounds) : ∀ v, v ∈ b.afterNs ∨ v ∈ b.beforeNs → -10^21 ≤ v ∧ v ≤ 10^21 := by
  have each (t : BoundTime) : -10^21 ≤ t.ns ∧ t.ns ≤ 10^21 := by
    have low := t.from_year
    have high := t.to_year
    have nanos := t.nanos_lt
    unfold Time.ns
    omega
  intro v set
  rcases set with set | set
  all_goals
    obtain ⟨t,_,rfl⟩ := Option.mem_map.mp set
    exact each t

theorem same_times (some_size : ¬NoSize b) (agree : ∀ f : File, f.Dated → accepts casing b f = matchEntry b f) :
    SameTimes b.afterNs b.beforeNs := by
  intro t common
  obtain ⟨size,held,passes⟩ := sized some_size
  have verdict := agree ⟨"",false,size,t,held,common.1⟩ common.2
  have sizes := passes ⟨"",false,size,t,held,common.1⟩ rfl rfl
  rw [Bool.eq_iff_iff,accepts_iff,matchEntry_iff] at verdict
  have plain : modTime ⟨"",false,size,t,held,common.1⟩ = t := unix_same common.2
  rw [plain] at verdict
  simp only [sizes,true_and] at verdict
  exact verdict.symm

theorem same_inner (apart : ¬Reversed b) (same : SameTimes b.afterNs b.beforeNs) : Inner b := by
  have opened (a l : Int) (low : a ∈ b.afterNs) (high : l ∈ b.beforeNs) : a ≤ l ∧ unixNano a ≤ unixNano l :=
    open_both same (years_hold b) a l low high fun reversed => apart ⟨a,low,l,high,reversed⟩
  have lower : ∀ a ∈ b.afterNs, -2^63+1000000000 ≤ a ∧ a ≤ 2^63-1 := fun a low =>
    after_inner same (years_hold b) a low fun l high => opened a l low high
  refine ⟨lower,?_⟩
  intro l high
  exact before_inner same (years_hold b) l high fun a low => ⟨(lower a low).1,opened a l low high⟩

theorem reversed_agree (reversed : Reversed b) : accepts casing b f = matchEntry b f := by
  obtain ⟨a,low,l,high,full,wire⟩ := reversed
  rw [Bool.eq_iff_iff,accepts_iff,matchEntry_iff,between_wire]
  refine ⟨?_,?_⟩
  all_goals
    rintro ⟨_,passes⟩
    have lower := passes.1 a low
    have upper := passes.2 l high
    omega

-- Within the range the two sides order every dated file alike, whatever is
-- lost below the clock's first second or above its last.
theorem inner_times (inner : Inner b) (dated : f.Dated) :
    Between (b.afterNs.map unixNano) (b.beforeNs.map unixNano) (mtimeNs f) ↔ Between b.afterNs b.beforeNs (modTime f).ns := by
  have nanos := f.modified.nanos_lt
  have plain : modTime f = f.modified := unix_same dated
  rw [between_wire,plain]
  unfold Between mtimeNs
  refine and_congr (forall₂_congr fun a set => ?_) (forall₂_congr fun l set => ?_)
  · have range := inner.1 a set
    rw [unixNano_same (by omega) range.2]
    by_cases low : f.modified.seconds*1000000000 < -2^63
    · rw [statOf_low low]
      unfold Time.ns
      omega
    · by_cases high : 2^63-1 ≤ f.modified.ns
      · rw [statOf_high high]
        omega
      · rw [statOf_same (by omega) (by omega)]
  · have range := inner.2 l set
    rw [unixNano_same (by omega) (by omega)]
    by_cases low : f.modified.seconds*1000000000 < -2^63
    · rw [statOf_low low]
      unfold Time.ns
      omega
    · by_cases high : 2^63-1 ≤ f.modified.ns
      · rw [statOf_high high]
        omega
      · rw [statOf_same (by omega) (by omega)]

theorem inner_agree (inner : Inner b) (dated : f.Dated) : accepts casing b f = matchEntry b f := by
  rw [Bool.eq_iff_iff,accepts_iff,matchEntry_iff,inner_times inner dated]

theorem none_fit_agree (none_fits : NoSize b) : accepts casing b f = matchEntry b f := by
  rw [Bool.eq_iff_iff,accepts_iff,matchEntry_iff]
  have fails := @sizes_fail b f none_fits
  exact ⟨fun passes => absurd passes.1 fails,fun passes => absurd passes.1 fails⟩

theorem undated_agree (inner : Inner b) (paired : b.modAfter.isSome = b.modBefore.isSome) (late : ¬f.Dated) :
    accepts casing b f = matchEntry b f := by
  have early := unix_early f late
  have top : mtimeNs f = 2^63-1 := statOf_high (by omega)
  rw [Bool.eq_iff_iff,accepts_iff,matchEntry_iff,between_wire,top]
  cases after : b.modAfter with
  | none =>
    rw [after] at paired
    have unset : b.modBefore = none := by simpa using paired.symm
    simp [Between,Bounds.afterNs,Bounds.beforeNs,after,unset]
  | some a =>
    rw [after] at paired
    obtain ⟨l,set⟩ := Option.isSome_iff_exists.mp paired.symm
    have low : a.ns ∈ b.afterNs := by simp [Bounds.afterNs,after]
    have high : l.ns ∈ b.beforeNs := by simp [Bounds.beforeNs,set]
    have lower := inner.1 _ low
    have upper := inner.2 _ high
    refine ⟨?_,?_⟩
    · rintro ⟨_,_,passes⟩
      have bound := passes _ high
      rw [unixNano_same (by omega) (by omega)] at bound
      omega
    · rintro ⟨_,passes,_⟩
      have bound := passes _ low
      omega

theorem agree_paired (some_size : ¬NoSize b) (inner : Inner b) (agree : ∀ f, accepts casing b f = matchEntry b f) :
    b.modAfter.isSome = b.modBefore.isSome := by
  obtain ⟨size,held,passes⟩ := sized some_size
  obtain ⟨late,top⟩ : ∃ late : File, late.isDir = false ∧ late.size = size ∧ ¬late.Dated := by
    refine ⟨⟨"",false,size,⟨2^63-1,0,by decide⟩,held,by decide⟩,rfl,rfl,?_⟩
    intro dated
    have bound := dated.2
    simp only [int64,unixToInternal] at bound
    omega
  have early := unix_early late top.2.2
  have newest : mtimeNs late = 2^63-1 := statOf_high (by omega)
  have verdict := agree late
  rw [Bool.eq_iff_iff,accepts_iff,matchEntry_iff,between_wire,newest] at verdict
  simp only [passes late top.1 top.2.1,true_and] at verdict
  cases after : b.modAfter with
  | none =>
    cases last : b.modBefore with
    | none => rfl
    | some l =>
      have high : l.ns ∈ b.beforeNs := by simp [Bounds.beforeNs,last]
      have upper := inner.2 _ high
      have passed : Between b.afterNs b.beforeNs (modTime late).ns := by
        refine ⟨fun v set => ?_,fun v set => ?_⟩
        · simp [Bounds.afterNs,after] at set
        · rw [Option.mem_unique set high]
          omega
      have bound := (verdict.mpr passed).2 _ high
      rw [unixNano_same (by omega) (by omega)] at bound
      omega
  | some a =>
    cases last : b.modBefore with
    | none =>
      have low : a.ns ∈ b.afterNs := by simp [Bounds.afterNs,after]
      have lower := inner.1 _ low
      have passed : (∀ v ∈ b.afterNs, unixNano v ≤ 2^63-1) ∧ ∀ v ∈ b.beforeNs, 2^63-1 ≤ unixNano v := by
        refine ⟨fun v _ => (unixNano_bounds v).2,fun v set => ?_⟩
        simp [Bounds.beforeNs,last] at set
      have bound := (verdict.mp passed).1 _ low
      omega
    | some l => rfl

-- The two filters agree on every file exactly when nothing can pass, or when
-- both bounds lie inside the range of a nanosecond clock or neither is set;
-- short of the seconds time.Time wraps, one bound inside the range is enough.
theorem bounds_agree_iff (casing : Casing) (b : Bounds) :
    ((∀ f, accepts casing b f = matchEntry b f) ↔
      NoSize b ∨ Reversed b ∨ (Inner b ∧ b.modAfter.isSome = b.modBefore.isSome)) ∧
    ((∀ f : File, f.Dated → accepts casing b f = matchEntry b f) ↔ NoSize b ∨ Reversed b ∨ Inner b) := by
  have dated : (∀ f : File, f.Dated → accepts casing b f = matchEntry b f) → NoSize b ∨ Reversed b ∨ Inner b := by
    intro agree
    by_cases none_fits : NoSize b
    · exact Or.inl none_fits
    · by_cases reversed : Reversed b
      · exact Or.inr (Or.inl reversed)
      · exact Or.inr (Or.inr (same_inner reversed (same_times none_fits agree)))
  refine ⟨⟨?_,?_⟩,⟨dated,?_⟩⟩
  · intro agree
    rcases dated fun f _ => agree f with none_fits | reversed | inner
    · exact Or.inl none_fits
    · exact Or.inr (Or.inl reversed)
    · by_cases none_fits : NoSize b
      · exact Or.inl none_fits
      · exact Or.inr (Or.inr ⟨inner,agree_paired none_fits inner agree⟩)
  · rintro (none_fits | reversed | ⟨inner,paired⟩) f
    · exact none_fit_agree none_fits
    · exact reversed_agree reversed
    · by_cases common : f.Dated
      · exact inner_agree inner common
      · exact undated_agree inner paired common
  · rintro (none_fits | reversed | inner) f common
    · exact none_fit_agree none_fits
    · exact reversed_agree reversed
    · exact inner_agree inner common

-- Modified after 2300-01-01T00:00:00Z: a file of 2026 is too old for the walk,
-- but the bound sent has wrapped to the year 1715.
def after2300 : Bounds := ⟨none,none,some ⟨⟨10413792000,0,by decide⟩,by decide,by decide⟩,none,nofun,nofun⟩

theorem far_bound_wraps :
    ∃ f : File, f.Dated ∧ f.modified.seconds = 1767225600 ∧ matchEntry after2300 f = false ∧
      accepts ⟨lowerAscii,lowerAscii⟩ after2300 f = true :=
  ⟨⟨"a.txt",false,1,⟨1767225600,0,by decide⟩,by decide,by decide⟩,by decide,rfl,by decide,by decide⟩

end RemoteFileExplorer.SearchBounds
