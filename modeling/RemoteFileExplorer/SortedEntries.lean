import RemoteFileExplorer.CodeUnits
import Mathlib.Data.List.SplitBy

namespace RemoteFileExplorer.SortedEntries
open CodeUnits

def isDigit (u : UInt16) : Bool := 0x30 ≤ u && u ≤ 0x39

def runs (text : Units) : List Units := text.splitBy fun u v => isDigit u == isDigit v

-- s.toLowerCase().match(/\d+|\D+/g) ?? []
def chunks (lower : Units → Units) (s : Units) : List Units := runs (lower s)

-- p.replace(/^0+(?=\d)/,'')
def withoutZeros : Units → Units
  | u::v::rest => if u = 0x30 ∧ isDigit v = true then withoutZeros (v::rest) else u::v::rest
  | text => text

-- /^\d/.test(p)
def numeric (p : Units) : Bool := p.head?.any isDigit

def compareChunks (p q : Units) : Ordering :=
  if p = q then .eq else
  if numeric p && numeric q then (compare (withoutZeros p).length (withoutZeros q).length).then (compare (withoutZeros p) (withoutZeros q)) else
  compare p q

-- The first chunk that differs decides, else the number of chunks.
def naturalCompare (lower : Units → Units) (a b : Units) : Ordering := (chunks lower a).compareLex compareChunks (chunks lower b)

structure Entry where
  name : Units
  isDir : Bool
  size : Option Int
  modified : Option Units
  mimeType : Option Units
  deriving DecidableEq,Repr

inductive SortField where
  | name
  | size
  | date
  | type
  deriving DecidableEq,Repr

structure SortOrder where
  field : SortField
  ascending : Bool
  deriving DecidableEq,Repr

-- `parse` is Date.parse with none for NaN.
def ms (parse : Units → Option Int) : Option Units → Int
  | some s => if s = [] then 0 else (parse s).getD 0
  | none => 0

-- Of a difference of two numbers only the sign counts.
def fieldOrder (lower : Units → Units) (parse : Units → Option Int) (a b : Entry) : SortField → Ordering
  | .name => naturalCompare lower a.name b.name
  | .size => compare (a.size.getD 0) (b.size.getD 0)
  | .date => compare (ms parse a.modified) (ms parse b.modified)
  | .type => compare (a.mimeType.getD []) (b.mimeType.getD [])

def cmp (lower : Units → Units) (parse : Units → Option Int) (sort : SortOrder) (a b : Entry) : Ordering :=
  let r := fieldOrder lower parse a b sort.field
  if sort.ascending then r else r.swap

def le (lower : Units → Units) (parse : Units → Option Int) (sort : SortOrder) (a b : Entry) : Bool := (cmp lower parse sort a b).isLE

-- Array.prototype.sort is stable.
def sortEntries (lower : Units → Units) (parse : Units → Option Int) (entries : List Entry) (sort : SortOrder) : List Entry :=
  let dirs := (entries.filter fun e => e.isDir).mergeSort (le lower parse sort)
  let files := (entries.filter fun e => !e.isDir).mergeSort (le lower parse sort)
  dirs ++ files

def number : Units → Nat
  | [] => 0
  | u::rest => (u.toNat - 0x30) * 10 ^ rest.length + number rest

def Digits (p : Units) : Prop := p ≠ [] ∧ ∀ u ∈ p, isDigit u = true

-- What is known of lower case here: no letter becomes a digit, and a run of
-- digits stays as it is between what is lowered on either side.
structure Lowers (lower : Units → Units) : Prop where
  around : ∀ front p back, Digits p → lower (front ++ p ++ back) = lower front ++ p ++ lower back
  first : ∀ text u, (lower text).head? = some u → isDigit u = true → ∃ v, text.head? = some v ∧ isDigit v = true
  last : ∀ text u, (lower text).getLast? = some u → isDigit u = true → ∃ v, text.getLast? = some v ∧ isDigit v = true

-- The text without the leading zeros of its numbers.
def unpadded (text : Units) : Units := (runs text).flatMap withoutZeros

-- One chunk before another: by its first unit, where all digits count as one.
def place (p : Units) : Nat := p.head?.elim 0 fun u => if u < 0x30 then 0 else if u ≤ 0x39 then 1 else 2

def byPlace : Units → Units → Ordering :=
  compareLex (compareOn place) (compareLex (compareOn fun p => if numeric p then (withoutZeros p).length else 0) (compareOn withoutZeros))

theorem place_cons (u : UInt16) (rest : Units) : place (u::rest) = if u < 0x30 then 0 else if u ≤ 0x39 then 1 else 2 := rfl

theorem numeric_place (solid : p ≠ []) : numeric p = true ↔ place p = 1 := by
  obtain ⟨u,rest,rfl⟩ := List.exists_cons_of_ne_nil solid
  rw [place_cons]
  simp only [numeric,List.head?_cons,Option.any_some,isDigit,Bool.and_eq_true,decide_eq_true_eq,UInt16.le_iff_toNat_le,UInt16.lt_iff_toNat_lt,UInt16.reduceToNat]
  split
  · omega
  · split <;> omega

theorem unit_compare (u v : UInt16) : compare u v = compare u.toNat v.toNat := by
  change compareOfLessAndEq u v = compareOfLessAndEq _ _
  unfold compareOfLessAndEq
  simp only [← UInt16.toNat_inj,UInt16.lt_iff_toNat_lt]

theorem place_apart (first : p ≠ []) (second : q ≠ []) (apart : place p ≠ place q) : compare p q = compare (place p) (place q) := by
  obtain ⟨u,s,rfl⟩ := List.exists_cons_of_ne_nil first
  obtain ⟨v,t,rfl⟩ := List.exists_cons_of_ne_nil second
  rw [place_cons,place_cons] at apart ⊢
  have units : compare u v = compare (if u < 0x30 then 0 else if u ≤ 0x39 then 1 else 2) (if v < 0x30 then 0 else if v ≤ 0x39 then 1 else 2) := by
    rw [unit_compare]
    simp only [UInt16.le_iff_toNat_le,UInt16.lt_iff_toNat_lt,UInt16.reduceToNat] at apart ⊢
    rcases Nat.lt_trichotomy u.toNat v.toNat with less | same | more
    · rw [Nat.compare_eq_lt.mpr less]
      exact (Nat.compare_eq_lt.mpr (by split_ifs at apart ⊢ <;> omega)).symm
    · rw [same] at apart
      exact absurd rfl apart
    · rw [Nat.compare_eq_gt.mpr more]
      exact (Nat.compare_eq_gt.mpr (by split_ifs at apart ⊢ <;> omega)).symm
  rw [List.compare_eq_compareLex,List.compareLex_cons_cons,units]
  generalize (if u < 0x30 then 0 else if u ≤ 0x39 then 1 else 2) = m,(if v < 0x30 then 0 else if v ≤ 0x39 then 1 else 2) = n at apart
  cases known : compare m n with
  | eq => exact absurd (Nat.compare_eq_eq.mp known) apart
  | lt | gt => rfl

theorem text_zeros (text : numeric p = false) : withoutZeros p = p := by
  unfold withoutZeros
  split
  · refine if_neg fun zero => ?_
    rw [zero.1] at text
    cases text
  · rfl

theorem chunk_place (first : p ≠ []) (second : q ≠ []) : compareChunks p q = byPlace p q := by
  unfold compareChunks byPlace compareLex compareOn
  by_cases same : p = q
  · rw [if_pos same,same]
    simp
  rw [if_neg same]
  by_cases apart : place p = place q
  · have both : numeric p = numeric q := Bool.eq_iff_iff.mpr (by rw [numeric_place first,numeric_place second,apart])
    have level : compare (place q) (place q) = .eq := Nat.compare_eq_eq.mpr rfl
    rw [apart,level,Ordering.eq_then]
    cases known : numeric q with
    | true => simp only [known,both,Bool.and_self,if_true]
    | false =>
      simp only [known,both,text_zeros known,text_zeros (both.trans known),Bool.and_self,Bool.false_eq_true,if_false]
      rfl
  · have mixed : (numeric p && numeric q) = false := by
      rw [Bool.eq_false_iff]
      intro both
      obtain ⟨one,two⟩ := Bool.and_eq_true_iff.mp both
      exact apart (((numeric_place first).mp one).trans ((numeric_place second).mp two).symm)
    rw [mixed,if_neg Bool.false_ne_true,place_apart first second apart]
    cases known : compare (place p) (place q) with
    | eq => exact absurd (Nat.compare_eq_eq.mp known) apart
    | lt | gt => rfl

theorem compareLex_congr {f g : Units → Units → Ordering} {x y : List Units} (same : ∀ p ∈ x, ∀ q ∈ y, f p q = g p q) : x.compareLex f y = x.compareLex g y := by
  induction x generalizing y with
  | nil => cases y <;> rfl
  | cons p x ih =>
    cases y with
    | nil => rfl
    | cons q y =>
      rw [List.compareLex_cons_cons,List.compareLex_cons_cons,same p (List.mem_cons_self ..) q (List.mem_cons_self ..),
        ih fun p inX q inY => same p (List.mem_cons_of_mem _ inX) q (List.mem_cons_of_mem _ inY)]

theorem compare_places (lower : Units → Units) (a b : Units) : naturalCompare lower a b = (chunks lower a).compareLex byPlace (chunks lower b) :=
  compareLex_congr fun _ inA _ inB => chunk_place (List.ne_nil_of_mem_splitBy inA) (List.ne_nil_of_mem_splitBy inB)

instance : Std.TransCmp byPlace := inferInstanceAs (Std.TransCmp (compareLex _ (compareLex _ _)))

instance (lower : Units → Units) : Std.TransCmp (naturalCompare lower) where
  eq_swap {a b} := by
    rw [compare_places,compare_places]
    exact Std.OrientedCmp.eq_swap
  isLE_trans {a b c} first second := by
    rw [compare_places] at first second ⊢
    exact Std.TransCmp.isLE_trans first second

theorem places_zeros {x y : List Units} (same : x.compareLex byPlace y = .eq) : x.flatMap withoutZeros = y.flatMap withoutZeros := by
  induction x generalizing y with
  | nil =>
    cases y with
    | nil => rfl
    | cons q y => cases same
  | cons p x ih =>
    cases y with
    | nil => cases same
    | cons q y =>
      rw [List.compareLex_cons_cons,Ordering.then_eq_eq] at same
      have zeros : compareOn withoutZeros p q = .eq := (compareLex_eq_eq.mp (compareLex_eq_eq.mp same.1).2).2
      rw [List.flatMap_cons,List.flatMap_cons,ih same.2,Std.LawfulEqOrd.eq_of_compare zeros]

section Numbers
variable {p q : Units}

theorem digit_value (digit : isDigit u = true) : u.toNat - 0x30 < 10 ∧ 0x30 ≤ u.toNat := by
  simp only [isDigit,Bool.and_eq_true,decide_eq_true_eq,UInt16.le_iff_toNat_le,UInt16.reduceToNat] at digit
  omega

theorem number_below (digits : ∀ u ∈ p, isDigit u = true) : number p < 10 ^ p.length := by
  induction p with
  | nil => exact Nat.one_pos
  | cons u rest ih =>
    obtain ⟨first,others⟩ := List.forall_mem_cons.mp digits
    have small := (digit_value first).1
    have later := ih others
    rw [number,List.length_cons,Nat.pow_succ]
    have most : (u.toNat - 0x30) * 10 ^ rest.length ≤ 9 * 10 ^ rest.length := Nat.mul_le_mul_right _ (by omega)
    omega

-- Of two numbers with as many digits the first digit that differs decides.
theorem compare_digits (digitsP : ∀ u ∈ p, isDigit u = true) (digitsQ : ∀ u ∈ q, isDigit u = true) (long : p.length = q.length) :
    compare p q = compare (number p) (number q) := by
  induction p generalizing q with
  | nil =>
    cases List.eq_nil_of_length_eq_zero long.symm
    rfl
  | cons u s ih =>
    cases q with
    | nil => cases long
    | cons v t =>
      obtain ⟨first,restP⟩ := List.forall_mem_cons.mp digitsP
      obtain ⟨second,restQ⟩ := List.forall_mem_cons.mp digitsQ
      have same : s.length = t.length := Nat.succ.inj long
      have low := number_below restP
      have high := number_below restQ
      have lower := (digit_value first).2
      have upper := (digit_value second).2
      rw [List.compare_eq_compareLex,List.compareLex_cons_cons,← List.compare_eq_compareLex,ih restP restQ same,number,number,same]
      rw [same] at low
      have apart : ∀ a b : Nat, a < b → a * 10 ^ t.length + 10 ^ t.length ≤ b * 10 ^ t.length := by
        intro a b less
        rw [← Nat.succ_mul]
        exact Nat.mul_le_mul_right _ less
      rw [unit_compare]
      rcases Nat.lt_trichotomy u.toNat v.toNat with less | same | more
      · have far := apart (u.toNat - 0x30) (v.toNat - 0x30) (by omega)
        rw [Nat.compare_eq_lt.mpr less]
        exact (Nat.compare_eq_lt.mpr (by omega)).symm
      · rw [same,Nat.compare_eq_eq.mpr rfl,Ordering.eq_then]
        simp only [Nat.compare_eq_ite_lt,Nat.add_lt_add_iff_left]
      · have far := apart (v.toNat - 0x30) (u.toNat - 0x30) (by omega)
        rw [Nat.compare_eq_gt.mpr more]
        exact (Nat.compare_eq_gt.mpr (by omega)).symm

theorem zeros_parts (digits : Digits p) : Digits (withoutZeros p) ∧ number (withoutZeros p) = number p ∧
    ((withoutZeros p).length = 1 ∨ 10 ^ ((withoutZeros p).length - 1) ≤ number (withoutZeros p)) := by
  induction p with
  | nil => exact absurd rfl digits.1
  | cons u rest ih =>
    cases rest with
    | nil => exact ⟨digits,rfl,.inl rfl⟩
    | cons v rest =>
      obtain ⟨first,others⟩ := List.forall_mem_cons.mp digits.2
      have second := (List.forall_mem_cons.mp others).1
      by_cases zero : u = 0x30
      · obtain ⟨left,same,large⟩ := ih ⟨List.cons_ne_nil v rest,others⟩
        have stripped : withoutZeros (u::v::rest) = withoutZeros (v::rest) := if_pos ⟨zero,second⟩
        rw [stripped]
        refine ⟨left,same.trans ?_,large⟩
        have nothing : UInt16.toNat 0x30 - 0x30 = 0 := rfl
        rw [number.eq_2 u,zero,nothing,Nat.zero_mul,Nat.zero_add]
      · have kept : withoutZeros (u::v::rest) = u::v::rest := if_neg fun both => zero both.1
        rw [kept]
        refine ⟨digits,rfl,.inr ?_⟩
        have positive : 1 ≤ u.toNat - 0x30 := by
          have other : u.toNat ≠ 0x30 := fun same => zero (UInt16.toNat_inj.mp same)
          have lower := (digit_value first).2
          omega
        exact Nat.le_trans (Nat.le_mul_of_pos_left _ positive) (Nat.le_add_right ..)

theorem shorter_less (digitsP : Digits p) (digitsQ : Digits q) (shorter : (withoutZeros p).length < (withoutZeros q).length) : number p < number q := by
  obtain ⟨left,sameP,_⟩ := zeros_parts digitsP
  obtain ⟨_,sameQ,large⟩ := zeros_parts digitsQ
  have some_ := List.length_pos_of_ne_nil left.1
  rw [← sameP,← sameQ]
  refine Nat.lt_of_lt_of_le (number_below left.2) (Nat.le_trans (Nat.pow_le_pow_right (by decide) ?_) (large.resolve_left (by omega)))
  omega

theorem chunks_numbers (digitsP : Digits p) (digitsQ : Digits q) : compareChunks p q = compare (number p) (number q) := by
  have numeric_ : ∀ {p}, Digits p → numeric p = true := by
    intro p digits
    obtain ⟨u,rest,rfl⟩ := List.exists_cons_of_ne_nil digits.1
    exact digits.2 u (List.mem_cons_self ..)
  unfold compareChunks
  by_cases same : p = q
  · rw [if_pos same,same]
    exact (Nat.compare_eq_eq.mpr rfl).symm
  rw [if_neg same,if_pos (by rw [numeric_ digitsP,numeric_ digitsQ]; rfl)]
  rcases Nat.lt_trichotomy (withoutZeros p).length (withoutZeros q).length with less | equal | more
  · rw [Nat.compare_eq_lt.mpr less,Nat.compare_eq_lt.mpr (shorter_less digitsP digitsQ less)]
    rfl
  · obtain ⟨left,sameP,_⟩ := zeros_parts digitsP
    obtain ⟨right,sameQ,_⟩ := zeros_parts digitsQ
    rw [Nat.compare_eq_eq.mpr equal,Ordering.eq_then,compare_digits left.2 right.2 equal,sameP,sameQ]
  · rw [Nat.compare_eq_gt.mpr more,Nat.compare_eq_gt.mpr (shorter_less digitsQ digitsP more)]
    rfl

theorem runs_around (digits : Digits p) (before : ∀ u, front.getLast? = some u → isDigit u = false) (after : ∀ u, back.head? = some u → isDigit u = false) :
    runs (front ++ p ++ back) = runs front ++ p::runs back := by
  have whole : runs p = [p] := by
    refine List.splitBy_of_isChain digits.1 (List.Pairwise.isChain ?_)
    exact List.pairwise_of_forall_mem_list fun u inP v inQ => by rw [digits.2 u inP,digits.2 v inQ]; rfl
  unfold runs at whole ⊢
  rw [List.append_assoc,List.splitBy_append,List.splitBy_append,whole]
  · rfl
  · intro u last v next
    rw [digits.2 u (List.mem_of_getLast? last),after v next]
    rfl
  · intro u last v next
    obtain ⟨w,rest,rfl⟩ := List.exists_cons_of_ne_nil digits.1
    cases next
    rw [before u last,digits.2 _ (List.mem_cons_self ..)]
    rfl

theorem compareLex_around {front back : List Units} : (front ++ p::back).compareLex compareChunks (front ++ q::back) = compareChunks p q := by
  have itself : ∀ p, compareChunks p p = .eq := fun p => if_pos rfl
  induction front with
  | nil =>
    have rest : back.compareLex compareChunks back = .eq := by
      induction back with
      | nil => rfl
      | cons r back ih => rw [List.compareLex_cons_cons,itself,Ordering.eq_then,ih]
    rw [List.nil_append,List.nil_append,List.compareLex_cons_cons,rest,Ordering.then_eq]
  | cons r front ih => rw [List.cons_append,List.cons_append,List.compareLex_cons_cons,itself,Ordering.eq_then,ih]

end Numbers

section Sorting
variable {lower : Units → Units} {parse : Units → Option Int} {sort : SortOrder} {entries : List Entry} {a b : Entry}

theorem preimage (f : β → β → Ordering) [Std.TransCmp f] (g : α → β) : Std.TransCmp fun a b => f (g a) (g b) where
  eq_swap := Std.OrientedCmp.eq_swap
  isLE_trans := Std.TransCmp.isLE_trans

variable (lower parse) in
theorem fieldOrder_trans (field : SortField) : Std.TransCmp fun a b => fieldOrder lower parse a b field := by
  cases field with
  | name => exact preimage (naturalCompare lower) Entry.name
  | size => exact preimage compare fun e : Entry => e.size.getD 0
  | date => exact preimage compare fun e : Entry => ms parse e.modified
  | type => exact preimage compare fun e : Entry => e.mimeType.getD []

instance : Std.TransCmp (cmp lower parse sort) := by
  have ascending := fieldOrder_trans lower parse sort.field
  have turned : (fun a b => (fieldOrder lower parse a b sort.field).swap) = fun a b => fieldOrder lower parse b a sort.field := by
    funext a b
    exact ascending.eq_swap.symm
  unfold cmp
  cases sort.ascending with
  | true => exact ascending
  | false =>
    change Std.TransCmp fun a b => (fieldOrder lower parse a b sort.field).swap
    rw [turned]
    exact ascending.opposite

-- Whether `a` stays before `b`.
def Stays (lower : Units → Units) (parse : Units → Option Int) (sort : SortOrder) (a b : Entry) : Prop :=
  if a.isDir = b.isDir then le lower parse sort a b = true else a.isDir = true

structure Arranged (lower : Units → Units) (parse : Units → Option Int) (sort : SortOrder) (entries sorted : List Entry) : Prop where
  same : sorted.Perm entries
  grouped : ∃ dirs files, sorted = dirs ++ files ∧ (∀ e ∈ dirs, e.isDir = true) ∧ (∀ e ∈ files, e.isDir = false) ∧
    dirs.Pairwise (fun a b => le lower parse sort a b = true) ∧ files.Pairwise fun a b => le lower parse sort a b = true
  relative : ∀ a b, [a,b].Sublist entries →
    (Stays lower parse sort a b → [a,b].Sublist sorted) ∧ (¬ Stays lower parse sort a b → [b,a].Sublist sorted)

theorem le_trans_ : ∀ a b c, le lower parse sort a b = true → le lower parse sort b c = true → le lower parse sort a c = true :=
  fun _ _ _ => Std.TransCmp.isLE_trans

theorem le_total_ (a b : Entry) : (le lower parse sort a b || le lower parse sort b a) = true := by
  have turned : cmp lower parse sort b a = (cmp lower parse sort a b).swap := Std.OrientedCmp.eq_swap
  rw [le,le,turned]
  cases cmp lower parse sort a b <;> rfl

variable (lower parse sort) in
theorem group_ordered (listed : [a,b].Sublist entries) :
    (le lower parse sort a b = true → [a,b].Sublist (entries.mergeSort (le lower parse sort))) ∧
    (¬ le lower parse sort a b = true → [b,a].Sublist (entries.mergeSort (le lower parse sort))) := by
  refine ⟨fun before => List.pair_sublist_mergeSort le_trans_ le_total_ before listed,fun after => ?_⟩
  have sorted : (entries.mergeSort (le lower parse sort)).Pairwise fun a b => le lower parse sort a b = true := List.pairwise_mergeSort le_trans_ le_total_ entries
  have inA : a ∈ entries.mergeSort (le lower parse sort) := List.mem_mergeSort.mpr (listed.subset (List.mem_cons_self ..))
  have inB : b ∈ entries.mergeSort (le lower parse sort) := List.mem_mergeSort.mpr (listed.subset (by simp))
  obtain ⟨front,back,split⟩ := List.append_of_mem inA
  rw [split] at sorted inB ⊢
  have itself : le lower parse sort a a = true := by simpa using le_total_ a a
  rcases List.mem_append.mp inB with first | later
  · exact (List.singleton_sublist.mpr first).append (List.singleton_sublist.mpr (List.mem_cons_self ..))
  · rcases List.mem_cons.mp later with rfl | later
    · exact absurd itself after
    · exact absurd (List.rel_of_pairwise_cons (List.pairwise_append.mp sorted).2.1 later) after

theorem sortEntries_arranged : Arranged lower parse sort entries (sortEntries lower parse entries sort) := by
  have dirs := List.mergeSort_perm (entries.filter fun e => e.isDir) (le lower parse sort)
  have files := List.mergeSort_perm (entries.filter fun e => !e.isDir) (le lower parse sort)
  refine ⟨(dirs.append files).trans (List.filter_append_perm _ entries),⟨_,_,rfl,?_,?_,?_,?_⟩,?_⟩
  · intro e member
    exact (List.mem_filter.mp (dirs.mem_iff.mp member)).2
  · intro e member
    simpa using (List.mem_filter.mp (files.mem_iff.mp member)).2
  · exact List.pairwise_mergeSort le_trans_ le_total_ _
  · exact List.pairwise_mergeSort le_trans_ le_total_ _
  · intro a b listed
    have part : ∀ keep : Entry → Bool, keep a = true → keep b = true → [a,b].Sublist (entries.filter keep) := by
      intro keep keepA keepB
      have both := listed.filter keep
      rwa [List.filter_cons_of_pos keepA,List.filter_cons_of_pos keepB] at both
    have inA : a ∈ entries := listed.subset (List.mem_cons_self ..)
    have inB : b ∈ entries := listed.subset (by simp)
    have shown : ∀ {e} {keep : Entry → Bool}, e ∈ entries → keep e = true → [e].Sublist ((entries.filter keep).mergeSort (le lower parse sort)) :=
      fun member kept => List.singleton_sublist.mpr (List.mem_mergeSort.mpr (List.mem_filter.mpr ⟨member,kept⟩))
    unfold Stays
    cases dirA : a.isDir with
    | true =>
      cases dirB : b.isDir with
      | true =>
        have ordered := group_ordered lower parse sort (part (fun e => e.isDir) dirA dirB)
        exact ⟨fun before => (ordered.1 before).trans (List.sublist_append_left ..),fun after => (ordered.2 after).trans (List.sublist_append_left ..)⟩
      | false => exact ⟨fun _ => (shown inA dirA).append (shown inB (by rw [dirB]; rfl)),fun after => absurd rfl after⟩
    | false =>
      cases dirB : b.isDir with
      | true => exact ⟨nofun,fun _ => (shown inB dirB).append (shown inA (by rw [dirA]; rfl))⟩
      | false =>
        have ordered := group_ordered lower parse sort (part (fun e => !e.isDir) (by rw [dirA]; rfl) (by rw [dirB]; rfl))
        exact ⟨fun before => (ordered.1 before).trans (List.sublist_append_right ..),fun after => (ordered.2 after).trans (List.sublist_append_right ..)⟩

end Sorting

-- Any lowering gives a total preorder, and so one that never leaves the order
-- of two entries to those around them.
theorem natural_order (lower : Units → Units) (parse : Units → Option Int) :
    (∀ a b, naturalCompare lower b a = (naturalCompare lower a b).swap) ∧
    (∀ a b c, (naturalCompare lower a b).isLE = true → (naturalCompare lower b c).isLE = true → (naturalCompare lower a c).isLE = true) ∧
    (∀ a b, (naturalCompare lower a b).isLE = true ∨ (naturalCompare lower b a).isLE = true) ∧
    (Lowers lower → ∀ front back p q, Digits p → Digits q → (∀ u, front.getLast? = some u → isDigit u = false) →
      (∀ u, back.head? = some u → isDigit u = false) → naturalCompare lower (front ++ p ++ back) (front ++ q ++ back) = compare (number p) (number q)) ∧
    (∀ a b, naturalCompare lower a b = .eq → unpadded (lower a) = unpadded (lower b)) ∧
    ∀ sort entries, Arranged lower parse sort entries (sortEntries lower parse entries sort) := by
  have swap : ∀ a b, naturalCompare lower b a = (naturalCompare lower a b).swap := fun _ _ => Std.OrientedCmp.eq_swap
  refine ⟨swap,fun _ _ _ => Std.TransCmp.isLE_trans,?_,?_,?_,fun _ _ => sortEntries_arranged⟩
  · intro a b
    rw [swap a b]
    cases naturalCompare lower a b with
    | lt | eq => exact .inl rfl
    | gt => exact .inr rfl
  · intro lowers front back p q digitsP digitsQ before after
    have before_ : ∀ u, (lower front).getLast? = some u → isDigit u = false := by
      intro u last
      refine Bool.eq_false_iff.mpr fun digit => ?_
      obtain ⟨v,stood,same⟩ := lowers.last front u last digit
      rw [before v stood] at same
      cases same
    have after_ : ∀ u, (lower back).head? = some u → isDigit u = false := by
      intro u first
      refine Bool.eq_false_iff.mpr fun digit => ?_
      obtain ⟨v,stood,same⟩ := lowers.first back u first digit
      rw [after v stood] at same
      cases same
    unfold naturalCompare chunks
    rw [lowers.around front p back digitsP,lowers.around front q back digitsQ,runs_around digitsP before_ after_,runs_around digitsQ before_ after_,
      compareLex_around,chunks_numbers digitsP digitsQ]
  · intro a b same
    rw [compare_places] at same
    exact places_zeros same

def asciiLower (text : Units) : Units := text.map fun u => if 0x41 ≤ u ∧ u ≤ 0x5a then u + 0x20 else u

theorem natural_order_files : naturalCompare asciiLower (ascii "File2.txt") (ascii "File10.txt") = .lt := by
  have kept : ∀ {u : UInt16}, isDigit (if 0x41 ≤ u ∧ u ≤ 0x5a then u + 0x20 else u) = true → isDigit u = true := by
    intro u digit
    by_cases letter : 0x41 ≤ u ∧ u ≤ 0x5a
    · rw [if_pos letter] at digit
      simp only [isDigit,Bool.and_eq_true,decide_eq_true_eq,UInt16.le_iff_toNat_le,UInt16.toNat_add,UInt16.reduceToNat] at letter digit ⊢
      omega
    · rwa [if_neg letter] at digit
  have lowers : Lowers asciiLower := by
    refine ⟨?_,?_,?_⟩
    · intro front p back digits
      have same : asciiLower p = p := by
        refine (List.map_congr_left fun u member => if_neg ?_).trans (List.map_id' p)
        have digit := digits.2 u member
        simp only [isDigit,Bool.and_eq_true,decide_eq_true_eq,UInt16.le_iff_toNat_le,UInt16.reduceToNat] at digit ⊢
        omega
      unfold asciiLower at same ⊢
      rw [List.map_append,List.map_append,same]
    · intro text u first digit
      rw [asciiLower,List.head?_map] at first
      obtain ⟨v,stood,rfl⟩ := Option.map_eq_some_iff.mp first
      exact ⟨v,stood,kept digit⟩
    · intro text u last digit
      rw [asciiLower,List.getLast?_map] at last
      obtain ⟨v,stood,rfl⟩ := Option.map_eq_some_iff.mp last
      exact ⟨v,stood,kept digit⟩
  exact (natural_order asciiLower fun _ => none).2.2.2.1 lowers (ascii "File") (ascii ".txt") (ascii "2") (ascii "10") (by simp [Digits,isDigit,ascii]) (by simp [Digits,isDigit,ascii])
    (by simp [isDigit,ascii]) (by simp [isDigit,ascii])

end RemoteFileExplorer.SortedEntries
