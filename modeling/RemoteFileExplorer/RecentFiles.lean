import Mathlib.Data.String.Basic
import RemoteFileExplorer.TopLists
import RemoteFileExplorer.SearchWalk

namespace RemoteFileExplorer.RecentFiles
open FileTree DirectoryIndex SearchWalk TopLists

structure File where
  mtime : Int
  path : String
  deriving DecidableEq, Repr

def newer (a b : File) : Prop := b.mtime < a.mtime ∨ (a.mtime = b.mtime ∧ a.path ≤ b.path)

instance : DecidableRel newer := fun a b => inferInstanceAs (Decidable (b.mtime < a.mtime ∨ (a.mtime = b.mtime ∧ a.path ≤ b.path)))

instance : Std.Total newer where
  total a b := by
    unfold newer
    rcases lt_trichotomy a.mtime b.mtime with less | same | more
    · exact Or.inr (Or.inl less)
    · rcases le_total a.path b.path with before | behind
      · exact Or.inl (Or.inr ⟨same,before⟩)
      · exact Or.inr (Or.inr ⟨same.symm,behind⟩)
    · exact Or.inl (Or.inl more)

instance : IsTrans File newer where
  trans a b c one other := by
    unfold newer at one other ⊢
    rcases one with first | ⟨same,before⟩
    · rcases other with second | ⟨equal,_⟩
      · exact Or.inl (by omega)
      · exact Or.inl (by omega)
    · rcases other with second | ⟨equal,after⟩
      · exact Or.inl (by omega)
      · exact Or.inr ⟨same.trans equal,le_trans before after⟩

instance : Std.Antisymm newer where
  antisymm a b one other := by
    unfold newer at one other
    rcases one with first | ⟨same,before⟩
    · rcases other with second | ⟨equal,_⟩
      · omega
      · omega
    · rcases other with second | ⟨_,after⟩
      · omega
      · cases a
        cases b
        cases same
        cases le_antisymm before after
        rfl

def i64Min : Int := -2^63

-- The heap, newest first: its top is the last.
def push (limit : Nat) (heap : List File) (f : File) : List File :=
  let grown := heap.orderedInsert newer f
  if limit < grown.length then grown.dropLast else grown

-- `thresholds` is every value stored, the newest last.
structure Scan where
  heap : List File
  thresholds : List Int
  deriving DecidableEq, Repr

def scanStart : Scan := ⟨[],[i64Min]⟩

-- One file is visited: a relaxed load sees any threshold stored so far.
def visit (limit : Nat) (s : Scan) (event : File × Int) : Option Scan :=
  if event.2 ∈ s.thresholds then
    if event.1.mtime ≤ event.2 then some s
    else
      let heap := push limit s.heap event.1
      some ⟨heap,if limit ≤ heap.length then s.thresholds ++ (heap.getLast?.map File.mtime).toList else s.thresholds⟩
  else none

-- The k newest files, ties broken by path; a k of 0 counts as 1.
def newest (k : Nat) (files : List File) : List File := best newer (max k 1) files

section Index
variable (index : Index) (roots : List Path)

def recentItem (item : Item) : Bool := !(item.attrs.isDir && !item.attrs.isSymlink)

def fileOf (item : Item) : File := ⟨item.attrs.stat.mtime,pathText (item.dir ++ [item.name])⟩

def keep (limit : Nat) (s : List File × Int) (item : Item) : List File × Int :=
  if !recentItem item then s
  else if item.attrs.stat.mtime < s.2 then s
  else if !underAnyRootScopes roots (item.dir ++ [item.name]) then s
  else
    let heap := push limit s.1 (fileOf item)
    (heap,if limit ≤ heap.length then (heap.getLast?.map File.mtime).getD s.2 else s.2)

-- An index that was cut, or does not hold exactly these roots, does not answer.
def answers : Bool := !index.truncated && !roots.isEmpty && roots.all fun root => index.roots.any fun own => own.1 == root

def recents (k : Nat) : Option (List File) :=
  if answers index roots then
    (DirectoryIndex.sequence index).map fun items => (items.foldl (keep roots (max k 1)) ([],i64Min)).1
  else none

def filesOf (items : List Item) : List File :=
  (items.filter fun item => recentItem item && underAnyRootScopes roots (item.dir ++ [item.name])).map fileOf

end Index

variable {limit k : Nat} {files pushed : List File} {f : File} {s next last : Scan} {event : File × Int} {events : List (File × Int)}

theorem push_best (heap : List File) (f : File) (short : heap.length ≤ limit) : push limit heap f = (heap.orderedInsert newer f).take limit := by
  have grown : (heap.orderedInsert newer f).length = heap.length+1 := List.orderedInsert_length newer heap f
  unfold push
  dsimp only
  split
  · rw [List.dropLast_eq_take,grown]
    congr 1
    omega
  · rw [List.take_of_length_le (by omega)]

theorem push_cons (f : File) : push limit (best newer limit pushed) f = best newer limit (f::pushed) := by
  rw [push_best _ _ (by rw [best_length]; omega),best_cons]

def Below (limit : Nat) (pushed : List File) (v : Int) : Prop := limit ≤ pushed.length ∧ ∀ h ∈ best newer limit pushed, v ≤ h.mtime

theorem newer_mtime (ahead : newer a b) : b.mtime ≤ a.mtime := by
  rcases ahead with more | ⟨same,_⟩
  · omega
  · omega

theorem below_grows (below : Below limit pushed v) : Below limit (f::pushed) v := by
  refine ⟨Nat.le_succ_of_le below.1,?_⟩
  intro h chosen
  obtain ⟨old,inside,ahead⟩ := best_improves below.1 chosen
  have least := below.2 old inside
  have more := newer_mtime ahead
  omega

theorem below_last (full : limit ≤ (best newer limit pushed).length) (top : v ∈ ((best newer limit pushed).getLast?.map File.mtime).toList) :
    Below limit pushed v := by
  have sizes := best_length (r := newer) (k := limit) (l := pushed)
  refine ⟨by omega,?_⟩
  intro h chosen
  obtain ⟨oldest,found,rfl⟩ := Option.map_eq_some_iff.mp (Option.mem_toList.mp top)
  obtain ⟨before,split⟩ := List.getLast?_eq_some_iff.mp found
  have sorted := best_sorted (r := newer) (k := limit) (l := pushed)
  rw [split] at sorted chosen
  rcases List.mem_append.mp chosen with early | own
  · exact newer_mtime ((List.pairwise_append.mp sorted).2.2 h early oldest (List.mem_singleton_self _))
  · rw [List.mem_singleton.mp own]

-- The heap is the best of what was pushed; every other file visited was not
-- newer than anything in a heap that was full by then.
structure Scanned (limit : Nat) (visited : List File) (s : Scan) (pushed skipped : List File) : Prop where
  all : visited.Perm (pushed ++ skipped)
  heap : s.heap = best newer limit pushed
  passed : ∀ f ∈ skipped, f.mtime ≤ i64Min ∨ Below limit pushed f.mtime
  stored : ∀ v ∈ s.thresholds, v = i64Min ∨ Below limit pushed v
  held : i64Min ∈ s.thresholds

theorem start_scanned : Scanned limit [] scanStart [] [] := by
  refine ⟨List.Perm.refl _,?_,fun f mem => absurd mem (List.not_mem_nil),?_,List.mem_singleton_self _⟩
  · simp [scanStart,best]
  · intro v mem
    exact Or.inl (List.mem_singleton.mp mem)

theorem visit_scanned (scanned : Scanned limit visited s pushed skipped) (moved : visit limit s event = some next) :
    ∃ pushed' skipped', Scanned limit (visited ++ [event.1]) next pushed' skipped' := by
  obtain ⟨seen,moved⟩ := Option.ite_none_right_eq_some.mp moved
  split at moved
  · rename_i old
    cases moved
    refine ⟨pushed,event.1::skipped,?_,scanned.heap,?_,scanned.stored,scanned.held⟩
    · refine List.perm_append_comm.trans ?_
      exact (scanned.all.cons event.1).trans List.perm_middle.symm
    · intro f mem
      rcases List.mem_cons.mp mem with rfl | earlier
      · rcases scanned.stored _ seen with least | below
        · exact Or.inl (least ▸ old)
        · refine Or.inr ⟨below.1,fun h chosen => ?_⟩
          have more := below.2 h chosen
          omega
      · exact scanned.passed f earlier
  · cases moved
    refine ⟨event.1::pushed,skipped,?_,?_,?_,?_,?_⟩
    · refine List.perm_append_comm.trans ?_
      exact scanned.all.cons event.1
    · rw [scanned.heap,push_cons]
    · intro f mem
      rcases scanned.passed f mem with least | below
      · exact Or.inl least
      · exact Or.inr (below_grows below)
    · intro v mem
      have earlier (old : v ∈ s.thresholds) : v = i64Min ∨ Below limit (event.1::pushed) v := by
        rcases scanned.stored v old with least | below
        · exact Or.inl least
        · exact Or.inr (below_grows below)
      rw [scanned.heap,push_cons] at mem
      split at mem
      · rename_i full
        rcases List.mem_append.mp mem with old | new
        · exact earlier old
        · exact Or.inr (below_last full new)
      · exact earlier mem
    · split
      · exact List.mem_append_left _ scanned.held
      · exact scanned.held

theorem run_scanned (ran : Runs.run (visit limit) scanStart events = some last) :
    ∃ pushed skipped, Scanned limit (events.map Prod.fst) last pushed skipped := by
  refine Runs.run_history (fun past s => ∃ pushed skipped, Scanned limit (past.map Prod.fst) s pushed skipped) ?_ ⟨[],[],start_scanned⟩ ran
  intro past s event next _ scanned moved _
  obtain ⟨pushed,skipped,before⟩ := scanned
  obtain ⟨more,passed,after⟩ := visit_scanned before moved
  rw [List.map_append]
  exact ⟨more,passed,after⟩

-- No file that is kept is as old as i64 goes, and none that is left out has
-- the time of one that is kept, unless it is the same path.
def Clear (limit : Nat) (files : List File) : Prop :=
  (∀ f ∈ best newer limit files, i64Min < f.mtime) ∧
  ∀ f ∈ best newer limit files, ∀ g ∈ rest newer limit files, f.mtime = g.mtime → f.path = g.path

theorem clear_scan (clear : Clear limit files) (visits : (events.map Prod.fst).Perm files)
    (ran : Runs.run (visit limit) scanStart events = some last) : last.heap = best newer limit files := by
  obtain ⟨pushed,skipped,scanned⟩ := run_scanned ran
  have whole : files.Perm (pushed ++ skipped) := visits.symm.trans scanned.all
  rw [scanned.heap,best_perm whole]
  refine best_pushed ?_
  intro f passed chosen
  rw [← best_perm whole] at chosen
  rcases scanned.passed f passed with least | below
  · have young := clear.1 f chosen
    omega
  · refine ⟨below.1,?_⟩
    intro h inside outside
    rw [← rest_perm whole] at outside
    have least := below.2 h inside
    have ahead := newer_mtime (best_before chosen outside)
    have same : f.mtime = h.mtime := by omega
    have path := clear.2 f chosen h outside same
    exact Or.inr ⟨same.symm,path.ge⟩

-- Visits that all see the first threshold push whatever is newer.
theorem visits_push (limit : Nat) (s : Scan) (pushed l : List File) (held : i64Min ∈ s.thresholds) (heap : s.heap = best newer limit pushed) :
    ∃ last, Runs.run (visit limit) s (l.map fun f => (f,i64Min)) = some last ∧ i64Min ∈ last.thresholds ∧
      last.heap = best newer limit ((l.filter fun f => i64Min < f.mtime).reverse ++ pushed) := by
  induction l generalizing s pushed with
  | nil => exact ⟨s,rfl,held,heap⟩
  | cons f others ih =>
    by_cases old : f.mtime ≤ i64Min
    · have same : visit limit s (f,i64Min) = some s := by
        unfold visit
        rw [if_pos held,if_pos old]
      obtain ⟨last,ran,still,result⟩ := ih s pushed held heap
      refine ⟨last,Runs.run_cons.mpr ⟨s,same,ran⟩,still,?_⟩
      rw [result,List.filter_cons_of_neg (by simpa using old)]
    · obtain ⟨next,moved,still,grown⟩ : ∃ next, visit limit s (f,i64Min) = some next ∧ i64Min ∈ next.thresholds ∧
          next.heap = best newer limit (f::pushed) := by
        unfold visit
        rw [if_pos held,if_neg old]
        refine ⟨_,rfl,?_,?_⟩
        · split
          · exact List.mem_append_left _ held
          · exact held
        · rw [heap,push_cons]
      obtain ⟨last,ran,final,result⟩ := ih next (f::pushed) still grown
      refine ⟨last,Runs.run_cons.mpr ⟨next,moved,ran⟩,final,?_⟩
      have young : i64Min < f.mtime := by omega
      rw [result,List.filter_cons_of_pos (by simpa using young),List.reverse_cons,List.append_assoc]
      rfl

theorem visits_skip (limit : Nat) (l : List File) (held : v ∈ s.thresholds) (old : ∀ f ∈ l, f.mtime ≤ v) :
    Runs.run (visit limit) s (l.map fun f => (f,v)) = some s := by
  induction l with
  | nil => rfl
  | cons f others ih =>
    refine Runs.run_cons.mpr ⟨s,?_,ih fun g mem => old g (List.mem_cons_of_mem _ mem)⟩
    unfold visit
    rw [if_pos held,if_pos (old f (List.mem_cons_self ..))]

def SameEachTime (limit : Nat) (files : List File) : Prop :=
  ∀ events last, (events.map Prod.fst).Perm files → Runs.run (visit limit) scanStart events = some last → last.heap = best newer limit files

theorem map_fst (l : List File) (v : Int) : (l.map fun f => (f,v)).map Prod.fst = l := by
  rw [List.map_map]
  exact List.map_id l

section
variable (same : SameEachTime limit files) (chosen : f ∈ best newer limit files)
include same chosen

theorem same_young : i64Min < f.mtime := by
  obtain ⟨last,ran,_,heap⟩ := visits_push limit scanStart [] files (List.mem_singleton_self _) (by simp [scanStart,best])
  have result := same _ last (by rw [map_fst]) ran
  rw [← result,heap,List.append_nil] at chosen
  have inside := List.mem_reverse.mp ((List.mem_insertionSort newer).mp (List.mem_of_mem_take chosen))
  exact of_decide_eq_true (List.mem_filter.mp inside).2

theorem same_ties (left : g ∈ rest newer limit files)
    (tied : f.mtime = g.mtime) : f.path = g.path := by
  by_contra apart
  have distinct : g ≠ f := fun equal => apart (by rw [equal])
  have young (t : File) (mem : t ∈ best newer limit files) : i64Min < t.mtime := same_young same mem
  have sizes : (best newer limit files).length = limit := by
    have some_left := List.length_pos_of_mem left
    unfold rest at some_left
    rw [List.length_drop,List.length_insertionSort] at some_left
    rw [best_length]
    omega
  obtain ⟨middle,first,held,heap⟩ := visits_push limit scanStart [] ((best newer limit files).erase f)
    (List.mem_singleton_self _) (by simp [scanStart,best])
  have kept : ((best newer limit files).erase f).filter (fun t => i64Min < t.mtime) = (best newer limit files).erase f :=
    List.filter_eq_self.mpr fun t mem => decide_eq_true (young t (List.mem_of_mem_erase mem))
  rw [kept,List.append_nil,best_perm (List.reverse_perm _)] at heap
  have everyone : (best newer limit (g::(best newer limit files).erase f)).Perm (g::(best newer limit files).erase f) := by
    refine best_all ?_
    have positive := List.length_pos_of_mem chosen
    rw [List.length_cons,List.length_erase_of_mem chosen]
    omega
  have full : (best newer limit (g::(best newer limit files).erase f)).length = limit := by
    have positive := List.length_pos_of_mem chosen
    rw [everyone.length_eq,List.length_cons,List.length_erase_of_mem chosen]
    omega
  -- The one left out takes the last place, and its time becomes the threshold.
  obtain ⟨next,moved,grown,stored⟩ : ∃ next, visit limit middle (g,i64Min) = some next ∧
      next.heap = best newer limit (g::(best newer limit files).erase f) ∧ f.mtime ∈ next.thresholds := by
    have fresh : ¬ g.mtime ≤ i64Min := by
      have more := young f chosen
      omega
    have pushes : push limit middle.heap g = best newer limit (g::(best newer limit files).erase f) := by rw [heap,push_cons]
    obtain ⟨oldest,found⟩ : ∃ oldest, (best newer limit (g::(best newer limit files).erase f)).getLast? = some oldest := by
      cases last : (best newer limit (g::(best newer limit files).erase f)).getLast? with
      | none =>
        rw [List.getLast?_eq_none_iff.mp last] at full
        have positive := List.length_pos_of_mem chosen
        simp at full
        omega
      | some oldest => exact ⟨oldest,rfl⟩
    have time : oldest.mtime = f.mtime := by
      have inside := everyone.mem_iff.mp (List.mem_of_getLast? found)
      have floor : f.mtime ≤ oldest.mtime := by
        rcases List.mem_cons.mp inside with rfl | other
        · omega
        · have ahead := newer_mtime (best_before (List.mem_of_mem_erase other) left)
          omega
      have member : g ∈ best newer limit (g::(best newer limit files).erase f) := everyone.mem_iff.mpr (List.mem_cons_self ..)
      have most := (below_last (Nat.le_of_eq full.symm) (by rw [found]; exact List.mem_singleton_self oldest.mtime)).2 g member
      omega
    unfold visit
    rw [if_pos held,if_neg fresh]
    refine ⟨_,rfl,pushes,?_⟩
    rw [pushes,if_pos (Nat.le_of_eq full.symm),found]
    refine List.mem_append_right _ ?_
    rw [← time]
    exact List.mem_singleton_self _
  -- Everything else is then as old or older.
  have old : ∀ t ∈ f::(rest newer limit files).erase g, t.mtime ≤ f.mtime := by
    intro t mem
    rcases List.mem_cons.mp mem with rfl | other
    · exact Int.le_refl _
    · exact newer_mtime (best_before chosen (List.mem_of_mem_erase other))
  have tail := visits_skip limit _ stored old
  have ran : Runs.run (visit limit) scanStart
      (((best newer limit files).erase f).map (fun t => (t,i64Min)) ++ (g,i64Min)::(f::(rest newer limit files).erase g).map fun t => (t,f.mtime)) = some next :=
    Runs.run_append.mpr ⟨middle,first,Runs.run_cons.mpr ⟨next,moved,tail⟩⟩
  have visits : ((((best newer limit files).erase f).map (fun t => (t,i64Min)) ++
      (g,i64Min)::(f::(rest newer limit files).erase g).map fun t => (t,f.mtime)).map Prod.fst).Perm files := by
    rw [List.map_append,List.map_cons,map_fst,map_fst]
    refine List.Perm.trans ?_ (best_rest (r := newer) (k := limit) (l := files))
    refine List.perm_iff_count.mpr fun x => ?_
    have one := (List.perm_cons_erase chosen).count_eq x
    have other := (List.perm_cons_erase left).count_eq x
    simp only [List.count_append,List.count_cons] at one other ⊢
    omega
  have result := same _ next visits ran
  rw [grown] at result
  have counts := congrArg (List.count g) result
  rw [everyone.count_eq,List.count_cons_self,List.count_erase_of_ne distinct] at counts
  omega

end

section Indexed
variable {index : Index} {roots : List Path} {items : List Item}

structure Folded (limit : Nat) (visited : List File) (s : List File × Int) (pushed skipped : List File) : Prop where
  all : visited.Perm (pushed ++ skipped)
  heap : s.1 = best newer limit pushed
  passed : ∀ f ∈ skipped, Below limit pushed (f.mtime+1)
  stored : s.2 = i64Min ∨ Below limit pushed s.2

theorem filesOf_one (item : Item) : filesOf roots [item] =
    if recentItem item && underAnyRootScopes roots (item.dir ++ [item.name]) then [fileOf item] else [] := by
  unfold filesOf
  rw [List.filter_cons,List.filter_nil]
  split <;> rfl

theorem keep_cases (roots : List Path) (limit : Nat) (s : List File × Int) (item : Item) :
    (filesOf roots [item] = [] ∧ keep roots limit s item = s) ∨
    (filesOf roots [item] = [fileOf item] ∧ item.attrs.stat.mtime < s.2 ∧ keep roots limit s item = s) ∨
    (filesOf roots [item] = [fileOf item] ∧ keep roots limit s item = (push limit s.1 (fileOf item),
      if limit ≤ (push limit s.1 (fileOf item)).length then ((push limit s.1 (fileOf item)).getLast?.map File.mtime).getD s.2 else s.2)) := by
  rw [filesOf_one]
  unfold keep
  cases recent : recentItem item with
  | false => exact Or.inl ⟨rfl,rfl⟩
  | true =>
    cases scope : underAnyRootScopes roots (item.dir ++ [item.name]) with
    | false =>
      left
      refine ⟨rfl,?_⟩
      by_cases older : item.attrs.stat.mtime < s.2
      · rw [if_neg (by decide),if_pos older]
      · rw [if_neg (by decide),if_neg older]
        rfl
    | true =>
      right
      by_cases older : item.attrs.stat.mtime < s.2
      · left
        refine ⟨rfl,older,?_⟩
        rw [if_neg (by decide),if_pos older]
      · right
        refine ⟨rfl,?_⟩
        rw [if_neg (by decide),if_neg older]
        rfl

theorem keep_folded (roots : List Path) {s : List File × Int} (folded : Folded limit visited s pushed skipped) (item : Item)
    (timed : i64Min ≤ item.attrs.stat.mtime) :
    ∃ pushed' skipped', Folded limit (visited ++ filesOf roots [item]) (keep roots limit s item) pushed' skipped' := by
  have added : (visited ++ [fileOf item]).Perm (fileOf item::(pushed ++ skipped)) :=
    List.perm_append_comm.trans (folded.all.cons _)
  rcases keep_cases roots limit s item with ⟨none,same⟩ | ⟨one,older,same⟩ | ⟨one,grown⟩
  · rw [none,same,List.append_nil]
    exact ⟨pushed,skipped,folded⟩
  · rw [one,same]
    refine ⟨pushed,fileOf item::skipped,added.trans List.perm_middle.symm,folded.heap,?_,folded.stored⟩
    intro f mem
    rcases List.mem_cons.mp mem with rfl | earlier
    · rcases folded.stored with least | below
      · omega
      · refine ⟨below.1,fun h chosen => ?_⟩
        have more := below.2 h chosen
        have time : (fileOf item).mtime = item.attrs.stat.mtime := rfl
        omega
    · exact folded.passed f earlier
  · rw [one,grown,folded.heap,push_cons]
    refine ⟨fileOf item::pushed,skipped,added,rfl,fun f mem => below_grows (folded.passed f mem),?_⟩
    have earlier : s.2 = i64Min ∨ Below limit (fileOf item::pushed) s.2 := by
      rcases folded.stored with least | below
      · exact Or.inl least
      · exact Or.inr (below_grows below)
    split
    · rename_i full
      cases top : (best newer limit (fileOf item::pushed)).getLast? with
      | none => exact earlier
      | some oldest => exact Or.inr (below_last full (by rw [top]; exact List.mem_singleton_self oldest.mtime))
    · exact earlier

theorem fold_folded (roots : List Path) {s : List File × Int} (folded : Folded limit visited s pushed skipped) (items : List Item)
    (timed : ∀ item ∈ items, i64Min ≤ item.attrs.stat.mtime) :
    ∃ pushed' skipped', Folded limit (visited ++ filesOf roots items) (items.foldl (keep roots limit) s) pushed' skipped' := by
  induction items generalizing visited s pushed skipped with
  | nil => exact ⟨pushed,skipped,by simpa [filesOf] using folded⟩
  | cons item others ih =>
    obtain ⟨more,passed,after⟩ := keep_folded roots folded item (timed item (List.mem_cons_self ..))
    have split : filesOf roots (item::others) = filesOf roots [item] ++ filesOf roots others := by
      unfold filesOf
      rw [← List.map_append,← List.filter_append]
      rfl
    rw [split,← List.append_assoc]
    exact ih after fun later mem => timed later (List.mem_cons_of_mem _ mem)

theorem folded_newest {s : List File × Int} (folded : Folded limit visited s pushed skipped) : s.1 = best newer limit visited := by
  rw [folded.heap,best_perm folded.all]
  refine best_pushed ?_
  intro f passed _
  have below := folded.passed f passed
  refine ⟨below.1,fun h inside _ => Or.inl ?_⟩
  have more := below.2 h inside
  omega

theorem recents_newest (sequenced : DirectoryIndex.sequence index = some items) (ready : answers index roots = true)
    (timed : ∀ item ∈ items, i64Min ≤ item.attrs.stat.mtime) (same : (filesOf roots items).Perm files) :
    recents index roots k = some (newest k files) := by
  have start : Folded (max k 1) [] (([],i64Min) : List File × Int) [] [] :=
    ⟨List.Perm.refl _,by simp [best],fun f mem => absurd mem (List.not_mem_nil),Or.inl rfl⟩
  obtain ⟨pushed,skipped,folded⟩ := fold_folded roots start items timed
  have result := folded_newest folded
  rw [List.nil_append] at result
  unfold recents newest
  rw [if_pos ready,sequenced,Option.map_some,result,best_perm same]

end Indexed

-- The walk returns the newest files in every order of visits exactly when no
-- time is shared across the end of the list, and nothing kept is as old as i64
-- goes; the index returns them always.
theorem recents_order_iff (k : Nat) (files : List File) :
    ((∀ events last, (events.map Prod.fst).Perm files → Runs.run (visit (max k 1)) scanStart events = some last → last.heap = newest k files) ↔
      Clear (max k 1) files) ∧
    ∀ index roots items, DirectoryIndex.sequence index = some items → answers index roots = true →
      (∀ item ∈ items, i64Min ≤ item.attrs.stat.mtime) → (filesOf roots items).Perm files → recents index roots k = some (newest k files) := by
  refine ⟨⟨?_,?_⟩,?_⟩
  · intro same
    exact ⟨fun f chosen => same_young same chosen,fun f chosen g left tied => same_ties same chosen left tied⟩
  · intro clear events last visits ran
    exact clear_scan clear visits ran
  · intro index roots items sequenced ready timed same
    exact recents_newest sequenced ready timed same

theorem tie_keeps_first : ∃ one other : File, one.mtime = other.mtime ∧ one.path < other.path ∧
    Runs.run (visit 1) scanStart [(one,i64Min),(other,5)] = some ⟨[one],[i64Min,5]⟩ ∧
    Runs.run (visit 1) scanStart [(other,i64Min),(one,5)] = some ⟨[other],[i64Min,5]⟩ ∧ newest 1 [one,other] = [one] :=
  ⟨⟨5,"/data/a"⟩,⟨5,"/data/b"⟩,by decide⟩

end RemoteFileExplorer.RecentFiles
