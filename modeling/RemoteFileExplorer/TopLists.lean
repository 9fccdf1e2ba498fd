import Mathlib.Data.List.Sort
import Mathlib.Data.List.Perm.Subperm

namespace RemoteFileExplorer.TopLists

variable {α : Type} (r : α → α → Prop) [DecidableRel r]

def best (k : Nat) (l : List α) : List α := (l.insertionSort r).take k
def rest (k : Nat) (l : List α) : List α := (l.insertionSort r).drop k

variable {r} {k : Nat} {l pushed skipped : List α} {a h : α}

theorem best_rest : (best r k l ++ rest r k l).Perm l := by
  unfold best rest
  rw [List.take_append_drop]
  exact List.perm_insertionSort r l

theorem best_length : (best r k l).length = min k l.length := by
  unfold best
  rw [List.length_take,List.length_insertionSort]

theorem best_all (fits : l.length ≤ k) : (best r k l).Perm l := by
  unfold best
  rw [List.take_of_length_le (by rwa [List.length_insertionSort])]
  exact List.perm_insertionSort r l

theorem take_insert (k : Nat) (a : α) (l : List α) : ((l.take k).orderedInsert r a).take k = (l.orderedInsert r a).take k := by
  induction l generalizing k with
  | nil => rw [List.take_nil]
  | cons b tail ih =>
    cases k with
    | zero => rfl
    | succ k =>
      rw [List.take_succ_cons,List.orderedInsert_cons,List.orderedInsert_cons]
      split
      · cases k with
        | zero => rfl
        | succ k => simp [List.take_take]
      · rw [List.take_succ_cons,List.take_succ_cons,ih]

theorem best_cons : best r k (a::l) = ((best r k l).orderedInsert r a).take k := by
  unfold best
  rw [List.insertionSort_cons,take_insert]

theorem insert_last (behind : ∀ b ∈ l, ¬r a b) : l.orderedInsert r a = l ++ [a] := by
  induction l with
  | nil => rfl
  | cons b tail ih =>
    rw [List.orderedInsert_cons,if_neg (behind b (List.mem_cons_self ..)),ih fun c mem => behind c (List.mem_cons_of_mem _ mem)]
    rfl

section Total
variable [Std.Total r]

theorem best_improves (full : k ≤ l.length) (chosen : h ∈ best r k (a::l)) : ∃ old ∈ best r k l, r h old := by
  rw [best_cons] at chosen
  rcases (List.mem_orderedInsert r).mp (List.mem_of_mem_take chosen) with rfl | old
  · by_contra worse
    rw [not_exists] at worse
    have last := insert_last fun b mem ahead => worse b ⟨mem,ahead⟩
    have exactly : (best r k l).length = k := by
      rw [best_length]
      omega
    rw [last,List.take_left' exactly] at chosen
    exact worse h ⟨chosen,(Std.Total.total (r := r) h h).elim id id⟩
  · exact ⟨h,old,(Std.Total.total (r := r) h h).elim id id⟩

end Total

section Ordered
variable [Std.Total r] [IsTrans α r]

theorem best_sorted : (best r k l).Pairwise r := (List.pairwise_insertionSort r l).take

theorem best_before (chosen : t ∈ best r k l) (left : x ∈ rest r k l) : r t x := by
  have sorted := List.pairwise_insertionSort r l
  rw [← List.take_append_drop k (l.insertionSort r)] at sorted
  exact (List.pairwise_append.mp sorted).2.2 t chosen x left

variable [Std.Antisymm r]

theorem sort_perm (same : l.Perm other) : l.insertionSort r = other.insertionSort r :=
  List.Perm.eq_of_pairwise' (List.pairwise_insertionSort r l) (List.pairwise_insertionSort r other)
    ((List.perm_insertionSort r l).trans (same.trans (List.perm_insertionSort r other).symm))

theorem best_perm (same : l.Perm other) : best r k l = best r k other := by
  unfold best
  rw [sort_perm same]

theorem rest_perm (same : l.Perm other) : rest r k l = rest r k other := by
  unfold rest
  rw [sort_perm same]

variable [DecidableEq α]

theorem best_pushed (kept : ∀ s ∈ skipped, s ∈ best r k (pushed ++ skipped) → k ≤ pushed.length ∧
      ∀ h ∈ best r k pushed, h ∈ rest r k (pushed ++ skipped) → r h s) :
    best r k pushed = best r k (pushed ++ skipped) := by
  have all : (best r k (pushed ++ skipped) ++ rest r k (pushed ++ skipped)).Perm (best r k pushed ++ (rest r k pushed ++ skipped)) := by
    rw [← List.append_assoc]
    exact best_rest.trans (best_rest.symm.append_right skipped)
  have counts (x : α) := List.perm_iff_count.mp all x
  simp only [List.count_append] at counts
  have sizes := @best_length α r _ k pushed
  have whole_sizes := @best_length α r _ k (pushed ++ skipped)
  rw [List.length_append] at whole_sizes
  by_contra apart
  have differ : ¬ (best r k pushed).Perm (best r k (pushed ++ skipped)) := fun same =>
    apart (List.Perm.eq_of_pairwise' best_sorted best_sorted same)
  obtain ⟨f,fewer⟩ : ∃ f, (best r k pushed).count f < (best r k (pushed ++ skipped)).count f := by
    by_contra none
    rw [not_exists] at none
    have inside : List.Subperm (best r k (pushed ++ skipped)) (best r k pushed) :=
      List.subperm_iff_count.mpr fun x => Nat.le_of_not_lt (none x)
    exact differ (inside.perm_of_length_le (by omega)).symm
  have chosen : f ∈ best r k (pushed ++ skipped) := List.count_pos_iff.mp (by omega)
  have other (full : k ≤ pushed.length) : ∃ g ∈ best r k pushed, g ∈ rest r k (pushed ++ skipped) ∧ g ≠ f := by
    obtain ⟨g,more⟩ : ∃ g, (best r k (pushed ++ skipped)).count g < (best r k pushed).count g := by
      by_contra none
      rw [not_exists] at none
      have inside : List.Subperm (best r k pushed) (best r k (pushed ++ skipped)) :=
        List.subperm_iff_count.mpr fun x => Nat.le_of_not_lt (none x)
      exact differ (inside.perm_of_length_le (by omega))
    have balance := counts g
    refine ⟨g,List.count_pos_iff.mp (by omega),List.count_pos_iff.mp (by omega),?_⟩
    rintro rfl
    omega
  have balance := counts f
  have place : f ∈ rest r k pushed ++ skipped := List.count_pos_iff.mp (by rw [List.count_append]; omega)
  rcases List.mem_append.mp place with left | passed
  · have full : k ≤ pushed.length := by
      have some_left := List.length_pos_of_mem left
      unfold rest at some_left
      rw [List.length_drop,List.length_insertionSort] at some_left
      omega
    obtain ⟨g,inside,outside,distinct⟩ := other full
    exact distinct (Std.Antisymm.antisymm _ _ (best_before inside left) (best_before chosen outside))
  · obtain ⟨full,worse⟩ := kept f passed chosen
    obtain ⟨g,inside,outside,distinct⟩ := other full
    exact distinct (Std.Antisymm.antisymm _ _ (worse g inside outside) (best_before chosen outside))

end Ordered

end RemoteFileExplorer.TopLists
