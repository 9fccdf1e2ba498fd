import Mathlib.Data.List.Sort
import Mathlib.Data.String.Basic

namespace RemoteFileExplorer.Pages

-- A listing read page by page: each page starts after the last key of the page
-- before it, whatever has happened to the collection in between.
variable {Key Item : Type} [LinearOrder Key] (key : Item → Key)

structure Page (Key Item : Type) where
  items : List Item
  next : Option Key
  deriving DecidableEq, Repr

def listed (items : List Item) : List Item := items.insertionSort (fun a b => key a ≤ key b)

def after (cursor : Option Key) (items : List Item) : List Item := items.filter (fun item => cursor.all (fun last => last < key item))

def page (limit : Nat) (cursor : Option Key) (items : List Item) : Page Key Item :=
  let rest := after key cursor (listed key items)
  let shown := rest.take limit
  ⟨shown,if limit < rest.length then shown.getLast?.map key else none⟩

def collect (limit : Nat) (items : List Item) : Nat → Option Key → List Item
  | 0,_ => []
  | fuel + 1,cursor =>
    (page key limit cursor items).items ++
      match (page key limit cursor items).next with
      | none => []
      | some last => collect limit items fuel (some last)

def remaining (next : Option Key) (items : List Item) : List Item := next.elim [] (fun last => after key (some last) (listed key items))

section Sorting
variable {items : List Item}

@[simp] theorem mem_listed : item ∈ listed key items ↔ item ∈ items := List.mem_insertionSort _

theorem listed_ordered (distinct : (items.map key).Nodup) : (listed key items).Pairwise (fun a b => key a < key b) := by
  have total : Std.Total (fun a b : Item => key a ≤ key b) := ⟨fun a b => le_total (key a) (key b)⟩
  have trans : IsTrans Item (fun a b => key a ≤ key b) := ⟨fun _ _ _ => le_trans⟩
  have sorted : (listed key items).Pairwise (fun a b => key a ≤ key b) := List.pairwise_insertionSort _ _
  have perm : (listed key items).Perm items := List.perm_insertionSort _ _
  have apart : (listed key items).Pairwise (fun a b => key a ≠ key b) := List.pairwise_map.mp ((perm.map key).nodup_iff.mpr distinct)
  exact (sorted.and apart).imp (fun both => lt_of_le_of_ne both.1 both.2)

@[simp] theorem after_none : after key none items = items := by simp [after]

end Sorting

section Splitting
variable {items rest shown later : List Item} {cursor : Option Key} {limit : Nat}

theorem after_later (ordered : (shown ++ later).Pairwise (fun a b => key a < key b)) (last : shown.getLast? = some item) :
    after key (some (key item)) (shown ++ later) = later := by
  obtain ⟨front,rfl⟩ : ∃ front, shown = front ++ [item] := List.getLast?_eq_some_iff.mp last
  unfold after
  rw [List.filter_append]
  have above := (List.pairwise_append.mp ordered).2.2
  have below := (List.pairwise_append.mp (List.pairwise_append.mp ordered).1).2.2
  have none : (front ++ [item]).filter (fun one => (some (key item)).all (fun last => last < key one)) = [] := by
    apply List.filter_eq_nil_iff.mpr
    intro one member
    rcases List.mem_append.mp member with early | same
    · simp [(below one early item (List.mem_singleton.mpr rfl)).le]
    · simp [List.mem_singleton.mp same]
  have all : later.filter (fun one => (some (key item)).all (fun last => last < key one)) = later := by
    apply List.filter_eq_self.mpr
    intro one member
    simp [above item (by simp) one member]
  rw [none,all,List.nil_append]

-- A cursor that is at or past another leaves of the later items the same.
theorem after_after (reached : ∀ last, cursor = some last → last ≤ next) :
    after key (some next) (after key cursor items) = after key (some next) items := by
  unfold after
  rw [List.filter_filter]
  apply List.filter_congr
  intro item _
  cases cursor with
  | none => simp
  | some last =>
    have order : last ≤ next := reached last rfl
    simp only [Option.all_some,Bool.and_eq_left_iff_imp,decide_eq_true_eq]
    exact fun later => lt_of_le_of_lt order later

theorem page_splits (positive : 0 < limit) (distinct : (items.map key).Nodup) :
    (page key limit cursor items).items ++ remaining key (page key limit cursor items).next items = after key cursor (listed key items) := by
  have ordered := listed_ordered key distinct
  have orderedRest : (after key cursor (listed key items)).Pairwise (fun a b => key a < key b) := ordered.filter _
  simp only [page]
  by_cases more : limit < (after key cursor (listed key items)).length
  · rw [if_pos more]
    have filled : ((after key cursor (listed key items)).take limit).length ≠ 0 := by
      rw [List.length_take]
      omega
    cases last : ((after key cursor (listed key items)).take limit).getLast? with
    | none => exact absurd (List.getLast?_eq_none_iff.mp last ▸ rfl) filled
    | some item =>
      simp only [Option.map_some,remaining,Option.elim]
      have member : item ∈ after key cursor (listed key items) := List.mem_of_mem_take (List.mem_of_getLast? last)
      have reached : ∀ early, cursor = some early → early ≤ key item := by
        rintro early rfl
        have later := (List.mem_filter.mp member).2
        simp only [Option.all_some,decide_eq_true_eq] at later
        exact later.le
      have whole : (after key cursor (listed key items)).take limit ++ (after key cursor (listed key items)).drop limit = after key cursor (listed key items) :=
        List.take_append_drop _ _
      have tail := after_later key (whole.symm ▸ orderedRest) last
      rw [whole,after_after key reached] at tail
      rw [tail,whole]
  · rw [if_neg more]
    have short : (after key cursor (listed key items)).length ≤ limit := by omega
    simp [remaining,List.take_of_length_le short]

theorem page_fills (more : (page key limit cursor items).next = some last) : (page key limit cursor items).items ≠ [] := by
  simp only [page] at more ⊢
  split at more
  · intro none
    rw [none] at more
    cases more
  · cases more

theorem collect_all (positive : 0 < limit) (distinct : (items.map key).Nodup) (enough : (after key cursor (listed key items)).length < fuel) :
    collect key limit items fuel cursor = after key cursor (listed key items) := by
  induction fuel generalizing cursor with
  | zero => exact absurd enough (Nat.not_lt_zero _)
  | succ fuel ih =>
    have splits : (page key limit cursor items).items ++ remaining key (page key limit cursor items).next items = after key cursor (listed key items) :=
      page_splits key positive distinct
    unfold collect
    cases more : (page key limit cursor items).next with
    | none =>
      rw [more] at splits
      exact splits
    | some last =>
      rw [more,remaining,Option.elim] at splits
      have filled := List.length_pos_iff.mpr (page_fills key more)
      have lengths := congrArg List.length splits
      rw [List.length_append] at lengths
      rw [← splits]
      simp only
      rw [ih (by omega)]

theorem collect_mem (positive : 0 < limit) (distinct : (items.map key).Nodup) :
    item ∈ collect key limit items (items.length + 1) none ↔ item ∈ items := by
  rw [collect_all key positive distinct,after_none,mem_listed]
  rw [after_none,listed,List.length_insertionSort]
  exact Nat.lt_succ_self _

end Splitting

end RemoteFileExplorer.Pages
