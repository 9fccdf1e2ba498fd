import Mathlib.Data.List.Induction
import RemoteFileExplorer.KeyedEntries

namespace RemoteFileExplorer.Groupings
open KeyedEntries

variable {Item Key Value : Type} [DecidableEq Key]

def addTo (groups : List (Key × List Value)) (key : Key) (value : Value) : List (Key × List Value) :=
  put key ((find groups key).getD [] ++ [value]) groups

def gather (key : Item → Key) (value : Item → Value) (items : List Item) : List (Key × List Value) :=
  items.foldl (fun groups item => addTo groups (key item) (value item)) []

theorem addTo_absent {groups : List (Key × List Value)} (absent : key ∉ groups.map Prod.fst) (value : Value) : addTo groups key value = groups ++ [(key,[value])] := by
  rw [addTo,find_absent absent]
  induction groups with
  | nil => rfl
  | cons group rest ih =>
      rw [List.map_cons,List.mem_cons,not_or] at absent
      simp only [put,Ne.symm absent.1,if_false,List.cons_append]
      exact congrArg (group::·) (ih absent.2)

theorem addTo_present {before after : List (Key × List Value)} (first : key ∉ before.map Prod.fst) (values : List Value) (value : Value) :
    addTo (before ++ (key,values)::after) key value = before ++ (key,values ++ [value])::after := by
  induction before with
  | nil => simp [addTo,put,find]
  | cons group rest ih =>
      rw [List.map_cons,List.mem_cons,not_or] at first
      have later := ih first.2
      have found : find (group::(rest ++ (key,values)::after)) key = find (rest ++ (key,values)::after) key := by
        rw [find_cons,if_neg first.1]
      simp only [addTo,List.cons_append,found,put,Ne.symm first.1,if_false]
      exact congrArg (group::·) later

def rank (key : Item → Key) (items : List Item) (wanted : Key) : Nat := (items.map key).idxOf wanted

variable {key : Item → Key} {items : List Item}

theorem rank_append (member : wanted ∈ items.map key) (item : Item) : rank key (items ++ [item]) wanted = rank key items wanted := by
  rw [rank,rank,List.map_append,List.idxOf_append_of_mem member]

theorem rank_new (absent : key item ∉ items.map key) : rank key (items ++ [item]) (key item) = items.length := by
  simp [rank,List.idxOf_append_of_notMem absent]

theorem rank_less (member : wanted ∈ items.map key) : rank key items wanted < items.length := by
  simpa [rank] using List.idxOf_lt_length_of_mem member

theorem rank_injective (member : one ∈ items.map key) (level : rank key items one = rank key items two) : one = two :=
  (List.idxOf_inj member).mp level

structure Groups (key : Item → Key) (items : List Item) (groups : List (Key × List Item)) : Prop where
  keyed : ∀ group ∈ groups,group.2 ≠ [] ∧ ∀ item ∈ group.2,key item = group.1
  every : ∀ item,item ∈ items ↔ ∃ group ∈ groups,item ∈ group.2
  ranked : groups.Pairwise fun one two => rank key items one.1 < rank key items two.1

theorem Groups.known {groups : List (Key × List Item)} (facts : Groups key items groups) : wanted ∈ groups.map Prod.fst ↔ wanted ∈ items.map key := by
  constructor
  · intro member
    obtain ⟨group,inside,rfl⟩ := List.mem_map.mp member
    obtain ⟨solid,same⟩ := facts.keyed group inside
    obtain ⟨item,rest,parts⟩ := List.exists_cons_of_ne_nil solid
    have first : item ∈ group.2 := by simp [parts]
    rw [← same item first]
    exact List.mem_map_of_mem ((facts.every item).mpr ⟨group,inside,first⟩)
  · intro member
    obtain ⟨item,inside,rfl⟩ := List.mem_map.mp member
    obtain ⟨group,there,within⟩ := (facts.every item).mp inside
    rw [(facts.keyed group there).2 item within]
    exact List.mem_map_of_mem there

omit [DecidableEq Key] in
theorem first_group {groups : List (Key × List Value)} (known : wanted ∈ groups.map Prod.fst) :
    ∃ before values after,groups = before ++ (wanted,values)::after ∧ wanted ∉ before.map Prod.fst := by
  obtain ⟨front,back,parted,first⟩ := List.eq_append_cons_of_mem known
  obtain ⟨before,rest,rfl,rfl,same⟩ := List.map_eq_append_iff.mp parted
  obtain ⟨group,after,rfl,rfl,rfl⟩ := List.map_eq_cons_iff.mp same
  exact ⟨before,group.2,after,rfl,first⟩

theorem addTo_map (groups : List (Key × List Item)) (wanted : Key) (value : Item → Value) (item : Item) :
    addTo (groups.map fun group => (group.1,group.2.map value)) wanted (value item) =
      (addTo groups wanted item).map fun group => (group.1,group.2.map value) := by
  have names (list : List (Key × List Item)) : (list.map fun group => (group.1,group.2.map value)).map Prod.fst = list.map Prod.fst := by
    rw [List.map_map]
    rfl
  by_cases known : wanted ∈ groups.map Prod.fst
  · obtain ⟨before,values,after,rfl,first⟩ := first_group known
    rw [addTo_present first,List.map_append,List.map_cons,addTo_present (by rwa [names])]
    simp
  · rw [addTo_absent known,addTo_absent (by rwa [names])]
    simp

theorem gather_map (key : Item → Key) (value : Item → Value) (items : List Item) :
    gather key value items = (gather key id items).map fun group => (group.1,group.2.map value) := by
  induction items using List.reverseRecOn with
  | nil => rfl
  | append_singleton items item ih =>
      rw [gather] at ih ⊢
      rw [gather,List.foldl_append,List.foldl_append,ih]
      exact addTo_map _ _ value item

theorem Groups.add {groups : List (Key × List Item)} (facts : Groups key items groups) (item : Item) :
    Groups key (items ++ [item]) (addTo groups (key item) item) := by
  have kept : groups.Pairwise fun one two => rank key (items ++ [item]) one.1 < rank key (items ++ [item]) two.1 := by
    apply facts.ranked.imp_of_mem
    intro one two left right less
    rw [rank_append (facts.known.mp (List.mem_map_of_mem left)),rank_append (facts.known.mp (List.mem_map_of_mem right))]
    exact less
  by_cases known : key item ∈ groups.map Prod.fst
  · obtain ⟨before,values,after,rfl,first⟩ := first_group known
    rw [addTo_present first]
    refine ⟨?_,?_,?_⟩
    · intro group member
      rcases List.mem_append.mp member with early | late
      · exact facts.keyed group (List.mem_append_left _ early)
      · rcases List.mem_cons.mp late with rfl | late
        · have old := facts.keyed (key item,values) (by simp)
          refine ⟨by simp,?_⟩
          intro one inside
          rcases List.mem_append.mp inside with there | new
          · exact old.2 one there
          · rw [List.mem_singleton.mp new]
        · exact facts.keyed group (List.mem_append_right _ (List.mem_cons_of_mem _ late))
    · intro one
      rw [List.mem_append,facts.every]
      simp only [List.mem_append,List.mem_cons,or_and_right,exists_or,exists_eq_left,List.not_mem_nil,or_assoc,or_left_comm,or_comm]
    · have same : (before ++ (key item,values ++ [item])::after).map Prod.fst = (before ++ (key item,values)::after).map Prod.fst := by simp
      rw [← List.pairwise_map (f := Prod.fst) (R := fun one two => rank key (items ++ [item]) one < rank key (items ++ [item]) two)] at kept ⊢
      rwa [same]
  · rw [addTo_absent known]
    refine ⟨?_,?_,?_⟩
    · intro group member
      rcases List.mem_append.mp member with old | new
      · exact facts.keyed group old
      · obtain rfl := List.mem_singleton.mp new
        simp
    · intro one
      rw [List.mem_append,facts.every]
      simp [List.mem_append,or_and_right,exists_or]
    · rw [List.pairwise_append]
      refine ⟨kept,by simp,?_⟩
      intro one left two right
      obtain rfl := List.mem_singleton.mp right
      have there := facts.known.mp (List.mem_map_of_mem left)
      rw [rank_append there,rank_new (fun inside => known (facts.known.mpr inside))]
      exact rank_less there

theorem gather_groups (key : Item → Key) (items : List Item) : Groups key items (gather key id items) := by
  induction items using List.reverseRecOn with
  | nil => exact ⟨by simp [gather],by simp [gather],.nil⟩
  | append_singleton items item ih =>
      rw [gather,List.foldl_append]
      exact ih.add item

def regrouped (key : Item → Key) (items : List Item) : List Item := (gather key id items).flatMap (·.2)

theorem mem_regrouped : item ∈ regrouped key items ↔ item ∈ items := by
  rw [regrouped,List.mem_flatMap,(gather_groups key items).every]

theorem regrouped_ranked (key : Item → Key) (items : List Item) :
    (regrouped key items).Pairwise fun one two => rank key items (key one) ≤ rank key items (key two) := by
  have facts := gather_groups key items
  rw [regrouped,List.flatMap,List.pairwise_flatten]
  constructor
  · intro list member
    obtain ⟨group,inside,rfl⟩ := List.mem_map.mp member
    apply List.pairwise_of_forall_mem_list
    intro one left two right
    exact Nat.le_of_eq (by rw [(facts.keyed group inside).2 one left,(facts.keyed group inside).2 two right])
  · rw [List.pairwise_map]
    apply facts.ranked.imp_of_mem
    intro first second left right less one inside two within
    rw [(facts.keyed first left).2 one inside,(facts.keyed second right).2 two within]
    exact Nat.le_of_lt less

theorem gather_flat (key : Item → Key) (value : Item → Value) (items : List Item) :
    (gather key value items).flatMap (fun group => group.2.map (group.1,·)) = (regrouped key items).map fun item => (key item,value item) := by
  have facts := gather_groups key items
  rw [gather_map,regrouped,List.map_flatMap,List.flatMap_map]
  apply List.flatMap_congr
  intro group member
  rw [List.map_map]
  apply List.map_congr_left
  intro item inside
  rw [(facts.keyed group member).2 item inside]
  rfl

end RemoteFileExplorer.Groupings
