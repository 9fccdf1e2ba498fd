import Mathlib.Data.List.Nodup

namespace RemoteFileExplorer.KeyedEntries

-- Named values, as an object or a table with a primary key holds them: no name
-- comes twice.
structure Entries (Key Value : Type) where
  list : List (Key × Value)
  distinct : (list.map Prod.fst).Nodup

section Distinct
variable {Key Value Other : Type}

def Entries.empty : Entries Key Value := ⟨[],List.nodup_nil⟩

def Entries.keep (entries : Entries Key Value) (wanted : Key → Bool) : Entries Key Value :=
  ⟨entries.list.filter (fun entry => wanted entry.1),entries.distinct.sublist (List.filter_sublist.map _)⟩

def renamed (pick : Key → Value → Option Other) (entry : Key × Value) : Option (Key × Other) := (pick entry.1 entry.2).map (fun other => (entry.1,other))

theorem renamed_sublist (pick : Key → Value → Option Other) (list : List (Key × Value)) :
    ((list.filterMap (renamed pick)).map Prod.fst).Sublist (list.map Prod.fst) := by
  induction list with
  | nil => exact .slnil
  | cons entry rest ih =>
    cases picked : pick entry.1 entry.2 with
    | none =>
      have dropped : renamed pick entry = none := by simp [renamed,picked]
      rw [List.filterMap_cons_none dropped]
      exact ih.cons _
    | some other =>
      have kept : renamed pick entry = some (entry.1,other) := by simp [renamed,picked]
      rw [List.filterMap_cons_some kept]
      exact ih.cons_cons _

def Entries.choose (entries : Entries Key Value) (pick : Key → Value → Option Other) : Entries Key Other :=
  ⟨entries.list.filterMap (renamed pick),entries.distinct.sublist (renamed_sublist pick _)⟩

end Distinct

variable {Key Value Other : Type} [DecidableEq Key]

def find (list : List (Key × Value)) (key : Key) : Option Value := list.lookup key

def Entries.get (entries : Entries Key Value) (key : Key) : Option Value := find entries.list key

def put (key : Key) (value : Value) : List (Key × Value) → List (Key × Value)
  | [] => [(key,value)]
  | entry::rest => if entry.1 = key then (key,value)::rest else entry::put key value rest

theorem put_names {list : List (Key × Value)} {key name : Key} (member : name ∈ (put key value list).map Prod.fst) : name = key ∨ name ∈ list.map Prod.fst := by
  induction list with
  | nil => exact .inl (List.mem_singleton.mp member)
  | cons entry rest ih =>
    simp only [put] at member
    split at member
    · rcases List.mem_cons.mp member with rfl | later
      · exact .inl rfl
      · exact .inr (List.mem_cons_of_mem _ later)
    · rcases List.mem_cons.mp member with rfl | later
      · exact .inr (List.mem_cons_self ..)
      · exact (ih later).imp_right (List.mem_cons_of_mem _)

theorem put_distinct {list : List (Key × Value)} (distinct : (list.map Prod.fst).Nodup) :
    ((put key value list).map Prod.fst).Nodup := by
  induction list with
  | nil => exact List.nodup_singleton _
  | cons entry rest ih =>
    rw [List.map_cons,List.nodup_cons] at distinct
    simp only [put]
    split
    · rename_i same
      rw [List.map_cons,List.nodup_cons]
      exact ⟨same ▸ distinct.1,distinct.2⟩
    · rename_i differs
      rw [List.map_cons,List.nodup_cons]
      exact ⟨fun member => (put_names member).elim differs distinct.1,ih distinct.2⟩

def Entries.set (entries : Entries Key Value) (key : Key) (value : Value) : Entries Key Value :=
  ⟨put key value entries.list,put_distinct entries.distinct⟩

def Entries.remove (entries : Entries Key Value) (key : Key) : Entries Key Value := entries.keep (· ≠ key)

def Entries.setAll (entries more : Entries Key Value) : Entries Key Value := more.list.foldl (fun e entry => e.set entry.1 entry.2) entries

def Entries.removeAll (entries : Entries Key Value) (keys : List Key) : Entries Key Value := keys.foldl Entries.remove entries

section Reading
variable {entries : Entries Key Value} {key other : Key} {value : Value}

@[simp] theorem get_empty : (Entries.empty : Entries Key Value).get key = none := rfl

@[simp] theorem find_nil : find ([] : List (Key × Value)) key = none := rfl

theorem find_cons (name : Key) (value : Value) (rest : List (Key × Value)) :
    find ((name,value)::rest) key = if key = name then some value else find rest key := by
  rw [find,find,List.lookup_cons]
  by_cases same : key = name
  · rw [if_pos same,beq_iff_eq.mpr same]
  · rw [if_neg same,beq_false_of_ne same]

theorem find_first (entry : Key × Value) (rest : List (Key × Value)) :
    find (entry::rest) key = if key = entry.1 then some entry.2 else find rest key := find_cons entry.1 entry.2 rest

theorem find_absent (absent : key ∉ list.map Prod.fst) : find list key = none := by
  rw [find,List.lookup_eq_none_iff]
  intro entry member
  simpa using fun equal => absent (List.mem_map.mpr ⟨entry,member,equal.symm⟩)

theorem find_put (list : List (Key × Value)) : find (put key value list) other = if other = key then some value else find list other := by
  induction list with
  | nil =>
    rw [put,find_first]
  | cons entry rest ih =>
    simp only [put]
    split
    · rename_i same
      subst same
      simp only [find_first]
      by_cases same : other = entry.1 <;> simp [same]
    · rename_i differs
      simp only [find_first,ih]
      by_cases same : other = entry.1
      · have apart : other ≠ key := fun equal => differs (same ▸ equal)
        simp [same,differs]
      · simp [same]

theorem get_set : (entries.set key value).get other = if other = key then some value else entries.get other := find_put entries.list

@[simp] theorem get_set_same : (entries.set key value).get key = some value := by rw [get_set,if_pos rfl]

theorem get_set_other (apart : other ≠ key) : (entries.set key value).get other = entries.get other := by rw [get_set,if_neg apart]

theorem find_filter (wanted : Key → Bool) (list : List (Key × Value)) :
    find (list.filter (fun entry => wanted entry.1)) key = if wanted key then find list key else none := by
  induction list with
  | nil => simp
  | cons entry rest ih =>
    rw [List.filter_cons]
    split
    · simp only [find_first,ih]
      by_cases same : key = entry.1
      · simp_all
      · simp [same]
    · rw [ih,find_first]
      by_cases same : key = entry.1
      · simp_all
      · simp [same]

theorem get_keep (wanted : Key → Bool) : (entries.keep wanted).get key = if wanted key then entries.get key else none := find_filter wanted entries.list

theorem get_remove : (entries.remove other).get key = if key = other then none else entries.get key := by
  rw [Entries.remove,get_keep]
  by_cases same : key = other <;> simp [same]

theorem find_renamed (pick : Key → Value → Option Other) (list : List (Key × Value)) (distinct : (list.map Prod.fst).Nodup) :
    find (list.filterMap (renamed pick)) key = (find list key).bind (pick key) := by
  induction list with
  | nil => rfl
  | cons entry rest ih =>
    rw [List.map_cons,List.nodup_cons] at distinct
    have tail := ih distinct.2
    rw [find_first]
    by_cases same : key = entry.1
    · subst same
      cases picked : pick entry.1 entry.2 with
      | none =>
        have dropped : renamed pick entry = none := by simp [renamed,picked]
        have absent : find rest entry.1 = none := find_absent distinct.1
        rw [List.filterMap_cons_none dropped,tail,absent]
        simp [picked]
      | some found =>
        have kept : renamed pick entry = some (entry.1,found) := by simp [renamed,picked]
        rw [List.filterMap_cons_some kept,find_first]
        simp [picked]
    · cases picked : pick entry.1 entry.2 with
      | none =>
        have dropped : renamed pick entry = none := by simp [renamed,picked]
        rw [List.filterMap_cons_none dropped,tail]
        simp [same]
      | some found =>
        have kept : renamed pick entry = some (entry.1,found) := by simp [renamed,picked]
        rw [List.filterMap_cons_some kept,find_first,tail]
        simp [same]

theorem get_choose (pick : Key → Value → Option Other) : (entries.choose pick).get key = (entries.get key).bind (pick key) :=
  find_renamed pick entries.list entries.distinct

theorem get_setAll_list (list : List (Key × Value)) (distinct : (list.map Prod.fst).Nodup) (entries : Entries Key Value) :
    (list.foldl (fun e entry => e.set entry.1 entry.2) entries).get key = (find list key).or (entries.get key) := by
  induction list generalizing entries with
  | nil => rfl
  | cons entry rest ih =>
    rw [List.map_cons,List.nodup_cons] at distinct
    rw [List.foldl_cons,ih distinct.2,get_set,find_first]
    by_cases same : key = entry.1
    · subst same
      have absent : find rest entry.1 = none := find_absent distinct.1
      simp [absent]
    · simp [same]

theorem get_setAll (more : Entries Key Value) : (entries.setAll more).get key = (more.get key).or (entries.get key) :=
  get_setAll_list more.list more.distinct entries

theorem get_removeAll (keys : List Key) (entries : Entries Key Value) :
    (entries.removeAll keys).get key = if key ∈ keys then none else entries.get key := by
  induction keys generalizing entries with
  | nil => simp [Entries.removeAll]
  | cons first rest ih =>
    rw [Entries.removeAll,List.foldl_cons,← Entries.removeAll,ih,get_remove]
    by_cases same : key = first <;> by_cases later : key ∈ rest <;> simp [same,later]

theorem mem_names : key ∈ entries.list.map Prod.fst ↔ (entries.get key).isSome = true := by
  rw [Entries.get,find,List.lookup_isSome_iff,List.mem_map]
  simp only [beq_iff_eq]
  exact ⟨fun ⟨entry,member,same⟩ => ⟨entry,member,same.symm⟩,fun ⟨entry,member,same⟩ => ⟨entry,member,same.symm⟩⟩

theorem mem_get (member : (key,value) ∈ entries.list) : entries.get key = some value := by
  obtain ⟨before,after,split⟩ := List.append_of_mem member
  rw [Entries.get,find,List.lookup_eq_some_iff]
  refine ⟨before,after,split,?_⟩
  intro entry earlier
  have distinct := entries.distinct
  rw [split,List.map_append,List.map_cons] at distinct
  have apart := (List.nodup_append.mp distinct).2.2 entry.1 (List.mem_map_of_mem earlier) key (List.mem_cons_self ..)
  simpa using Ne.symm apart

theorem get_mem (found : entries.get key = some value) : (key,value) ∈ entries.list := by
  rw [Entries.get,find,List.lookup_eq_some_iff] at found
  obtain ⟨before,after,split,_⟩ := found
  rw [split]
  exact List.mem_append_right _ (List.mem_cons_self ..)

end Reading

end RemoteFileExplorer.KeyedEntries
