import RemoteFileExplorer.Backups

namespace RemoteFileExplorer.BackupRows
open JsonTexts AppSettings AppRecords KeyedEntries Backups
open PairedHosts (Host)

section Values
variable {N : Numerals}

theorem settledItems_map (items : List (Json N.Num)) : settledItems N items = items.map (settled N) := by
  induction items with
  | nil => rfl
  | cons first rest ih => rw [settledItems,ih,List.map_cons]

theorem settledFields_map (fields : List (Text × Json N.Num)) : settledFields N fields = fields.map (fun entry => (entry.1,settled N entry.2)) := by
  induction fields with
  | nil => rfl
  | cons first rest ih => rw [settledFields,ih,List.map_cons]

theorem properItems_of (items : List (Json N.Num)) (each : ∀ v ∈ items, Proper N v) : ProperItems N items := by
  induction items with
  | nil => exact trivial
  | cons first rest ih => exact ⟨each first (List.mem_cons_self ..),ih (fun v later => each v (List.mem_cons_of_mem _ later))⟩

theorem properFields_of (fields : List (Text × Json N.Num)) (each : ∀ entry ∈ fields, Proper N entry.2) : ProperFields N fields := by
  induction fields with
  | nil => exact trivial
  | cons first rest ih => exact ⟨each first (List.mem_cons_self ..),ih (fun entry later => each entry (List.mem_cons_of_mem _ later))⟩

theorem arr_proper {items : List (Json N.Num)} (each : ∀ v ∈ items, Proper N v) : Proper N (.arr items) := properItems_of items each

theorem obj_proper {fields : List (Text × Json N.Num)} (distinct : (fields.map Prod.fst).Nodup) (each : ∀ entry ∈ fields, Proper N entry.2) :
    Proper N (.obj fields) := ⟨distinct,properFields_of fields each⟩

theorem texts_proper (list : List Text) : Proper N (texts N list) := by
  apply arr_proper
  intro v member
  obtain ⟨s,_,rfl⟩ := List.mem_map.mp member
  exact trivial

theorem texts_settled (list : List Text) : settled N (texts N list) = texts N list := by
  rw [texts,settled,settledItems_map,List.map_map]
  rfl

theorem allTexts_texts (list : List Text) : allTexts N (list.map .str) = some list := by
  induction list with
  | nil => rfl
  | cons first rest ih =>
    rw [List.map_cons,allTexts,List.mapM_cons,← allTexts,ih]
    rfl

def defined (fields : List (String × Option (Json N.Num))) : List (Text × Json N.Num) :=
  fields.filterMap (fun entry => entry.2.map (fun v => (entry.1.toList,v)))

theorem defined_names (fields : List (String × Option (Json N.Num))) :
    ((defined fields).map Prod.fst).Sublist (fields.map (fun entry => entry.1.toList)) := by
  induction fields with
  | nil => exact .slnil
  | cons first rest ih =>
    obtain ⟨name,value⟩ := first
    cases value with
    | none => exact ih.cons _
    | some v => exact ih.cons_cons _

theorem record_proper {fields : List (String × Option (Json N.Num))} (distinct : (fields.map Prod.fst).Nodup)
    (each : ∀ entry ∈ fields, ∀ v ∈ entry.2, Proper N v) : Proper N (record N fields) := by
  apply obj_proper
  · apply List.Nodup.sublist (defined_names fields)
    have named : fields.map (fun entry => entry.1.toList) = (fields.map Prod.fst).map String.toList := by simp
    rw [named]
    exact distinct.map (fun _ _ same => String.toList_inj.mp same)
  · intro entry member
    obtain ⟨source,present,same⟩ := List.mem_filterMap.mp member
    obtain ⟨v,value,rfl⟩ := Option.map_eq_some_iff.mp same
    exact each source present v value

end Values

section Carrying
variable {N : Numerals}

def carried (N : Numerals) (text : Text) : Option Text := (prefOf N text).map PrefEntry.text

inductive Portable (N : Numerals) : Json N.Num → Prop where
  | bool (b : Bool) : Portable N (.bool b)
  | num (n : N.Num) (finite : N.finite n = true) : Portable N (.num n)
  | str (s : Text) : Portable N (.str s)
  | texts (list : List Text) : Portable N (texts N list)

theorem carried_parsed (parsed : parse N text = some v) : carried N text = (typed N v).map PrefEntry.text := by
  rw [carried,prefOf,parsed]
  rfl

theorem carried_written (lawful : N.Lawful) (proper : Proper N v) : carried N (stringify N v) = (typed N (settled N v)).map PrefEntry.text :=
  carried_parsed (parse_stringify lawful proper)

theorem encoded_texts (list : List Text) : (list.map (fun s => (Json.str s : Json N.Num))).map (encoded N) = list := by
  rw [List.map_map]
  exact List.map_id list

theorem portable_carried (lawful : N.Lawful) (portable : Portable N v) : carried N (stringify N v) = some (stringify N v) := by
  cases portable with
  | bool b | str s => exact carried_written lawful trivial
  | num n finite =>
    have again := lawful.finite n finite
    have value : stringify N (.num (N.read (N.write n))) = stringify N (.num n) := by
      rw [stringify,stringify,if_pos again,if_pos finite,lawful.rewrite n finite]
    rw [carried_written lawful (show Proper N (.num n) from trivial),settled,if_pos finite,typed,dif_pos again,Option.map_some,← value]
    split <;> rfl
  | texts list =>
    rw [carried_written lawful (texts_proper list),texts_settled]
    simp only [AppSettings.texts,typed,encoded_texts,Option.map_some]
    rfl

theorem entry_portable (entry : PrefEntry N) : Portable N entry.value := by
  cases entry with
  | bool v => exact .bool v
  | int v finite | double v finite => exact .num v finite
  | string v => exact .str v
  | stringList v => exact .texts v

theorem carried_same_iff (lawful : N.Lawful) : carried N text = some text ↔ ∃ v, Portable N v ∧ text = stringify N v := by
  constructor
  · intro same
    obtain ⟨entry,_,written⟩ := Option.map_eq_some_iff.mp same
    exact ⟨entry.value,entry_portable entry,written.symm⟩
  · rintro ⟨v,portable,rfl⟩
    exact portable_carried lawful portable

theorem object_carried {list : List (Text × Json N.Num)} (lawful : N.Lawful) (proper : Proper N (.obj list)) :
    carried N (stringify N (.obj list)) = none := carried_written lawful proper

theorem unbounded_carried {n : N.Num} (unbounded : ¬ N.finite n = true) : carried N (stringify N (.num n)) = none := by
  rw [stringify,if_neg unbounded]
  exact carried_parsed (show parse N ['n','u','l','l'] = some .null from rfl)

theorem unbounded_read {n : N.Num} (unbounded : ¬ N.finite n = true) : int N (some (stringify N (.num n))) = none := by
  rw [stringify,if_neg unbounded]
  rfl

end Carrying

section Hosts
variable {N : Numerals}

theorem stringRecord_proper {list : List (String × Option Text)} (distinct : (list.map Prod.fst).Nodup) : Proper N (stringRecord N list) := by
  apply record_proper
  · rw [List.map_map]
    exact distinct
  · intro entry member v value
    obtain ⟨source,_,rfl⟩ := List.mem_map.mp member
    obtain ⟨s,_,rfl⟩ := Option.map_eq_some_iff.mp value
    exact trivial

theorem stringRecord_settled (list : List (String × Option Text)) : settled N (stringRecord N list) = stringRecord N list := by
  rw [stringRecord,record,settled,settledFields_map]
  congr 1
  induction list with
  | nil => rfl
  | cons first rest ih =>
    obtain ⟨name,value⟩ := first
    cases value with
    | none => exact ih
    | some s => exact congrArg (List.cons _) ih

theorem host_proper (host : Host) : Proper N (hostToJson N host) := stringRecord_proper (by simp [hostFields])

theorem host_settled (host : Host) : settled N (hostToJson N host) = hostToJson N host := stringRecord_settled _

theorem host_unwrapped (lawful : N.Lawful) (host : Host) :
    unwrapped N (.str (stringify N (hostToJson N host))) = some (hostToJson N host) := by
  rw [unwrapped,parse_stringify lawful (host_proper host),host_settled]

theorem hosts_proper (hosts : List Host) : Proper N (hostsJson N hosts) := by
  apply arr_proper
  intro v member
  obtain ⟨host,_,rfl⟩ := List.mem_map.mp member
  exact host_proper host

theorem hosts_settled (hosts : List Host) : settled N (hostsJson N hosts) = hostsJson N hosts := by
  rw [hostsJson,settled,settledItems_map,List.map_map]
  congr 1
  exact List.map_congr_left (fun host _ => host_settled host)

theorem hosts_carried (lawful : N.Lawful) (hosts : List Host) : carried N (stringify N (hostsJson N hosts)) =
    some (stringify N (texts N (hosts.map (fun host => stringify N (hostToJson N host))))) := by
  rw [carried_written lawful (hosts_proper hosts),hosts_settled]
  simp only [hostsJson,typed,List.map_map,Option.map_some]
  rfl

theorem listed_written {items : List (Json N.Num)} (lawful : N.Lawful) (proper : Proper N (.arr items)) :
    listed N (some (stringify N (.arr items))) = items.map (settled N) := by
  have parsed : raw N (some (stringify N (.arr items))) = some (settled N (.arr items)) := parse_stringify lawful proper
  rw [listed,parsed,settled,settledItems_map]
  rfl

theorem hosts_read (lawful : N.Lawful) (hosts : List Host) :
    listHosts N (carried N (stringify N (hostsJson N hosts))) = listHosts N (some (stringify N (hostsJson N hosts))) := by
  have objects : listed N (some (stringify N (hostsJson N hosts))) = hosts.map (hostToJson N) := by
    rw [hostsJson,listed_written lawful (hosts_proper hosts),List.map_map]
    exact List.map_congr_left (fun host _ => host_settled host)
  have strings : listed N (carried N (stringify N (hostsJson N hosts))) = hosts.map (fun host => .str (stringify N (hostToJson N host))) := by
    rw [hosts_carried lawful,texts,listed_written lawful (texts_proper _),List.map_map,List.map_map]
    rfl
  rw [listHosts,listHosts,objects,strings,List.filterMap_map,List.filterMap_map]
  apply List.filterMap_congr
  intro host _
  simp only [Function.comp_apply,host_unwrapped lawful]
  rfl

end Hosts

section Roots
variable {N : Numerals}

theorem drive_proper (drive : Drive N.Num) : Proper N (driveJson N drive) := by
  apply record_proper
  · simp
  · intro entry member v value
    simp only [List.mem_cons,List.not_mem_nil,or_false] at member
    rcases member with rfl | rfl | rfl | rfl | rfl
    · cases value
      exact trivial
    · obtain ⟨_,_,rfl⟩ := Option.map_eq_some_iff.mp value
      exact trivial
    · obtain ⟨_,_,rfl⟩ := Option.map_eq_some_iff.mp value
      exact trivial
    · obtain ⟨_,_,rfl⟩ := Option.map_eq_some_iff.mp value
      exact trivial
    · cases value
      exact trivial

theorem roots_proper (value : CachedRoots N.Num) : Proper N (rootsJson N value) := by
  apply record_proper
  · simp
  · intro entry member v present
    simp only [List.mem_cons,List.not_mem_nil,or_false] at member
    rcases member with rfl | rfl | rfl
    · cases present
      exact texts_proper _
    · obtain ⟨_,_,rfl⟩ := Option.map_eq_some_iff.mp present
      exact trivial
    · obtain ⟨drives,_,rfl⟩ := Option.map_eq_some_iff.mp present
      apply arr_proper
      intro v member
      obtain ⟨drive,_,rfl⟩ := List.mem_map.mp member
      exact drive_proper drive

-- Cached roots are an object: they do not travel, and were readable before.
theorem roots_carried (lawful : N.Lawful) (value : CachedRoots N.Num) : carried N (stringify N (rootsJson N value)) = none :=
  object_carried lawful (roots_proper value)

theorem roots_read (lawful : N.Lawful) (value : CachedRoots N.Num) : loadRoots N (some (stringify N (rootsJson N value))) ≠ none := by
  have parsed : raw N (some (stringify N (rootsJson N value))) = some (settled N (rootsJson N value)) := parse_stringify lawful (roots_proper value)
  have roots : field N "roots" (settled N (rootsJson N value)) = some (texts N value.roots) := by
    rw [rootsJson,record,settled,settledFields_map,field]
    simp only [List.filterMap_cons,Option.map_some,List.map_cons]
    rw [find_first,if_pos rfl,texts_settled]
  rw [loadRoots,parsed,Option.bind_some,roots,Option.bind_some,texts,asItems,Option.bind_some,allTexts_texts]
  exact Option.some_ne_none _

end Roots

end RemoteFileExplorer.BackupRows
