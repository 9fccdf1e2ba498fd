import RemoteFileExplorer.BackupRestores

namespace RemoteFileExplorer.StoredCollections
open JsonTexts AppSettings AppRecords KeyedEntries BackupRows BackupRestores

section Strings

theorem one_longer {c : Char} {inner text : Text} (shorter : ∀ content, string inner = some (content,rest) → content.length + rest.length < inner.length)
    (longer : inner.length < text.length) (read : (string inner).map (fun p => (c::p.1,p.2)) = some (content,rest)) :
    content.length + rest.length < text.length := by
  obtain ⟨⟨found,left⟩,step,same⟩ := Option.map_eq_some_iff.mp read
  simp only [Prod.mk.injEq] at same
  obtain ⟨rfl,rfl⟩ := same
  have bound := shorter found step
  rw [List.length_cons]
  omega

theorem string_shorter (text content : Text) : string text = some (content,rest) → content.length + rest.length < text.length := by
  fun_induction string text generalizing content with
  | case2 after =>
      intro read
      cases read
      simp
  | case5 _ _ _ _ _ _ _ _ _ _ _ _ _ _ _ ih | case6 _ _ _ _ _ _ _ _ _ _ _ _ _ _ _ ih | case7 _ _ _ _ _ _ _ _ _ ih | case8 _ _ _ _ _ _ _ _ _ ih
  | case9 _ _ _ _ _ _ _ _ _ ih | case11 _ _ _ _ _ ih | case13 _ _ _ _ _ _ ih => exact one_longer ih (by simp only [List.length_cons]; omega)
  | case1 | case3 | case4 | case10 | case12 => exact nofun

variable {N : Numerals}

theorem value_shorter (read : value N fuel text = some (.str content,rest)) : content.length < text.length := by
  cases fuel with
  | zero => cases read
  | succ fuel =>
      have skipped : (skip text).length ≤ text.length := List.IsSuffix.length_le (List.dropWhile_suffix _)
      rw [value] at read
      split at read
      next inside same =>
        obtain ⟨⟨found,left⟩,step,whole⟩ := Option.map_eq_some_iff.mp read
        simp only [Prod.mk.injEq,Json.str.injEq] at whole
        obtain ⟨rfl,rfl⟩ := whole
        have bound := string_shorter inside found step
        rw [same,List.length_cons] at skipped
        omega
      next =>
        split at read
        · cases read
        · obtain ⟨_,_,same⟩ := Option.map_eq_some_iff.mp read
          cases same
      next =>
        split at read
        · cases read
        · obtain ⟨_,_,same⟩ := Option.map_eq_some_iff.mp read
          cases same
      next => cases read
      next => cases read
      next => cases read
      next =>
        rw [number] at read
        split at read
        split at read
        · cases read
        · cases read

theorem parse_other (s : Text) : parse N s ≠ some (.str s) := by
  intro parsed
  rw [parse] at parsed
  split at parsed
  next found rest read =>
    split at parsed
    · cases parsed
      exact Nat.lt_irrefl _ (value_shorter read)
    · cases parsed
  · cases parsed

end Strings

section Records
variable {N : Numerals}

theorem record_settled {fields : List (String × Option (Json N.Num))} (each : ∀ entry ∈ fields, ∀ v ∈ entry.2, settled N v = v) :
    settled N (record N fields) = record N fields := by
  rw [record,settled,settledFields_map]
  congr 1
  conv_rhs => rw [← List.map_id (fields.filterMap _)]
  apply List.map_congr_left
  intro entry member
  obtain ⟨source,present,same⟩ := List.mem_filterMap.mp member
  obtain ⟨v,found,rfl⟩ := Option.map_eq_some_iff.mp same
  rw [each source present v found]
  rfl

theorem load_saved (lawful : N.Lawful) (parseItem : Json N.Num → Option α) (serialize : α → Json N.Num) (items : List α) :
    load N parseItem (some (stringify N (saveJson N serialize items))) =
      items.filterMap (fun i => parseItem (item N (.str (encoded N (serialize i))))) := by
  rw [load,saveJson,texts,listed_written lawful (texts_proper _),List.map_map,List.map_map,List.filterMap_map]
  rfl

theorem records_back (lawful : N.Lawful) {parseItem : Json N.Num → Option α} {fieldsOf : α → List (String × Option (Json N.Num))} {items : List α}
    (proper : ∀ i ∈ items,Proper N (record N (fieldsOf i))) (same : ∀ i ∈ items,settled N (record N (fieldsOf i)) = record N (fieldsOf i))
    (parsed : ∀ i ∈ items,parseItem (record N (fieldsOf i)) = some i) :
    load N parseItem (some (stringify N (saveJson N (fun i => record N (fieldsOf i)) items))) = items := by
  rw [load_saved lawful]
  conv_rhs => rw [← List.filterMap_some (l := items)]
  apply List.filterMap_congr
  intro i member
  have written : encoded N (record N (fieldsOf i)) = stringify N (record N (fieldsOf i)) := rfl
  rw [item,written,parse_stringify lawful (proper i member),same i member]
  exact parsed i member

end Records

section Collections
variable (N : Numerals)

structure Collections where
  favorites : List Favorite
  bookmarks : List (Bookmark N.Num)
  pins : List Pin
  recentSearches : List Text
  savedSearches : List SavedSearch

structure Held (c : Collections N) : Prop where
  favorites : ∀ f ∈ c.favorites,f.hostId ≠ [] ∧ f.path ≠ []
  bookmarks : ∀ b ∈ c.bookmarks,b.hostId ≠ [] ∧ b.remotePath ≠ [] ∧ b.tag ≠ some []
  colours : ∀ b ∈ c.bookmarks,∀ n ∈ b.color,N.finite n = true ∧ N.read (N.write n) = n
  pins : ∀ p ∈ c.pins,p.hostId ≠ [] ∧ p.remotePath ≠ []

def reload (c : Collections N) : Collections N where
  favorites := load N (parseFavorite N) (some (stringify N (saveJson N (favoriteJson N) c.favorites)))
  bookmarks := load N (parseBookmark N) (some (stringify N (saveJson N (bookmarkJson N) c.bookmarks)))
  pins := load N (parsePin N) (some (stringify N (saveJson N (pinJson N) c.pins)))
  recentSearches := loadRecent N (some (stringify N (saveJson N .str c.recentSearches)))
  savedSearches := loadSaved N (some (stringify N (savedJson N c.savedSearches)))

variable {N}

theorem nonempty_some {s : Text} (solid : s ≠ []) : nonempty (some s) = some s := by
  simp [nonempty,solid]

theorem favorites_back (lawful : N.Lawful) (items : List Favorite) (held : ∀ f ∈ items,f.hostId ≠ [] ∧ f.path ≠ []) :
    load N (parseFavorite N) (some (stringify N (saveJson N (favoriteJson N) items))) = items := by
  apply records_back lawful
  · intro f _
    exact record_proper (by simp) (by simp [Proper])
  · intro f _
    exact record_settled (by simp [settled])
  · intro f member
    obtain ⟨host,path⟩ := held f member
    have parsed : parseFavorite N (favoriteJson N f) = some f := by
      simp [parseFavorite,favoriteJson,stringField,field,record,find_cons,asText,nonempty_some host,nonempty_some path]
    exact parsed

theorem pins_back (lawful : N.Lawful) (items : List Pin) (held : ∀ p ∈ items,p.hostId ≠ [] ∧ p.remotePath ≠ []) :
    load N (parsePin N) (some (stringify N (saveJson N (pinJson N) items))) = items := by
  apply records_back lawful
  · intro p _
    exact record_proper (by simp) (by simp [Proper])
  · intro p _
    exact record_settled (by simp [settled])
  · intro p member
    obtain ⟨host,path⟩ := held p member
    have parsed : parsePin N (pinJson N p) = some p := by
      simp [parsePin,pinJson,stringField,field,record,find_cons,asText,nonempty_some host,nonempty_some path]
    exact parsed

theorem bookmark_parsed (b : Bookmark N.Num) (host : b.hostId ≠ []) (path : b.remotePath ≠ []) (tag : b.tag ≠ some []) :
    parseBookmark N (bookmarkJson N b) = some b := by
  obtain ⟨hostId,remotePath,tag',color⟩ := b
  cases tag' with
  | none =>
      cases color <;> simp [parseBookmark,bookmarkJson,stringField,field,record,find_cons,asText,anyNumber,nonempty_some host,nonempty_some path] <;> rfl
  | some t =>
      have solid : t ≠ [] := fun empty => tag (by rw [empty])
      cases color <;>
        simp [parseBookmark,bookmarkJson,stringField,field,record,find_cons,asText,anyNumber,nonempty_some host,nonempty_some path,nonempty_some solid]

theorem bookmarks_back (lawful : N.Lawful) (items : List (Bookmark N.Num))
    (held : ∀ b ∈ items,b.hostId ≠ [] ∧ b.remotePath ≠ [] ∧ b.tag ≠ some [])
    (colours : ∀ b ∈ items,∀ n ∈ b.color,N.finite n = true ∧ N.read (N.write n) = n) :
    load N (parseBookmark N) (some (stringify N (saveJson N (bookmarkJson N) items))) = items := by
  apply records_back lawful
  · intro b _
    refine record_proper (by simp) ?_
    simp only [List.mem_cons,List.not_mem_nil,or_false,forall_eq_or_imp,forall_eq,Option.mem_def,Option.some.injEq,forall_eq',Proper,
      Option.map_eq_some_iff,true_and]
    refine ⟨?_,?_⟩
    · rintro v ⟨tag,_,rfl⟩
      exact trivial
    · rintro v ⟨n,_,rfl⟩
      exact trivial
  · intro b member
    refine record_settled ?_
    simp only [List.mem_cons,List.not_mem_nil,or_false,forall_eq_or_imp,forall_eq,Option.mem_def,Option.some.injEq,forall_eq',settled,
      Option.map_eq_some_iff,true_and]
    refine ⟨?_,?_⟩
    · rintro v ⟨tag,_,rfl⟩
      rfl
    · rintro v ⟨n,found,rfl⟩
      obtain ⟨finite,back⟩ := colours b member n found
      rw [settled,if_pos finite,back]
  · intro b member
    obtain ⟨host,path,tag⟩ := held b member
    exact bookmark_parsed b host path tag

theorem saved_back (lawful : N.Lawful) (items : List SavedSearch) : loadSaved N (some (stringify N (savedJson N items))) = items := by
  have proper : Proper N (.arr (items.map (savedSearchJson N))) := by
    apply arr_proper
    intro v member
    obtain ⟨s,_,rfl⟩ := List.mem_map.mp member
    exact record_proper (by simp) (by simp [Proper])
  have same : settled N (.arr (items.map (savedSearchJson N))) = .arr (items.map (savedSearchJson N)) := by
    rw [settled,settledItems_map,List.map_map]
    have each : settled N ∘ savedSearchJson N = savedSearchJson N := funext fun s => record_settled (by simp [settled])
    rw [each]
  have outer : raw N (some (stringify N (savedJson N items))) = some (savedJson N items) :=
    parse_stringify lawful (v := savedJson N items) trivial
  have inner : unwrapped N (savedJson N items) = some (.arr (items.map (savedSearchJson N))) := by
    rw [savedJson,unwrapped,parse_stringify lawful proper,same]
  rw [loadSaved,outer,Option.bind_some,inner,Option.bind_some,asItems,Option.getD_some,List.filterMap_map]
  conv_rhs => rw [← List.filterMap_some (l := items)]
  apply List.filterMap_congr
  intro s _
  simp [parseSavedSearch,savedSearchJson,isRecord,stringField,field,record,find_cons,asText]

theorem recent_loaded (lawful : N.Lawful) (items : List Text) :
    loadRecent N (some (stringify N (saveJson N .str items))) = items.filterMap (fun s => asText N (item N (.str s))) :=
  load_saved lawful (asText N) .str items

theorem recent_plain (plain : parse N s = none) : asText N (item N (.str s)) = some s := by
  rw [item,plain]
  rfl

theorem recent_same_iff (s : Text) : asText N (item N (.str s)) = some s ↔ parse N s = none := by
  constructor
  · intro same
    cases parsed : parse N s with
    | none => rfl
    | some v =>
        rw [item,parsed,Option.getD_some] at same
        cases v with
        | str t =>
            cases same
            exact absurd parsed (parse_other s)
        | null | bool | num | arr | obj => cases same
  · exact recent_plain

theorem filterMap_same {f : Text → Option Text} {items : List Text} (same : items.filterMap f = items) : ∀ s ∈ items,f s = some s := by
  induction items with
  | nil => nofun
  | cons first rest ih =>
      have bound : (rest.filterMap f).length ≤ rest.length := List.length_filterMap_le f rest
      cases found : f first with
      | none =>
          rw [List.filterMap_cons_none found] at same
          have length := congrArg List.length same
          simp only [List.length_cons] at length
          omega
      | some t =>
          rw [List.filterMap_cons_some found,List.cons.injEq] at same
          obtain ⟨rfl,rests⟩ := same
          intro s member
          rcases List.mem_cons.mp member with rfl | later
          · exact found
          · exact ih rests s later

theorem recent_back_iff (lawful : N.Lawful) (items : List Text) :
    loadRecent N (some (stringify N (saveJson N .str items))) = items ↔ ∀ s ∈ items,parse N s = none := by
  rw [recent_loaded lawful]
  constructor
  · intro same s member
    exact (recent_same_iff s).mp (filterMap_same same s member)
  · intro plain
    conv_rhs => rw [← List.filterMap_some (l := items)]
    apply List.filterMap_congr
    intro s member
    exact recent_plain (plain s member)

theorem reload_same_iff (lawful : N.Lawful) (c : Collections N) (held : Held N c) : reload N c = c ↔ ∀ s ∈ c.recentSearches,parse N s = none := by
  rw [← recent_back_iff lawful]
  constructor
  · intro same
    exact congrArg Collections.recentSearches same
  · intro recent
    obtain ⟨favorites,bookmarks,pins,recentSearches,savedSearches⟩ := c
    simp only [reload,Collections.mk.injEq]
    exact ⟨favorites_back lawful _ held.favorites,bookmarks_back lawful _ held.bookmarks held.colours,pins_back lawful _ held.pins,
      recent,saved_back lawful _⟩

def searched (text : String) : Collections literals.toNumerals := ⟨[],[],[],[text.toList],[]⟩

theorem searched_held (text : String) : Held literals.toNumerals (searched text) := ⟨nofun,nofun,nofun,nofun⟩

theorem reload_same_word : reload literals.toNumerals (searched "report") = searched "report" := by
  apply (reload_same_iff literals_lawful _ (searched_held "report")).mpr
  intro s member
  cases List.mem_singleton.mp member
  rfl

theorem number_search_lost : Held literals.toNumerals (searched "2024") ∧ reload literals.toNumerals (searched "2024") ≠ searched "2024" := by
  refine ⟨searched_held "2024",fun same => ?_⟩
  have recent := congrArg Collections.recentSearches same
  have plain := (recent_back_iff literals_lawful ["2024".toList]).mp recent "2024".toList List.mem_cons_self
  cases plain

end Collections

end RemoteFileExplorer.StoredCollections
