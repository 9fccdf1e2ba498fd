import RemoteFileExplorer.BackupRows

namespace RemoteFileExplorer.BackupRestores
open JsonTexts AppKeys AppSettings AppRecords KeyedEntries AppRows Backups BackupRows
open PairedHosts (Host)

section Files
variable {N : Numerals}

theorem type_of_text (t : PrefType) : PrefType.of t.text = some t := by
  cases t <;> rfl

theorem entry_type (entry : PrefEntry N) : stringField N "t" (settled N entry.json) = some entry.type.text := by
  rfl

theorem entry_value (entry : PrefEntry N) : field N "v" (settled N entry.json) = some (settled N entry.value) := by
  have apart : "v".toList ≠ "t".toList := by simp
  rw [PrefEntry.json,settled,settledFields,field,find_cons,if_neg apart,settledFields,find_cons,if_pos rfl]

-- The entry that is read back need not be the same, but its row is.
theorem entry_checked (lawful : N.Lawful) (entry : PrefEntry N) : ∃ back, checkEntry N (settled N entry.json) = .ok back ∧ back.text = entry.text := by
  have same (v : N.Num) (finite : N.finite v = true) : stringify N (.num (N.read (N.write v))) = stringify N (.num v) := by
    rw [stringify,stringify,if_pos (lawful.finite v finite),if_pos finite,lawful.rewrite v finite]
  simp only [checkEntry,entry_type,entry_value,Option.bind_some,type_of_text]
  cases entry with
  | bool v | string v => exact ⟨_,rfl,rfl⟩
  | int v finite | double v finite =>
    simp only [PrefEntry.type,PrefEntry.value,settled,if_pos finite,accepted,dif_pos (lawful.finite v finite)]
    exact ⟨_,rfl,same v finite⟩
  | stringList v =>
    simp only [PrefEntry.type,PrefEntry.value,texts_settled]
    simp only [texts,accepted,allTexts_texts,Option.map_some]
    exact ⟨_,rfl,rfl⟩

def rowText (prefs : Entries Text (PrefEntry N)) (key : Text) : Option Text := (prefs.get key).map PrefEntry.text

theorem prefs_parsed (lawful : N.Lawful) (list : List (Text × PrefEntry N)) (distinct : (list.map Prod.fst).Nodup) (seen : Entries Text (PrefEntry N)) :
    ∃ back, parsePrefs N (list.map (fun entry => (entry.1,settled N entry.2.json))) seen = .ok back ∧
      ∀ key, rowText back key = ((find list key).map PrefEntry.text).or (rowText seen key) := by
  induction list generalizing seen with
  | nil => exact ⟨seen,rfl,fun key => rfl⟩
  | cons first rest ih =>
    obtain ⟨name,entry⟩ := first
    rw [List.map_cons,List.nodup_cons] at distinct
    obtain ⟨read,checked,same⟩ := entry_checked lawful entry
    obtain ⟨back,parsed,texts⟩ := ih distinct.2 (seen.set name read)
    refine ⟨back,?_,?_⟩
    · rw [List.map_cons,parsePrefs,checked]
      exact parsed
    · intro key
      rw [texts key,rowText,get_set,find_first]
      by_cases this : key = name
      · subst this
        have absent : find rest key = none := find_absent distinct.1
        simp [absent,same]
      · simp [this,rowText]

theorem secure_parsed (list : List (Text × Text)) (seen : Entries Text Text) :
    parseSecure N (list.map (fun entry => (entry.1,settled N (.str entry.2)))) seen = .ok (list.foldl (fun e entry => e.set entry.1 entry.2) seen) := by
  induction list generalizing seen with
  | nil => rfl
  | cons first rest ih => exact ih (seen.set first.1 first.2)

theorem payload_proper (payload : BackupPayload N) : Proper N payload.json := by
  apply obj_proper
  · simp
  · intro entry member
    simp only [List.mem_cons,List.not_mem_nil,or_false] at member
    rcases member with rfl | rfl | rfl | rfl
    · exact trivial
    · exact trivial
    · apply obj_proper
      · rw [List.map_map]
        exact payload.prefs.distinct
      · intro entry member
        obtain ⟨source,_,rfl⟩ := List.mem_map.mp member
        apply obj_proper
        · simp
        · intro entry member
          simp only [List.mem_cons,List.not_mem_nil,or_false] at member
          rcases member with rfl | rfl
          · exact trivial
          · cases source.2 with
            | stringList v => exact texts_proper v
            | _ => exact trivial
    · apply obj_proper
      · rw [List.map_map]
        exact payload.secure.distinct
      · intro entry member
        obtain ⟨source,_,rfl⟩ := List.mem_map.mp member
        exact trivial

theorem payload_parsed (lawful : N.Lawful) (payload : BackupPayload N) :
    ∃ back, parsePayload N (stringify N payload.json) = .ok back ∧ (∀ key, rowText back.prefs key = rowText payload.prefs key) ∧
      ∀ key, back.secure.get key = payload.secure.get key := by
  have parsed := parse_stringify lawful (payload_proper payload)
  have prefs : (field N "prefs" (settled N payload.json)).bind (entriesOf N) = some (payload.prefs.list.map (fun entry => (entry.1,settled N entry.2.json))) := by
    have version : "prefs".toList ≠ "version".toList := by simp
    have created : "prefs".toList ≠ "createdAt".toList := by simp
    rw [BackupPayload.json,settled,settledFields,field,find_cons,if_neg version,settledFields,find_cons,if_neg created,settledFields,find_cons,if_pos rfl,
      Option.bind_some,settled,settledFields_map,entriesOf,List.map_map]
    rfl
  have secure : (field N "secure" (settled N payload.json)).bind (entriesOf N) = some (payload.secure.list.map (fun entry => (entry.1,settled N (.str entry.2)))) := by
    have version : "secure".toList ≠ "version".toList := by simp
    have created : "secure".toList ≠ "createdAt".toList := by simp
    have prefs : "secure".toList ≠ "prefs".toList := by simp
    rw [BackupPayload.json,settled,settledFields,field,find_cons,if_neg version,settledFields,find_cons,if_neg created,settledFields,find_cons,if_neg prefs,
      settledFields,find_cons,if_pos rfl,Option.bind_some,settled,settledFields_map,entriesOf,List.map_map]
    rfl
  obtain ⟨back,read,texts⟩ := prefs_parsed lawful payload.prefs.list payload.prefs.distinct Entries.empty
  have entries := secure_parsed (N := N) payload.secure.list Entries.empty
  simp only [parsePayload,parsed,prefs,secure,read,entries]
  refine ⟨_,rfl,?_,?_⟩
  · intro key
    have nothing : rowText (N := N) Entries.empty key = none := rfl
    rw [texts key,nothing,Option.or_none]
    rfl
  · intro key
    rw [get_setAll_list payload.secure.list payload.secure.distinct]
    rw [get_empty,Option.or_none]
    rfl

end Files

section Import
variable {N : Numerals}

def safe : Nat → Bool := fun _ => false

theorem perform_safe (n : Nat) (list : List Call) (phone : Phone) :
    ∃ m, perform safe n list phone = (true,m,list.foldl Call.act phone) := by
  induction list generalizing n phone with
  | nil => exact ⟨n,rfl⟩
  | cons call rest ih => exact ih (n + 1) (call.act phone)

theorem deletes_act (keys : List Text) (phone : Phone) :
    (keys.map Call.delete).foldl Call.act phone = ⟨phone.rows,phone.secure.removeAll keys⟩ := by
  induction keys generalizing phone with
  | nil => rfl
  | cons key rest ih => exact ih ⟨phone.rows,phone.secure.remove key⟩

theorem writes_act (list : List (Text × Text)) (phone : Phone) :
    (list.map (fun entry => Call.write entry.1 entry.2)).foldl Call.act phone =
      ⟨phone.rows,list.foldl (fun e entry => e.set entry.1 entry.2) phone.secure⟩ := by
  induction list generalizing phone with
  | nil => rfl
  | cons entry rest ih => exact ih ⟨phone.rows,phone.secure.set entry.1 entry.2⟩

theorem calls_act (rows : Rows) (prev next : Entries Text Text) (phone : Phone) :
    (calls rows prev next).foldl Call.act phone =
      ⟨(phone.rows.keep (fun key => !isBackedUpPrefKey key)).setAll rows,
        (phone.secure.removeAll ((prev.list.map Prod.fst).filter (fun key => (next.get key).isNone))).setAll next⟩ := by
  rw [calls,List.foldl_cons,List.foldl_append,deletes_act,writes_act]
  rfl

theorem secure_replaced (wanted : Text → Bool) (old next : Entries Text Text) (key : Text) (backedUp : wanted key = true) :
    ((old.removeAll (((old.keep wanted).list.map Prod.fst).filter (fun key => ((next.keep wanted).get key).isNone))).setAll (next.keep wanted)).get key =
      next.get key := by
  rw [get_setAll,get_removeAll,get_keep,if_pos backedUp]
  cases found : next.get key with
  | some value => rfl
  | none =>
    have listed : key ∈ ((old.keep wanted).list.map Prod.fst).filter (fun key => ((next.keep wanted).get key).isNone) ↔ (old.get key).isSome = true := by
      rw [List.mem_filter,mem_names,get_keep,get_keep,if_pos backedUp,if_pos backedUp,found]
      simp
    by_cases there : (old.get key).isSome = true
    · rw [if_pos (listed.mpr there)]
      rfl
    · rw [if_neg (fun member => there (listed.mp member))]
      simpa using there

theorem rows_replaced (old rows : Rows) (key : Text) (backedUp : isBackedUpPrefKey key = true) :
    ((old.keep (fun key => !isBackedUpPrefKey key)).setAll rows).get key = rows.get key := by
  rw [get_setAll,get_keep,backedUp]
  exact Option.or_none

theorem import_export (lawful : N.Lawful) (source target : Phone) (now : Text) :
    ∃ after, importEnvelope N safe target (exportPayload N source now) = .imported after ∧
      (∀ key, isBackedUpPrefKey key = true → after.rows.get key = (source.rows.get key).bind (carried N)) ∧
      ∀ key, isBackedUpSecureKey key = true → after.secure.get key = source.secure.get key := by
  obtain ⟨back,parsed,prefs,secure⟩ := payload_parsed lawful (buildPayload N source.rows source.secure now)
  obtain ⟨made,performed⟩ := perform_safe 0
    (calls (prefsToKv back.prefs) (target.secure.keep isBackedUpSecureKey) (back.secure.keep isBackedUpSecureKey)) target
  rw [calls_act] at performed
  simp only [importEnvelope,exportPayload,parsed,performed]
  refine ⟨_,rfl,?_,?_⟩
  · intro key backedUp
    have row : (prefsToKv back.prefs).get key = rowText back.prefs key := by
      rw [prefsToKv,get_choose,rowText]
      simp only [backedUp,if_true]
      exact Option.map_eq_bind.symm
    have built : rowText (kvToPrefs N source.rows) key = (source.rows.get key).bind (carried N) := by
      rw [rowText,kvToPrefs,get_choose]
      simp only [backedUp,if_true]
      exact Option.map_bind ..
    rw [rows_replaced _ _ key backedUp,row,prefs key]
    exact built
  · intro key backedUp
    rw [secure_replaced isBackedUpSecureKey _ _ key backedUp,secure key]
    exact (get_keep _).trans (if_pos backedUp)

end Import

section Stores
variable {E : Engine}

def steady : Kind → Bool
  | .number | .hosts | .plain | .roots => false
  | _ => true

theorem steady_portable (kind : Kind) (value : kind.Value E) (kept : steady kind = true) :
    Portable E.toNumerals (json E kind value) ∧ encode E kind value = stringify E.toNumerals (json E kind value) := by
  cases kind with
  | flag => exact ⟨.bool value,rfl⟩
  | word => exact ⟨.str value,rfl⟩
  | words => exact ⟨.texts value,rfl⟩
  | wordSet | overrides | savedSearches => exact ⟨.str _,rfl⟩
  | favorites | bookmarks | pins | rules => exact ⟨.texts _,rfl⟩
  | time => exact ⟨.num value.1 value.2,rfl⟩
  | number | hosts | plain | roots => cases kept

def Restored (E : Engine) (before after : Rows) : Prop := ∀ key : Key, after.get key.text = (before.get key.text).bind (carried E.toNumerals)

variable {before after : Rows}

theorem steady_same (lawful : E.Lawful) (kept : Kept E before) (restored : Restored E before after) (key : Key) (stays : steady (Key.kind key) = true) :
    after.get key.text = before.get key.text := by
  rw [restored key]
  cases found : before.get key.text with
  | none => rfl
  | some text =>
    obtain ⟨value,rfl⟩ := kept key text found
    obtain ⟨portable,encoded⟩ := steady_portable _ value stays
    rw [Option.bind_some,encoded,portable_carried lawful portable]

theorem number_read (lawful : E.Lawful) (kind : Kind) (value : kind.Value E) (number : kind = .number) :
    int E.toNumerals (carried E.toNumerals (encode E kind value)) = int E.toNumerals (some (encode E kind value)) := by
  subst number
  have text : encode E .number value = stringify E.toNumerals (.num value) := rfl
  rw [text]
  by_cases finite : E.finite value = true
  · rw [portable_carried lawful (.num value finite)]
  · rw [unbounded_carried finite,unbounded_read finite]
    rfl

section
variable (lawful : E.Lawful) (kept : Kept E before) (restored : Restored E before after)
include lawful kept restored

theorem numbers_same (name : Name) (number : Name.kind name = .number) :
    int E.toNumerals (Rows.named after name) = int E.toNumerals (Rows.named before name) := by
  rw [Rows.named,Rows.named,restored (.named name)]
  cases found : before.get (Key.named name).text with
  | none => rfl
  | some text =>
    obtain ⟨value,rfl⟩ := kept (.named name) text found
    exact number_read lawful _ value number

theorem hosts_same :
    listHosts E.toNumerals (Rows.named after .hosts) = listHosts E.toNumerals (Rows.named before .hosts) := by
  rw [Rows.named,Rows.named,restored (.named .hosts)]
  cases found : before.get (Key.named .hosts).text with
  | none => rfl
  | some text =>
    obtain ⟨value,rfl⟩ := kept (.named .hosts) text found
    exact hosts_read lawful value

theorem roots_gone (hostId : Text) :
    after.get (Key.roots hostId).text = none := by
  rw [restored (.roots hostId)]
  cases found : before.get (Key.roots hostId).text with
  | none => rfl
  | some text =>
    obtain ⟨value,rfl⟩ := kept (.roots hostId) text found
    exact roots_carried lawful value

theorem roots_same_iff (hostId : Text) :
    loadRoots E.toNumerals (after.get (Key.roots hostId).text) = loadRoots E.toNumerals (before.get (Key.roots hostId).text) ↔
      before.get (Key.roots hostId).text = none := by
  rw [roots_gone lawful kept restored hostId]
  constructor
  · intro same
    cases found : before.get (Key.roots hostId).text with
    | none => rfl
    | some text =>
      obtain ⟨value,rfl⟩ := kept (.roots hostId) text found
      rw [found] at same
      exact absurd same.symm (roots_read lawful value)
  · intro absent
    rw [absent]

end

theorem lastHost_same_iff (lawful : E.Lawful) (restored : Restored E before after) :
    Rows.named after .lastHost = Rows.named before .lastHost ↔
      ∀ id, Rows.named before .lastHost = some id → ∃ v, Portable E.toNumerals v ∧ id = stringify E.toNumerals v := by
  have row : Rows.named after .lastHost = (Rows.named before .lastHost).bind (carried E.toNumerals) := restored (.named .lastHost)
  rw [row]
  cases found : Rows.named before .lastHost with
  | none => exact ⟨fun _ => nofun,fun _ => rfl⟩
  | some id =>
    rw [Option.bind_some,carried_same_iff lawful]
    constructor
    · intro portable other same
      cases same
      exact portable
    · intro each
      exact each id rfl

theorem settings_same (lawful : E.Lawful) (kept : Kept E before) (restored : Restored E before after) :
    loadSettings E.toNumerals (Rows.named after) = loadSettings E.toNumerals (Rows.named before) := by
  have same (name : Name) (stays : steady (Name.kind name) = true) : Rows.named after name = Rows.named before name :=
    steady_same lawful kept restored (.named name) stays
  simp only [loadSettings,same .gridView rfl,same .density rfl,same .sortField rfl,same .sortAscending rfl,same .visHideDotfiles rfl,
    same .visHiddenExtensions rfl,same .visHiddenNames rfl,same .themeMode rfl,same .dynamicColor rfl,same .notifications rfl,same .appLock rfl,
    same .amoled rfl,same .watchedFolders rfl,same .compressCellular rfl,same .preloadCellular rfl,same .weeklyDigest rfl,same .overrides rfl,
    numbers_same lawful kept restored .lowDiskThreshold rfl,numbers_same lawful kept restored .seedColor rfl]

theorem photos_same (lawful : E.Lawful) (kept : Kept E before) (restored : Restored E before after) :
    loadPhotos E.toNumerals (Rows.named after) = loadPhotos E.toNumerals (Rows.named before) := by
  have same (name : Name) (stays : steady (Name.kind name) = true) : Rows.named after name = Rows.named before name :=
    steady_same lawful kept restored (.named name) stays
  simp only [loadPhotos,same .photoEnabled rfl,same .photoHost rfl,same .photoDeviceName rfl,same .photoWifiOnly rfl,same .photoChargingOnly rfl,
    same .photoAlbums rfl,same .photoScheduled rfl]

-- No cached roots are stored, and the id of the last host is the JSON text of a
-- boolean, a number, a string or a list of strings.
structure Survives (E : Engine) (rows : Rows) : Prop where
  roots : ∀ hostId, rows.get (Key.roots hostId).text = none
  lastHost : ∀ id, Rows.named rows .lastHost = some id → ∃ v, Portable E.toNumerals v ∧ id = stringify E.toNumerals v

theorem stores_same_iff (lawful : E.Lawful) (kept : Kept E before) (restored : Restored E before after) :
    stores E after = stores E before ↔ Survives E before := by
  constructor
  · intro same
    constructor
    · intro hostId
      exact (roots_same_iff lawful kept restored hostId).mp (congrFun (congrArg Stores.roots same) hostId)
    · exact (lastHost_same_iff lawful restored).mp (congrArg Stores.lastHost same)
  · intro survives
    have same (name : Name) (stays : steady (Name.kind name) = true) : Rows.named after name = Rows.named before name :=
      steady_same lawful kept restored (.named name) stays
    have roots (hostId : Text) := (roots_same_iff lawful kept restored hostId).mpr (survives.roots hostId)
    have seen (hostId : Text) := steady_same lawful kept restored (.lastSeen hostId) rfl
    have last := (lastHost_same_iff lawful restored).mpr survives.lastHost
    simp only [stores,hosts_same lawful kept restored,settings_same lawful kept restored,photos_same lawful kept restored,same .favorites rfl,
      same .bookmarks rfl,same .pins rfl,same .recentSearches rfl,same .savedSearches rfl,same .syncRules rfl,same .photoDone rfl,roots,seen,last]

end Stores

section Restore
variable {E : Engine}

-- An exact restore: every store reads what it read on the phone the backup was
-- made on, and the tokens and pins are those of that phone.
def SameState (E : Engine) (source after : Phone) : Prop :=
  stores E after.rows = stores E source.rows ∧ ∀ key, isBackedUpSecureKey key = true → after.secure.get key = source.secure.get key

def RestoresState (E : Engine) (source target : Phone) (now : Text) : Prop :=
  ∃ after, importEnvelope E.toNumerals safe target (exportPayload E.toNumerals source now) = .imported after ∧ SameState E source after

theorem restore_inverts_export (lawful : E.Lawful) (changes : List (Change E)) (secure : Entries Text Text) (target : Phone) (now : Text) :
    RestoresState E ⟨written changes,secure⟩ target now ↔ Survives E (written changes) := by
  obtain ⟨after,imported,rows,entries⟩ := import_export lawful ⟨written changes,secure⟩ target now
  have restored : Restored E (written changes) after.rows := fun key => rows key.text (key_owned key)
  have same := stores_same_iff lawful (written_kept changes) restored
  constructor
  · rintro ⟨other,again,equal,_⟩
    rw [imported] at again
    cases again
    exact same.mp equal
  · intro survives
    exact ⟨after,imported,same.mpr survives,entries⟩

-- Numbers that are kept as their literals.
def literals : Engine where
  Num := {text : Text // isNumeral text = true}
  read := fun text => if numeral : isNumeral text = true then ⟨text,numeral⟩ else ⟨['0'],rfl⟩
  write := fun n => n.1
  finite := fun _ => true
  integer := fun n => n.1.all (fun c => isDigit c || c == '-')
  numberOf := fun text => if numeral : isNumeral text = true then ⟨text,numeral⟩ else ⟨['0'],rfl⟩
  dateParses := fun _ => true

theorem literals_lawful : literals.Lawful where
  literal := fun n _ => n.2
  finite := fun _ _ => rfl
  rewrite := fun n _ => by
    have same : literals.read (literals.write n) = n := dif_pos n.2
    rw [same]

def desk : Host := ⟨"h1","Desk","10.0.0.2:8765",none,none,none,none,none,some "Home office"⟩

def noon : literals.Num := (⟨['1','7','0','0'],rfl⟩ : {text : Text // isNumeral text = true})

def pairedDesk : List (Change literals) := [saveHosts [desk],setLastSeen ['h','1'] noon rfl]

theorem restore_inverts_export_desk :
    RestoresState literals ⟨written pairedDesk,Entries.empty⟩ ⟨Entries.empty,Entries.empty⟩ ['t'] := by
  apply (restore_inverts_export literals_lawful _ _ _ _).mpr
  constructor
  · intro hostId
    have seen : (Key.roots hostId).text ≠ (Key.lastSeen ['h','1']).text := fun same => nomatch key_inj same
    have hosts : (Key.roots hostId).text ≠ (Key.named .hosts).text := fun same => nomatch key_inj same
    exact (get_set_other seen).trans ((get_set_other hosts).trans get_empty)
  · intro id found
    have seen : (Key.named .lastHost).text ≠ (Key.lastSeen ['h','1']).text := fun same => nomatch key_inj same
    have hosts : (Key.named .lastHost).text ≠ (Key.named .hosts).text := fun same => nomatch key_inj same
    have absent : Rows.named (written pairedDesk) .lastHost = none :=
      (get_set_other seen).trans ((get_set_other hosts).trans get_empty)
    rw [absent] at found
    cases found

-- The id of the last host is stored as plain text and comes back in quotes.
theorem last_host_quoted : ¬ ∀ (changes : List (Change literals)) (secure : Entries Text Text) (target : Phone) (now : Text),
    RestoresState literals ⟨written changes,secure⟩ target now := by
  intro always
  obtain ⟨other,again,same,_⟩ := always [writeLastHostId ['h','1']] Entries.empty ⟨Entries.empty,Entries.empty⟩ ['t']
  obtain ⟨after,imported,rows,_⟩ := import_export literals_lawful ⟨written [writeLastHostId ['h','1']],Entries.empty⟩ ⟨Entries.empty,Entries.empty⟩ ['t']
  rw [imported] at again
  cases again
  have last : Rows.named other.rows .lastHost = Rows.named (written [writeLastHostId ['h','1']]) .lastHost := congrArg Stores.lastHost same
  have stored : Rows.named (written (E := literals) [writeLastHostId ['h','1']]) .lastHost = some ['h','1'] := get_set_same
  have restored : Rows.named other.rows .lastHost = some ['"','h','1','"'] := by
    rw [Rows.named,rows _ (key_owned _)]
    exact congrArg (Option.bind · (carried literals.toNumerals)) stored
  rw [restored,stored] at last
  cases last

end Restore

end RemoteFileExplorer.BackupRestores
