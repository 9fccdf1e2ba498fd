import RemoteFileExplorer.AppRecords

namespace RemoteFileExplorer.AppRows
open JsonTexts AppKeys AppSettings AppRecords KeyedEntries
open PairedHosts (Host)

abbrev Rows := Entries Text Text

inductive Kind where
  | flag
  | number
  | word
  | words
  | wordSet
  | overrides
  | hosts
  | favorites
  | bookmarks
  | pins
  | savedSearches
  | rules
  | plain
  | roots
  | time
  deriving DecidableEq, Repr

def Name.kind : Name → Kind
  | .gridView | .sortAscending | .visHideDotfiles | .dynamicColor | .notifications | .appLock | .amoled | .compressCellular | .preloadCellular | .weeklyDigest
  | .photoEnabled | .photoWifiOnly | .photoChargingOnly | .photoScheduled => .flag
  | .lowDiskThreshold | .seedColor => .number
  | .density | .sortField | .themeMode | .photoHost | .photoDeviceName => .word
  | .recentSearches | .photoAlbums | .photoDone => .words
  | .visHiddenExtensions | .visHiddenNames | .watchedFolders => .wordSet
  | .overrides => .overrides
  | .hosts => .hosts
  | .favorites => .favorites
  | .bookmarks => .bookmarks
  | .pins => .pins
  | .savedSearches => .savedSearches
  | .syncRules => .rules
  | .lastHost => .plain

def Key.kind : Key → Kind
  | .named name => Name.kind name
  | .roots _ => .roots
  | .lastSeen _ => .time

section Writing
variable (E : Engine)

def Kind.Value : Kind → Type
  | .flag => Bool
  | .number => E.Num
  | .word => Text
  | .words => List Text
  | .wordSet => List Text
  | .overrides => List (Text × DeviceOverrides)
  | .hosts => List Host
  | .favorites => List Favorite
  | .bookmarks => List (Bookmark E.Num)
  | .pins => List Pin
  | .savedSearches => List SavedSearch
  | .rules => List SyncRule
  | .plain => Text
  | .roots => CachedRoots E.Num
  | .time => {n : E.Num // E.finite n = true}

def json : (kind : Kind) → kind.Value E → Json E.Num
  | .flag,value => .bool value
  | .number,value => .num value
  | .word,value => .str value
  | .words,value => texts E.toNumerals value
  | .wordSet,value => setJson E.toNumerals value
  | .overrides,value => overridesJson E.toNumerals value
  | .hosts,value => hostsJson E.toNumerals value
  | .favorites,value => saveJson E.toNumerals (favoriteJson E.toNumerals) value
  | .bookmarks,value => saveJson E.toNumerals (bookmarkJson E.toNumerals) value
  | .pins,value => saveJson E.toNumerals (pinJson E.toNumerals) value
  | .savedSearches,value => savedJson E.toNumerals value
  | .rules,value => rulesJson E.toNumerals value
  | .plain,value => .str value
  | .roots,value => rootsJson E.toNumerals value
  | .time,value => .num value.1

def encode : (kind : Kind) → kind.Value E → Text
  | .plain,value => value
  | kind,value => stringify E.toNumerals (json E kind value)

-- One kv.set or kv.remove: of a store under its own key, or of another part of
-- the app under a key that is no store's.
inductive Change where
  | stored (key : Key) (value : Option ((Key.kind key).Value E))
  | foreign (key : Text) (text : Option Text) (outside : ∀ own : Key, own.text ≠ key)

variable {E}

def applied (rows : Rows) : Change E → Rows
  | .stored key (some value) => rows.set key.text (encode E (Key.kind key) value)
  | .stored key none => rows.remove key.text
  | .foreign key (some text) _ => rows.set key text
  | .foreign key none _ => rows.remove key

def written (changes : List (Change E)) : Rows := changes.foldl applied Entries.empty

def saveHosts (hosts : List Host) : Change E := .stored (.named .hosts) (some hosts)
def writeLastHostId (id : Text) : Change E := .stored (.named .lastHost) (some id)
def setLastSeen (hostId : Text) (time : E.Num) (finite : E.finite time = true) : Change E := .stored (.lastSeen hostId) (some ⟨time,finite⟩)

end Writing

section Reading
variable (E : Engine)

structure Stores where
  hosts : List Host
  settings : SettingsState E.Num
  favorites : List Favorite
  bookmarks : List (Bookmark E.Num)
  pins : List Pin
  recentSearches : List Text
  savedSearches : List SavedSearch
  rules : List SyncRule
  photos : PhotoBackupPrefs
  done : List Text
  lastHost : Option Text
  roots : Text → Option (LoadedRoots E.Num)
  lastSeen : Text → Option E.Num

def Rows.named (rows : Rows) (name : Name) : Option Text := rows.get (Key.named name).text

def stores (rows : Rows) : Stores E where
  hosts := listHosts E.toNumerals (Rows.named rows .hosts)
  settings := loadSettings E.toNumerals (Rows.named rows)
  favorites := load E.toNumerals (parseFavorite E.toNumerals) (Rows.named rows .favorites)
  bookmarks := load E.toNumerals (parseBookmark E.toNumerals) (Rows.named rows .bookmarks)
  pins := load E.toNumerals (parsePin E.toNumerals) (Rows.named rows .pins)
  recentSearches := loadRecent E.toNumerals (Rows.named rows .recentSearches)
  savedSearches := loadSaved E.toNumerals (Rows.named rows .savedSearches)
  rules := listRules E (Rows.named rows .syncRules)
  photos := loadPhotos E.toNumerals (Rows.named rows)
  done := doneIds E.toNumerals (Rows.named rows .photoDone)
  lastHost := Rows.named rows .lastHost
  roots := fun hostId => loadRoots E.toNumerals (rows.get (Key.roots hostId).text)
  lastSeen := fun hostId => getLastSeen E (rows.get (Key.lastSeen hostId).text)

end Reading

section Runs
variable {E : Engine}

def Kept (E : Engine) (rows : Rows) : Prop := ∀ key text, rows.get (Key.text key) = some text → ∃ value, text = encode E (Key.kind key) value

theorem applied_kept (kept : Kept E rows) (change : Change E) : Kept E (applied rows change) := by
  intro key text found
  cases change with
  | stored own value =>
    cases value with
    | some value =>
      rw [applied,get_set] at found
      split at found
      · rename_i same
        cases key_inj same
        cases found
        exact ⟨value,rfl⟩
      · exact kept key text found
    | none =>
      rw [applied,get_remove] at found
      split at found
      · cases found
      · exact kept key text found
  | foreign other value outside =>
    have apart : key.text ≠ other := outside key
    cases value with
    | some value =>
      rw [applied,get_set,if_neg apart] at found
      exact kept key text found
    | none =>
      rw [applied,get_remove,if_neg apart] at found
      exact kept key text found

theorem foldl_kept (kept : Kept E rows) (changes : List (Change E)) : Kept E (changes.foldl applied rows) := by
  induction changes generalizing rows with
  | nil => exact kept
  | cons change rest ih => exact ih (applied_kept kept change)

theorem empty_kept : Kept E Entries.empty := by
  intro key text found
  cases found

theorem written_kept (changes : List (Change E)) : Kept E (written changes) := foldl_kept empty_kept changes

end Runs

end RemoteFileExplorer.AppRows
