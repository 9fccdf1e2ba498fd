import RemoteFileExplorer.AppKeys
import RemoteFileExplorer.KeyedEntries

namespace RemoteFileExplorer.AppSettings
open JsonTexts AppKeys KeyedEntries

inductive SortField where
  | name
  | size
  | date
  | type
  deriving DecidableEq, Repr

inductive EntryDensity where
  | comfortable
  | compact
  deriving DecidableEq, Repr

inductive ThemeMode where
  | system
  | light
  | dark
  deriving DecidableEq, Repr

def SortField.text : SortField → Text
  | .name => "name".toList
  | .size => "size".toList
  | .date => "date".toList
  | .type => "type".toList

def EntryDensity.text : EntryDensity → Text
  | .comfortable => "comfortable".toList
  | .compact => "compact".toList

def ThemeMode.text : ThemeMode → Text
  | .system => "system".toList
  | .light => "light".toList
  | .dark => "dark".toList

def SORT_FIELDS : List SortField := [.name,.size,.date,.type]
def DENSITIES : List EntryDensity := [.comfortable,.compact]
def THEMES : List ThemeMode := [.system,.light,.dark]

structure SortOrder where
  field : SortField
  ascending : Bool
  deriving DecidableEq, Repr

-- A set of texts is the list of its members in the order they were added.
structure VisibilityPrefs where
  hideDotfiles : Bool
  hiddenExtensions : List Text
  hiddenNames : List Text
  deriving DecidableEq, Repr

structure AppDefaults (Num : Type) where
  gridView : Bool
  density : EntryDensity
  sort : SortOrder
  visibility : VisibilityPrefs
  themeMode : ThemeMode
  dynamicColor : Bool
  notificationsEnabled : Bool
  lowDiskThresholdBytes : Num
  appLockEnabled : Bool
  amoledDark : Bool
  seedColor : Option Num
  watchedFolders : List Text
  compressDownloadsOnCellular : Bool
  preloadPreviewOnCellular : Bool
  weeklyDigestEnabled : Bool

structure DeviceOverrides where
  gridView : Option Bool
  density : Option EntryDensity
  sort : Option SortOrder
  visibility : Option VisibilityPrefs
  deriving DecidableEq, Repr

structure SettingsState (Num : Type) where
  app : AppDefaults Num
  overrides : List (Text × DeviceOverrides)

section Reading
variable (N : Numerals)

def field (name : String) : Json N.Num → Option (Json N.Num)
  | .obj fields => find fields name.toList
  | _ => none

def asBool : Json N.Num → Option Bool
  | .bool b => some b
  | _ => none

def asText : Json N.Num → Option Text
  | .str s => some s
  | _ => none

def asNumber : Json N.Num → Option N.Num
  | .num n => if N.finite n then some n else none
  | _ => none

def asItems : Json N.Num → Option (List (Json N.Num))
  | .arr items => some items
  | _ => none

-- typeof v === 'object' && v !== null: an array is an object too.
def isObject : Json N.Num → Bool
  | .obj _ | .arr _ => true
  | _ => false

def choice (allowed : List α) (text : α → Text) (s : Text) : Option α := allowed.find? (fun a => text a == s)

def raw (row : Option Text) : Option (Json N.Num) := row.bind (parse N)

def bool (row : Option Text) (d : Bool) : Bool := ((raw N row).bind (asBool N)).getD d

def int (row : Option Text) : Option N.Num := (raw N row).bind (asNumber N)

def oneOf (allowed : List α) (text : α → Text) (row : Option Text) (d : α) : α :=
  (((raw N row).bind (asText N)).bind (choice allowed text)).getD d

def unwrapped : Json N.Num → Option (Json N.Num)
  | .str s => parse N s
  | other => some other

def decodeStringSet (v : Option (Json N.Num)) : List Text :=
  ((((v.bind (unwrapped N)).bind (asItems N)).getD []).filterMap (asText N)).eraseDups

def stringSet (row : Option Text) : List Text := decodeStringSet N (raw N row)

def json (row : Option Text) : Option (Json N.Num) := (raw N row).bind (unwrapped N)

def visibilityFromJson (m : Json N.Num) : VisibilityPrefs :=
  ⟨((field N "hideDotfiles" m).bind (asBool N)).getD true,decodeStringSet N (field N "hiddenExtensions" m),decodeStringSet N (field N "hiddenNames" m)⟩

def sortFromJson (m sortField : Json N.Num) : SortOrder :=
  ⟨((asText N sortField).bind (choice SORT_FIELDS SortField.text)).getD .name,((field N "sortAscending" m).bind (asBool N)).getD true⟩

def overrideFromJson (m : Json N.Num) : DeviceOverrides :=
  ⟨(field N "gridView" m).bind (asBool N),
    ((field N "density" m).bind (asText N)).bind (choice DENSITIES EntryDensity.text),
    (field N "sortField" m).map (sortFromJson N m),
    ((field N "visibility" m).filter (isObject N)).map (visibilityFromJson N)⟩

def DeviceOverrides.isEmpty (o : DeviceOverrides) : Bool := o.gridView.isNone && o.density.isNone && o.sort.isNone && o.visibility.isNone

def loadOverrides (blob : Option (Json N.Num)) : List (Text × DeviceOverrides) :=
  match blob with
  | some (.obj fields) =>
    (fields.map (fun entry => (entry.1,overrideFromJson N entry.2))).filter (fun entry => !entry.2.isEmpty)
  | _ => []

-- 1024 * 1024 * 1024
def lowDiskDefault : N.Num := N.read ['1','0','7','3','7','4','1','8','2','4']

def loadSettings (kv : Name → Option Text) : SettingsState N.Num where
  app :=
    { gridView := bool N (kv .gridView) false
      density := oneOf N DENSITIES EntryDensity.text (kv .density) .comfortable
      sort := ⟨oneOf N SORT_FIELDS SortField.text (kv .sortField) .name,bool N (kv .sortAscending) true⟩
      visibility := ⟨bool N (kv .visHideDotfiles) true,stringSet N (kv .visHiddenExtensions),stringSet N (kv .visHiddenNames)⟩
      themeMode := oneOf N THEMES ThemeMode.text (kv .themeMode) .system
      dynamicColor := bool N (kv .dynamicColor) false
      notificationsEnabled := bool N (kv .notifications) true
      lowDiskThresholdBytes := (int N (kv .lowDiskThreshold)).getD (lowDiskDefault N)
      appLockEnabled := bool N (kv .appLock) false
      amoledDark := bool N (kv .amoled) false
      seedColor := int N (kv .seedColor)
      watchedFolders := stringSet N (kv .watchedFolders)
      compressDownloadsOnCellular := bool N (kv .compressCellular) true
      preloadPreviewOnCellular := bool N (kv .preloadCellular) false
      weeklyDigestEnabled := bool N (kv .weeklyDigest) false }
  overrides := loadOverrides N (json N (kv .overrides))

end Reading

section Writing
variable (N : Numerals)

def record (fields : List (String × Option (Json N.Num))) : Json N.Num :=
  .obj (fields.filterMap (fun entry => entry.2.map (fun v => (entry.1.toList,v))))

def texts (list : List Text) : Json N.Num := .arr (list.map .str)

def setJson (set : List Text) : Json N.Num := .str (stringify N (texts N set))

def visibilityToJson (v : VisibilityPrefs) : Json N.Num :=
  record N [("hideDotfiles",some (.bool v.hideDotfiles)),("hiddenExtensions",some (texts N v.hiddenExtensions)),("hiddenNames",some (texts N v.hiddenNames))]

def overrideToJson (o : DeviceOverrides) : Json N.Num :=
  record N [("gridView",o.gridView.map .bool),("density",o.density.map (.str ·.text)),("sortField",o.sort.map (.str ·.field.text)),
    ("sortAscending",o.sort.map (.bool ·.ascending)),("visibility",o.visibility.map (visibilityToJson N))]

def overridesJson (overrides : List (Text × DeviceOverrides)) : Json N.Num :=
  .str (stringify N (.obj ((overrides.filter (fun entry => !entry.2.isEmpty)).map (fun entry => (entry.1,overrideToJson N entry.2)))))

end Writing

end RemoteFileExplorer.AppSettings
