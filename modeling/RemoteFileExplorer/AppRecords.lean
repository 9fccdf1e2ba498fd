import RemoteFileExplorer.AppSettings
import RemoteFileExplorer.PairedHosts

namespace RemoteFileExplorer.AppRecords
open JsonTexts AppKeys AppSettings
open PairedHosts (Host)

-- What the stores use of the language besides JSON: Number of a text, and
-- whether Date.parse of a text gives a time.
structure Engine extends Numerals where
  numberOf : Text → Num
  dateParses : Text → Bool

section Hosts
variable (N : Numerals)

def stringField (name : String) (j : Json N.Num) : Option Text := (field N name j).bind (asText N)

def hostFromJson (j : Json N.Num) : Option Host :=
  match stringField N "id" j,stringField N "label" j,stringField N "address" j with
  | some id,some label,some address => some
      { id := String.ofList id
        label := String.ofList label
        address := String.ofList address
        certFingerprint := stringField N "certFingerprint" j
        tailscaleName := (stringField N "tailscaleName" j).map String.ofList
        tailscaleAddress := (stringField N "tailscaleAddress" j).map String.ofList
        internetAddress := (stringField N "internetAddress" j).map String.ofList
        macAddress := (stringField N "macAddress" j).map String.ofList
        note := (stringField N "note" j).map String.ofList }
  | _,_,_ => none

def stringRecord (fields : List (String × Option Text)) : Json N.Num := record N (fields.map (fun entry => (entry.1,entry.2.map .str)))

def hostFields (host : Host) : List (String × Option Text) :=
  [("id",some host.id.toList),("label",some host.label.toList),("address",some host.address.toList),("certFingerprint",host.certFingerprint),
    ("tailscaleName",host.tailscaleName.map String.toList),("tailscaleAddress",host.tailscaleAddress.map String.toList),
    ("internetAddress",host.internetAddress.map String.toList),("macAddress",host.macAddress.map String.toList),("note",host.note.map String.toList)]

def hostToJson (host : Host) : Json N.Num := stringRecord N (hostFields host)

def listed (row : Option Text) : List (Json N.Num) := ((raw N row).bind (asItems N)).getD []

def listHosts (row : Option Text) : List Host := (listed N row).filterMap (fun e => (unwrapped N e).bind (hostFromJson N))

def hostsJson (hosts : List Host) : Json N.Num := .arr (hosts.map (hostToJson N))

end Hosts

section Collections
variable (N : Numerals)

structure Favorite where
  hostId : Text
  path : Text
  label : Text
  deriving DecidableEq, Repr

structure Bookmark (Num : Type) where
  hostId : Text
  remotePath : Text
  tag : Option Text
  color : Option Num

structure Pin where
  hostId : Text
  remotePath : Text
  deriving DecidableEq, Repr

structure SavedSearch where
  name : Text
  query : Text
  deriving DecidableEq, Repr

def nonempty (s : Option Text) : Option Text := s.filter (· ≠ [])

def isRecord : Json N.Num → Bool
  | .obj _ => true
  | _ => false

def parseFavorite (v : Json N.Num) : Option Favorite :=
  match nonempty (stringField N "hostId" v),nonempty (stringField N "path" v),stringField N "label" v with
  | some hostId,some path,some label => some ⟨hostId,path,label⟩
  | _,_,_ => none

def anyNumber : Json N.Num → Option N.Num
  | .num n => some n
  | _ => none

def parseBookmark (v : Json N.Num) : Option (Bookmark N.Num) :=
  match nonempty (stringField N "hostId" v),nonempty (stringField N "remotePath" v) with
  | some hostId,some remotePath => some ⟨hostId,remotePath,nonempty (stringField N "tag" v),(field N "color" v).bind (anyNumber N)⟩
  | _,_ => none

def parsePin (v : Json N.Num) : Option Pin :=
  match nonempty (stringField N "hostId" v),nonempty (stringField N "remotePath" v) with
  | some hostId,some remotePath => some ⟨hostId,remotePath⟩
  | _,_ => none

def parseSavedSearch (v : Json N.Num) : Option SavedSearch :=
  if isRecord N v then some ⟨(stringField N "name" v).getD [],(stringField N "query" v).getD []⟩ else none

-- A string item that is no JSON stands for itself.
def item : Json N.Num → Json N.Num
  | .str s => (parse N s).getD (.str s)
  | other => other

def load (parseItem : Json N.Num → Option α) (row : Option Text) : List α := (listed N row).filterMap (fun e => parseItem (item N e))

def encoded : Json N.Num → Text
  | .str s => s
  | other => stringify N other

def saveJson (serialize : α → Json N.Num) (items : List α) : Json N.Num := texts N (items.map (fun i => encoded N (serialize i)))

def favoriteJson (f : Favorite) : Json N.Num := record N [("hostId",some (.str f.hostId)),("path",some (.str f.path)),("label",some (.str f.label))]

def bookmarkJson (b : Bookmark N.Num) : Json N.Num :=
  record N [("hostId",some (.str b.hostId)),("remotePath",some (.str b.remotePath)),("tag",b.tag.map .str),("color",b.color.map .num)]

def pinJson (p : Pin) : Json N.Num := record N [("hostId",some (.str p.hostId)),("remotePath",some (.str p.remotePath))]

def savedSearchJson (s : SavedSearch) : Json N.Num := record N [("name",some (.str s.name)),("query",some (.str s.query))]

def loadRecent (row : Option Text) : List Text := load N (asText N) row

def loadSaved (row : Option Text) : List SavedSearch :=
  ((((raw N row).bind (unwrapped N)).bind (asItems N)).getD []).filterMap (parseSavedSearch N)

def savedJson (items : List SavedSearch) : Json N.Num := .str (stringify N (.arr (items.map (savedSearchJson N))))

end Collections

section Rules
variable (E : Engine)

structure SyncRule where
  id : Text
  hostId : Text
  remotePath : Text
  localPath : Text
  enabled : Bool
  lastSync : Option Text
  deriving DecidableEq, Repr

def parseRule (raw : Json E.Num) : Option SyncRule :=
  (unwrapped E.toNumerals raw).bind (fun r =>
    match stringField E.toNumerals "id" r,stringField E.toNumerals "hostId" r,stringField E.toNumerals "remotePath" r,stringField E.toNumerals "localPath" r with
    | some id,some hostId,some remotePath,some localPath => some
        ⟨id,hostId,remotePath,localPath,((field E.toNumerals "enabled" r).bind (asBool E.toNumerals)).getD true,
          (stringField E.toNumerals "lastSync" r).filter E.dateParses⟩
    | _,_,_,_ => none)

def listRules (row : Option Text) : List SyncRule := (listed E.toNumerals row).filterMap (parseRule E)

def ruleJson (N : Numerals) (r : SyncRule) : Json N.Num :=
  record N [("id",some (.str r.id)),("hostId",some (.str r.hostId)),("remotePath",some (.str r.remotePath)),("localPath",some (.str r.localPath)),
    ("enabled",some (.bool r.enabled)),("lastSync",r.lastSync.map .str)]

def rulesJson (N : Numerals) (rules : List SyncRule) : Json N.Num := texts N (rules.map (fun r => stringify N (ruleJson N r)))

end Rules

section Photos
variable (N : Numerals)

structure PhotoBackupPrefs where
  enabled : Bool
  hostId : Option Text
  deviceName : Option Text
  wifiOnly : Bool
  chargingOnly : Bool
  albumIds : List Text
  scheduled : Bool
  deriving DecidableEq, Repr

-- A row that is no JSON stands for itself.
def photoValue (row : Option Text) : Option (Json N.Num) := row.map (fun text => (parse N text).getD (.str text))

def photoBool (row : Option Text) (d : Bool) : Bool :=
  match photoValue N row with
  | some (.bool b) => b
  | some (.str s) => if s = "true".toList then true else if s = "false".toList then false else d
  | _ => d

def photoString (row : Option Text) : Option Text := nonempty ((photoValue N row).bind (asText N))

def photoStrings (row : Option Text) : List Text := (((photoValue N row).bind (asItems N)).getD []).filterMap (asText N)

def loadPhotos (kv : Name → Option Text) : PhotoBackupPrefs where
  enabled := photoBool N (kv .photoEnabled) false
  hostId := photoString N (kv .photoHost)
  deviceName := photoString N (kv .photoDeviceName)
  wifiOnly := photoBool N (kv .photoWifiOnly) true
  chargingOnly := photoBool N (kv .photoChargingOnly) false
  albumIds := photoStrings N (kv .photoAlbums)
  scheduled := photoBool N (kv .photoScheduled) false

def doneIds (row : Option Text) : List Text := (photoStrings N row).eraseDups

end Photos

section PerHost
variable (N : Numerals)

structure Drive (Num : Type) where
  path : Text
  label : Option Text
  totalBytes : Option Num
  freeBytes : Option Num
  isOS : Bool

structure CachedRoots (Num : Type) where
  roots : List Text
  os : Option Text
  drives : Option (List (Drive Num))

structure LoadedRoots (Num : Type) where
  roots : List Text
  os : Option Text
  drives : Option (List (Json Num))

def driveJson (d : Drive N.Num) : Json N.Num :=
  record N [("path",some (.str d.path)),("label",d.label.map .str),("totalBytes",d.totalBytes.map .num),("freeBytes",d.freeBytes.map .num),("isOS",some (.bool d.isOS))]

def rootsJson (value : CachedRoots N.Num) : Json N.Num :=
  record N [("roots",some (texts N value.roots)),("os",value.os.map .str),("drives",value.drives.map (fun drives => .arr (drives.map (driveJson N))))]

def allTexts (items : List (Json N.Num)) : Option (List Text) := items.mapM (asText N)

def loadRoots (row : Option Text) : Option (LoadedRoots N.Num) :=
  (raw N row).bind (fun j =>
    (((field N "roots" j).bind (asItems N)).bind (allTexts N)).map (fun roots =>
      ⟨roots,stringField N "os" j,((field N "drives" j).bind (asItems N)).map (·.filter (fun d => (stringField N "path" d).isSome))⟩))

def getLastSeen (E : Engine) (row : Option Text) : Option E.Num := (row.map E.numberOf).filter E.finite

end PerHost

end RemoteFileExplorer.AppRecords
