import RemoteFileExplorer.AppRows

namespace RemoteFileExplorer.Backups
open JsonTexts AppKeys AppSettings AppRecords KeyedEntries AppRows

section Payloads
variable (N : Numerals)

inductive PrefType where
  | bool
  | int
  | double
  | string
  | stringList
  deriving DecidableEq, Repr

def PrefType.word : PrefType → String
  | .bool => "bool"
  | .int => "int"
  | .double => "double"
  | .string => "string"
  | .stringList => "stringList"

def PrefType.text (t : PrefType) : Text := t.word.toList

def PrefType.of (text : Text) : Option PrefType := [PrefType.bool,.int,.double,.string,.stringList].find? (fun t => t.text = text)

inductive PrefEntry where
  | bool (v : Bool)
  | int (v : N.Num) (finite : N.finite v = true)
  | double (v : N.Num) (finite : N.finite v = true)
  | string (v : Text)
  | stringList (v : List Text)

structure BackupPayload where
  version : N.Num
  createdAt : Text
  prefs : Entries Text (PrefEntry N)
  secure : Entries Text Text

def typed : Json N.Num → Option (PrefEntry N)
  | .bool v => some (.bool v)
  | .num v => if finite : N.finite v = true then some (if N.integer v then .int v finite else .double v finite) else none
  | .str v => some (.string v)
  | .arr items => some (.stringList (items.map (encoded N)))
  | _ => none

def prefOf (raw : Text) : Option (PrefEntry N) := typed N ((parse N raw).getD (.str raw))

def kvToPrefs (rows : Rows) : Entries Text (PrefEntry N) := rows.choose (fun key raw => if isBackedUpPrefKey key then prefOf N raw else none)

variable {N}

def PrefEntry.type : PrefEntry N → PrefType
  | .bool _ => .bool
  | .int _ _ => .int
  | .double _ _ => .double
  | .string _ => .string
  | .stringList _ => .stringList

def PrefEntry.value : PrefEntry N → Json N.Num
  | .bool v => .bool v
  | .int v _ | .double v _ => .num v
  | .string v => .str v
  | .stringList v => texts N v

def PrefEntry.text (entry : PrefEntry N) : Text := stringify N entry.value

def prefsToKv (prefs : Entries Text (PrefEntry N)) : Rows := prefs.choose (fun key entry => if isBackedUpPrefKey key then some entry.text else none)

variable (N)

def buildPayload (rows : Rows) (secureAll : Entries Text Text) (now : Text) : BackupPayload N :=
  ⟨N.read ['1'],now,kvToPrefs N rows,secureAll.keep isBackedUpSecureKey⟩

variable {N}

def PrefEntry.json (entry : PrefEntry N) : Json N.Num := .obj [("t".toList,.str entry.type.text),("v".toList,entry.value)]

def BackupPayload.json (payload : BackupPayload N) : Json N.Num :=
  .obj [("version".toList,.num payload.version),("createdAt".toList,.str payload.createdAt),
    ("prefs".toList,.obj (payload.prefs.list.map (fun entry => (entry.1,entry.2.json)))),
    ("secure".toList,.obj (payload.secure.list.map (fun entry => (entry.1,.str entry.2))))]

end Payloads

section Parsing
variable (N : Numerals)

inductive Refusal where
  | corrupted
  | malformed
  | unknownType (t : Text)
  deriving DecidableEq, Repr

def Refusal.message : Refusal → Text
  | .corrupted => "This backup file is corrupted.".toList
  | .malformed => "Malformed backup payload.".toList
  | .unknownType t => "Unknown preference type \"".toList ++ t ++ "\" in backup.".toList

-- Object.entries: the items of an array go by their places.
def entriesOf : Json N.Num → Option (List (Text × Json N.Num))
  | .obj fields => some fields
  | .arr items => some (items.zipIdx.map (fun p => ((toString p.2).toList,p.1)))
  | _ => none

def accepted : Option PrefType → Option (Json N.Num) → Option (PrefEntry N)
  | some .bool,some (.bool v) => some (.bool v)
  | some .int,some (.num v) => if finite : N.finite v = true then some (.int v finite) else none
  | some .double,some (.num v) => if finite : N.finite v = true then some (.double v finite) else none
  | some .string,some (.str v) => some (.string v)
  | some .stringList,some (.arr items) => (allTexts N items).map .stringList
  | _,_ => none

def checkEntry (e : Json N.Num) : Except Refusal (PrefEntry N) :=
  match accepted N ((stringField N "t" e).bind PrefType.of) (field N "v" e) with
  | some entry => .ok entry
  | none =>
    match stringField N "t" e with
    | some t => .error (if (PrefType.of t).isNone then .unknownType t else .corrupted)
    | none => .error .corrupted

def parsePrefs : List (Text × Json N.Num) → Entries Text (PrefEntry N) → Except Refusal (Entries Text (PrefEntry N))
  | [],prefs => .ok prefs
  | (k,e)::rest,prefs =>
    match checkEntry N e with
    | .ok entry => parsePrefs rest (prefs.set k entry)
    | .error refusal => .error refusal

def parseSecure : List (Text × Json N.Num) → Entries Text Text → Except Refusal (Entries Text Text)
  | [],secure => .ok secure
  | (k,v)::rest,secure =>
    match asText N v with
    | some text => parseSecure rest (secure.set k text)
    | none => .error .corrupted

def parsePayload (text : Text) : Except Refusal (BackupPayload N) :=
  match parse N text with
  | none => .error .corrupted
  | some d =>
    match (field N "prefs" d).bind (entriesOf N),(field N "secure" d).bind (entriesOf N) with
    | some prefs,some secure =>
      match parsePrefs N prefs Entries.empty with
      | .error refusal => .error refusal
      | .ok prefs =>
        match parseSecure N secure Entries.empty with
        | .error refusal => .error refusal
        | .ok secure => .ok
            ⟨((field N "version" d).bind (anyNumber N)).getD (N.read ['1']),(stringField N "createdAt" d).getD [],prefs,secure⟩
    | _,_ => .error .malformed

end Parsing

structure Phone where
  rows : Rows
  secure : Entries Text Text

inductive Call where
  | replaceOwned (rows : Rows)
  | delete (key : Text)
  | write (key value : Text)

def Call.act (phone : Phone) : Call → Phone
  | .replaceOwned rows => {phone with rows := (phone.rows.keep (fun key => !isBackedUpPrefKey key)).setAll rows}
  | .delete key => {phone with secure := phone.secure.remove key}
  | .write key value => {phone with secure := phone.secure.set key value}

def perform (fails : Nat → Bool) : Nat → List Call → Phone → Bool × Nat × Phone
  | n,[],phone => (true,n,phone)
  | n,call::rest,phone => if fails n then (false,n + 1,phone) else perform fails (n + 1) rest (call.act phone)

def calls (rows : Rows) (prev next : Entries Text Text) : List Call :=
  .replaceOwned rows::(((prev.list.map Prod.fst).filter (fun key => (next.get key).isNone)).map Call.delete ++ next.list.map (fun entry => .write entry.1 entry.2))

inductive Outcome where
  | refused (refusal : Refusal)
  | failed (phone : Phone)
  | imported (phone : Phone)

def importEnvelope (N : Numerals) (fails : Nat → Bool) (phone : Phone) (text : Text) : Outcome :=
  match parsePayload N text with
  | .error refusal => .refused refusal
  | .ok payload =>
    let prevRows := phone.rows.keep isBackedUpPrefKey
    let prevSecure := phone.secure.keep isBackedUpSecureKey
    let nextSecure := payload.secure.keep isBackedUpSecureKey
    match perform fails 0 (calls (prefsToKv payload.prefs) prevSecure nextSecure) phone with
    | (true,_,after) => .imported after
    | (false,n,after) => .failed (perform fails n (calls prevRows nextSecure prevSecure) after).2.2

def exportPayload (N : Numerals) (phone : Phone) (now : Text) : Text := stringify N (buildPayload N phone.rows phone.secure now).json

end RemoteFileExplorer.Backups
