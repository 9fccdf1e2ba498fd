import Mathlib.Data.List.Lex
import RemoteFileExplorer.Pages
import RemoteFileExplorer.PathTexts

namespace RemoteFileExplorer.BatchRenames
open PathTexts

-- The folder on screen. Every item of it has the path `place name`.
structure Folder where
  dir : Text
  sep : Char
  slash : sep = '/' ∨ sep = '\\'
  rooted : dir ≠ [sep]

def Folder.place (folder : Folder) (name : Text) : Text := folder.dir ++ folder.sep::name

def isBlank (c : Char) : Bool :=
  c ∈ ['\t','\n','\x0b','\x0c','\r',' '] || c.toNat ∈ [0xa0,0x1680,0x2028,0x2029,0x202f,0x205f,0x3000,0xfeff] || (0x2000 ≤ c.toNat && c.toNat ≤ 0x200a)

def invalidNameReason (name : Text) : Option Text :=
  if name.all isBlank then some "A name cannot be empty".toList
  else if name = ['.'] ∨ name = ['.','.'] then some ('"'::name ++ "\" is not a usable name".toList)
  else if '/' ∈ name ∨ '\\' ∈ name then some "A name can't contain / or \\ (that would move the item)".toList
  else if name.any (fun c => c.toNat < 0x20) then some "A name can't contain control characters".toList
  else none

def beforeLast (sep : Char) (path : Text) : Option Text :=
  if sep ∈ path then some (path.rdropWhile (· ≠ sep)).dropLast else none

def renameDestination (oldPath newName : Text) : Text :=
  let sep := if '\\' ∈ oldPath then '\\' else '/'
  let parent := match beforeLast sep oldPath with
    | none | some [] => [sep]
    | some front => front
  if parent = [sep] then sep::newName else parent ++ sep::newName

structure Host (Item : Type) where
  entries : List (Text × Item)
  distinct : (entries.map Prod.fst).Nodup

variable {Item : Type}

def Host.paths (host : Host Item) : List Text := host.entries.map Prod.fst

def relabel (src dst : Text) (entry : Text × Item) : Text × Item := if entry.1 = src then (dst,entry.2) else entry

theorem relabel_distinct {entries : List (Text × Item)} (distinct : (entries.map Prod.fst).Nodup) (free : dst ∉ entries.map Prod.fst) :
    ((entries.map (relabel src dst)).map Prod.fst).Nodup := by
  rw [List.map_map]
  refine List.Nodup.map_on ?_ (List.Nodup.of_map _ distinct)
  intro a left b right same
  have names : ∀ x ∈ entries, ∀ y ∈ entries, x.1 = y.1 → x = y := fun x hx y hy => List.inj_on_of_nodup_map distinct hx hy
  have absent : ∀ x ∈ entries, x.1 ≠ dst := fun x member same => free (same ▸ List.mem_map_of_mem member)
  simp only [Function.comp_apply,relabel] at same
  split at same <;> split at same
  · rename_i one two
    exact names a left b right (one.trans two.symm)
  · exact absurd same.symm (absent b right)
  · exact absurd same (absent a left)
  · exact names a left b right same

-- A rename fails only when the target exists.
def Host.rename (host : Host Item) (src dst : Text) : Option (Host Item) :=
  if taken : dst ∈ host.entries.map Prod.fst then none else some ⟨host.entries.map (relabel src dst),relabel_distinct host.distinct taken⟩

structure Rename where
  path : Text
  newName : Text
  deriving DecidableEq, Repr

inductive ErrorCode where
  | invalidName
  | targetExists
  | duplicateTarget
  | renameFailed
  | renameStranded
  deriving DecidableEq, Repr

structure ItemResult where
  path : Text
  ok : Bool
  errorCode : Option ErrorCode
  errorMessage : Option Text
  deriving DecidableEq, Repr

def Rename.dst (r : Rename) : Text := renameDestination r.path r.newName

def Rename.valid (r : Rename) : Bool := (invalidNameReason r.newName).isNone

def tempFront : Text := ['.','r','f','e','-','r','n','-']

def tempName (i : Nat) (newName : Text) : Text := tempFront ++ Nat.toDigits 10 i ++ '-'::newName

abbrev Request := Rename × Nat

def tmp (r : Request) : Text := renameDestination r.1.path (tempName r.2 r.1.newName)

def existsMessage (newName : Text) : Text := '"'::newName ++ "\" already exists in this folder".toList
def duplicateMessage (newName : Text) : Text := "Another selected item is also being renamed to \"".toList ++ newName ++ ['"']

section Batch
variable (renames : List Rename)

def count (dst : Text) : Nat := renames.countP (fun r => r.valid && r.dst == dst)

def moving (r : Rename) : Bool := r.valid && r.dst != r.path && count renames r.dst ≤ 1

-- One round of refusals: a request stays if its target is not shown, or is the
-- path of a request that has not been refused before the round.
def round (shown : List Text) (going : List Request) : List Request :=
  going.filter (fun r => !(r.1.dst ∈ shown && !(r.1.dst ∈ going.map (fun other => other.1.path))))

def settle (shown : List Text) : Nat → List Request → List Request
  | 0,going => going
  | fuel + 1,going => if round shown going = going then going else settle shown fuel (round shown going)

def goingAhead (shown : List Text) : List Request :=
  settle shown renames.length (renames.zipIdx.filter (fun r => moving renames r.1))

def turnedDown (going : List Request) (r : Request) : Option ItemResult :=
  match invalidNameReason r.1.newName with
  | some reason => some ⟨r.1.path,false,some .invalidName,some reason⟩
  | none =>
    if r.1.dst = r.1.path then some ⟨r.1.path,true,none,none⟩
    else if moving renames r.1 ∧ r ∉ going then
      some ⟨r.1.path,false,some .targetExists,some (existsMessage r.1.newName)⟩
    else if 1 < count renames r.1.dst then
      some ⟨r.1.path,false,some .duplicateTarget,some (duplicateMessage r.1.newName)⟩
    else none

end Batch

structure Batch (Item : Type) where
  host : Host Item
  results : List ItemResult
  pending : List Request

def failed (refusal path : Text) : ItemResult := ⟨path,false,some .renameFailed,some refusal⟩

def stranded (refusal : Text) (r : Request) : ItemResult :=
  ⟨tmp r,false,some .renameStranded,some ("Could not rename it, and could not restore the name ".toList ++ r.1.path ++ ": it was left as ".toList ++ tmp r ++
    ". ".toList ++ refusal)⟩

def park (renames : List Rename) (refusal : Text) (going : List Request) (s : Batch Item) (r : Request) : Batch Item :=
  match turnedDown renames going r with
  | some result => {s with results := s.results ++ [result]}
  | none =>
    match s.host.rename r.1.path (tmp r) with
    | some host => {s with host := host,pending := s.pending ++ [r]}
    | none => {s with results := s.results ++ [failed refusal r.1.path]}

def land (refusal : Text) (s : Host Item × List ItemResult) (r : Request) : Host Item × List ItemResult :=
  match s.1.rename (tmp r) r.1.dst with
  | some host => (host,s.2 ++ [⟨r.1.dst,true,none,none⟩])
  | none =>
    match s.1.rename (tmp r) r.1.path with
    | some host => (host,s.2 ++ [failed refusal r.1.path])
    | none => (s.1,s.2 ++ [stranded refusal r])

-- `screen` holds the paths of the entries on screen.
def batchRename (refusal : Text) (host : Host Item) (screen : List Text) (renames : List Rename) : Host Item × List ItemResult :=
  let shown := screen ++ Pages.collect id 200 host.paths (host.paths.length + 1) none
  let going := goingAhead renames shown
  let parked := renames.zipIdx.foldl (park renames refusal going) ⟨host,[],[]⟩
  parked.pending.foldl (land refusal) (parked.host,parked.results)

end RemoteFileExplorer.BatchRenames
