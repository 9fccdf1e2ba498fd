import Mathlib.Data.List.Induction
import RemoteFileExplorer.DirectoryListings
import RemoteFileExplorer.KeyedEntries

namespace RemoteFileExplorer.DuplicateScans
open FileTree PercentCodes Trash FileOps DirectoryListings KeyedEntries

structure DupGroup (Hash : Type) where
  hash : Hash
  paths : List Bytes

-- do { ... } while (cursor). Out of fuel, or when a listing fails, there is no
-- result.
def pages (list : Option Name → Except OpError Listing) : Nat → Option Name → Option (List Entry)
  | 0,_ => none
  | fuel + 1,cursor =>
    match list cursor with
    | .error _ => none
    | .ok listing =>
      match listing.nextCursor with
      | none => some listing.entries
      | some last => (pages list fuel (some last)).map (listing.entries ++ ·)

-- Links to directories are walked as well, so the walk need not end.
def collect (list : Bytes → Option Name → Except OpError Listing) : Nat → Bytes → Option (List Entry)
  | 0,_ => none
  | fuel + 1,dir =>
    (pages (list dir) fuel none).bind (fun entries =>
      (entries.mapM (fun (e : Entry) => if e.isDir then collect list fuel e.path else some [e])).map List.flatten)

def agentList (disk : Files) (host : Host) (caller : Caller) (path : Bytes) (cursor : Option Name) : Except OpError Listing :=
  listDir disk host caller path cursor 200

def collectFiles (disk : Files) (host : Host) (caller : Caller) (fuel : Nat) (root : Bytes) : Option (List Entry) :=
  collect (agentList disk host caller) fuel root

section Groups
variable {Hash : Type} [DecidableEq Hash]

def byHash (hashes : Bytes → Option Hash) (order : List Bytes) : Entries Hash (List Bytes) :=
  order.foldl (fun map p => (hashes p).elim map (fun h => map.set h ((map.get h).getD [] ++ [p]))) Entries.empty

def sizeOf (sizes : Bytes → Nat) (group : DupGroup Hash) : Nat := group.paths.head?.elim 0 sizes

-- Largest file first.
def groupDuplicates (hashes : Bytes → Option Hash) (sizes : Bytes → Nat) (order : List Bytes) : List (DupGroup Hash) :=
  (((byHash hashes order).list.filter (fun entry => 1 < entry.2.length)).map (fun entry => ⟨entry.1,entry.2⟩)).mergeSort
    (fun a b => sizeOf sizes b ≤ sizeOf sizes a)

def defaultDeletions (groups : List (DupGroup Hash)) : List Bytes := groups.flatMap (fun g => g.paths.drop 1)

-- A path that was listed twice has the size it was listed with last.
def sizesOf (files : List Entry) (path : Bytes) : Nat := ((files.reverse.find? (fun e => e.path == path)).map Entry.size).getD 0

def hashesOf (digest : Bytes → Hash) (disk : Files) (host : Host) (caller : Caller) (path : Bytes) : Option Hash :=
  (checksum disk host caller path).toOption.map digest

def groupsOf (digest : Bytes → Hash) (disk : Files) (host : Host) (caller : Caller) (files : List Entry) : List (DupGroup Hash) :=
  groupDuplicates (hashesOf digest disk host caller) (sizesOf files) (files.map Entry.path)

def scanForDuplicates (digest : Bytes → Hash) (disk : Files) (host : Host) (caller : Caller) (fuel : Nat) (root : Bytes) :
    Option (List (DupGroup Hash)) :=
  (collectFiles disk host caller fuel root).map (groupsOf digest disk host caller)

end Groups

section Grouping
variable {Hash : Type} [DecidableEq Hash] {hashes : Bytes → Option Hash}

def alike (hashes : Bytes → Option Hash) (h : Hash) (order : List Bytes) : List Bytes := order.filter (fun p => hashes p = some h)

theorem byHash_get (order : List Bytes) (h : Hash) :
    (byHash hashes order).get h = if alike hashes h order = [] then none else some (alike hashes h order) := by
  induction order using List.reverseRecOn with
  | nil => rfl
  | append_singleton order p ih =>
    have step : byHash hashes (order ++ [p]) = (hashes p).elim (byHash hashes order) (fun h => (byHash hashes order).set h (((byHash hashes order).get h).getD [] ++ [p])) := by
      rw [byHash,List.foldl_append]
      rfl
    have more : alike hashes h (order ++ [p]) = alike hashes h order ++ if hashes p = some h then [p] else [] := by
      rw [alike,List.filter_append]
      congr 1
      by_cases same : hashes p = some h <;> simp [same]
    rw [step,more]
    cases found : hashes p with
    | none => simpa using ih
    | some other =>
      simp only [Option.elim,Option.some.injEq]
      rw [get_set]
      by_cases same : h = other
      · subst same
        rw [ih]
        by_cases none : alike hashes h order = [] <;> simp [none]
      · rw [if_neg same,if_neg (Ne.symm same),List.append_nil,ih]

theorem mem_defaultDeletions (sizes : Bytes → Nat) (order : List Bytes) (p : Bytes) :
    p ∈ defaultDeletions (groupDuplicates hashes sizes order) ↔ ∃ h, p ∈ (alike hashes h order).drop 1 := by
  simp only [defaultDeletions,groupDuplicates,List.mem_flatMap,List.mem_mergeSort,List.mem_map,List.mem_filter]
  constructor
  · rintro ⟨group,⟨⟨h,paths⟩,⟨member,_⟩,rfl⟩,marked⟩
    have bucket := mem_get member
    rw [byHash_get] at bucket
    split at bucket
    · cases bucket
    · cases bucket
      exact ⟨h,marked⟩
  · rintro ⟨h,marked⟩
    have long : 1 < (alike hashes h order).length := by
      have some_ := List.length_pos_of_mem marked
      rw [List.length_drop] at some_
      omega
    have filled : alike hashes h order ≠ [] := by
      intro empty
      rw [empty] at long
      cases long
    have bucket : (byHash hashes order).get h = some (alike hashes h order) := by rw [byHash_get,if_neg filled]
    exact ⟨⟨h,alike hashes h order⟩,⟨(h,alike hashes h order),⟨get_mem bucket,by simpa using long⟩,rfl⟩,marked⟩

end Grouping

end RemoteFileExplorer.DuplicateScans
