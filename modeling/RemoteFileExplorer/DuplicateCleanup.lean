import RemoteFileExplorer.DuplicateDeletes

namespace RemoteFileExplorer.DuplicateCleanup
open FileTree TreeEdits PercentCodes Trash TrashNames FileOps DirectoryListings DuplicateScans DuplicateDeletes

variable {Hash : Type} [DecidableEq Hash]

def Below (disk : Files) (host : Host) (root : Bytes) (data : Bytes) : Prop :=
  ∃ parts place, Ordinary parts ∧ walk disk.root host.links [] (clean (request root).parts ++ parts) = .found place ∧
    nodeAt disk.root place = some (.file data)

def Stored (disk : Files) (data : Bytes) : Prop := ∃ path, nodeAt disk.root path = some (.file data)

def KeepsContents (digest : Bytes → Hash) (disk : Files) (host : Host) (caller : Caller) (fuel : Nat) (root : Bytes) : Prop :=
  ∀ groups, scanForDuplicates digest disk host caller fuel root = some groups → ∀ removals : List Removal,
    (∀ removal ∈ removals, removal.path ∈ defaultDeletions groups) →
    ∀ data, Below disk host root data → Stored (delete disk host caller removals).1 data

def Spared (hashes : Bytes → Option Hash) (place : Bytes → Option Path) (order : List Bytes) (q : Path) : Prop :=
  ∀ front p back, order = front ++ p::back → place p = some q → ∀ earlier ∈ front, hashes earlier ≠ hashes p

theorem mem_drop_alike {hashes : Bytes → Option Hash} {order : List Bytes} :
    p ∈ (alike hashes h order).drop 1 ↔ hashes p = some h ∧ ∃ front back, order = front ++ p::back ∧ ∃ earlier ∈ front, hashes earlier = some h := by
  induction order with
  | nil => simp [alike]
  | cons first rest ih =>
    by_cases same : hashes first = some h
    · have bucket : (alike hashes h (first::rest)).drop 1 = alike hashes h rest := by simp [alike,same]
      rw [bucket,alike,List.mem_filter]
      simp only [decide_eq_true_eq]
      constructor
      · rintro ⟨member,hashed⟩
        obtain ⟨front,back,split⟩ := List.append_of_mem member
        exact ⟨hashed,first::front,back,by rw [split,List.cons_append],first,List.mem_cons_self ..,same⟩
      · rintro ⟨hashed,front,back,split,earlier,before,_⟩
        refine ⟨?_,hashed⟩
        cases front with
        | nil => cases before
        | cons step front =>
          rw [List.cons_append,List.cons.injEq] at split
          rw [split.2]
          exact List.mem_append_right _ (List.mem_cons_self ..)
    · have bucket : alike hashes h (first::rest) = alike hashes h rest := by simp [alike,same]
      rw [bucket,ih]
      apply and_congr_right
      intro hashed
      constructor
      · rintro ⟨front,back,rfl,earlier,before,found⟩
        exact ⟨first::front,back,rfl,earlier,List.mem_cons_of_mem _ before,found⟩
      · rintro ⟨front,back,split,earlier,before,found⟩
        cases front with
        | nil => cases before
        | cons step front =>
          rw [List.cons_append,List.cons.injEq] at split
          rcases List.mem_cons.mp before with rfl | inside
          · rw [split.1] at same
            exact absurd found same
          · exact ⟨front,back,split.2,earlier,inside,found⟩

variable {tree : Tree} {digest : Bytes → Hash} {host : Host} {caller : Caller} {files : List Entry}

def paths (files : List Entry) : List Bytes := files.map Entry.path

theorem marked_iff : p ∈ defaultDeletions (groupsOf digest tree.disk host caller files) ↔
    ∃ h, hashesOf digest tree.disk host caller p = some h ∧ ∃ front back, paths files = front ++ p::back ∧
      ∃ earlier ∈ front, hashesOf digest tree.disk host caller earlier = some h := by
  rw [groupsOf,mem_defaultDeletions]
  exact exists_congr fun h => mem_drop_alike

theorem spared_iff (stored : nodeAt tree.disk.root q = some (.file data)) :
    Spared (hashesOf digest tree.disk host caller) (located tree.disk host caller) (paths files) q ↔
      ∀ p ∈ defaultDeletions (groupsOf digest tree.disk host caller files), located tree.disk host caller p ≠ some q := by
  constructor
  · intro spared p marked where_
    obtain ⟨h,hashed,front,back,split,earlier,before,found⟩ := marked_iff.mp marked
    exact spared front p back split where_ earlier before (found.trans hashed.symm)
  · intro apart front p back split where_ earlier before same
    have hashed : checksum tree.disk host caller p = .ok data := by
      rw [located] at where_
      cases opened : access tree.disk host caller p with
      | error e =>
        rw [opened] at where_
        cases where_
      | ok resolved =>
        rw [opened] at where_
        cases where_
        exact checksum_file.mpr ⟨resolved,opened,stored⟩
    have digested : hashesOf digest tree.disk host caller p = some (digest data) := by
      rw [hashesOf,hashed]
      rfl
    exact apart p (marked_iff.mpr ⟨digest data,digested,front,back,split,earlier,before,same.trans digested⟩) where_

theorem marked_compared (collected : collectFiles tree.disk host caller fuel root = some files)
    (marked : p ∈ defaultDeletions (groupsOf digest tree.disk host caller files)) : Compared tree host caller p := by
  obtain ⟨h,hashed,front,back,split,_⟩ := marked_iff.mp marked
  have member : p ∈ paths files := by
    rw [split]
    exact List.mem_append_right _ (List.mem_cons_self ..)
  refine ⟨collected_listed collected p member,?_⟩
  rw [hashesOf] at hashed
  cases content : checksum tree.disk host caller p with
  | error e =>
    rw [content] at hashed
    cases hashed
  | ok data => exact ⟨data,rfl⟩

theorem spared_of_keeps (writable : ¬ caller.readOnly = true) (collected : collectFiles tree.disk host caller fuel root = some files)
    (keeps : KeepsContents digest tree.disk host caller fuel root) (below : Below tree.disk host root data) :
    ∃ q, nodeAt tree.disk.root q = some (.file data) ∧
      Spared (hashesOf digest tree.disk host caller) (located tree.disk host caller) (paths files) q := by
  have scanned : scanForDuplicates digest tree.disk host caller fuel root = some (groupsOf digest tree.disk host caller files) := by
    rw [scanForDuplicates,collected]
    rfl
  obtain ⟨chosen,inside,apart,reaches⟩ := representatives (located tree.disk host caller) (defaultDeletions (groupsOf digest tree.disk host caller files))
  obtain ⟨lost,after,_,taken⟩ := each_without (without_start tree.disk) chosen (fun p member => marked_compared collected (inside p member)) apart nofun
  have requested : ∀ removal ∈ chosen.map (fun p => (⟨p,none⟩ : Removal)), removal.path ∈ defaultDeletions (groupsOf digest tree.disk host caller files) := by
    intro removal member
    obtain ⟨p,known,rfl⟩ := List.mem_map.mp member
    exact inside p known
  obtain ⟨q,kept⟩ := keeps _ scanned _ requested data below
  rw [delete,if_neg writable] at kept
  have stored := after.content q data kept
  refine ⟨q,stored,(spared_iff stored).mpr ?_⟩
  intro p marked where_
  obtain ⟨other,member,same⟩ := List.mem_map.mp (reaches p marked)
  have gone := after.absent q (taken other member q (same.trans where_))
  rw [gone] at kept
  cases kept

theorem keeps_of_spared (collected : collectFiles tree.disk host caller fuel root = some files) (stored : nodeAt tree.disk.root q = some (.file data))
    (spared : Spared (hashesOf digest tree.disk host caller) (located tree.disk host caller) (paths files) q) (removals : List Removal)
    (marked : ∀ removal ∈ removals, removal.path ∈ defaultDeletions (groupsOf digest tree.disk host caller files)) :
    Stored (delete tree.disk host caller removals).1 data := by
  have elsewhere := (spared_iff stored).mp spared
  unfold delete
  split
  · exact ⟨q,stored⟩
  · refine ⟨q,(each_left (left_start stored) removals ?_).file⟩
    intro removal member
    exact ⟨marked_compared collected (marked removal member),elsewhere _ (marked removal member)⟩

def folderEntries : List (Name × Node Bytes) := [("a",.file [7]),("b",.link ⟨false,["a"]⟩)]

theorem folder_nodes (stored : nodeAt (.dir [("d",.dir folderEntries)]) path = some node) :
    path = [] ∨ (path = ["d"] ∧ node = .dir folderEntries) ∨ ∃ name, path = ["d",name] ∧ (name,node) ∈ folderEntries := by
  cases path with
  | nil => exact .inl rfl
  | cons first rest =>
    obtain ⟨folder,found,inside⟩ := Option.bind_eq_some_iff.mp stored
    cases List.mem_singleton.mp (child_mem found)
    cases rest with
    | nil =>
      cases inside
      exact .inr (.inl ⟨rfl,rfl⟩)
    | cons name rest =>
      obtain ⟨leaf,found,deeper⟩ := Option.bind_eq_some_iff.mp inside
      have member := child_mem found
      cases rest with
      | nil =>
        cases deeper
        exact .inr (.inr ⟨name,rfl,member⟩)
      | cons step rest =>
        have plain : leaf.isDir = false := by
          simp only [folderEntries,List.mem_cons,List.not_mem_nil,or_false,Prod.mk.injEq] at member
          rcases member with ⟨_,rfl⟩ | ⟨_,rfl⟩ <;> rfl
        rw [nodeAt_leaf plain] at deeper
        cases deeper

def linkedCopy : Tree where
  disk := [("d",.dir folderEntries)]
  named := by
    have names : ∀ name ∈ ["d","a","b"], Proper name ∧ ByteName name := by
      simp [Proper,ByteName]
    intro path entries stands entry member
    apply names
    rcases folder_nodes stands with rfl | ⟨rfl,same⟩ | ⟨name,rfl,listed⟩
    · cases stands
      simp_all
    · cases same
      simp only [folderEntries,List.mem_cons,List.not_mem_nil,or_false] at member
      rcases member with rfl | rfl <;> simp
    · simp [folderEntries] at listed

def openHost : Host := ⟨[],40,⟨["t"],by simp [Ordinary,Proper]⟩⟩
def anyone : Caller := ⟨[],false,false⟩

end RemoteFileExplorer.DuplicateCleanup
