import Mathlib.Data.List.Dedup
import RemoteFileExplorer.Procedures
import RemoteFileExplorer.Trash

namespace RemoteFileExplorer.FileCalls
open FileTree TreeEdits PercentCodes Procedures Trash

inductive Item where
  | file (data : Bytes)
  | dir
  | link (target : Written)
  deriving DecidableEq, Repr

def item : Node Bytes → Item
  | .file data => .file data
  | .dir _ => .dir
  | .link target => .link target

def look (disk : Files) (path : Path) : Option Item := (nodeAt disk.root path).map item

inductive Removal where
  | removed
  | notExist
  | notEmpty
  deriving DecidableEq, Repr

inductive Renaming where
  | moved
  | blocked
  | crossDevice
  deriving DecidableEq, Repr

-- The single calls of the file system. None follows a link at the path, and no
-- link stands above one, for the paths are resolved.
inductive Call where
  | lstat (path : Path)
  | readlink (path : Path)
  | opens (path : Path)
  | readdir (path : Path)
  | mkdir (path : Path)
  | create (path : Path)
  | truncate (path : Path)
  | write (path : Path) (b : UInt8)
  | close (path : Path)
  | chmod (path : Path)
  | symlink (path : Path) (target : Written)
  | remove (path : Path)
  | rename (src dst : Path) (jailed : Bool)
  | renameNoReplace (src dst : Path)
  | random
  deriving DecidableEq

def Call.Reply : Call → Type
  | .lstat _ => Option Item
  | .readlink _ => Option Written
  | .opens _ => Option Item
  | .readdir _ => Option (List Name)
  | .remove _ => Removal
  | .rename _ _ _ => Renaming
  | .renameNoReplace _ _ => Renaming
  | .close _ => Unit
  | .chmod _ => Unit
  | .random => Unit
  | _ => Bool

def Item.isLink : Item → Bool
  | .link _ => true
  | _ => false

def names (disk : Files) (path : Path) : Option (List Name) :=
  match nodeAt disk.root path with
  | some (.dir entries) => some (entries.map Prod.fst).dedup
  | _ => none

def put (disk : Files) (path : Path) (node : Node Bytes) : Files × Bool :=
  if path ≠ [] ∧ look disk path = none ∧ look disk path.dropLast = some .dir then (edit (some node) path disk,true) else (disk,false)

def replaces (jailed : Bool) (node : Node Bytes) : Option (Node Bytes) → Bool
  | none => true
  | some (.dir []) => jailed && node.isDir
  | some (.dir (_::_)) => false
  | some _ => !node.isDir

def carry (disk : Files) (src dst : Path) (across jailed : Bool) : Files × Renaming :=
  match nodeAt disk.root src with
  | none => (disk,.blocked)
  | some node =>
    if src = [] ∨ dst = [] then (disk,.blocked) else
    if src = dst then (disk,if jailed || !node.isDir then .moved else .blocked) else
    if src <+: dst ∨ look disk dst.dropLast ≠ some .dir then (disk,.blocked) else
    if !replaces jailed node (nodeAt disk.root dst) then (disk,.blocked) else
    if across then (disk,.crossDevice) else (edit (some node) dst (edit none src disk),.moved)

section Calls
variable (across : Path → Path → Bool)

def perform : (call : Call) → Files → Files × call.Reply
  | .lstat path,d => (d,look d path)
  | .readlink path,d =>
    (d,match look d path with
      | some (.link target) => some target
      | _ => none)
  | .opens path,d => (d,(look d path).filter fun item => !item.isLink)
  | .readdir path,d => (d,names d path)
  | .mkdir path,d => if look d path = some .dir then (d,true) else put d path (.dir [])
  | .create path,d => put d path (.file [])
  | .truncate path,d =>
    match look d path with
    | some (.file _) => (edit (some (.file [])) path d,true)
    | _ => (d,false)
  | .write path b,d =>
    match look d path with
    | some (.file data) => (edit (some (.file (data ++ [b]))) path d,true)
    | _ => (d,false)
  | .close _,d => (d,())
  | .chmod _,d => (d,())
  | .symlink path target,d => put d path (.link target)
  | .remove path,d =>
    match nodeAt d.root path with
    | none => (d,.notExist)
    | some (.dir (_::_)) => (d,.notEmpty)
    | some _ => if path = [] then (d,.notEmpty) else (edit none path d,.removed)
  | .rename src dst jailed,d => carry d src dst (across src dst) jailed
  | .renameNoReplace src dst,d => if (look d dst).isSome then (d,.blocked) else carry d src dst (across src dst) true
  | .random,d => (d,())

-- `across` says which places are on different file systems.
abbrev store : Storage Files := ⟨Call,Call.Reply,perform across⟩

end Calls

section Programs
variable {across : Path → Path → Bool}

abbrev Task (across : Path → Path → Bool) (α : Type) := Proc (store across) α

def call (c : Call) : Task across c.Reply := @act Files (store across) c

def lstat (path : Path) : Task across (Option Item) := call (.lstat path)

def mkdir (path : Path) : Task across Unit := do
  let ok ← (call (.mkdir path) : Task across Bool)
  check ok

def create (path : Path) : Task across Unit := do
  let ok ← (call (.create path) : Task across Bool)
  check ok

def truncate (path : Path) : Task across Unit := do
  let ok ← (call (.truncate path) : Task across Bool)
  check ok

def write (path : Path) (b : UInt8) : Task across Unit := do
  let ok ← (call (.write path b) : Task across Bool)
  check ok

def symlink (path : Path) (target : Written) : Task across Unit := do
  let ok ← (call (.symlink path target) : Task across Bool)
  check ok

def remove (path : Path) : Task across Removal := call (.remove path)

def rename (src dst : Path) (jailed : Bool) : Task across Renaming := call (.rename src dst jailed)

def renameNoReplace (src dst : Path) : Task across Renaming := call (.renameNoReplace src dst)

def mkdirAllFrom : Path → List Name → Task across Unit
  | _,[] => pure ()
  | place,name::rest => do
    mkdir (place ++ [name])
    mkdirAllFrom (place ++ [name]) rest

def mkdirAll (path : Path) : Task across Unit := mkdirAllFrom [] path

def writeAll (path : Path) : Bytes → Task across Unit
  | [] => pure ()
  | b::rest => do
    write path b
    writeAll path rest

-- What can be removed is, and an error is that something could not. `depth` is
-- how deep a path can be at all.
def removeAll : Nat → Path → Task across Unit
  | 0,_ => fail
  | depth + 1,path => do
    let first ← (remove path).attempt
    if first = some .removed ∨ first = some .notExist then pure () else
      let listed ← (call (.readdir path) : Task across (Option (List Name)))
      let entries ← orFail listed
      each (fun name => do
        let _ ← (removeAll depth (path ++ [name])).attempt
        pure ()) entries
      let last ← remove path
      check (last = .removed || last = .notExist)

def copyLink (src dst : Path) : Task across Unit := do
  let read ← (call (.readlink src) : Task across (Option Written))
  let target ← orFail read
  mkdirAll dst.dropLast
  let gone ← remove dst
  if gone = .notEmpty then fail else symlink dst target

def openNew (dst : Path) : Task across Unit := do
  let found ← lstat dst
  match found with
  | none => create dst
  | some (.link _) =>
    let gone ← remove dst
    if gone = .removed then create dst else fail
  | some _ => truncate dst

def dataOf : Option Item → Option Bytes
  | some (.file data) => some data
  | _ => none

def copyFile (src dst : Path) : Task across Unit := do
  let opened ← (call (.opens src) : Task across (Option Item))
  let data ← orFail (dataOf opened)
  mkdirAll dst.dropLast
  openNew dst
  writeAll dst data
  (call (.close dst) : Task across Unit)

def setMode (path : Path) : Task across Unit := do
  let _ ← (call (.opens path) : Task across (Option Item))
  (call (.chmod path) : Task across Unit)

-- `narrow` are the folders whose owner may not write in them: the mode of the
-- copy is set afterwards.
def copySecureRecursive (narrow : Path → Bool) : Nat → Path → Path → Task across Unit
  | 0,_,_ => fail
  | depth + 1,src,dst => do
    let info ← lstat src
    match info with
    | none => fail
    | some (.link _) => copyLink src dst
    | some (.file _) => copyFile src dst
    | some .dir =>
      mkdirAll dst
      let _ ← (call (.opens src) : Task across (Option Item))
      let listed ← (call (.readdir src) : Task across (Option (List Name)))
      let entries ← orFail listed
      (call (.close src) : Task across Unit)
      each (fun name => copySecureRecursive narrow depth (src ++ [name]) (dst ++ [name])) entries
      if narrow src then setMode dst else pure ()

end Programs

section Looking
variable {d after : Files} {place front path : Path} {name : Name}

theorem inside_item (new : Option (Node Bytes)) (rest : Path) (node : Node Bytes) : item (inside new rest node) = item node := by
  cases node <;> rfl

theorem look_edit_outside (outside : ¬ place <+: path) (new : Option (Node Bytes)) : look (edit new place d) path = look d path := by
  unfold look
  rcases place_cases place path with ⟨rest,strict,rfl⟩ | below | ⟨below,above⟩
  · rw [nodeAt_edit_above new d path strict,Option.map_map]
    congr 1
    funext node
    exact inside_item new rest node
  · exact absurd below outside
  · rw [nodeAt_edit_apart new below above]

theorem look_dir : look d path = some .dir ↔ ∃ entries, nodeAt d.root path = some (.dir entries) := by
  unfold look
  cases nodeAt d.root path with
  | none => simp
  | some node => cases node <;> simp [item]

theorem look_edit_at (parent : look d front = some .dir) (new : Option (Node Bytes)) (more : Path) :
    look (edit new (front ++ [name]) d) (front ++ [name] ++ more) = (new.bind (nodeAt · more)).map item := by
  obtain ⟨entries,stands⟩ := look_dir.mp parent
  rw [look,nodeAt_edit_at new stands]

theorem look_new (parent : look d front = some .dir) (node : Node Bytes) : look (edit (some node) (front ++ [name]) d) (front ++ [name]) = some (item node) := by
  obtain whole : look (edit (some node) (front ++ [name]) d) (front ++ [name] ++ []) = _ := look_edit_at parent (some node) []
  rwa [List.append_nil] at whole

theorem look_none : look d path = none ↔ nodeAt d.root path = none := Option.map_eq_none_iff

theorem look_below (gone : look d path = none) (more : Path) : look d (path ++ more) = none := by
  rw [look_none] at gone ⊢
  exact nodeAt_below d.root gone more

theorem look_above (some_ : look d (front ++ rest) ≠ none) (strict : rest ≠ []) : look d front = some .dir := by
  have stored : nodeAt d.root (front ++ rest) ≠ none := fun gone => some_ (look_none.mpr gone)
  obtain ⟨node,found⟩ := Option.ne_none_iff_exists'.mp stored
  rw [nodeAt_append] at found
  obtain ⟨above,standing,deeper⟩ := Option.bind_eq_some_iff.mp found
  cases above with
  | dir entries => exact look_dir.mpr ⟨entries,standing⟩
  | file data | link target =>
    cases rest with
    | nil => exact absurd rfl strict
    | cons step rest => cases deeper

theorem look_leaf (plain : look d path ≠ some .dir) (strict : rest ≠ []) : look d (path ++ rest) = none := by
  by_contra some_
  exact plain (look_above some_ strict)

def Outside (place : Path) (d after : Files) : Prop := ∀ path, ¬ place <+: path → look after path = look d path

theorem outside_refl (place : Path) (d : Files) : Outside place d d := fun _ _ => rfl

theorem outside_trans {third : Files} (one : Outside place d after) (two : Outside place after third) : Outside place d third :=
  fun path apart => (two path apart).trans (one path apart)

theorem outside_edit (new : Option (Node Bytes)) : Outside place d (edit new place d) := fun _ apart => look_edit_outside apart new

theorem outside_below (within : front <+: place) (outside : Outside place d after) : Outside front d after :=
  fun path apart => outside path fun below => apart (within.trans below)

theorem above_outside (front : Path) (name : Name) : ¬ front ++ [name] <+: front := by
  intro below
  have shorter := below.length_le
  rw [List.length_append,List.length_singleton] at shorter
  omega

end Looking

section Rules
variable {across : Path → Path → Bool} {ok : Files → (store across).Action → Outcome → Prop} {d made : Files} {place front : Path} {name : Name}

theorem meets_call {c : Call} {post : Files → Option c.Reply → Prop} (stays : post d none)
    (done : post (perform across c d).1 (some (perform across c d).2)) : Meets ok (fun _ => True) (call c : Task across c.Reply) d post :=
  meets_act trivial stays done

def Does (d made : Files) (after : Files) (result : Option Unit) : Prop := (after = d ∧ result = none) ∨ (after = made ∧ result = some ())

theorem meets_checked (c : Call) (into : c.Reply → Bool) (performed : (perform across c d).1 = made) (allowed : into (perform across c d).2 = true) :
    Meets ok (fun _ => True) (call c >>= fun reply => check (into reply)) d (Does d made) := by
  refine meets_bind (meets_call ?_ ?_)
  · exact .inl ⟨rfl,rfl⟩
  · simp only [Option.elim,allowed,check,if_true]
    exact .inr ⟨performed,rfl⟩

section
variable (parent : look d front = some .dir) (free : look d (front ++ [name]) = none)
include parent free

theorem put_fresh (node : Node Bytes) :
    put d (front ++ [name]) node = (edit (some node) (front ++ [name]) d,true) := by
  have above : (front ++ [name]).dropLast = front := List.dropLast_concat
  rw [put,if_pos ⟨by simp,free,by rw [above]; exact parent⟩]

theorem create_meets :
    Meets ok (fun _ => True) (create (front ++ [name])) d (Does d (edit (some (.file [])) (front ++ [name]) d)) := by
  have made := put_fresh parent free (.file [])
  exact meets_checked (.create _) id (congrArg Prod.fst made) (congrArg Prod.snd made)

theorem symlink_meets (target : Written) :
    Meets ok (fun _ => True) (symlink (front ++ [name]) target : Task across Unit) d (Does d (edit (some (.link target)) (front ++ [name]) d)) := by
  have made := put_fresh parent free (.link target)
  exact meets_checked (.symlink _ target) id (congrArg Prod.fst made) (congrArg Prod.snd made)

end

theorem mkdir_stands (stands : look d place = some .dir) : Meets ok (fun _ => True) (mkdir place : Task across Unit) d (Does d d) := by
  have same : perform across (.mkdir place) d = (d,true) := if_pos stands
  exact meets_checked (.mkdir place) id (congrArg Prod.fst same) (congrArg Prod.snd same)

theorem mkdir_fresh (parent : look d front = some .dir) (free : look d (front ++ [name]) = none) :
    Meets ok (fun _ => True) (mkdir (front ++ [name]) : Task across Unit) d (Does d (edit (some (.dir [])) (front ++ [name]) d)) := by
  have made : perform across (.mkdir (front ++ [name])) d = (edit (some (.dir [])) (front ++ [name]) d,true) := by
    have judged : perform across (.mkdir (front ++ [name])) d =
        if look d (front ++ [name]) = some .dir then (d,true) else put d (front ++ [name]) (.dir []) := rfl
    rw [judged,if_neg (by rw [free]; exact nofun),put_fresh parent free]
  exact meets_checked (.mkdir _) id (congrArg Prod.fst made) (congrArg Prod.snd made)

theorem mkdirAll_stands (stands : look d place = some .dir) : Meets ok (fun _ => True) (mkdirAll place : Task across Unit) d (Does d d) := by
  have from_ : ∀ rest above, look d (above ++ rest) = some .dir → Meets ok (fun _ => True) (mkdirAllFrom above rest : Task across Unit) d (Does d d) := by
    intro rest
    induction rest with
    | nil =>
      intro above _
      exact .inr ⟨rfl,rfl⟩
    | cons step rest ih =>
      intro above whole
      have split : above ++ step::rest = above ++ [step] ++ rest := by simp
      rw [split] at whole
      have first : look d (above ++ [step]) = some .dir := by
        by_cases last : rest = []
        · rwa [last,List.append_nil] at whole
        · exact look_above (by rw [whole]; exact nofun) last
      refine meets_bind (meets_imp ?_ (mkdir_stands first))
      rintro after result (⟨rfl,rfl⟩ | ⟨rfl,rfl⟩)
      · exact .inl ⟨rfl,rfl⟩
      · exact ih _ whole
  exact from_ place [] stands

theorem mkdirAll_fresh (parent : look d front = some .dir) (free : look d (front ++ [name]) = none) :
    Meets ok (fun _ => True) (mkdirAll (front ++ [name]) : Task across Unit) d (Does d (edit (some (.dir [])) (front ++ [name]) d)) := by
  have from_ : ∀ rest above, above ++ rest = front →
      Meets ok (fun _ => True) (mkdirAllFrom above (rest ++ [name]) : Task across Unit) d (Does d (edit (some (.dir [])) (front ++ [name]) d)) := by
    intro rest
    induction rest with
    | nil =>
      intro above whole
      rw [List.append_nil] at whole
      subst whole
      refine meets_bind (meets_imp ?_ (mkdir_fresh parent free))
      rintro after result (⟨rfl,rfl⟩ | ⟨rfl,rfl⟩)
      · exact .inl ⟨rfl,rfl⟩
      · exact .inr ⟨rfl,rfl⟩
    | cons step rest ih =>
      intro above whole
      have split : above ++ [step] ++ rest = front := by simpa using whole
      have first : look d (above ++ [step]) = some .dir := by
        by_cases last : rest = []
        · rw [last,List.append_nil] at split
          rwa [split]
        · exact look_above (by rw [split,parent]; exact nofun) last
      refine meets_bind (meets_imp ?_ (mkdir_stands first))
      rintro after result (⟨rfl,rfl⟩ | ⟨rfl,rfl⟩)
      · exact .inl ⟨rfl,rfl⟩
      · exact ih _ split
  exact from_ front [] rfl

theorem write_performed (stored : look d (front ++ [name]) = some (.file data)) (b : UInt8) :
    perform across (.write (front ++ [name]) b) d = (edit (some (.file (data ++ [b]))) (front ++ [name]) d,true) := by
  have judged : perform across (.write (front ++ [name]) b) d =
      match look d (front ++ [name]) with
      | some (.file data) => (edit (some (.file (data ++ [b]))) (front ++ [name]) d,true)
      | _ => (d,false) := rfl
  rw [judged,stored]
  rfl

theorem writeAll_meets (stored : look d (front ++ [name]) = some (.file data)) (bytes : Bytes) :
    Meets ok (fun _ => True) (writeAll (front ++ [name]) bytes : Task across Unit) d fun after result =>
      Outside (front ++ [name]) d after ∧ (result = some () → look after (front ++ [name]) = some (.file (data ++ bytes))) := by
  induction bytes generalizing d data with
  | nil => exact ⟨outside_refl _ d,fun _ => by rw [List.append_nil]; exact stored⟩
  | cons b rest ih =>
    have performed : perform across (.write (front ++ [name]) b) d = _ := write_performed stored b
    have parent : look d front = some .dir := look_above (by rw [stored]; exact nofun) (List.cons_ne_nil name [])
    refine meets_bind (meets_imp ?_ (meets_checked (.write _ b) id (congrArg Prod.fst performed) (congrArg Prod.snd performed)))
    rintro after result (⟨rfl,rfl⟩ | ⟨rfl,rfl⟩)
    · exact ⟨outside_refl _ after,nofun⟩
    · refine meets_imp ?_ (ih (look_new parent _))
      rintro last result ⟨outside,done⟩
      refine ⟨outside_trans (outside_edit _) outside,?_⟩
      intro same
      rw [done same,List.append_assoc]
      rfl

end Rules

section Removing
variable {across : Path → Path → Bool} {ok : Files → (store across).Action → Outcome → Prop} {d : Files} {place : Path}

theorem remove_outside (d : Files) (path : Path) : Outside path d (perform across (.remove path) d).1 := by
  unfold perform
  dsimp only
  split
  · exact outside_refl path d
  · exact outside_refl path d
  · split
    · exact outside_refl path d
    · exact outside_edit none

theorem each_outside {body : α → Task across Unit} (place : Path) (list : List α)
    (one : ∀ a ∈ list, ∀ d, Meets ok (fun _ => True) (body a) d fun after _ => Outside place d after) (d : Files) :
    Meets ok (fun _ => True) (each body list) d fun after _ => Outside place d after := by
  induction list generalizing d with
  | nil => exact outside_refl place d
  | cons a rest ih =>
    refine meets_bind (meets_imp ?_ (one a (List.mem_cons_self ..) d))
    intro middle result apart
    cases result with
    | none => exact apart
    | some _ =>
      refine meets_imp ?_ (ih (fun b member => one b (List.mem_cons_of_mem _ member)) middle)
      intro after _ further
      exact outside_trans apart further

theorem removeAll_outside (depth : Nat) (path : Path) (d : Files) :
    Meets ok (fun _ => True) (removeAll depth path : Task across Unit) d fun after _ => Outside path d after := by
  induction depth generalizing path d with
  | zero => exact outside_refl path d
  | succ depth ih =>
    have removes : ∀ d, Meets ok (fun _ => True) (remove path : Task across Removal) d fun after _ => Outside path d after :=
      fun d => meets_call (outside_refl path d) (remove_outside d path)
    refine meets_bind (meets_attempt (meets_imp ?_ (removes d)))
    intro one first apart
    dsimp only [Option.elim]
    split
    · exact apart
    · refine meets_bind (meets_call apart ?_)
      refine meets_bind (orFail_meets (fun _ => apart) ?_)
      intro entries _
      refine meets_bind (meets_imp ?_ (each_outside path entries ?_ one))
      · intro two result further
        have both := outside_trans apart further
        cases result with
        | none => exact both
        | some _ =>
          refine meets_bind (meets_imp ?_ (removes two))
          intro three last again
          have all := outside_trans both again
          cases last with
          | none => exact all
          | some reply =>
            dsimp only [Option.elim,check]
            split <;> exact all
      · intro name _ d
        refine meets_bind (meets_attempt (meets_imp ?_ (ih (path ++ [name]) d)))
        intro after result inner
        exact outside_below (List.prefix_append _ _) inner

end Removing

end RemoteFileExplorer.FileCalls
