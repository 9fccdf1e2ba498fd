import RemoteFileExplorer.Overwrites
import RemoteFileExplorer.TrashNames

namespace RemoteFileExplorer.NameSearches
open FileTree Jail TreeEdits SystemCalls PercentCodes Procedures FileCalls TreeCopies TrashNames Overwrites
open Trash hiding carry
open FileOps (BatchCode autoRename SecurePath.child)

section Searches
variable (used : Nat → Bool)

-- The first number from `i` on that is not in use. The last of them is taken
-- without a look.
def firstFree : Nat → Nat → Nat
  | 0,i => i
  | left + 1,i => if used i then firstFree left (i + 1) else i

variable {used}

theorem firstFree_free {left i k : Nat} (late : i ≤ k) (early : k ≤ i + left) (free : used k = false) : used (firstFree used left i) = false := by
  induction left generalizing i with
  | zero =>
    have same : k = i := by omega
    subst same
    exact free
  | succ left ih =>
    unfold firstFree
    split
    · rename_i taken
      have other : k ≠ i := by
        rintro rfl
        rw [taken] at free
        cases free
      exact ih (by omega) (by omega)
    · rename_i unused
      exact Bool.eq_false_iff.mpr unused

theorem firstFree_last {left i : Nat} (all : ∀ k, i ≤ k → k < i + left → used k = true) : firstFree used left i = i + left := by
  induction left generalizing i with
  | zero => rfl
  | succ left ih =>
    unfold firstFree
    rw [if_pos (all i (Nat.le_refl _) (by omega)),ih fun k late early => all k (by omega) (by omega)]
    omega

end Searches

theorem uniqueFrom_search (taken : Name → Bool) (base : Name) (left i : Nat) :
    uniqueFrom taken base left (i + 1) (candidateAt base i) = candidateAt base (firstFree (fun k => taken (candidateAt base k)) left i) := by
  induction left generalizing i with
  | zero => rfl
  | succ left ih =>
    unfold uniqueFrom firstFree
    split
    · rw [← candidateAt_succ,ih]
    · rfl

theorem autoRenameFrom_search (disk : Files) (links : Nat) (front : Path) (base : Name) (left i : Nat) :
    autoRenameFrom disk links (front ++ [base]) left i =
      front ++ [keepBoth base (firstFree (fun k => (Jail.lstat disk links (front ++ [keepBoth base k])).isOk) left i)] := by
  have named : baseName (front ++ [base]) = base := by
    unfold baseName
    rw [List.getLast?_concat]
    rfl
  induction left generalizing i with
  | zero =>
    unfold autoRenameFrom firstFree
    rw [List.dropLast_concat,named]
  | succ left ih =>
    unfold autoRenameFrom firstFree
    rw [List.dropLast_concat,named]
    dsimp only
    split
    · exact ih (i + 1)
    · rfl

theorem candidateAt_other (later : k ≠ 0) : candidateAt base k ≠ base := by
  intro same
  have long := congrArg (fun name => name.toList.length) same
  unfold candidateAt at long
  rw [if_neg later] at long
  unfold numbered stem at long
  simp only [String.toList_ofList,List.length_append,List.length_cons,List.length_take] at long
  omega

def beside (disk : Files) (links : Nat) (dst : SecurePath) : SecurePath :=
  if (Jail.lstat disk links dst.full).isOk then autoRename disk links dst else dst

-- Copy with duplicate, of one source. The paths are as accessPair has resolved them.
def copyBeside {across : Path → Path → Bool} (narrow : Path → Bool) (depth : Nat) (disk : Files) (links : Nat) (src dstDir : SecurePath) :
    Task across (Option BatchCode) := do
  let info ← (FileCalls.lstat src.full).attempt
  if isFolder info && isUnder dstDir.full src.full then pure (some .CONFLICT) else
    putCopy narrow depth src (beside disk links (target src dstDir)) none

def Undisturbed (before after : Files) : Prop := ∀ path, look before path ≠ none → look after path = look before path

-- Whatever fails on the way: an item is put at a name that is free or not at all.
def KeepsBoth (entries : Disk Bytes) (base : Name) : Prop :=
  ∀ (across : Path → Path → Bool) (narrow : Path → Bool) (depth links : Nat) (disk last : Files) (src dstDir : SecurePath) (front : Path)
    (outcomes : List Outcome) (result : Option (Option BatchCode)), (target src dstDir).full = front ++ [base] →
    walk disk.root links [] front = .found front → nodeAt disk.root front = some (.dir entries) →
    execute (copyBeside narrow depth disk links src dstDir : Task across _) disk outcomes = some (last,result) →
    (result = some none → look disk (beside disk links (target src dstDir)).full = none) ∧ Undisturbed disk last

-- The item below the name handed out is there afterwards, and the call has failed.
def KeepsTrashed (disk : Files) (host : Host) (resolved : SecurePath) : Prop :=
  ∀ (r : TrashRequest) (place : Path) (t : Node Bytes),
    entryOf disk host.links (trashFilesDir host ++ [uniqueTrashName disk host (baseName resolved.full)]) = some place →
    nodeAt disk.root place = some t → (trashOne disk host resolved r).2 ≠ none ∧ nodeAt (trashOne disk host resolved r).1.root place = some t

def besideAt (base : Name) (k : Nat) : Name := if k = 0 then base else keepBoth base k

section Copies
variable {disk : Files} {links : Nat} {front : Path} {entries : Disk Bytes} {base : Name} {dst : SecurePath}

section
variable (walked : walk disk.root links [] front = .found front) (stands : nodeAt disk.root front = some (.dir entries))
include walked stands

theorem lstat_isOk (name : Name) :
    (Jail.lstat disk links (front ++ [name])).isOk = ((Node.dir entries).child name).isSome := by
  rw [lstat_within walked stands,nodeAt_snoc,stands,Option.bind_some]
  cases (Node.dir entries).child name <;> rfl

theorem beside_name (whole : dst.full = front ++ [base]) : ∃ name, (beside disk links dst).full = front ++ [name] ∧
      ((∃ k, k ≤ maxAutoRename ∧ (Node.dir entries).child (besideAt base k) = none) → (Node.dir entries).child name = none) ∧
      ((∀ k, k ≤ maxAutoRename → (Node.dir entries).child (besideAt base k) ≠ none) → name = besideAt base maxAutoRename) := by
  unfold beside
  rw [whole,lstat_isOk walked stands]
  cases here : (Node.dir entries).child base with
  | none =>
    refine ⟨base,whole,fun _ => here,?_⟩
    intro all
    exact absurd here (all 0 (Nat.zero_le _))
  | some node =>
    unfold autoRename
    rw [whole,autoRenameFrom_search]
    have same : (fun k => (Jail.lstat disk links (front ++ [keepBoth base k])).isOk) = fun k => ((Node.dir entries).child (keepBoth base k)).isSome := by
      funext k
      exact lstat_isOk walked stands _
    rw [same]
    refine ⟨_,rfl,?_,?_⟩
    · rintro ⟨k,early,free⟩
      have later : k ≠ 0 := by
        rintro rfl
        unfold besideAt at free
        rw [if_pos rfl,here] at free
        cases free
      unfold besideAt at free
      rw [if_neg later] at free
      have unused := @firstFree_free (fun k => ((Node.dir entries).child (keepBoth base k)).isSome) (maxAutoRename - 1) 1 k (by omega)
        (by unfold maxAutoRename at *; omega) (by rw [free]; rfl)
      exact Option.not_isSome_iff_eq_none.mp (Bool.eq_false_iff.mp unused)
    · intro all
      rw [@firstFree_last (fun k => ((Node.dir entries).child (keepBoth base k)).isSome) (maxAutoRename - 1) 1]
      · rfl
      · intro k late early
        have taken := all k (by unfold maxAutoRename at *; omega)
        unfold besideAt at taken
        rw [if_neg (by omega)] at taken
        exact Option.isSome_iff_ne_none.mpr taken

end

theorem putCopy_meets {ok : Files → (store across).Action → Outcome → Prop} (narrow : Path → Bool) (depth : Nat)
    (src : SecurePath) (parent : look disk front = some .dir) (free : look disk (front ++ [name]) = none) (whole : dst.full = front ++ [name]) :
    Meets ok (fun _ => True) (putCopy narrow depth src dst none : Task across _) disk fun after _ => Outside (front ++ [name]) disk after := by
  unfold putCopy
  rw [whole]
  refine meets_bind (meets_attempt (meets_imp ?_ (copy_meets narrow depth disk src.full front name parent free)))
  intro after result copied
  cases result with
  | none | some _ => exact copied.outside

theorem outside_undisturbed (free : look disk place = none) (outside : Outside place disk after) : Undisturbed disk after := by
  intro path stood
  refine outside path ?_
  rintro ⟨more,rfl⟩
  exact stood (look_below free more)

theorem keeps_both {base : Name} (room : ∃ k, k ≤ maxAutoRename ∧ (Node.dir entries).child (besideAt base k) = none) :
    KeepsBoth entries base := by
  intro across narrow depth links disk last src dstDir front outcomes result whole walked stands executed
  obtain ⟨name,chosen,unused,_⟩ := beside_name walked stands whole
  have parent : look disk front = some .dir := look_dir.mpr ⟨entries,stands⟩
  have free : look disk (front ++ [name]) = none := by
    rw [look_none,nodeAt_snoc,stands,Option.bind_some]
    exact unused room
  have copies : Meets (fun _ _ _ => True) (fun _ => True) (copyBeside narrow depth disk links src dstDir : Task across _) disk fun after _ =>
      Undisturbed disk after := by
    refine meets_bind (meets_attempt (meets_call ?_ ?_))
    all_goals
      dsimp only [Option.elim]
      split
      · exact fun _ _ => rfl
      · exact meets_imp (fun _ _ outside => outside_undisturbed free outside) (putCopy_meets narrow depth src parent free chosen)
  refine ⟨?_,meets_execute (fun _ => True) copies (along_always (fun _ _ _ => trivial)) executed⟩
  intro _
  rw [chosen]
  exact free

end Copies

section Stages
variable {across : Path → Path → Bool} {entries : Disk Bytes} {base : Name} {node : Node Bytes}

def stage (entries : Disk Bytes) (base : Name) (node : Node Bytes) : Files := [("to",.dir entries),("from",.dir [(base,node)])]

theorem stage_source : nodeAt (stage entries base node).root ["from",base] = some node := by
  refine (nodeAt_snoc _ ["from"] base).trans ?_
  change (([(base,node)] : Disk Bytes).find? fun e => e.1 == base).map Prod.snd = some node
  rw [List.find?_cons_of_pos (by simp)]
  rfl

theorem stage_place (name : Name) : nodeAt (stage entries base node).root ["to",name] = (Node.dir entries).child name := by
  exact nodeAt_snoc _ ["to"] name

theorem mkdir_run (stands : look disk place = some .dir) : (mkdir place : Task across Unit).run disk = (disk,some ()) := by
  have same : perform across (.mkdir place) disk = (disk,true) := if_pos stands
  change (check (perform across (.mkdir place) disk).2 : Task across Unit).run (perform across (.mkdir place) disk).1 = _
  rw [same]
  rfl

theorem lstat_run (seen : look disk path = it) :
    (FileCalls.lstat path : Task across _).run disk = (disk,some it) := by
  rw [← seen]
  rfl

theorem link_lands (there : (Node.dir entries).child name = some t) (plain : t.isDir = false) :
    ∃ after, (FileCalls.copySecureRecursive (fun _ => false) 1 ["from",base] ["to",name] : Task across Unit).run (stage entries base (.link written)) =
      (after,some ()) := by
  have source : look (stage entries base (.link written)) ["from",base] = some (.link written) := congrArg (Option.map item) stage_source
  have parent : look (stage entries base (.link written)) ["to"] = some .dir := rfl
  have read : (call (.readlink ["from",base]) : Task across (Option Written)).run (stage entries base (.link written)) =
      (stage entries base (.link written),some (some written)) := by
    have judged : (perform across (.readlink ["from",base]) (stage entries base (.link written))).2 = some written := by
      rw [perform,source]
    exact congrArg (fun reply => (stage entries base (.link written),some reply)) judged
  have made : (FileCalls.mkdirAll ["to"] : Task across Unit).run (stage entries base (.link written)) = (stage entries base (.link written),some ()) :=
    run_done (mkdir_run parent)
  have gone : (FileCalls.remove ["to",name] : Task across Removal).run (stage entries base (.link written)) =
      (edit none ["to",name] (stage entries base (.link written)),some .removed) := by
    have judged : perform across (.remove ["to",name]) (stage entries base (.link written)) =
        (edit none ["to",name] (stage entries base (.link written)),.removed) := by
      rw [perform,stage_place,there]
      cases t with
      | dir below => cases plain
      | file data => rfl
      | link target => rfl
    change ((perform across (.remove ["to",name]) (stage entries base (.link written))).1,some (perform across (.remove ["to",name]) _).2) = _
    rw [judged]
    rfl
  have free : look (edit none ["to",name] (stage entries base (.link written))) (["to"] ++ [name]) = none := by
    have placed := @look_edit_at _ ["to"] name parent none []
    rwa [List.append_nil] at placed
  have above : look (edit none ["to",name] (stage entries base (.link written))) ["to"] = some .dir :=
    (look_edit_outside (above_outside ["to"] name) none).trans parent
  have put_ : perform across (.symlink ["to",name] written) (edit none ["to",name] (stage entries base (.link written))) = (_,true) :=
    put_fresh above free (.link written)
  unfold FileCalls.copySecureRecursive
  rw [run_done (lstat_run source)]
  have known : (orFail (some written) : Task across Written).run (stage entries base (.link written)) = (stage entries base (.link written),some written) := rfl
  have placed : (symlink ["to",name] written : Task across Unit).run (edit none ["to",name] (stage entries base (.link written))) =
      (edit (some (.link written)) ["to",name] (edit none ["to",name] (stage entries base (.link written))),some ()) := by
    change (check (perform across (.symlink ["to",name] written) _).2 : Task across Unit).run (perform across (.symlink ["to",name] written) _).1 = _
    rw [put_]
    rfl
  exact ⟨_,(run_done read).trans ((run_done known).trans ((run_done made).trans ((run_done gone).trans placed)))⟩

theorem folder_lands (there : (Node.dir entries).child name = some t) (folder : t.isDir = true) :
    (FileCalls.copySecureRecursive (fun _ => false) 1 ["from",base] ["to",name] : Task across Unit).run (stage entries base (.dir [])) =
      (stage entries base (.dir []),some ()) := by
  have source : look (stage entries base (.dir [])) ["from",base] = some .dir := congrArg (Option.map item) stage_source
  have stands : look (stage entries base (.dir [])) ["to",name] = some .dir := by
    unfold look
    rw [stage_place,there]
    cases t with
    | dir below => rfl
    | file data | link target => cases folder
  have made : (FileCalls.mkdirAll ["to",name] : Task across Unit).run (stage entries base (.dir [])) = (stage entries base (.dir []),some ()) :=
    (run_done (mkdir_run (show look (stage entries base (.dir [])) ["to"] = some .dir from rfl))).trans (run_done (mkdir_run stands))
  have listed : (call (.readdir ["from",base]) : Task across (Option (List Name))).run (stage entries base (.dir [])) = (stage entries base (.dir []),some (some [])) := by
    change (_,some (names (stage entries base (.dir [])) ["from",base])) = _
    unfold names
    rw [stage_source]
    rfl
  unfold FileCalls.copySecureRecursive
  rw [run_done (lstat_run source)]
  rw [run_done made]
  refine (run_done (show (call (.opens ["from",base]) : Task across (Option Item)).run (stage entries base (.dir [])) = (_,some _) from rfl)).trans ?_
  exact (run_done listed).trans rfl

theorem both_needs {entries : Disk Bytes} {base : Name} (keeps : KeepsBoth entries base) :
    ∃ k, k ≤ maxAutoRename ∧ (Node.dir entries).child (besideAt base k) = none := by
  by_contra full
  have all : ∀ k, k ≤ maxAutoRename → (Node.dir entries).child (besideAt base k) ≠ none := fun k early free => full ⟨k,early,free⟩
  obtain ⟨t,there⟩ := Option.ne_none_iff_exists'.mp (all maxAutoRename (Nat.le_refl _))
  obtain ⟨final,known⟩ : ∃ final, besideAt base maxAutoRename = final := ⟨_,rfl⟩
  rw [known] at there
  obtain ⟨node,after,lands⟩ : ∃ node after, (FileCalls.copySecureRecursive (fun _ => false) 1 ["from",base] ["to",final] :
      Task (fun _ _ => false) Unit).run (stage entries base node) = (after,some ()) := by
    cases folder : t.isDir with
    | false =>
      obtain ⟨after,lands⟩ := @link_lands (fun _ _ => false) entries base final t ⟨true,[]⟩ there folder
      exact ⟨_,after,lands⟩
    | true => exact ⟨_,_,folder_lands there folder⟩
  have walked : walk (stage entries base node).root 0 [] ["to"] = .found ["to"] := rfl
  have stands : nodeAt (stage entries base node).root ["to"] = some (.dir entries) := rfl
  obtain ⟨name,chosen,_,last⟩ := @beside_name _ _ _ _ base (target ⟨["from",base],none⟩ ⟨["to"],none⟩) walked stands rfl
  rw [(last all).trans known] at chosen
  have seen : (FileCalls.lstat ["from",base] : Task (fun _ _ => false) _).attempt.run (stage entries base node) =
      (stage entries base node,some (some (look (stage entries base node) ["from",base]))) := run_attempt (lstat_run rfl)
  have apart : isUnder ["to"] ["from",base] = false := rfl
  have put_ : (putCopy (fun _ => false) 1 ⟨["from",base],none⟩ (beside (stage entries base node) 0 (target ⟨["from",base],none⟩ ⟨["to"],none⟩)) none :
      Task (fun _ _ => false) _).run (stage entries base node) = (after,some none) := by
    unfold putCopy
    rw [chosen]
    exact (run_done (run_attempt lands)).trans rfl
  have ran : (copyBeside (fun _ => false) 1 (stage entries base node) 0 ⟨["from",base],none⟩ ⟨["to"],none⟩ : Task (fun _ _ => false) _).run
      (stage entries base node) = (after,some none) := by
    unfold copyBeside
    rw [run_done seen,apart,Bool.and_false,if_neg Bool.false_ne_true]
    exact put_
  obtain ⟨outcomes,executed⟩ := run_executes (copyBeside (fun _ => false) 1 (stage entries base node) 0 ⟨["from",base],none⟩ ⟨["to"],none⟩ : Task (fun _ _ => false) _)
    (stage entries base node)
  rw [ran] at executed
  have free := (keeps _ _ _ _ _ _ _ _ _ _ _ rfl walked stands executed).1 rfl
  rw [chosen,look_none] at free
  rw [(stage_place final).symm.trans free] at there
  cases there

end Stages

section Store
variable {disk : Files} {host : Host} {resolved : SecurePath}

def lastName (resolved : SecurePath) : Name := candidateAt (baseName resolved.full) (maxAutoRename - 1)

-- What is never moved there: a jail root, what is not there, a folder above the
-- place or an item below it, and onto a directory what no jail holds.
def Refused (disk : Files) (host : Host) (resolved : SecurePath) (place : Path) (t : Node Bytes) : Prop :=
  resolved.root = some resolved.full ∨ ∀ source node, entryOf disk host.links resolved.full = some source → nodeAt disk.root source = some node →
    source <+: place ∨ (t.isDir = true ∧ (place <+: source ∨ resolved.root = none))

-- One of the names is not in use, or nothing at the last one is in the way, or
-- the item is never moved there.
def Spared (disk : Files) (host : Host) (resolved : SecurePath) : Prop :=
  (∃ k, k < maxAutoRename ∧ taken disk host (candidateAt (baseName resolved.full) k) = false) ∨
    ∀ place t, entryOf disk host.links (trashFilesDir host ++ [lastName resolved]) = some place → nodeAt disk.root place = some t →
      Refused disk host resolved place t

theorem taken_payload {name : Name} {place : Path} {t : Node Bytes} (entered : entryOf disk host.links (trashFilesDir host ++ [name]) = some place)
    (stored : nodeAt disk.root place = some t) : taken disk host name = true := by
  obtain ⟨real,entries,walked,stands,rfl⟩ := entryOf_parts entered
  unfold taken
  rw [lstat_within walked stands,stored]
  rfl

theorem unique_last (used : ∀ k, k < maxAutoRename → taken disk host (candidateAt (baseName resolved.full) k) = true) :
    uniqueTrashName disk host (baseName resolved.full) = lastName resolved := by
  have searched := uniqueFrom_search (taken disk host) (baseName resolved.full) (maxAutoRename - 1) 0
  rw [firstFree_last (fun k _ early => used k (by omega)),Nat.zero_add] at searched
  exact searched

theorem blocked_above (jailed : Bool) (fate : Fate) (node : Node Bytes) (folder : t.isDir = true) :
    blocked jailed fate true node (some t) = true := by
  cases t with
  | dir below => rfl
  | file data | link target => cases folder

theorem blocked_open (fate : Fate) (above : Bool) (node : Node Bytes) (folder : t.isDir = true) :
    blocked false fate above node (some t) = true := by
  cases t with
  | dir below => exact Bool.or_true _
  | file data | link target => cases folder

theorem refused_fails (stored : nodeAt disk.root place = some t)
    (entered : entryOf disk host.links (trashFilesDir host ++ [uniqueTrashName disk host (baseName resolved.full)]) = some place)
    (apart : ∀ source, entryOf disk host.links resolved.full = some source → source ≠ place) (refused : Refused disk host resolved place t) :
    trashOne disk host resolved r = (disk,some .TRASH_FAILED) := by
  have stays : Trash.moveAcrossRootsSecure disk host.links resolved ⟨trashFilesDir host ++ [uniqueTrashName disk host (baseName resolved.full)],none⟩ r.move = (disk,false) := by
    unfold Trash.moveAcrossRootsSecure
    split
    · rfl
    · rename_i neither
      have refused := refused.resolve_left fun root => neither (.inl root)
      unfold Trash.carry
      rw [entered]
      cases from_ : entryOf disk host.links resolved.full with
      | none => rfl
      | some source =>
        dsimp only
        cases held : nodeAt disk.root source with
        | none => rfl
        | some node =>
          dsimp only
          rw [stored]
          split
          · rfl
          · rename_i unblocked
            rw [if_neg (apart source from_)]
            rcases refused source node from_ held with above | ⟨folder,below | open_⟩
            · rw [if_pos (List.isPrefixOf_iff_prefix.mpr above)]
            · rw [List.isPrefixOf_iff_prefix.mpr below] at unblocked
              exact absurd (blocked_above _ _ _ folder) unblocked
            · rw [open_] at unblocked
              exact absurd (blocked_open _ _ _ folder) unblocked
  unfold trashOne
  dsimp only
  rw [stays]

theorem source_apart (left : entryOf disk host.links resolved.full = some source)
    (right : entryOf disk host.links (trashFilesDir host ++ [lastName resolved]) = some place) : source ≠ place := by
  rintro rfl
  obtain ⟨real,_,_,_,one⟩ := entryOf_parts right
  rcases List.eq_nil_or_concat' resolved.full with empty | ⟨dir,name,split⟩
  · rw [empty] at left
    cases left
  · rw [split] at left
    obtain ⟨other,_,_,_,two⟩ := entryOf_parts left
    have same := congrArg List.getLast? (one.symm.trans two)
    rw [List.getLast?_concat,List.getLast?_concat,Option.some_inj] at same
    have base : baseName resolved.full = name := by
      unfold baseName
      rw [split,List.getLast?_concat]
      rfl
    unfold lastName at same
    rw [base] at same
    exact candidateAt_other (by decide) same

theorem keeps_trashed (spared : Spared disk host resolved) : KeepsTrashed disk host resolved := by
  intro r place t entered stored
  have used := taken_payload entered stored
  by_cases room : ∃ k, k < maxAutoRename ∧ taken disk host (candidateAt (baseName resolved.full) k) = false
  · rw [uniqueTrashName_free room] at used
    cases used
  · have all : ∀ k, k < maxAutoRename → taken disk host (candidateAt (baseName resolved.full) k) = true := by
      intro k early
      by_contra free
      exact room ⟨k,early,Bool.eq_false_iff.mpr free⟩
    have last := unique_last all
    have ends := entered
    rw [last] at ends
    rw [refused_fails stored entered (fun source known => source_apart known ends) (spared.resolve_left room place t ends stored)]
    exact ⟨nofun,stored⟩

theorem trashed_needs (keeps : KeepsTrashed disk host resolved) : Spared disk host resolved := by
  by_contra without
  obtain ⟨room,full⟩ := not_or.mp without
  have all : ∀ k, k < maxAutoRename → taken disk host (candidateAt (baseName resolved.full) k) = true := by
    intro k early
    by_contra free
    exact room ⟨k,early,Bool.eq_false_iff.mpr free⟩
  have last := unique_last all
  push Not at full
  obtain ⟨place,t,entered,stored,open_⟩ := full
  unfold Refused at open_
  push Not at open_
  obtain ⟨inner,source,node,from_,held,apart,loose⟩ := open_
  have differs := source_apart from_ entered
  have goes : blocked (resolved.root.isSome || (none : Option Path).isSome) .copyFailed (place.isPrefixOf source) node (some t) = false := by
    cases t with
    | dir below =>
      obtain ⟨outside,jailed⟩ := loose rfl
      have above : place.isPrefixOf source = false := Bool.eq_false_iff.mpr fun inside => outside (List.isPrefixOf_iff_prefix.mp inside)
      rw [above,Option.isSome_iff_ne_none.mpr jailed]
      rfl
    | file data => rfl
    | link target => rfl
  have moved : Trash.moveAcrossRootsSecure disk host.links resolved ⟨trashFilesDir host ++ [lastName resolved],none⟩ .copyFailed =
      (edit none place disk,false) := by
    unfold Trash.moveAcrossRootsSecure
    rw [if_neg (by simp [inner])]
    unfold Trash.carry
    rw [entered,from_]
    dsimp only
    rw [held]
    dsimp only
    rw [stored,if_neg (Bool.eq_false_iff.mp goes),if_neg differs,if_neg fun below => apart (List.isPrefixOf_iff_prefix.mp below)]
    rfl
  have fate : trashOne disk host resolved ⟨[],⟨1970,1,1,0,0,0⟩,.copyFailed,.done,.refused⟩ = (edit none place disk,some .TRASH_FAILED) := by
    unfold trashOne
    dsimp only
    rw [last,moved]
  have kept := (keeps ⟨[],⟨1970,1,1,0,0,0⟩,.copyFailed,.done,.refused⟩ place t (by rw [last]; exact entered) stored).2
  have proper : place ≠ [] := by
    obtain ⟨real,_,_,_,rfl⟩ := entryOf_parts entered
    exact List.append_ne_nil_of_right_ne_nil _ (List.cons_ne_nil _ _)
  have cut := nodeAt_cut disk proper []
  rw [List.append_nil] at cut
  rw [fate,cut] at kept
  cases kept

end Store

-- A copy keeps both items, and a trashed item takes the place of no other, exactly
-- while a name is free, or at the last one nothing can be moved.
theorem nothing_replaced_iff (entries : Disk Bytes) (base : Name) (disk : Files) (host : Host) (resolved : SecurePath) :
    (KeepsBoth entries base ↔ ∃ k, k ≤ maxAutoRename ∧ (Node.dir entries).child (besideAt base k) = none) ∧
      (KeepsTrashed disk host resolved ↔ Spared disk host resolved) :=
  ⟨⟨both_needs,keeps_both⟩,⟨trashed_needs,keeps_trashed⟩⟩

def crowded (names : Nat → Name) (count : Nat) : Disk Bytes := (List.range count).map fun k => (names k,.file [1])

theorem crowded_child {names : Nat → Name} {count k : Nat} (early : k < count) : (Node.dir (crowded names count)).child (names k) = some (.file [1]) := by
  change ((crowded names count).find? fun e => e.1 == names k).map Prod.snd = _
  cases found : (crowded names count).find? fun e => e.1 == names k with
  | none =>
    have member : (names k,.file [1]) ∈ crowded names count := List.mem_map.mpr ⟨k,List.mem_range.mpr early,rfl⟩
    exact absurd (List.find?_eq_none.mp found _ member) (by simp)
  | some e =>
    obtain ⟨_,_,rfl⟩ := List.mem_map.mp (List.mem_of_find?_eq_some found)
    rfl

def storing (entries : Disk Bytes) : Files := [("a",.file [2]),("t",.dir [("files",.dir entries),("info",.dir [])])]

def store : Host := ⟨[],0,⟨["t"],t_ordinary⟩⟩

theorem storing_entered (entries : Disk Bytes) (name : Name) : entryOf (storing entries) store.links (trashFilesDir store ++ [name]) = some (["t","files"] ++ [name]) :=
  @entryOf_within _ (storing entries) 0 ["t","files"] ["t","files"] entries rfl rfl name

theorem storing_stored (entries : Disk Bytes) (name : Name) : nodeAt (storing entries).root (["t","files"] ++ [name]) = (Node.dir entries).child name :=
  nodeAt_snoc _ ["t","files"] name

theorem crowded_replaced : ¬ KeepsBoth (crowded (besideAt "a") (maxAutoRename + 1)) "a" ∧
    ¬ KeepsTrashed (storing (crowded (candidateAt "a") maxAutoRename)) store ⟨["a"],none⟩ := by
  have full : ∀ k, k < maxAutoRename →
      nodeAt (storing (crowded (candidateAt "a") maxAutoRename)).root (["t","files"] ++ [candidateAt "a" k]) = some (.file [1]) :=
    fun k early => (storing_stored _ _).trans (crowded_child early)
  constructor
  · intro keeps
    obtain ⟨k,early,free⟩ := both_needs keeps
    rw [crowded_child (Nat.lt_succ_of_le early)] at free
    cases free
  · intro keeps
    rcases trashed_needs keeps with ⟨k,early,free⟩ | refused
    · rw [show baseName (⟨["a"],none⟩ : SecurePath).full = "a" from rfl,taken_payload (storing_entered _ _) (full k early)] at free
      cases free
    · rcases refused _ _ (storing_entered _ _) (full _ (by decide)) with root | apart
      · cases root
      · rcases apart ["a"] (.file [2]) rfl rfl with above | ⟨folder,_⟩
        · exact absurd (List.cons_prefix_cons.mp above).1 (by decide)
        · cases folder

end RemoteFileExplorer.NameSearches
