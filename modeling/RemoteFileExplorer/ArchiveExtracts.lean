import RemoteFileExplorer.ArchiveCalls
import RemoteFileExplorer.FileOps
import RemoteFileExplorer.TrashSteps

namespace RemoteFileExplorer.ArchiveExtracts
open FileTree Jail TreeEdits PercentCodes Trash ArchiveCalls
open SystemCalls (stat readFile stat_within)
open Procedures
open FileCalls (Item item look look_new look_below)
open FileOps (maxArchiveEntries maxArchiveTotalBytes endsIn)

structure Stream where
  bytes : Bytes
  whole : Bool

inductive Body where
  | dir
  | regular (content : Stream)
  | other

-- The name is as the archive has it, slashes and all.
structure Entry where
  name : Bytes
  body : Body

-- The archive packages. The entries of a zip are listed at its end; a tar is
-- read entry by entry, and may fail to be read after some.
structure Readers where
  zip : Bytes → Option (List Entry)
  tarGz : Bytes → Option (List Entry × Bool)

def parts (name : Bytes) : List Name := (name.splitOn slash).map nameOf

section Programs
variable {host : Host} {caller : Caller}

def access (path : Bytes) : Task host caller SecurePath := do
  let resolved ← (call (.access path) : Task host caller (Except ResolveError SecurePath))
  orFail resolved.toOption

def lstat (path : Path) : Task host caller (Except ResolveError Item) := call (.lstat path)

def input : Task host caller Unit := call .input

def remove (path : Path) : Task host caller Unit := call (.remove path)

def readArchive (path : Path) : Task host caller Bytes := do
  let data ← (call (.read path) : Task host caller (Option Bytes))
  orFail data

def checkNoSymlinkParent : Path → List Name → Task host caller Unit
  | _,[] => pure ()
  | cur,part::rest => do
    let found ← lstat (clean (cur ++ [part]))
    match found with
    | .error .notExist => pure ()
    | .error _ => fail
    | .ok (.link _) => fail
    | .ok _ => checkNoSymlinkParent (clean (cur ++ [part])) rest

def safeJoinSecure (dest : SecurePath) (name : Bytes) : Task host caller SecurePath := do
  let target := clean (dest.full ++ parts name)
  if isUnder target dest.full then
    let rel := target.drop dest.full.length
    checkNoSymlinkParent dest.full (if rel = [] then ["."] else rel)
    pure ⟨target,dest.root⟩
  else fail

def candidate (dst : Path) (i : Nat) : Path := dst.dropLast ++ [keepBoth (baseName dst) i]

-- Whatever keeps a candidate from being seen, it is handed out.
def autoRenameFrom (dst : Path) : Nat → Nat → Task host caller Path
  | 0,i => do
    let _ ← (lstat (candidate dst i)).attempt
    pure (candidate dst i)
  | left + 1,i => do
    let found ← (lstat (candidate dst i)).attempt
    match found with
    | some (.ok _) => autoRenameFrom dst left (i + 1)
    | _ => pure (candidate dst i)

def uniqueArchivePath (path : SecurePath) : Task host caller SecurePath := do
  mkdirAll path.full.dropLast
  let found ← lstat path.full
  match found with
  | .ok .dir => fail
  | .ok _ =>
    let full ← autoRenameFrom path.full (maxAutoRename - 1) 1
    pure ⟨full,path.root⟩
  | .error .notExist => pure path
  | .error _ => fail

-- One byte more than remains is copied before the excess is seen.
def copyBounded (place : Path) (content : Stream) (remaining : Nat) : Task host caller Nat := do
  writeAll place (content.bytes.take (remaining + 1))
  if remaining < content.bytes.length then fail else
    check content.whole
    pure (remaining - content.bytes.length)

def writeArchiveEntry (target : SecurePath) (content : Stream) (remaining : Nat) : Task host caller Nat := do
  let dst ← uniqueArchivePath target
  let out ← openFile dst.full
  let copied ← (copyBounded out content remaining).attempt
  let closed ← (call (.close out) : Task host caller Unit).attempt
  match copied,closed with
  | some left,some _ => pure left
  | _,_ =>
    let _ ← (remove dst.full).attempt
    fail

-- `header` is read before each entry and `opening` before a file's content, and
-- `ending` after the last. `left` counts the entries that are still allowed.
def unpack (header opening ending : Task host caller Unit) (dest : SecurePath) : Nat → Nat → List Entry → Task host caller Unit
  | _,_,[] => ending
  | 0,_,_::_ => do
    header
    fail
  | left + 1,remaining,entry::rest => do
    header
    let target ← safeJoinSecure dest entry.name
    match entry.body with
    | .dir =>
      mkdirAll target.full
      unpack header opening ending dest left remaining rest
    | .regular content =>
      opening
      let remaining ← writeArchiveEntry target content remaining
      unpack header opening ending dest left remaining rest
    | .other => unpack header opening ending dest left remaining rest

variable (readers : Readers)

def extractZipSecure (archive dest : SecurePath) : Task host caller Unit := do
  let data ← readArchive archive.full
  input
  let entries ← orFail (readers.zip data)
  unpack (pure ()) input (pure ()) dest maxArchiveEntries maxArchiveTotalBytes entries

def extractTarGzSecure (archive dest : SecurePath) : Task host caller Unit := do
  let data ← readArchive archive.full
  let (entries,whole) ← orFail (readers.tarGz data)
  let ending : Task host caller Unit := do
    input
    check whole
  unpack input (pure ()) ending dest maxArchiveEntries maxArchiveTotalBytes entries

def unpacked (archive dest : SecurePath) : Task host caller Unit :=
  let name := baseName archive.full
  if endsIn name ".zip" then extractZipSecure readers archive dest else
  if endsIn name ".tar.gz" || endsIn name ".tgz" then extractTarGzSecure readers archive dest else fail

def extract (archivePath destDir : Bytes) : Task host caller Unit :=
  if caller.readOnly then fail else do
    let archive ← access archivePath
    let found ← (call (.stat archive.full) : Task host caller Bool)
    check found
    let dest ← access destDir
    mkdirAll dest.full
    unpacked readers archive dest
    input

end Programs

-- What may have changed: something stands where nothing stood, below the
-- destination and no link, or a directory on the way to it.
def Kept (start now : Files) (dest : Path) : Prop :=
  ∀ path, look now path = look start path ∨ (look start path = none ∧
    ((dest <+: path ∧ ∀ target, look now path ≠ some (.link target)) ∨ (path <+: dest ∧ look now path = some .dir)))

def Complete (entries : List Entry) (start now : Files) : Prop :=
  ∀ path data, look start path = none → look now path = some (.file data) → ∃ entry ∈ entries, entry.body = .regular ⟨data,true⟩

structure Underway (start : Volume) (dest : Path) (entries : List Entry) (sure : Prop) (remaining : Nat) (now : Volume) : Prop where
  kept : Kept start.files now.files dest
  stands : look now.files dest = some .dir
  counted : now.written + remaining = start.written + maxArchiveTotalBytes
  complete : sure → Complete entries start.files now.files

structure Ended (start : Volume) (dest : Path) (entries : List Entry) (sure : Prop) (now : Volume) (result : Option Unit) : Prop where
  kept : Kept start.files now.files dest
  bounded : now.written ≤ start.written + maxArchiveTotalBytes + 1
  within : result = some () → now.written ≤ start.written + maxArchiveTotalBytes
  complete : sure → Complete entries start.files now.files

section Keeping
variable {start now after : Files} {dest path target : Path}

theorem kept_free (kept : Kept start now dest) (free : look now path = none) : look start path = none := by
  rcases kept path with same | ⟨gone,_⟩
  · rw [← same]
    exact free
  · exact gone

theorem real_kept (real : Real start.root dest) (kept : Kept start now dest) : Real now.root dest := by
  refine ⟨real.1,unlinked_look.mpr ?_⟩
  intro front before target
  rcases kept front with same | ⟨_,⟨_,plain⟩ | ⟨_,folder⟩⟩
  · rw [same]
    exact unlinked_look.mp real.2 front before target
  · exact plain target
  · rw [folder]
    exact nofun

theorem kept_only (kept : Kept start now dest) (only : Only path now after) (free : look now path = none) (inside : dest <+: path)
    (plain : ∀ target, look after path ≠ some (.link target)) : Kept start after dest := by
  intro other
  by_cases same : other = path
  · rw [same]
    exact .inr ⟨kept_free kept free,.inl ⟨inside,plain⟩⟩
  · rw [only other same]
    exact kept other

theorem stands_only (stands : look now dest = some .dir) (only : Only path now after) (free : look now path = none) : look after dest = some .dir := by
  rw [only dest ?_]
  · exact stands
  · rintro rfl
    rw [free] at stands
    cases stands

theorem made_inside (stands : look v.files dest = some .dir) (inside : dest <+: target) (made : Made target v middle) (path : Path) :
    look middle.files path = look v.files path ∨ (look v.files path = none ∧ dest <+: path ∧ look middle.files path = some .dir) := by
  rcases made.kept path with same | ⟨gone,before,folder⟩
  · exact .inl same
  · refine .inr ⟨gone,?_,folder⟩
    rcases List.prefix_or_prefix_of_prefix inside before with below | ⟨rest,rfl⟩
    · exact below
    · by_cases here : rest = []
      · rw [here,List.append_nil]
      · rw [FileCalls.look_above (by rw [stands]; exact nofun) here] at gone
        cases gone

end Keeping

section Rules
variable {host : Host} {caller : Caller} {ok : Volume → (store host caller).Action → Outcome → Prop} {start v : Volume} {dest : Path} {entries : List Entry}
  {sure : Prop} {remaining : Nat}

theorem underway_ended (underway : Underway start dest entries sure remaining v) (result : Option Unit) : Ended start dest entries sure v result := by
  have counted := underway.counted
  exact ⟨underway.kept,by omega,fun _ => by omega,underway.complete⟩

theorem underway_made (underway : Underway start dest entries sure remaining v) (inside : dest <+: target)
    (made : Made target v middle) : Underway start dest entries sure remaining middle := by
  have changes := made_inside underway.stands inside made
  refine ⟨?_,?_,?_,?_⟩
  · intro path
    rcases changes path with same | ⟨gone,below,folder⟩
    · rw [same]
      exact underway.kept path
    · exact .inr ⟨kept_free underway.kept gone,.inl ⟨below,by rw [folder]; exact nofun⟩⟩
  · rcases changes dest with same | ⟨_,_,folder⟩
    · rw [same]
      exact underway.stands
    · exact folder
  · rw [made.written]
    exact underway.counted
  · intro known path data free stored
    rcases changes path with same | ⟨_,_,folder⟩
    · exact underway.complete known path data free (same ▸ stored)
    · rw [folder] at stored
      cases stored

theorem checkNoSymlinkParent_meets (rest : List Name) (ordinary : Ordinary (cur ++ rest)) (real : Real v.files.root cur)
    (stands : look v.files cur ≠ none) :
    Meets ok (fun _ => True) (checkNoSymlinkParent cur rest : Task host caller Unit) v fun after result =>
      after = v ∧ (result = some () → Real v.files.root (cur ++ rest)) := by
  induction rest generalizing cur with
  | nil => exact ⟨rfl,fun _ => by rw [List.append_nil]; exact real⟩
  | cons part rest ih =>
    have onward : cur ++ part::rest = cur ++ [part] ++ rest := by simp
    have next : Ordinary (cur ++ [part]) := fun name member => ordinary name (by rw [onward]; exact List.mem_append_left _ member)
    obtain ⟨node,stored,_⟩ := Option.map_eq_some_iff.mp (Option.ne_none_iff_exists'.mp stands).choose_spec
    unfold checkNoSymlinkParent
    rw [clean_same next]
    refine meets_bind (meets_call ⟨rfl,by simp⟩ ?_)
    have judged : perform host caller (.lstat (cur ++ [part])) v = (v,(Jail.lstat v.files host.links (cur ++ [part])).map item) := rfl
    rw [judged]
    cases found : Jail.lstat v.files host.links (cur ++ [part]) with
    | error e =>
      cases e with
      | notExist =>
        refine ⟨rfl,fun _ => ?_⟩
        have gone := lstat_missing real stored found
        exact ⟨ordinary,unlinked_below real.2 gone rest⟩
      | forbidden | notAbsolute | notDirectory | tooManyLinks => exact ⟨rfl,by simp⟩
    | ok there =>
      have above : Real v.files.root (cur ++ [part]).dropLast := by
        rw [List.dropLast_concat]
        exact real
      have standing := (TrashSteps.lstat_place next above found).1
      have more (plain : there.isLink = false) :
          Meets ok (fun _ => True) (checkNoSymlinkParent (cur ++ [part]) rest : Task host caller Unit) v fun after result =>
            after = v ∧ (result = some () → Real v.files.root (cur ++ part::rest)) := by
        rw [onward] at ordinary ⊢
        exact ih ordinary (real_snoc real (next part (List.mem_append_right _ (List.mem_cons_self ..))) standing plain)
          (by rw [look,standing]; simp)
      cases there with
      | link target => exact ⟨rfl,by simp⟩
      | file data | dir inner => exact more rfl

theorem meets_dot (cur : Path) :
    Meets ok (fun _ => True) (checkNoSymlinkParent cur ["."] : Task host caller Unit) v fun after _ => after = v := by
  refine meets_bind (meets_call rfl ?_)
  have judged : perform host caller (.lstat (clean (cur ++ ["."]))) v = (v,(Jail.lstat v.files host.links (clean (cur ++ ["."]))).map item) := rfl
  dsimp only [Option.elim]
  split
  all_goals exact rfl

theorem safeJoinSecure_meets (home : SecurePath) (name : Bytes) (real : Real v.files.root home.full) (stands : look v.files home.full = some .dir) :
    Meets ok (fun _ => True) (safeJoinSecure home name : Task host caller SecurePath) v fun after result =>
      after = v ∧ ∀ target, result = some target → home.full <+: target.full ∧ Real v.files.root target.full := by
  unfold safeJoinSecure
  dsimp only
  split
  · rename_i within
    obtain ⟨rel,whole⟩ := List.isPrefixOf_iff_prefix.mp within
    have ordinary : Ordinary (home.full ++ rel) := by
      rw [whole]
      exact clean_proper _
    rw [← whole,List.drop_left]
    have found : ∀ after result, (after = v ∧ (result = some () → Real v.files.root (home.full ++ rel))) →
        result.elim (after = v ∧ ∀ target, (none : Option SecurePath) = some target → home.full <+: target.full ∧ Real v.files.root target.full)
          fun _ => Meets ok (fun _ => True) (pure ⟨home.full ++ rel,home.root⟩ : Task host caller SecurePath) after fun after result =>
            after = v ∧ ∀ target, result = some target → home.full <+: target.full ∧ Real v.files.root target.full := by
      rintro after result ⟨rfl,straight⟩
      cases result with
      | none => exact ⟨rfl,nofun⟩
      | some _ =>
        refine ⟨rfl,?_⟩
        rintro target same
        cases same
        exact ⟨List.prefix_append _ _,straight rfl⟩
    split
    · rename_i same
      subst same
      refine meets_bind (meets_imp ?_ (meets_dot _))
      rintro after result rfl
      exact found _ result ⟨rfl,fun _ => by rw [List.append_nil]; exact real⟩
    · refine meets_bind (meets_imp found (checkNoSymlinkParent_meets rel ordinary real (by rw [stands]; exact nofun)))
  · exact ⟨rfl,nofun⟩

theorem autoRenameFrom_meets (dst : Path) (left i : Nat) :
    Meets ok (fun _ => True) (autoRenameFrom dst left i : Task host caller Path) v fun after result => after = v ∧ ∃ i, result = some (candidate dst i) := by
  induction left generalizing i with
  | zero => exact meets_bind (meets_attempt (meets_call ⟨rfl,i,rfl⟩ ⟨rfl,i,rfl⟩))
  | succ left ih =>
    refine meets_bind (meets_attempt (meets_call ⟨rfl,i,rfl⟩ ?_))
    have judged : perform host caller (.lstat (candidate dst i)) v = (v,(Jail.lstat v.files host.links (candidate dst i)).map item) := rfl
    rw [judged]
    cases (Jail.lstat v.files host.links (candidate dst i)).map item with
    | error e => exact ⟨rfl,i,rfl⟩
    | ok there => exact ih (i + 1)

theorem uniqueArchivePath_meets (target : SecurePath) (underway : Underway start dest entries sure remaining v) (inside : dest <+: target.full)
    (real : Real v.files.root target.full) :
    Meets ok (fun _ => True) (uniqueArchivePath target : Task host caller SecurePath) v fun after result =>
      Underway start dest entries sure remaining after ∧
        ∀ dst, result = some dst → ∃ front name, dst.full = front ++ [name] ∧ dest <+: front ++ [name] ∧ Real after.files.root front := by
  have above : Real v.files.root target.full.dropLast := real_dropLast real
  refine meets_bind (meets_imp ?_ (mkdirAll_meets above))
  rintro middle result ⟨made,_⟩
  have longer : Made target.full v middle := made_longer made (List.dropLast_prefix _)
  have onward := underway_made underway inside longer
  have straight := real_made above longer
  cases result with
  | none => exact ⟨onward,by simp⟩
  | some _ =>
    refine meets_bind (meets_call ⟨onward,by simp⟩ ?_)
    have judged : perform host caller (.lstat target.full) middle = (middle,(Jail.lstat middle.files host.links target.full).map item) := rfl
    rw [judged]
    rcases List.eq_nil_or_concat' target.full with root | ⟨front,name,split⟩
    · -- the root directory is no place for a file
      rw [root]
      exact ⟨onward,by simp⟩
    · have parent : Real middle.files.root front := by
        rwa [split,List.dropLast_concat] at straight
      cases found : Jail.lstat middle.files host.links target.full with
      | error e =>
        cases e with
        | notExist =>
          refine ⟨onward,?_⟩
          rintro dst same
          cases same
          exact ⟨front,name,split,split ▸ inside,parent⟩
        | forbidden | notAbsolute | notDirectory | tooManyLinks => exact ⟨onward,by simp⟩
      | ok there =>
        have standing := (TrashSteps.lstat_place real.1 straight found).1
        have beside (plain : item there ≠ .dir) : Meets ok (fun _ => True) (do
            let full ← autoRenameFrom target.full (maxAutoRename - 1) 1
            pure ⟨full,target.root⟩ : Task host caller SecurePath) middle fun after result =>
              Underway start dest entries sure remaining after ∧
                ∀ dst, result = some dst → ∃ front name, dst.full = front ++ [name] ∧ dest <+: front ++ [name] ∧ Real after.files.root front := by
          refine meets_bind (meets_imp ?_ (autoRenameFrom_meets target.full (maxAutoRename - 1) 1))
          rintro after result ⟨rfl,i,rfl⟩
          refine ⟨onward,?_⟩
          rintro dst same
          cases same
          refine ⟨front,keepBoth (baseName target.full) i,by rw [candidate,split,List.dropLast_concat],?_,parent⟩
          rw [split] at inside
          rcases List.prefix_concat_iff.mp inside with whole | shorter
          · have folder := onward.stands
            rw [whole,← split,look,standing] at folder
            exact absurd (Option.some.inj folder) plain
          · exact shorter.trans (List.prefix_append _ _)
        cases there with
        | dir inner => exact ⟨onward,by simp⟩
        | file data | link target => exact beside (by simp [item])

theorem copyBounded_meets (content : Stream) (created : look v.files (front ++ [name]) = some (.file [])) :
    Meets ok (fun _ => True) (copyBounded (front ++ [name]) content remaining : Task host caller Nat) v fun after result =>
      ∃ sent, Filled (front ++ [name]) [] sent v after ∧ sent.length ≤ remaining + 1 ∧
        ∀ left, result = some left → sent = content.bytes ∧ content.whole = true ∧ left + sent.length = remaining := by
  refine meets_bind (meets_imp ?_ (writeAll_meets created _))
  rintro after result ⟨sent,part,filled,all⟩
  have short : sent.length ≤ remaining + 1 := part.length_le.trans (List.length_take_le _ _)
  have partial_ : ∃ sent, Filled (front ++ [name]) [] sent v after ∧ sent.length ≤ remaining + 1 ∧
      ∀ left, (none : Option Nat) = some left → sent = content.bytes ∧ content.whole = true ∧ left + sent.length = remaining := ⟨sent,filled,short,nofun⟩
  cases result with
  | none => exact partial_
  | some _ =>
    split
    · exact partial_
    · refine meets_bind (check_meets partial_ fun whole => ?_)
      have every : sent = content.bytes := by
        rw [all rfl]
        exact List.take_of_length_le (by omega)
      refine ⟨sent,filled,short,?_⟩
      rintro left same
      cases same
      refine ⟨every,whole,?_⟩
      rw [every]
      omega

def Stage (start : Volume) (dest : Path) (entries : List Entry) (sure : Prop) (now : Volume) : Option Nat → Prop
  | none => Ended start dest entries sure now none
  | some left => Underway start dest entries sure left now

section Filling
variable {middle after : Volume} {path : Path} {sent : Bytes}

section
variable (underway : Underway start dest entries sure remaining v) (inside : dest <+: path) (free : look v.files path = none) (only : Only path v.files after.files)
include underway inside free only

theorem filled_ended (counted : after.written ≤ v.written + remaining + 1)
    (gone : (∀ target, look after.files path ≠ some (.link target)) ∧ (sure → look after.files path = none)) : Ended start dest entries sure after none := by
  have books := underway.counted
  refine ⟨kept_only underway.kept only free inside gone.1,by omega,nofun,?_⟩
  intro known other data missing stored
  by_cases same : other = path
  · rw [same,gone.2 known] at stored
    cases stored
  · rw [only other same] at stored
    exact underway.complete known other data missing stored

theorem filled_underway (whole : look after.files path = some (.file sent)) (listed : ∃ entry ∈ entries, entry.body = .regular ⟨sent,true⟩)
    (counted : after.written + left = v.written + remaining) : Underway start dest entries sure left after := by
  have books := underway.counted
  refine ⟨kept_only underway.kept only free inside (by rw [whole]; exact nofun),stands_only underway.stands only free,by omega,?_⟩
  intro known other data missing stored
  by_cases same : other = path
  · rw [same,whole] at stored
    cases stored
    exact listed
  · rw [only other same] at stored
    exact underway.complete known other data missing stored

end

end Filling

theorem writeArchiveEntry_meets (removes : sure → ∀ v path, ¬ ok v (.remove path) .refused) (target : SecurePath) (content : Stream)
    (listed : ∃ entry ∈ entries, entry.body = .regular content) (underway : Underway start dest entries sure remaining v) (inside : dest <+: target.full)
    (real : Real v.files.root target.full) :
    Meets ok (fun _ => True) (writeArchiveEntry target content remaining : Task host caller Nat) v (Stage start dest entries sure) := by
  refine meets_bind (meets_imp ?_ (uniqueArchivePath_meets target underway inside real))
  rintro ready result ⟨onward,named⟩
  cases result with
  | none => exact underway_ended onward none
  | some dst =>
    obtain ⟨front,name,full,within,parent⟩ := named dst rfl
    dsimp only [Option.elim]
    rw [full]
    refine meets_bind (meets_imp ?_ (openFile_meets parent))
    rintro created result (⟨rfl,rfl⟩ | ⟨free,folder,rfl,rfl⟩)
    · exact underway_ended onward none
    · have empty : look (edit (some (.file [])) (front ++ [name]) ready.files) (front ++ [name]) = some (.file []) := look_new folder _
      have first : Only (front ++ [name]) ready.files (edit (some (.file [])) (front ++ [name]) ready.files) :=
        fun other apart => look_leaf_edit folder (fun rest _ => look_below free rest) (file_bare []) apart
      refine meets_bind (meets_attempt (meets_imp ?_ (copyBounded_meets content empty)))
      rintro filled result ⟨sent,grown,short,complete⟩
      have only := only_trans first grown.only
      have counted := grown.counted
      have stored : look filled.files (front ++ [name]) = some (.file sent) := grown.content
      -- the partial file is removed, unless that fails as well
      have removed : Meets ok (fun _ => True) (do
          let _ ← (remove (front ++ [name])).attempt
          fail : Task host caller Nat) filled (Stage start dest entries sure) := by
        have apart : Real filled.files.root front := by
          refine ⟨parent.1,unlinked_look.mpr ?_⟩
          intro above before
          rw [only above]
          · exact unlinked_look.mp parent.2 above before
          · rintro rfl
            exact FileCalls.above_outside _ _ before
        obtain ⟨gone,clean⟩ : look (perform host caller (.remove (front ++ [name])) filled).1.files (front ++ [name]) = none ∧ _ := removed_file apart stored
        refine meets_bind (meets_attempt ⟨fun _ => trivial,?_,?_⟩)
        · intro refused
          refine filled_ended onward within free only (by dsimp only at counted; omega) ⟨by rw [stored]; exact nofun,?_⟩
          intro known
          exact absurd refused (removes known _ _)
        · intro _
          refine filled_ended onward within free (only_trans only clean) ?_ ⟨by rw [gone]; exact nofun,fun _ => gone⟩
          have same : (perform host caller (.remove (front ++ [name])) filled).1.written = filled.written := rfl
          change (perform host caller (.remove (front ++ [name])) filled).1.written ≤ _
          dsimp only at counted
          omega
      refine meets_bind (meets_attempt (meets_call ?_ ?_))
      · cases result with
        | none | some left => exact removed
      · cases result with
        | none => exact removed
        | some left =>
          obtain ⟨every,whole,books⟩ := complete left rfl
          refine filled_underway onward within free only stored ?_ (by dsimp only at counted; omega)
          obtain ⟨entry,member,body⟩ := listed
          refine ⟨entry,member,?_⟩
          rw [body,every,← whole]

def Quiet (ok : Volume → (store host caller).Action → Outcome → Prop) (p : Task host caller Unit) : Prop :=
  ∀ v, Meets ok (fun _ => True) p v fun after _ => after = v

theorem pure_quiet : Quiet ok (pure () : Task host caller Unit) := fun _ => rfl

theorem input_quiet : Quiet ok (input : Task host caller Unit) := fun _ => meets_call rfl rfl

theorem unpack_meets (heads : Quiet ok header) (opens : Quiet ok opening) (ends : Quiet ok ending)
    (removes : sure → ∀ v path, ¬ ok v (.remove path) .refused) (home : SecurePath) (real : Real start.files.root home.full) (rest : List Entry)
    (members : ∀ entry ∈ rest, entry ∈ entries) (left : Nat) (underway : Underway start home.full entries sure remaining v) :
    Meets ok (fun _ => True) (unpack header opening ending home left remaining rest) v (Ended start home.full entries sure) := by
  induction rest generalizing left remaining v with
  | nil =>
    rw [unpack]
    refine meets_imp ?_ (ends v)
    rintro after result rfl
    exact underway_ended underway result
  | cons entry rest ih =>
    have later : ∀ other ∈ rest, other ∈ entries := fun other member => members other (List.mem_cons_of_mem _ member)
    cases left with
    | zero =>
      refine meets_bind (meets_imp ?_ (heads v))
      rintro after result rfl
      cases result with
      | none | some _ => exact underway_ended underway none
    | succ left =>
      refine meets_bind (meets_imp ?_ (heads v))
      rintro after result rfl
      cases result with
      | none => exact underway_ended underway none
      | some _ =>
        refine meets_bind (meets_imp ?_ (safeJoinSecure_meets home entry.name (real_kept real underway.kept) underway.stands))
        rintro now result ⟨rfl,joined⟩
        cases result with
        | none => exact underway_ended underway none
        | some target =>
          obtain ⟨inside,straight⟩ := joined target rfl
          cases body : entry.body with
          | dir =>
            refine meets_bind (meets_imp ?_ (mkdirAll_meets straight))
            rintro after result ⟨made,_⟩
            have onward := underway_made underway inside made
            cases result with
            | none => exact underway_ended onward none
            | some _ => exact ih later left onward
          | other => exact ih later left underway
          | regular content =>
            have listed : ∃ entry ∈ entries, entry.body = .regular content := ⟨entry,members entry (List.mem_cons_self ..),body⟩
            refine meets_bind (meets_imp ?_ (opens now))
            rintro after result rfl
            cases result with
            | none => exact underway_ended underway none
            | some _ =>
              refine meets_bind (meets_imp ?_ (writeArchiveEntry_meets removes target content listed underway inside straight))
              intro after result stage
              cases result with
              | none => exact stage
              | some remaining => exact ih later left stage

end Rules

def listed (readers : Readers) (archive : SecurePath) (data : Bytes) : List Entry :=
  if endsIn (baseName archive.full) ".zip" then (readers.zip data).getD [] else ((readers.tarGz data).map Prod.fst).getD []

-- What an extraction has done to the files, whatever calls failed: what is new is
-- below the destination or on the way to it, one byte too much at most is
-- written, and, where no removal of a part failed, what is new is whole.
structure Extracted (host : Host) (caller : Caller) (readers : Readers) (archivePath destDir : Bytes) (sure : Prop) (start last : Volume) (result : Option Unit) : Prop where
  contained : ∀ path, look last.files path = look start.files path ∨ (look start.files path = none ∧ ∃ dest,
    Trash.access start.files host caller destDir = .ok dest ∧
      ((dest.full <+: path ∧ ∀ target, look last.files path ≠ some (.link target)) ∨ (path <+: dest.full ∧ look last.files path = some .dir)))
  bounded : last.written ≤ start.written + maxArchiveTotalBytes + 1
  within : result = some () → last.written ≤ start.written + maxArchiveTotalBytes
  complete : sure → ∀ path data, look start.files path = none → look last.files path = some (.file data) → ∃ archive bytes,
    Trash.access start.files host caller archivePath = .ok archive ∧ readFile start.files host.links archive.full = some bytes ∧
      ∃ entry ∈ listed readers archive bytes, entry.body = .regular ⟨data,true⟩

section Results
variable {host : Host} {caller : Caller} {ok : Volume → (store host caller).Action → Outcome → Prop} {readers : Readers} {archivePath destDir : Bytes}
  {start v : Volume} {sure : Prop}

theorem extracted_unchanged (result : Option Unit) : Extracted host caller readers archivePath destDir sure start start result := by
  refine ⟨fun _ => .inl rfl,by omega,fun _ => by omega,?_⟩
  intro _ path data missing stored
  rw [missing] at stored
  cases stored

theorem extracted_failed (extracted : Extracted host caller readers archivePath destDir sure start last result) :
    Extracted host caller readers archivePath destDir sure start last none :=
  ⟨extracted.contained,extracted.bounded,nofun,extracted.complete⟩

theorem extracted_ended
    (archived : Trash.access start.files host caller archivePath = .ok archive) (resolved : Trash.access start.files host caller destDir = .ok dest)
    (read : readFile start.files host.links archive.full = some bytes)
    (ended : Ended start dest.full (listed readers archive bytes) sure last result) : Extracted host caller readers archivePath destDir sure start last result := by
  refine ⟨?_,ended.bounded,ended.within,?_⟩
  · intro path
    rcases ended.kept path with same | ⟨gone,new⟩
    · exact .inl same
    · exact .inr ⟨gone,dest,resolved,new⟩
  · intro known path data missing stored
    exact ⟨archive,bytes,archived,read,ended.complete known path data missing stored⟩

theorem extracted_made (resolved : Trash.access start.files host caller destDir = .ok dest)
    (made : Made dest.full start ready) (result : Option Unit) : Extracted host caller readers archivePath destDir sure start ready result := by
  have books := made.written
  refine ⟨?_,by omega,fun _ => by omega,?_⟩
  · intro path
    rcases made.kept path with same | ⟨gone,before,folder⟩
    · exact .inl same
    · exact .inr ⟨gone,dest,resolved,.inr ⟨before,folder⟩⟩
  · intro _ path data missing stored
    rcases made.kept path with same | ⟨_,_,folder⟩
    · rw [same,missing] at stored
      cases stored
    · rw [folder] at stored
      cases stored

theorem underway_start (made : Made dest start ready) (stands : look ready.files dest = some .dir) :
    Underway start dest entries sure maxArchiveTotalBytes ready := by
  refine ⟨?_,stands,by rw [made.written],?_⟩
  · intro path
    rcases made.kept path with same | ⟨gone,before,folder⟩
    · exact .inl same
    · exact .inr ⟨gone,.inr ⟨before,folder⟩⟩
  · intro _ path data missing stored
    rcases made.kept path with same | ⟨_,_,folder⟩
    · rw [same,missing] at stored
      cases stored
    · rw [folder] at stored
      cases stored

theorem readFile_made (made : Made place start ready) (stands : (stat start.files host.links path).isSome)
    (read : readFile ready.files host.links path = some bytes) : readFile start.files host.links path = some bytes := by
  have grows : Grows start.files ready.files := by
    intro other node stored
    rcases made.kept other with same | ⟨gone,_,_⟩
    · unfold look at same
      rw [stored] at same
      obtain ⟨now,found,alike⟩ := Option.map_eq_some_iff.mp same
      rw [found]
      cases now <;> cases node <;> cases alike <;> rfl
    · rw [look,stored] at gone
      cases gone
  obtain ⟨node,seen⟩ := Option.isSome_iff_exists.mp stands
  unfold stat at seen
  split at seen
  · rename_i found walked
    have later := walk_grows grows walked
    have same : look ready.files found = look start.files found := by
      rcases made.kept found with same | ⟨gone,_,_⟩
      · exact same
      · rw [look,seen] at gone
        cases gone
    unfold readFile at read ⊢
    rw [stat_within later] at read
    rw [stat_within walked]
    unfold look at same
    split at read
    · rename_i data stored
      cases read
      rw [stored,seen] at same
      rw [seen]
      cases node <;> cases same
      rfl
    · cases read
  · cases seen

theorem readArchive_meets (path : Path) :
    Meets ok (fun _ => True) (readArchive path : Task host caller Bytes) v fun after result =>
      after = v ∧ ∀ data, result = some data → readFile v.files host.links path = some data := by
  refine meets_bind (meets_call ⟨rfl,nofun⟩ ?_)
  refine orFail_meets (fun _ => ⟨rfl,nofun⟩) ?_
  intro data read
  refine ⟨rfl,?_⟩
  intro other same
  cases same
  exact read

structure Ready (host : Host) (caller : Caller) (archivePath destDir : Bytes) (start : Volume) (archive dest : SecurePath) (ready : Volume) : Prop where
  archived : Trash.access start.files host caller archivePath = .ok archive
  there : (stat start.files host.links archive.full).isSome
  resolved : Trash.access start.files host caller destDir = .ok dest
  real : Real start.files.root dest.full
  made : Made dest.full start ready
  stands : look ready.files dest.full = some .dir

section
variable (prepared : Ready host caller archivePath destDir start archive dest ready) (removes : sure → ∀ v path, ¬ ok v (.remove path) .refused)
include prepared removes

theorem extractZipSecure_meets (named : endsIn (baseName archive.full) ".zip" = true) :
    Meets ok (fun _ => True) (extractZipSecure readers archive dest : Task host caller Unit) ready
      (Extracted host caller readers archivePath destDir sure start) := by
  have nothing : Extracted host caller readers archivePath destDir sure start ready none := extracted_made prepared.resolved prepared.made none
  refine meets_bind (meets_imp ?_ (readArchive_meets archive.full))
  rintro after result ⟨rfl,read⟩
  cases result with
  | none => exact nothing
  | some data =>
    refine meets_bind (meets_imp ?_ (input_quiet after))
    rintro now result rfl
    cases result with
    | none => exact nothing
    | some _ =>
      refine meets_bind (orFail_meets (fun _ => nothing) ?_)
      intro entries zipped
      have bytes := readFile_made prepared.made prepared.there (read data rfl)
      have all : listed readers archive data = entries := by rw [listed,if_pos named,zipped,Option.getD_some]
      refine meets_imp (fun last result ended => extracted_ended prepared.archived prepared.resolved bytes ended) ?_
      exact unpack_meets pure_quiet input_quiet pure_quiet removes dest prepared.real entries (fun entry member => all ▸ member) _
        (underway_start prepared.made prepared.stands)

theorem extractTarGzSecure_meets (named : endsIn (baseName archive.full) ".zip" = false) :
    Meets ok (fun _ => True) (extractTarGzSecure readers archive dest : Task host caller Unit) ready
      (Extracted host caller readers archivePath destDir sure start) := by
  have nothing : Extracted host caller readers archivePath destDir sure start ready none := extracted_made prepared.resolved prepared.made none
  refine meets_bind (meets_imp ?_ (readArchive_meets archive.full))
  rintro after result ⟨rfl,read⟩
  cases result with
  | none => exact nothing
  | some data =>
    refine meets_bind (orFail_meets (fun _ => nothing) ?_)
    rintro ⟨entries,whole⟩ zipped
    have bytes := readFile_made prepared.made prepared.there (read data rfl)
    have all : listed readers archive data = entries := by rw [listed,if_neg (by simp [named]),zipped,Option.map_some,Option.getD_some]
    refine meets_imp (fun last result ended => extracted_ended prepared.archived prepared.resolved bytes ended) ?_
    refine unpack_meets input_quiet pure_quiet ?_ removes dest prepared.real entries (fun entry member => all ▸ member) _
      (underway_start prepared.made prepared.stands)
    intro v
    refine meets_bind (meets_imp ?_ (input_quiet v))
    rintro now result rfl
    cases result with
    | none => exact rfl
    | some _ => exact check_meets rfl fun _ => rfl

theorem unpacked_meets :
    Meets ok (fun _ => True) (unpacked readers archive dest : Task host caller Unit) ready
      (Extracted host caller readers archivePath destDir sure start) := by
  unfold unpacked
  dsimp only
  split
  · rename_i zip
    exact extractZipSecure_meets prepared removes zip
  · rename_i plain
    split
    · exact extractTarGzSecure_meets prepared removes (Bool.eq_false_iff.mpr plain)
    · exact extracted_made prepared.resolved prepared.made none

end

theorem access_meets (path : Bytes) :
    Meets ok (fun _ => True) (access path : Task host caller SecurePath) v fun after result =>
      after = v ∧ ∀ resolved, result = some resolved → Trash.access v.files host caller path = .ok resolved := by
  refine meets_bind (meets_call ⟨rfl,nofun⟩ ?_)
  refine orFail_meets (fun _ => ⟨rfl,nofun⟩) ?_
  intro resolved opened
  refine ⟨rfl,?_⟩
  rintro other same
  cases same
  have judged : (perform host caller (.access path) v).2 = Trash.access v.files host caller path := rfl
  rw [judged] at opened
  cases found : Trash.access v.files host caller path with
  | error e =>
    rw [found] at opened
    cases opened
  | ok there =>
    rw [found] at opened
    cases opened
    rfl

theorem extract_meets (removes : sure → ∀ v path, ¬ ok v (.remove path) .refused) :
    Meets ok (fun _ => True) (extract readers archivePath destDir : Task host caller Unit) start
      (Extracted host caller readers archivePath destDir sure start) := by
  unfold extract
  split
  · exact extracted_unchanged none
  · refine meets_bind (meets_imp ?_ (access_meets archivePath))
    rintro v result ⟨rfl,archived⟩
    cases result with
    | none => exact extracted_unchanged none
    | some archive =>
      refine meets_bind (meets_call (extracted_unchanged none) ?_)
      refine meets_bind (check_meets (extracted_unchanged none) fun there => ?_)
      refine meets_bind (meets_imp ?_ (access_meets destDir))
      rintro now result ⟨rfl,resolved⟩
      cases result with
      | none => exact extracted_unchanged none
      | some dest =>
        obtain ⟨_,_,_,found,_⟩ := resolve_parts.mp (TrashSteps.access_resolved (resolved dest rfl))
        rcases resolveReal_cases (clean_proper _) found with real | dangling
        · refine meets_bind (meets_imp ?_ (mkdirAll_meets real))
          rintro ready result ⟨made,stands⟩
          cases result with
          | none => exact extracted_made (resolved dest rfl) made none
          | some _ =>
            have prepared : Ready host caller archivePath destDir now archive dest ready :=
              ⟨archived archive rfl,there,resolved dest rfl,real,made,stands rfl⟩
            refine meets_bind (meets_imp ?_ (unpacked_meets prepared removes))
            intro after result extracted
            cases result with
            | none => exact extracted
            | some _ => exact meets_call (extracted_failed extracted) extracted
        · -- a link that leads nowhere is no destination
          refine meets_bind (meets_imp ?_ (mkdirAll_dangling (clean_proper _) dangling))
          rintro ready result ⟨rfl,rfl⟩
          exact extracted_unchanged none

end Results

def Call.removes : Call → Bool
  | .remove _ => true
  | _ => false

def Removes (_ : Volume) (c : Call) (outcome : Outcome) : Prop := Call.removes c = true → outcome = .done

-- Whatever the archive lists and whatever stands at the destination, and
-- whichever calls fail.
theorem extract_contained (host : Host) (caller : Caller) (readers : Readers) (archivePath destDir : Bytes) (start last : Volume) (outcomes : List Outcome)
    (result : Option Unit) (executed : execute (extract readers archivePath destDir : Task host caller Unit) start outcomes = some (last,result)) :
    Extracted host caller readers archivePath destDir (Along Removes (extract readers archivePath destDir : Task host caller Unit) start outcomes) start last result := by
  by_cases along : Along Removes (extract readers archivePath destDir : Task host caller Unit) start outcomes
  · have removes : True → ∀ v path, ¬ Removes v (.remove path) .refused := by
      intro _ v path done
      cases done rfl
    have settled : Extracted host caller readers archivePath destDir True start last result := meets_execute (fun _ => True) (extract_meets removes) along executed
    exact ⟨settled.contained,settled.bounded,settled.within,fun _ => settled.complete trivial⟩
  · have settled : Extracted host caller readers archivePath destDir False start last result :=
      meets_execute (fun _ => True) (extract_meets nofun) (along_always (fun _ _ _ => trivial)) executed
    exact ⟨settled.contained,settled.bounded,settled.within,fun known => absurd known along⟩

def openHost : Host := ⟨[],40,⟨["trash"],by simp [Ordinary,Proper]⟩⟩
def anyone : Caller := ⟨[],false,false⟩
def oneFolder : Volume := ⟨[("z.zip",.file []),("d",.dir [])],0⟩
def oneFile (content : Stream) : Readers := ⟨fun _ => some [⟨ascii "f",.regular content⟩],fun _ => none⟩
def twoBytes : Stream := ⟨[1,2],true⟩

def extraction (content : Stream) (destDir : Bytes) : Task openHost anyone Unit := extract (oneFile content) (ascii "/z.zip") destDir

-- The second byte cannot be written, and the part that is there is removed.
def secondFails : List Outcome := List.replicate 12 .done ++ [.refused,.done,.done]

theorem extraction_taken_back : ∃ last, execute (extraction twoBytes (ascii "/d")) oneFolder secondFails = some (last,none) ∧ look last.files ["d","f"] = none ∧
    Extracted openHost anyone (oneFile twoBytes) (ascii "/z.zip") (ascii "/d") (Along Removes (extraction twoBytes (ascii "/d")) oneFolder secondFails)
      oneFolder last none := by
  have ran : (execute (extraction twoBytes (ascii "/d")) oneFolder secondFails).map (fun ended => (look ended.1.files ["d","f"],ended.2)) = some (none,none) := by
    decide +kernel
  obtain ⟨⟨last,result⟩,executed,seen⟩ := Option.map_eq_some_iff.mp ran
  cases (Prod.mk.inj seen).2
  exact ⟨last,executed,(Prod.mk.inj seen).1,extract_contained openHost anyone (oneFile twoBytes) (ascii "/z.zip") (ascii "/d") oneFolder last secondFails none executed⟩

theorem writeAll_run
    (stored : look v.files (front ++ [name]) = some (.file data)) (bytes : Bytes) :
    ∃ after, (writeAll (front ++ [name]) bytes : Task host caller Unit).run v = (after,some ()) ∧ after.written = v.written + bytes.length := by
  induction bytes generalizing v data with
  | nil => exact ⟨v,rfl,rfl⟩
  | cons b rest ih =>
    obtain ⟨done,filled⟩ : (perform host caller (.write (front ++ [name]) b) v).2 = true ∧ _ := filled_one stored b
    have one : (write (front ++ [name]) b : Task host caller Unit).run v = ((perform host caller (.write (front ++ [name]) b) v).1,some ()) := by
      change (check (perform host caller (.write (front ++ [name]) b) v).2 : Task host caller Unit).run (perform host caller (.write (front ++ [name]) b) v).1 = _
      rw [done]
      rfl
    obtain ⟨after,ran,counted⟩ := ih filled.content
    refine ⟨after,(run_done one).trans ran,?_⟩
    rw [counted,filled.counted,List.length_singleton,List.length_cons]
    omega

theorem copyBounded_over
    (created : look v.files (front ++ [name]) = some (.file [])) (exceeds : remaining < content.bytes.length) :
    ∃ after, (copyBounded (front ++ [name]) content remaining : Task host caller Nat).run v = (after,none) ∧ after.written = v.written + remaining + 1 := by
  obtain ⟨after,ran,counted⟩ : ∃ after, (writeAll (front ++ [name]) (content.bytes.take (remaining + 1)) : Task host caller Unit).run v = (after,some ()) ∧ _ :=
    writeAll_run created (content.bytes.take (remaining + 1))
  refine ⟨after,?_,?_⟩
  · unfold copyBounded
    rw [run_done ran,if_pos exceeds]
    rfl
  · rw [counted,List.length_take]
    omega

theorem extraction_over (exceeds : maxArchiveTotalBytes < content.bytes.length) :
    ((extraction content (ascii "/d")).run oneFolder).1.written = maxArchiveTotalBytes + 1 := by
  have archived : (access (ascii "/z.zip") : Task openHost anyone SecurePath).run oneFolder = (oneFolder,some ⟨["z.zip"],none⟩) := rfl
  have there : (call (.stat ["z.zip"]) : Task openHost anyone Bool).run oneFolder = (oneFolder,some true) := rfl
  have resolved : (access (ascii "/d") : Task openHost anyone SecurePath).run oneFolder = (oneFolder,some ⟨["d"],none⟩) := rfl
  have made : (mkdirAll ["d"] : Task openHost anyone Unit).run oneFolder = (oneFolder,some ()) := rfl
  have read : (readArchive ["z.zip"] : Task openHost anyone Bytes).run oneFolder = (oneFolder,some []) := rfl
  have joined : (safeJoinSecure ⟨["d"],none⟩ (ascii "f") : Task openHost anyone SecurePath).run oneFolder = (oneFolder,some ⟨["d","f"],none⟩) := rfl
  have named : (uniqueArchivePath ⟨["d","f"],none⟩ : Task openHost anyone SecurePath).run oneFolder = (oneFolder,some ⟨["d","f"],none⟩) := rfl
  let created : Volume := {oneFolder with files := edit (some (.file [])) ["d","f"] oneFolder.files}
  have opened : (openFile ["d","f"] : Task openHost anyone Path).run oneFolder = (created,some ["d","f"]) := rfl
  obtain ⟨after,copied,counted⟩ : ∃ after, (copyBounded ["d","f"] content maxArchiveTotalBytes : Task openHost anyone Nat).run created = (after,none) ∧ _ :=
    copyBounded_over (show look created.files (["d"] ++ ["f"]) = some (.file []) from rfl) exceeds
  have entry : ∃ last, (writeArchiveEntry ⟨["d","f"],none⟩ content maxArchiveTotalBytes : Task openHost anyone Nat).run oneFolder = (last,none) ∧
      last.written = after.written := by
    unfold writeArchiveEntry
    rw [run_done named,run_done opened,run_done (run_attempt copied)]
    exact ⟨(perform openHost anyone (.remove ["d","f"]) after).1,rfl,rfl⟩
  obtain ⟨last,stopped,written⟩ := entry
  have unpacks : (unpack (pure ()) input (pure ()) ⟨["d"],none⟩ maxArchiveEntries maxArchiveTotalBytes [⟨ascii "f",.regular content⟩] :
      Task openHost anyone Unit).run oneFolder = (last,none) := by
    have many : maxArchiveEntries = 99999 + 1 := rfl
    have quiet : (pure () : Task openHost anyone Unit).run oneFolder = (oneFolder,some ()) := rfl
    have opens : (input : Task openHost anyone Unit).run oneFolder = (oneFolder,some ()) := rfl
    rw [many,unpack,run_done quiet,run_done joined]
    rw [run_done opens,run_failed stopped]
  have zipped : (extractZipSecure (oneFile content) ⟨["z.zip"],none⟩ ⟨["d"],none⟩ : Task openHost anyone Unit).run oneFolder = (last,none) := by
    have opens : (input : Task openHost anyone Unit).run oneFolder = (oneFolder,some ()) := rfl
    have listing : (orFail ((oneFile content).zip []) : Task openHost anyone (List Entry)).run oneFolder =
      (oneFolder,some [⟨ascii "f",.regular content⟩]) := rfl
    unfold extractZipSecure
    rw [run_done read,run_done opens,run_done listing,unpacks]
  have fine : (check true : Task openHost anyone Unit).run oneFolder = (oneFolder,some ()) := rfl
  have whole : (extraction content (ascii "/d")).run oneFolder = (last,none) := by
    have zip : endsIn (baseName ["z.zip"]) ".zip" = true := by decide
    unfold extraction extract
    rw [if_neg (by decide),run_done archived,run_done there,run_done fine,run_done resolved,run_done made]
    unfold unpacked
    rw [if_pos zip,run_failed zipped]
  rw [whole,written,counted]
  exact congrArg (· + 1) (Nat.zero_add _)

def whatever : Stream := ⟨List.replicate (maxArchiveTotalBytes + 1) 0,true⟩

-- A folder above the destination is made, one byte more than the budget is
-- written, and what is left of an entry stays where its removal fails.
theorem extraction_spills :
    (∃ outcomes last, execute (extraction twoBytes (ascii "/a/b")) oneFolder outcomes = some (last,some ()) ∧
      look oneFolder.files ["a"] = none ∧ look last.files ["a"] = some .dir ∧ ¬ ["a","b"] <+: ["a"]) ∧
    (∃ outcomes last result, execute (extraction whatever (ascii "/d")) oneFolder outcomes = some (last,result) ∧
      oneFolder.written + maxArchiveTotalBytes < last.written) ∧
    (∃ outcomes last, execute (extraction twoBytes (ascii "/d")) oneFolder outcomes = some (last,none) ∧
      look oneFolder.files ["d","f"] = none ∧ look last.files ["d","f"] = some (.file [1]) ∧ [1] ≠ twoBytes.bytes) := by
  refine ⟨?_,?_,?_⟩
  · have ran : (execute (extraction twoBytes (ascii "/a/b")) oneFolder (List.replicate 17 .done)).map (fun ended => (look ended.1.files ["a"],ended.2)) =
        some (some .dir,some ()) := by decide +kernel
    obtain ⟨⟨last,result⟩,executed,seen⟩ := Option.map_eq_some_iff.mp ran
    cases (Prod.mk.inj seen).2
    exact ⟨_,last,executed,rfl,(Prod.mk.inj seen).1,by decide⟩
  · have exceeds : maxArchiveTotalBytes < whatever.bytes.length := by
      rw [whatever,List.length_replicate]
      exact Nat.lt_succ_self _
    obtain ⟨outcomes,executed⟩ := run_executes (extraction whatever (ascii "/d")) oneFolder
    refine ⟨outcomes,((extraction whatever (ascii "/d")).run oneFolder).1,((extraction whatever (ascii "/d")).run oneFolder).2,executed,?_⟩
    have none_ : oneFolder.written = 0 := rfl
    rw [extraction_over exceeds,none_]
    omega
  · have ran : (execute (extraction twoBytes (ascii "/d")) oneFolder (List.replicate 12 .done ++ [.refused,.done,.refused])).map
        (fun ended => (look ended.1.files ["d","f"],ended.2)) = some (some (.file [1]),none) := by decide +kernel
    obtain ⟨⟨last,result⟩,executed,seen⟩ := Option.map_eq_some_iff.mp ran
    cases (Prod.mk.inj seen).2
    exact ⟨_,last,executed,rfl,(Prod.mk.inj seen).1,by decide⟩

end RemoteFileExplorer.ArchiveExtracts
