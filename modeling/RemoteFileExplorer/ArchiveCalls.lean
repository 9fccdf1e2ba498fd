import RemoteFileExplorer.FileCalls

namespace RemoteFileExplorer.ArchiveCalls
open FileTree Jail TreeEdits SystemCalls PercentCodes Procedures Trash
open FileCalls (Item item look look_dir look_none look_below look_above look_leaf look_edit_outside look_edit_at look_new)

structure Volume where
  files : Files
  written : Nat

-- The calls an extraction makes. They follow links as the kernel does; what a root
-- handle refuses besides is a call that was refused.
inductive Call where
  | access (path : Bytes)
  | stat (path : Path)
  | lstat (path : Path)
  | read (path : Path)
  | input
  | mkdir (path : Path)
  | create (path : Path)
  | write (place : Path) (b : UInt8)
  | close (place : Path)
  | remove (path : Path)
  deriving DecidableEq

def Call.Reply : Call → Type
  | .access _ => Except ResolveError SecurePath
  | .stat _ => Bool
  | .lstat _ => Except ResolveError Item
  | .read _ => Option Bytes
  | .mkdir _ => Bool
  | .create _ => Option Path
  | .write _ _ => Bool
  | _ => Unit

section Calls
variable (host : Host) (caller : Caller)

-- A new file is created under a name that nothing has, not even a link, and is
-- then written where it was created.
def perform : (call : Call) → Volume → Volume × call.Reply
  | .access path,v => (v,access v.files host caller path)
  | .stat path,v => (v,(stat v.files host.links path).isSome)
  | .lstat path,v => (v,(lstat v.files host.links path).map item)
  | .read path,v => (v,readFile v.files host.links path)
  | .input,v => (v,())
  | .mkdir path,v =>
    match stat v.files host.links path with
    | some node => (v,node.isDir)
    | none =>
      match makeDir v.files host.links path with
      | some made => ({v with files := made},true)
      | none => (v,false)
  | .create path,v =>
    match entryOf v.files host.links path with
    | none => (v,none)
    | some place => if (look v.files place).isSome then (v,none) else ({v with files := edit (some (.file [])) place v.files},some place)
  | .write place b,v =>
    match look v.files place with
    | some (.file data) => (⟨edit (some (.file (data ++ [b]))) place v.files,v.written + 1⟩,true)
    | _ => (v,false)
  | .close _,v => (v,())
  | .remove path,v => ({v with files := SystemCalls.remove v.files host.links path},())

abbrev store : Storage Volume := ⟨Call,Call.Reply,perform host caller⟩

end Calls

section Programs
variable {host : Host} {caller : Caller}

abbrev Task (host : Host) (caller : Caller) (α : Type) := Proc (store host caller) α

def call (c : Call) : Task host caller c.Reply := @act Volume (store host caller) c

def mkdir (path : Path) : Task host caller Unit := do
  let ok ← (call (.mkdir path) : Task host caller Bool)
  check ok

def mkdirAllFrom : Path → List Name → Task host caller Unit
  | _,[] => pure ()
  | place,name::rest => do
    mkdir (place ++ [name])
    mkdirAllFrom (place ++ [name]) rest

def mkdirAll (path : Path) : Task host caller Unit := mkdirAllFrom [] path

-- O_CREATE with O_EXCL.
def openFile (path : Path) : Task host caller Path := do
  let place ← (call (.create path) : Task host caller (Option Path))
  orFail place

def write (place : Path) (b : UInt8) : Task host caller Unit := do
  let ok ← (call (.write place b) : Task host caller Bool)
  check ok

def writeAll (place : Path) : Bytes → Task host caller Unit
  | [] => pure ()
  | b::rest => do
    write place b
    writeAll place rest

end Programs

section Straight
variable {d : Files} {links : Nat} {place front path : Path} {name : Name}

theorem unlinked_look : Unlinked d.root path ↔ ∀ front, front <+: path → ∀ target, look d front ≠ some (.link target) := by
  constructor
  · intro unlinked front before target stands
    obtain ⟨node,stored,same⟩ := Option.map_eq_some_iff.mp stands
    have plain := unlinked front before node stored
    cases node with
    | link target => cases plain
    | file data | dir entries => cases same
  · intro linkless front before node stored
    cases node with
    | link target => exact absurd (by rw [look,stored]; rfl) (linkless front before target)
    | file data => rfl
    | dir entries => rfl

theorem walk_straight (real : Real d.root path) (walked : walk d.root links [] path = .found place) : place = path := by
  have lands : landing d.root links path = some place := by
    unfold landing
    rw [walked]
  exact landing_straight real.1 real.2 lands

theorem stat_straight (real : Real d.root path) (stands : stat d links path = some node) : nodeAt d.root path = some node := by
  unfold stat at stands
  split at stands
  · rename_i place walked
    rwa [walk_straight real walked] at stands
  · cases stands

theorem entryOf_straight (real : Real d.root front) (entered : entryOf d links (front ++ [name]) = some place) :
    place = front ++ [name] ∧ look d front = some .dir := by
  obtain ⟨home,entries,walked,stands,rfl⟩ := entryOf_parts entered
  cases walk_straight real walked
  exact ⟨rfl,look_dir.mpr ⟨entries,stands⟩⟩

theorem walk_stands (real : Real d.root path) (stands : nodeAt d.root path = some node) : walk d.root links [] path = .found path :=
  (walk_roomy links real.1 (stored_roomy stands)).1 node stands (real.2 path (List.prefix_refl _) node stands)

theorem entryOf_stands (real : Real d.root front) (stands : look d front = some .dir) : entryOf d links (front ++ [name]) = some (front ++ [name]) := by
  obtain ⟨entries,stored⟩ := look_dir.mp stands
  exact entryOf_within (walk_stands real stored) stored name

theorem lstat_missing (real : Real d.root front) (stands : nodeAt d.root front = some node) (missing : lstat d links (front ++ [name]) = .error .notExist) :
    nodeAt d.root (front ++ [name]) = none := by
  unfold lstat at missing
  simp only [List.getLast?_append,List.getLast?_singleton,Option.some_or,List.dropLast_concat] at missing
  rw [walk_stands real stands] at missing
  dsimp only at missing
  rw [stands] at missing
  cases node with
  | file data | link target => cases missing
  | dir entries =>
    cases below : nodeAt d.root (front ++ [name]) with
    | none => rfl
    | some node =>
      rw [below] at missing
      cases missing

theorem look_leaf_edit {node : Node Bytes} (parent : look d front = some .dir) (bare : ∀ rest, rest ≠ [] → look d (front ++ [name] ++ rest) = none)
    (leaf : ∀ rest, rest ≠ [] → nodeAt node rest = none) (other : path ≠ front ++ [name]) : look (edit (some node) (front ++ [name]) d) path = look d path := by
  by_cases below : front ++ [name] <+: path
  · obtain ⟨rest,rfl⟩ := below
    have strict : rest ≠ [] := by
      rintro rfl
      exact other (List.append_nil _)
    rw [look_edit_at parent,bare rest strict,Option.bind_some,leaf rest strict]
    rfl
  · exact look_edit_outside below _

theorem file_bare (data : Bytes) (rest : Path) (strict : rest ≠ []) : nodeAt (Node.file data) rest = none := by
  obtain ⟨name,rest,rfl⟩ := List.exists_cons_of_ne_nil strict
  rfl

theorem folder_bare (rest : Path) (strict : rest ≠ []) : nodeAt (Node.dir [] : Node Bytes) rest = none := by
  obtain ⟨name,rest,rfl⟩ := List.exists_cons_of_ne_nil strict
  rfl

end Straight

section Rules
variable {host : Host} {caller : Caller} {ok : Volume → (store host caller).Action → Outcome → Prop} {v after : Volume} {place front path : Path} {name : Name}

theorem meets_call {c : Call} {post : Volume → Option c.Reply → Prop} (stays : post v none)
    (done : post (perform host caller c v).1 (some (perform host caller c v).2)) : Meets ok (fun _ => True) (call c : Task host caller c.Reply) v post :=
  meets_act trivial stays done

theorem check_meets {good : Bool} {post : Volume → Option Unit → Prop} (bad : post v none) (fine : good = true → post v (some ())) :
    Meets ok (fun _ => True) (check good : Task host caller Unit) v post := by
  cases good with
  | false => exact bad
  | true => exact fine rfl

def Only (path : Path) (d after : Files) : Prop := ∀ other, other ≠ path → look after other = look d other

theorem only_refl (path : Path) (d : Files) : Only path d d := fun _ _ => rfl

theorem only_trans {d middle after : Files} (one : Only path d middle) (two : Only path middle after) : Only path d after :=
  fun other apart => (two other apart).trans (one other apart)

structure Made (path : Path) (v after : Volume) : Prop where
  written : after.written = v.written
  kept : ∀ other, look after.files other = look v.files other ∨ (look v.files other = none ∧ other <+: path ∧ look after.files other = some .dir)

theorem made_refl (path : Path) (v : Volume) : Made path v v := ⟨rfl,fun _ => .inl rfl⟩

theorem made_trans {middle : Volume} (one : Made path v middle) (two : Made path middle after) : Made path v after := by
  refine ⟨two.written.trans one.written,?_⟩
  intro other
  rcases two.kept other with same | ⟨gone,before,made⟩
  · rw [same]
    exact one.kept other
  · rcases one.kept other with same | ⟨_,_,there⟩
    · exact .inr ⟨same ▸ gone,before,made⟩
    · rw [there] at gone
      cases gone

theorem real_made (real : Real v.files.root path) (made : Made place v after) : Real after.files.root path := by
  refine ⟨real.1,unlinked_look.mpr ?_⟩
  intro front before target
  rcases made.kept front with same | ⟨_,_,there⟩
  · rw [same]
    exact unlinked_look.mp real.2 front before target
  · rw [there]
    exact nofun

theorem mkdir_meets (real : Real v.files.root (front ++ [name])) (parent : look v.files front = some .dir) :
    Meets ok (fun _ => True) (mkdir (front ++ [name]) : Task host caller Unit) v fun after result =>
      Made (front ++ [name]) v after ∧ (result = some () → look after.files (front ++ [name]) = some .dir) := by
  refine meets_bind (meets_call ⟨made_refl _ v,nofun⟩ ?_)
  change Meets ok _ (check (match stat v.files host.links (front ++ [name]) with
      | some node => (v,node.isDir)
      | none =>
        match makeDir v.files host.links (front ++ [name]) with
        | some made => ({v with files := made},true)
        | none => (v,false)).2) (match stat v.files host.links (front ++ [name]) with
      | some node => (v,node.isDir)
      | none =>
        match makeDir v.files host.links (front ++ [name]) with
        | some made => ({v with files := made},true)
        | none => (v,false)).1 _
  cases seen : stat v.files host.links (front ++ [name]) with
  | some node =>
    refine check_meets ⟨made_refl _ v,nofun⟩ fun folder => ⟨made_refl _ v,fun _ => ?_⟩
    rw [look,stat_straight real seen]
    cases node with
    | dir entries => rfl
    | file data | link target => cases folder
  | none =>
    have above : Real v.files.root front := by
      obtain shorter : Real v.files.root (front ++ [name]).dropLast := real_dropLast real
      rwa [List.dropLast_concat] at shorter
    have entered : entryOf v.files host.links (front ++ [name]) = some (front ++ [name]) := entryOf_stands above parent
    unfold makeDir
    rw [entered,Option.bind_some]
    cases free : nodeAt v.files.root (front ++ [name]) with
    | none =>
      have gone : look v.files (front ++ [name]) = none := look_none.mpr free
      have new : look (edit (some (.dir [])) (front ++ [name]) v.files) (front ++ [name]) = some .dir := look_new parent _
      refine ⟨⟨rfl,?_⟩,fun _ => new⟩
      intro other
      by_cases same : other = front ++ [name]
      · rw [same]
        exact .inr ⟨gone,List.prefix_refl _,new⟩
      · exact .inl (look_leaf_edit parent (fun rest _ => look_below gone rest) folder_bare same)
    | some node =>
      cases node with
      | dir entries => exact ⟨made_refl _ v,fun _ => look_dir.mpr ⟨entries,free⟩⟩
      | file data | link target => exact ⟨made_refl _ v,nofun⟩

theorem made_longer (made : Made place v after) (longer : place <+: path) : Made path v after := by
  refine ⟨made.written,?_⟩
  intro other
  rcases made.kept other with same | ⟨gone,before,there⟩
  · exact .inl same
  · exact .inr ⟨gone,before.trans longer,there⟩

theorem mkdirAllFrom_meets (rest : List Name) (real : Real v.files.root (place ++ rest)) (stands : look v.files place = some .dir) :
    Meets ok (fun _ => True) (mkdirAllFrom place rest : Task host caller Unit) v fun after result =>
      Made (place ++ rest) v after ∧ (result = some () → look after.files (place ++ rest) = some .dir) := by
  induction rest generalizing place v with
  | nil => exact ⟨made_refl _ v,fun _ => by rw [List.append_nil]; exact stands⟩
  | cons name rest ih =>
    have onward : place ++ name::rest = place ++ [name] ++ rest := by simp
    rw [onward] at real ⊢
    have next : Real v.files.root (place ++ [name]) :=
      ⟨fun part member => real.1 part (List.mem_append_left _ member),unlinked_front real.2 (List.prefix_append _ _)⟩
    refine meets_bind (meets_imp ?_ (mkdir_meets next stands))
    rintro middle result ⟨made,there⟩
    have first : Made (place ++ [name] ++ rest) v middle := made_longer made (List.prefix_append _ _)
    cases result with
    | none => exact ⟨first,nofun⟩
    | some _ =>
      refine meets_imp ?_ (ih (real_made real made) (there rfl))
      rintro after result ⟨later,end_⟩
      exact ⟨made_trans first later,end_⟩

theorem root_dir (d : Files) : look d [] = some .dir := look_dir.mpr ⟨d,rfl⟩

theorem mkdirAll_meets (real : Real v.files.root path) :
    Meets ok (fun _ => True) (mkdirAll path : Task host caller Unit) v fun after result =>
      Made path v after ∧ (result = some () → look after.files path = some .dir) :=
  mkdirAllFrom_meets path real (root_dir v.files)

theorem mkdir_stands (real : Real v.files.root path) (stands : look v.files path = some .dir) :
    Meets ok (fun _ => True) (mkdir path : Task host caller Unit) v fun after _ => after = v := by
  obtain ⟨entries,stored⟩ := look_dir.mp stands
  have seen : stat v.files host.links path = some (.dir entries) := (stat_within (walk_stands real stored)).trans stored
  refine meets_bind (meets_call rfl ?_)
  have judged : perform host caller (.mkdir path) v = (v,true) := by
    change (match stat v.files host.links path with
      | some node => (v,node.isDir)
      | none => _) = _
    rw [seen]
    rfl
  rw [judged]
  exact check_meets rfl fun _ => rfl

theorem mkdirAllFrom_blocked (rest : List Name) (real : Real v.files.root (place ++ rest).dropLast) (stands : look v.files place = some .dir)
    (link : nodeAt v.files.root (place ++ rest) = some (.link target)) (lost : ∀ node, stat v.files host.links (place ++ rest) ≠ some node) :
    Meets ok (fun _ => True) (mkdirAllFrom place rest : Task host caller Unit) v fun after result => after = v ∧ result = none := by
  induction rest generalizing place with
  | nil =>
    rw [List.append_nil] at link
    rw [look,link] at stands
    cases stands
  | cons name rest ih =>
    cases rest with
    | nil =>
      rw [List.dropLast_concat] at real
      have judged : perform host caller (.mkdir (place ++ [name])) v = (v,false) := by
        rw [perform,Option.eq_none_iff_forall_ne_some.mpr lost]
        dsimp only
        unfold makeDir
        rw [entryOf_stands real stands,Option.bind_some,link]
        rfl
      refine meets_bind (meets_bind (meets_call ⟨rfl,rfl⟩ ?_))
      rw [judged]
      exact ⟨rfl,rfl⟩
    | cons next rest =>
      have onward : place ++ name::next::rest = place ++ [name] ++ next::rest := by simp
      rw [onward] at real link lost
      have folder : look v.files (place ++ [name]) = some .dir := look_above (by rw [look,link]; simp) (List.cons_ne_nil next rest)
      have shorter : place ++ [name] <+: (place ++ [name] ++ next::rest).dropLast := by
        rw [List.dropLast_append_of_ne_nil (List.cons_ne_nil next rest)]
        exact List.prefix_append _ _
      have above : Real v.files.root (place ++ [name]) := ⟨fun part member => real.1 part (shorter.subset member),unlinked_front real.2 shorter⟩
      refine meets_bind (meets_imp ?_ (mkdir_stands above folder))
      rintro after result rfl
      cases result with
      | none => exact ⟨rfl,rfl⟩
      | some _ => exact ih real folder link lost

theorem mkdirAll_dangling (ordinary : Ordinary path) (dangling : Dangling v.files links path place) :
    Meets ok (fun _ => True) (mkdirAll place : Task host caller Unit) v fun after result => after = v ∧ result = none := by
  have lost : ∀ node, stat v.files host.links place ≠ some node := by
    intro node seen
    unfold stat at seen
    split at seen
    · rename_i other found
      exact dangling_lost ordinary dangling found
    · cases seen
  obtain ⟨dir,base,home,parent,target,rfl,rfl,_,resolved,link,_⟩ := dangling
  refine mkdirAllFrom_blocked (home ++ [base]) ?_ (root_dir v.files) link lost
  rw [List.nil_append,List.dropLast_concat]
  exact evalSymlinks_real resolved

theorem openFile_meets (real : Real v.files.root front) :
    Meets ok (fun _ => True) (openFile (front ++ [name]) : Task host caller Path) v fun after result =>
      (after = v ∧ result = none) ∨ (look v.files (front ++ [name]) = none ∧ look v.files front = some .dir ∧
        after = {v with files := edit (some (.file [])) (front ++ [name]) v.files} ∧ result = some (front ++ [name])) := by
  refine meets_bind (meets_call (.inl ⟨rfl,rfl⟩) ?_)
  have judged : perform host caller (.create (front ++ [name])) v = match entryOf v.files host.links (front ++ [name]) with
      | none => (v,none)
      | some place => if (look v.files place).isSome then (v,none) else ({v with files := edit (some (.file [])) place v.files},some place) := rfl
  rw [judged]
  cases entered : entryOf v.files host.links (front ++ [name]) with
  | none => exact .inl ⟨rfl,rfl⟩
  | some place =>
    obtain ⟨rfl,folder⟩ := entryOf_straight real entered
    dsimp only
    split
    · exact .inl ⟨rfl,rfl⟩
    · rename_i free
      exact .inr ⟨Option.not_isSome_iff_eq_none.mp free,folder,rfl,rfl⟩

structure Filled (path : Path) (data sent : Bytes) (v after : Volume) : Prop where
  content : look after.files path = some (.file (data ++ sent))
  counted : after.written = v.written + sent.length
  only : Only path v.files after.files

theorem filled_one (stored : look v.files (front ++ [name]) = some (.file data)) (b : UInt8) :
    (perform host caller (.write (front ++ [name]) b) v).2 = true ∧ Filled (front ++ [name]) data [b] v (perform host caller (.write (front ++ [name]) b) v).1 := by
  have judged : perform host caller (.write (front ++ [name]) b) v = (⟨edit (some (.file (data ++ [b]))) (front ++ [name]) v.files,v.written + 1⟩,true) := by
    change (match look v.files (front ++ [name]) with
      | some (.file data) => _
      | _ => _) = _
    rw [stored]
    rfl
  have parent : look v.files front = some .dir := look_above (by rw [stored]; exact nofun) (List.cons_ne_nil name [])
  have bare : ∀ rest, rest ≠ [] → look v.files (front ++ [name] ++ rest) = none := fun rest strict => look_leaf (by rw [stored]; exact nofun) strict
  rw [judged]
  exact ⟨rfl,look_new parent _,rfl,fun other apart => look_leaf_edit parent bare (file_bare _) apart⟩

theorem writeAll_meets (stored : look v.files (front ++ [name]) = some (.file data)) (bytes : Bytes) :
    Meets ok (fun _ => True) (writeAll (front ++ [name]) bytes : Task host caller Unit) v fun after result =>
      ∃ sent, sent <+: bytes ∧ Filled (front ++ [name]) data sent v after ∧ (result = some () → sent = bytes) := by
  induction bytes generalizing v data with
  | nil => exact ⟨[],List.prefix_refl _,⟨by rw [List.append_nil]; exact stored,rfl,only_refl _ _⟩,fun _ => rfl⟩
  | cons b rest ih =>
    have nothing : Filled (front ++ [name]) data [] v v := ⟨by rw [List.append_nil]; exact stored,rfl,only_refl _ _⟩
    obtain ⟨done,one⟩ : (perform host caller (.write (front ++ [name]) b) v).2 = true ∧ _ := filled_one stored b
    refine meets_bind (meets_bind (meets_call ⟨[],List.nil_prefix,nothing,nofun⟩ ?_))
    rw [done]
    change Meets ok _ (writeAll (front ++ [name]) rest) _ _
    refine meets_imp ?_ (ih one.content)
    rintro after result ⟨sent,part,later,all⟩
    refine ⟨b::sent,List.cons_prefix_cons.mpr ⟨rfl,part⟩,⟨?_,?_,only_trans one.only later.only⟩,fun complete => by rw [all complete]⟩
    · rw [later.content,List.append_assoc]
      rfl
    · rw [later.counted,one.counted,List.length_singleton,List.length_cons]
      omega

theorem removed_file (real : Real v.files.root front) (stored : look v.files (front ++ [name]) = some (.file data)) :
    look (perform host caller (.remove (front ++ [name])) v).1.files (front ++ [name]) = none ∧
      Only (front ++ [name]) v.files (perform host caller (.remove (front ++ [name])) v).1.files := by
  have parent : look v.files front = some .dir := look_above (by rw [stored]; exact nofun) (List.cons_ne_nil name [])
  obtain ⟨entries,folder⟩ := look_dir.mp parent
  obtain ⟨node,found,same⟩ := Option.map_eq_some_iff.mp stored
  have file : nodeAt v.files.root (front ++ [name]) = some (.file data) := by
    rw [found]
    cases node with
    | file other => rw [Item.file.inj same]
    | dir entries | link target => cases same
  have judged : (perform host caller (.remove (front ++ [name])) v).1.files = edit none (front ++ [name]) v.files :=
    remove_file (walk_stands real folder) folder name file
  have gone : look (edit none (front ++ [name]) v.files) (front ++ [name]) = none := by
    obtain cut : nodeAt (edit none (front ++ [name]) v.files).root (front ++ [name] ++ []) = none := nodeAt_cut v.files (by simp) []
    rwa [List.append_nil,← look_none] at cut
  rw [judged]
  refine ⟨gone,?_⟩
  intro other apart
  by_cases below : front ++ [name] <+: other
  · obtain ⟨rest,rfl⟩ := below
    have strict : rest ≠ [] := by
      rintro rfl
      exact apart (List.append_nil _)
    rw [look_below gone,look_leaf (by rw [stored]; exact nofun) strict]
  · exact look_edit_outside below none

end Rules

end RemoteFileExplorer.ArchiveCalls
