import RemoteFileExplorer.TrashNames

namespace RemoteFileExplorer.TrashSteps
open FileTree Jail TreeEdits SystemCalls PercentCodes TrashInfo Trash TrashNames

-- What the resolver promises about a path it hands out.
theorem resolve_place {disk : Files} {ops : Ops} (resolved : resolve disk ops written = .ok full) :
    Ordinary full ∧ Real disk.root full.dropLast ∧ isProtected ops full = false := by
  obtain ⟨_,_,_,found,admitted⟩ := resolve_parts.mp resolved
  have unprotected : isProtected ops full = false := by
    unfold admits at admitted
    simp only [Bool.and_eq_true,Bool.not_eq_true'] at admitted
    exact admitted.1
  have ordinary : Ordinary (clean written.parts) := clean_proper written.parts
  rcases resolveReal_cases ordinary found with real | ⟨dir,base,real,parent,target,split,same,_,walked,_,_⟩
  · exact ⟨real.1,real_dropLast real,unprotected⟩
  · have above := evalSymlinks_real walked
    have last : Proper base := ordinary base (by rw [split]; simp)
    refine ⟨?_,?_,unprotected⟩
    · rw [same]
      intro name member
      rcases List.mem_append.mp member with old | new
      · exact above.1 name old
      · rw [List.mem_singleton.mp new]
        exact last
    · rw [same,List.dropLast_concat]
      exact above

theorem access_resolved {disk : Files} (opened : access disk host caller path = .ok resolved) :
    resolve disk (caller.ops host) (request path) = .ok resolved.full := by
  unfold access at opened
  split at opened
  · cases opened
  · rename_i full found
    rw [found]
    split at opened
    · cases opened
      rfl
    · split at opened
      · cases opened
        rfl
      · cases opened

theorem lstat_place {disk : Files} {full : Path} (ordinary : Ordinary full) (real : Real disk.root full.dropLast)
    (stands : lstat disk links full = .ok node) :
    nodeAt disk.root full = some node ∧ (full ≠ [] → entryOf disk links full = some full) := by
  rcases List.eq_nil_or_concat' full with rfl | ⟨dir,name,rfl⟩
  · cases stands
    exact ⟨rfl,fun impossible => absurd rfl impossible⟩
  · rw [List.dropLast_concat] at real
    unfold lstat at stands
    simp only [List.getLast?_append,List.getLast?_singleton,Option.some_or,List.dropLast_concat] at stands
    split at stands
    · rename_i place walked
      have lands : landing disk.root links dir = some place := by
        unfold landing
        rw [walked]
      have same : place = dir := landing_straight real.1 real.2 lands
      rw [same] at walked stands
      split at stands
      · rename_i entries above
        refine ⟨?_,fun _ => entryOf_within walked above name⟩
        cases stored : nodeAt disk.root (dir ++ [name]) with
        | none =>
          rw [stored] at stands
          cases stands
        | some other =>
          rw [stored] at stands
          cases stands
          rfl
      · cases stands
    · cases stands
    · cases stands
    · cases stands

theorem entryOf_roomy {disk : Files} {full : Path} (ordinary : Ordinary full) (roomy : Roomy disk full)
    (entered : entryOf disk links full = some place) : place = full := by
  rcases List.eq_nil_or_concat' full with rfl | ⟨dir,name,rfl⟩
  · cases entered
  · obtain ⟨real,entries,walked,stands,rfl⟩ := entryOf_parts entered
    have above : Ordinary dir := fun part member => ordinary part (List.mem_append_left _ member)
    have shorter : dir <+: dir ++ [name] := List.prefix_append _ _
    obtain ⟨arrives,misses⟩ := walk_roomy links above (roomy_front roomy shorter)
    cases stored : nodeAt disk.root dir with
    | none =>
      obtain ⟨gone,rest,missing⟩ := misses stored
      rw [missing] at walked
      cases walked
    | some node =>
      have directory := roomy dir shorter (by simp) node stored
      have plain : node.isLink = false := by
        cases node with
        | dir entries => rfl
        | file data | link target => cases directory
      rw [arrives node stored plain] at walked
      cases walked
      rfl

-- All that one path of a call may do to the disk: write what is fit for it below
-- its own two names in the store, take away at its source, and put the source back.
inductive Touches (fit : Node Bytes → Prop) (disk : Files) (full : Path) (node : Node Bytes) (stores : List Path) : Files → Prop where
  | start : Touches fit disk full node stores disk
  | store (earlier : Touches fit disk full node stores now) (known : place ∈ stores) (below : place <+: spot) (new : Option (Node Bytes))
      (fits : ∀ written, new = some written → fit written) : Touches fit disk full node stores (edit new spot now)
  | cut (earlier : Touches fit disk full node stores now) (below : full <+: spot) : Touches fit disk full node stores (edit none spot now)
  | back (earlier : Touches fit disk full node stores now) : Touches fit disk full node stores (edit (some node) full now)

theorem nothing_fits {fit : Node Bytes → Prop} : ∀ written, none = some written → fit written := fun _ impossible => by cases impossible

theorem fits_alone {fit : Node Bytes → Prop} (fits : fit node) : ∀ written, some node = some written → fit written := by
  intro written same
  cases same
  exact fits

section Touched
variable {fit : Node Bytes → Prop} {disk now : Files} {full : Path} {node : Node Bytes} {stores : List Path}

theorem touches_more (touched : Touches fit disk full node stores now) (more : ∀ place ∈ stores, place ∈ others) :
    Touches fit disk full node others now := by
  induction touched with
  | start => exact .start
  | store _ known below new fits ih => exact .store ih (more _ known) below new fits
  | cut _ below ih => exact .cut ih below
  | back _ ih => exact .back ih

-- Outside the store nothing appears that was not there before.
theorem touches_shrinks (touched : Touches fit disk full node stores now) (proper : full ≠ []) (stored : nodeAt disk.root full = some node)
    (outside : ∀ place ∈ stores, ¬ place <+: path) (there : nodeAt now.root path = some found) :
    (nodeAt disk.root path).map kind = some (kind found) := by
  have same : ∀ {new : Option (Node Bytes)} {spot : Path} {now : Files} {found : Node Bytes}, ¬ spot <+: path →
      nodeAt (edit new spot now).root path = some found → ∃ before, nodeAt now.root path = some before ∧ kind before = kind found := by
    intro new spot now found apart there
    have kept : (nodeAt (edit new spot now).root path).map kind = (nodeAt now.root path).map kind := cut_kept apart new
    rw [there] at kept
    exact Option.map_eq_some_iff.mp kept.symm
  induction touched generalizing found with
  | start =>
    rw [there]
    rfl
  | store _ known below new _ ih =>
    obtain ⟨before,stood,alike⟩ := same (fun inner => outside _ known (below.trans inner)) there
    rw [← alike]
    exact ih stood
  | @cut now spot _ below ih =>
    have nonempty : spot ≠ [] := by
      rintro rfl
      exact proper (List.prefix_nil.mp below)
    obtain ⟨before,stood,alike⟩ := same (cut_stood nonempty there).1 there
    rw [← alike]
    exact ih stood
  | back _ ih =>
    by_cases inner : full <+: path
    · obtain ⟨more,rfl⟩ := inner
      obtain ⟨front,name,rfl⟩ := (List.eq_nil_or_concat' full).resolve_left proper
      rw [nodeAt_append,nodeAt_snoc,nodeAt_edit_above _ _ front (List.cons_ne_nil name [])] at there
      rw [nodeAt_append,stored,Option.bind_some]
      cases above : nodeAt _ front with
      | none =>
        rw [above] at there
        cases there
      | some parent =>
        rw [above] at there
        cases parent with
        | file data | link target => cases there
        | dir entries =>
          have placed := child_enter_same entries name (some node)
          have found : nodeAt node more = some found := by
            simp only [Option.map_some,inside,Option.bind_some] at there
            change ((enter entries name (some node)).root.child name).bind (nodeAt · more) = some found at there
            rwa [placed,Option.bind_some] at there
          rw [found]
          rfl
    · obtain ⟨before,stood,alike⟩ := same inner there
      rw [← alike]
      exact ih stood

def Apart (one other : Path) : Prop := ¬ one <+: other ∧ ¬ other <+: one

theorem apart_below (apart : Apart one other) (below : one <+: spot) : Apart spot other := by
  refine ⟨fun inner => apart.1 (below.trans inner),fun outer => ?_⟩
  rcases List.prefix_or_prefix_of_prefix outer below with shorter | longer
  · exact apart.2 shorter
  · exact apart.1 longer

section
variable (touched : Touches fit disk full node stores now)
include touched

theorem touches_elsewhere (away : Apart full path)
    (outside : ∀ place ∈ stores, Apart place path) : nodeAt now.root path = nodeAt disk.root path := by
  have same : ∀ {new : Option (Node Bytes)} {spot : Path} {now : Files}, Apart spot path →
      nodeAt (edit new spot now).root path = nodeAt now.root path := fun apart => nodeAt_edit_apart _ apart.1 apart.2
  induction touched with
  | start => rfl
  | store _ known below new _ ih => rw [same (apart_below (outside _ known) below),ih]
  | cut _ below ih => rw [same (apart_below away below),ih]
  | back _ ih => rw [same away,ih]

-- What does not belong to the source stays, since the names in the store were free.
theorem touches_grows (proper : full ≠ [])
    (free : ∀ place ∈ stores, nodeAt disk.root place = none) : Grows (edit none full disk) now := by
  intro path found there
  obtain ⟨outside,stood⟩ := cut_stood proper there
  have unstored : ∀ place ∈ stores, ¬ place <+: path := by
    rintro place known ⟨more,rfl⟩
    rw [nodeAt_below disk.root (free place known)] at stood
    cases stood
  induction touched with
  | start => exact stood
  | store _ known below new _ ih => rw [cut_kept (fun inner => unstored _ known (below.trans inner)) new,ih]
  | cut _ below ih => rw [cut_kept (fun inner => outside (below.trans inner)) none,ih]
  | back _ ih => rw [cut_kept outside _,ih]

theorem touches_roomy (proper : full ≠ []) (stored : nodeAt disk.root full = some node)
    (outside : ∀ place ∈ stores, ¬ place <+: path) (roomy : Roomy disk path) : Roomy now path := by
  intro front before strict found there
  have shrunk := touches_shrinks touched proper stored (fun place known inner => outside place known (inner.trans before)) there
  obtain ⟨old,stood,alike⟩ := Option.map_eq_some_iff.mp shrunk
  have directory := roomy front before strict old stood
  cases old with
  | file data | link target => cases directory
  | dir entries =>
    cases found with
    | dir later => rfl
    | file data | link target => cases alike

theorem touches_removed (gone : List Path) : Touches fit disk full node stores (removed full gone now) := by
  induction gone generalizing now with
  | nil => exact touched
  | cons rest gone ih => exact ih (.cut touched (List.prefix_append full rest))

theorem touches_store_removed (known : place ∈ stores) (gone : List Path) :
    Touches fit disk full node stores (removed place gone now) := by
  induction gone generalizing now with
  | nil => exact touched
  | cons rest gone ih => exact ih (.store touched known (List.prefix_append place rest) none nothing_fits)

end

theorem removed_elsewhere (away : Apart src path) (gone : List Path) : nodeAt (removed src gone now).root path = nodeAt now.root path := by
  unfold removed
  induction gone generalizing now with
  | nil => rfl
  | cons rest gone ih =>
    have apart := apart_below away (List.prefix_append src rest)
    rw [List.foldl_cons,ih,nodeAt_edit_apart none apart.1 apart.2]

end Touched

def Reaches (disk : Files) (host : Host) (files info : Path) : Prop :=
  walk disk.root host.links [] (trashFilesDir host) = .found files ∧ walk disk.root host.links [] (trashInfoDir host) = .found info

-- The two directories of the store, at their real places.
structure Placed (disk : Files) (host : Host) (files info : Path) : Prop where
  reaches : Reaches disk host files info
  filesStand : ∃ entries, nodeAt disk.root files = some (.dir entries)
  infoStands : ∃ entries, nodeAt disk.root info = some (.dir entries)

theorem reaches_meets {left right both : Files} (meets : Meets left right both) (one : Reaches left host files info)
    (two : Reaches right host files info) : Reaches both host files info :=
  ⟨walk_meets meets one.1 two.1,walk_meets meets one.2 two.2⟩

def infoName (own : Name) : Name := own ++ trashInfoExt

theorem infoName_proper (own : Name) : Proper (infoName own) := by
  have holds : 't' ∈ (infoName own).toList := by
    unfold infoName
    rw [String.toList_append]
    exact List.mem_append_right _ (by decide)
  refine ⟨?_,?_,?_⟩ <;>
  · intro same
    rw [same] at holds
    revert holds
    decide

theorem untaken_free {disk : Files} {host : Host} (placed : Placed disk host files info) (untaken : taken disk host own = false) :
    nodeAt disk.root (files ++ [own]) = none ∧ nodeAt disk.root (info ++ [infoName own]) = none := by
  obtain ⟨⟨walkFiles,walkInfo⟩,⟨_,filesStand⟩,⟨_,infoStands⟩⟩ := placed
  unfold taken at untaken
  rw [lstat_within walkFiles filesStand,lstat_within walkInfo infoStands] at untaken
  simp only [Bool.or_eq_false_iff] at untaken
  constructor
  · cases stored : nodeAt disk.root (files ++ [own]) with
    | none => rfl
    | some node =>
      rw [stored] at untaken
      cases untaken.1
  · unfold infoName
    cases stored : nodeAt disk.root (info ++ [own ++ trashInfoExt]) with
    | none => rfl
    | some node =>
      rw [stored] at untaken
      cases untaken.2

-- When a path may be trashed without disturbing what is in the store: it lies
-- outside the store, the store is found without it or it is above the store and
-- so does not move, and one of the candidate names is unused.
structure Clear (disk : Files) (host : Host) (full files info : Path) : Prop where
  named : Named full
  separate : Apart files info
  outside : ¬ files <+: full ∧ ¬ info <+: full
  kept : full <+: files ∨ (¬ full <+: info ∧ Reaches (edit none full disk) host files info)
  room : ∃ k, k < maxAutoRename ∧ taken disk host (candidateAt (baseName full) k) = false

structure Scene (disk : Files) (host : Host) (full files info : Path) (node : Node Bytes) (own : Name) : Prop where
  placed : Placed disk host files info
  ordinary : Ordinary full
  proper : full ≠ []
  stored : nodeAt disk.root full = some node
  entered : entryOf disk host.links full = some full
  separate : Apart files info
  outside : ¬ files <+: full ∧ ¬ info <+: full
  above : ¬ full <+: files ∧ ¬ full <+: info
  kept : Reaches (edit none full disk) host files info
  freeFiles : nodeAt disk.root (files ++ [own]) = none
  freeInfo : nodeAt disk.root (info ++ [infoName own]) = none

section Scene
variable {fit : Node Bytes → Prop} {disk : Files} {host : Host} {full files info : Path} {node : Node Bytes} {own : Name}

theorem apart_child (outside : ¬ dir <+: full) (above : ¬ full <+: dir) (name : Name) : Apart full (dir ++ [name]) := by
  refine ⟨fun inner => ?_,fun inner => outside ((List.prefix_append dir [name]).trans inner)⟩
  rcases List.prefix_concat_iff.mp inner with rfl | shorter
  · exact outside (List.prefix_append dir [name])
  · exact above shorter

theorem apart_children (apart : Apart one other) (first second : Name) : Apart (one ++ [first]) (other ++ [second]) :=
  apart_below (apart_child apart.2 apart.1 second) (List.prefix_append one [first])

theorem apart_symm (apart : Apart one other) : Apart other one := ⟨apart.2,apart.1⟩

def places (files info : Path) (own : Name) : List Path := [files ++ [own],info ++ [infoName own]]

section
variable (scene : Scene disk host full files info node own)
include scene

theorem Scene.away_files (name : Name) : Apart full (files ++ [name]) :=
  apart_child scene.outside.1 scene.above.1 name

theorem Scene.away_info (name : Name) : Apart full (info ++ [name]) :=
  apart_child scene.outside.2 scene.above.2 name

theorem Scene.free : ∀ place ∈ places files info own, nodeAt disk.root place = none := by
  intro place known
  simp only [places,List.mem_cons,List.not_mem_nil,or_false] at known
  rcases known with rfl | rfl
  · exact scene.freeFiles
  · exact scene.freeInfo

theorem Scene.stays (touched : Touches fit disk full node (places files info own) now) :
    Placed now host files info := by
  have grows := touches_grows touched scene.proper scene.free
  refine ⟨reaches_meets (grows_meets grows) scene.kept scene.kept,?_,?_⟩
  · obtain ⟨entries,stands⟩ := scene.placed.filesStand
    obtain ⟨later,cut⟩ := dir_kept scene.above.1 none stands
    exact grows_dir grows cut
  · obtain ⟨entries,stands⟩ := scene.placed.infoStands
    obtain ⟨later,cut⟩ := dir_kept scene.above.2 none stands
    exact grows_dir grows cut

theorem Scene.payload_put :
    nodeAt (edit (some node) (files ++ [own]) (edit none full disk)).root (files ++ [own]) = some node := by
  obtain ⟨entries,stands⟩ := scene.placed.filesStand
  obtain ⟨later,cut⟩ := dir_kept scene.above.1 none stands
  have placed := nodeAt_edit_at (some node) cut own []
  rwa [List.append_nil] at placed

-- The way into the store: what the move leaves behind, and what it has done
-- when it says it is done.
theorem Scene.settles (fits : fit node) (fate : Fate) :
    Touches fit disk full node [files ++ [own]] (settle disk full (files ++ [own]) node fate).1 ∧
    ((settle disk full (files ++ [own]) node fate).2 = true →
      nodeAt (settle disk full (files ++ [own]) node fate).1.root (files ++ [own]) = some node ∧
      nodeAt (settle disk full (files ++ [own]) node fate).1.root full = none) := by
  have apart := scene.away_files own
  have known : files ++ [own] ∈ [files ++ [own]] := List.mem_singleton.mpr rfl
  have missing : nodeAt (edit none full disk).root full = none := by
    have gone := nodeAt_cut disk scene.proper []
    rwa [List.append_nil] at gone
  have moved : nodeAt (edit (some node) (files ++ [own]) (edit none full disk)).root full = none := by
    rw [nodeAt_edit_apart _ apart.2 apart.1]
    exact missing
  cases fate with
  | renamed => exact ⟨.store (.cut .start (List.prefix_refl full)) known (List.prefix_refl _) _ (fits_alone fits),fun _ => ⟨scene.payload_put,moved⟩⟩
  | refused => exact ⟨.start,nofun⟩
  | copyFailed => exact ⟨.store .start known (List.prefix_refl _) none nothing_fits,nofun⟩
  | copied merged =>
    unfold settle
    rw [scene.freeFiles]
    exact ⟨.store (.cut .start (List.prefix_refl full)) known (List.prefix_refl _) _ (fits_alone fits),fun _ => ⟨scene.payload_put,moved⟩⟩
  | copyKept gone merged =>
    unfold settle
    rw [scene.freeFiles]
    refine ⟨touches_removed (.store .start known (List.prefix_refl _) _ (fits_alone fits)) gone,fun done => ⟨?_,?_⟩⟩
    · obtain ⟨entries,stands⟩ := scene.placed.filesStand
      have placed := nodeAt_edit_at (some node) stands own []
      rw [List.append_nil] at placed
      exact (removed_elsewhere apart gone).trans placed
    · exact Option.isNone_iff_eq_none.mp done

end

theorem blocked_free (jailed : Bool) (fate : Fate) (above : Bool) (node : Node Bytes) : ¬ blocked jailed fate above node none = true := Bool.false_ne_true

theorem Scene.moves (scene : Scene disk host full files info node own) (root : Option Path) (fate : Fate) :
    moveAcrossRootsSecure disk host.links ⟨full,root⟩ ⟨trashFilesDir host ++ [own],none⟩ fate = (disk,false) ∨
    moveAcrossRootsSecure disk host.links ⟨full,root⟩ ⟨trashFilesDir host ++ [own],none⟩ fate = settle disk full (files ++ [own]) node fate := by
  obtain ⟨entries,stands⟩ := scene.placed.filesStand
  have apart := scene.away_files own
  have differs : full ≠ files ++ [own] := fun same => apart.1 (by rw [← same])
  have unprefixed : full.isPrefixOf (files ++ [own]) = false := by
    rw [Bool.eq_false_iff]
    exact fun inner => apart.1 (List.isPrefixOf_iff_prefix.mp inner)
  unfold moveAcrossRootsSecure
  split
  · exact .inl rfl
  · unfold carry
    rw [scene.entered,entryOf_within scene.placed.reaches.1 stands]
    dsimp only
    rw [scene.stored,scene.freeFiles]
    dsimp only
    rw [if_neg (blocked_free _ fate _ node),if_neg differs,if_neg (Bool.eq_false_iff.mp unprefixed)]
    exact .inr rfl

-- The way back, from where the payload is, to the free source.
theorem Scene.returns (scene : Scene disk host full files info node own) (touched : Touches fit disk full node (places files info own) now)
    (payload : nodeAt now.root (files ++ [own]) = some node) (missing : nodeAt now.root full = none) (root : Option Path) (fate : Fate) :
    Touches fit disk full node (places files info own)
      (moveAcrossRootsSecure now host.links ⟨trashFilesDir host ++ [own],none⟩ ⟨full,root⟩ fate).1 := by
  obtain ⟨⟨walkFiles,_⟩,⟨entries,stands⟩,_⟩ := scene.stays touched
  have known : files ++ [own] ∈ places files info own := List.mem_cons_self
  have unstored : ∀ place ∈ places files info own, ¬ place <+: full := by
    intro place member
    simp only [places,List.mem_cons,List.not_mem_nil,or_false] at member
    rcases member with rfl | rfl
    · exact (scene.away_files own).2
    · exact (scene.away_info _).2
  have roomy := touches_roomy touched scene.proper scene.stored unstored (stored_roomy scene.stored)
  unfold moveAcrossRootsSecure
  split
  · exact touched
  · unfold carry
    rw [entryOf_within walkFiles stands]
    cases entered : entryOf now host.links full with
    | none => exact touched
    | some target =>
      cases entryOf_roomy scene.ordinary roomy entered
      dsimp only
      rw [payload,missing]
      dsimp only
      split
      · exact touched
      · split
        · exact touched
        · split
          · exact touched
          · cases fate with
            | renamed => exact .back (.store touched known (List.prefix_refl _) none nothing_fits)
            | refused => exact touched
            | copyFailed => exact .cut touched (List.prefix_refl full)
            | copied merged =>
              unfold settle
              rw [missing]
              exact .back (.store touched known (List.prefix_refl _) none nothing_fits)
            | copyKept gone merged =>
              unfold settle
              rw [missing]
              exact touches_store_removed (.back touched) known gone

-- One trashed path: it touches nothing but its own, and when it reports success
-- both the payload and its information are in the store.
theorem Scene.trashes (scene : Scene disk host full files info node (uniqueTrashName disk host (baseName full))) (root : Option Path)
    (r : TrashRequest) (fits : fit node) (notes : ∀ data, data <+: content (text full) r.now → fit (.file data)) :
    Touches fit disk full node (places files info (uniqueTrashName disk host (baseName full))) (trashOne disk host ⟨full,root⟩ r).1 ∧
    ((trashOne disk host ⟨full,root⟩ r).2 = none →
      nodeAt (trashOne disk host ⟨full,root⟩ r).1.root (files ++ [uniqueTrashName disk host (baseName full)]) = some node ∧
      nodeAt (trashOne disk host ⟨full,root⟩ r).1.root (info ++ [infoName (uniqueTrashName disk host (baseName full))]) =
        some (.file (content (text full) r.now))) := by
  unfold trashOne
  dsimp only
  generalize uniqueTrashName disk host (baseName full) = own at scene ⊢
  have moves := scene.moves root r.move
  obtain ⟨touched,done⟩ := scene.settles fits r.move
  generalize moveAcrossRootsSecure disk host.links ⟨full,root⟩ ⟨trashFilesDir host ++ [own],none⟩ r.move = outcome at moves ⊢
  rcases moves with rfl | rfl
  · exact ⟨.start,nofun⟩
  · generalize settle disk full (files ++ [own]) node r.move = outcome at touched done ⊢
    obtain ⟨moved,ok⟩ := outcome
    have more : Touches fit disk full node (places files info own) moved := touches_more touched (by simp [places])
    cases ok with
    | false => exact ⟨more,nofun⟩
    | true =>
      obtain ⟨payload,missing⟩ := done rfl
      obtain ⟨⟨_,walkInfo⟩,_,⟨entries,stands⟩⟩ := scene.stays more
      have apart : Apart (files ++ [own]) (info ++ [infoName own]) := apart_children scene.separate own (infoName own)
      have free : nodeAt moved.root (info ++ [infoName own]) = none := by
        rw [touches_elsewhere touched (scene.away_info _) (by simpa using apart)]
        exact scene.freeInfo
      have fresh := writeFile_fresh walkInfo stands (infoName_proper own) free
      have writes : ∀ data, data <+: content (text full) r.now → Touches fit disk full node (places files info own) (edit (some (.file data)) (info ++ [infoName own]) moved) ∧
          nodeAt (edit (some (.file data)) (info ++ [infoName own]) moved).root (files ++ [own]) = some node ∧
          nodeAt (edit (some (.file data)) (info ++ [infoName own]) moved).root full = none := by
        intro data part
        have away := scene.away_info (infoName own)
        refine ⟨.store more (by simp [places]) (List.prefix_refl _) _ (fits_alone (notes data part)),?_,?_⟩
        · rw [nodeAt_edit_apart _ apart.2 apart.1,payload]
        · rw [nodeAt_edit_apart _ away.2 away.1,missing]
      unfold writeTrashInfo
      cases r.write with
      | done =>
        dsimp only
        unfold infoName at fresh
        rw [fresh]
        dsimp only [Option.elim]
        obtain ⟨after,kept,_⟩ := writes (content (text full) r.now) (List.prefix_refl _)
        refine ⟨after,fun _ => ⟨kept,?_⟩⟩
        have placed := nodeAt_edit_at (some (.file (content (text full) r.now))) stands (infoName own) []
        rwa [List.append_nil] at placed
      | failed written =>
        cases written with
        | none => exact ⟨scene.returns more payload missing root r.rollback,nofun⟩
        | some n =>
          dsimp only
          unfold infoName at fresh
          rw [fresh]
          obtain ⟨after,kept,gone⟩ := writes ((content (text full) r.now).take n) (List.take_prefix n _)
          exact ⟨scene.returns after kept gone root r.rollback,nofun⟩

end Scene

theorem entryOf_real (ordinary : Ordinary dir) (unlinked : Unlinked disk.root dir) (entered : entryOf disk links (dir ++ [name]) = some place) :
    place = dir ++ [name] := by
  obtain ⟨real,entries,walked,_,rfl⟩ := entryOf_parts entered
  have lands : landing disk.root links dir = some real := by
    unfold landing
    rw [walked]
  rw [landing_straight ordinary unlinked lands]

end RemoteFileExplorer.TrashSteps
