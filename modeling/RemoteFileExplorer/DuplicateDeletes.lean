import RemoteFileExplorer.DuplicateScans

namespace RemoteFileExplorer.DuplicateDeletes
open FileTree Jail TreeEdits SystemCalls PercentCodes Trash TrashNames TrashSteps FileOps DirectoryListings DuplicateScans

structure Tree where
  disk : Files
  named : ∀ path entries, nodeAt disk.root path = some (.dir entries) → ∀ entry ∈ entries, Proper entry.1 ∧ ByteName entry.1

section Names
variable {tree : Tree}

theorem child_mem (found : (Node.dir entries).child name = some node) : (name,node) ∈ entries := by
  obtain ⟨entry,known,rfl⟩ := Option.map_eq_some_iff.mp found
  have same : entry.1 = name := by simpa using List.find?_some known
  rw [← same]
  exact List.mem_of_find?_eq_some known

theorem named_snoc (above : Ordinary front ∧ Named front) (last : Proper name ∧ ByteName name) : Ordinary (front ++ [name]) ∧ Named (front ++ [name]) := by
  constructor
  · intro part member
    rcases List.mem_append.mp member with old | new
    · exact above.1 part old
    · rw [List.mem_singleton.mp new]
      exact last.1
  · intro part member
    rcases List.mem_append.mp member with old | new
    · exact above.2 part old
    · rw [List.mem_singleton.mp new]
      exact last.2

theorem stored_named (stored : nodeAt tree.disk.root path = some node) : Ordinary path ∧ Named path := by
  induction path using List.reverseRecOn generalizing node with
  | nil => exact ⟨nofun,nofun⟩
  | append_singleton front name ih =>
    rw [nodeAt_snoc] at stored
    obtain ⟨above,stands,child⟩ := Option.bind_eq_some_iff.mp stored
    cases above with
    | file data | link target => cases child
    | dir entries => exact named_snoc (ih stands) (tree.named front entries stands _ (child_mem child))

end Names

theorem pages_each {P : Entry → Prop}
    (each : ∀ cursor listing, list cursor = .ok listing → ∀ e ∈ listing.entries, P e) (paged : pages list fuel cursor = some entries) :
    ∀ e ∈ entries, P e := by
  induction fuel generalizing cursor entries with
  | zero => cases paged
  | succ fuel ih =>
    unfold pages at paged
    split at paged
    · cases paged
    · rename_i listing shown
      split at paged
      · cases paged
        exact each _ listing shown
      · obtain ⟨more,later,rfl⟩ := Option.map_eq_some_iff.mp paged
        intro e member
        rcases List.mem_append.mp member with here | there
        · exact each _ listing shown e here
        · exact ih later e there

theorem mapM_source {list : List α} (mapped : list.mapM f = some results) (member : b ∈ results) :
    ∃ a ∈ list, f a = some b := by
  induction list generalizing results with
  | nil =>
    cases mapped
    cases member
  | cons first rest ih =>
    rw [List.mapM_cons] at mapped
    obtain ⟨one,found,mapped⟩ := Option.bind_eq_some_iff.mp mapped
    obtain ⟨others,later,same⟩ := Option.bind_eq_some_iff.mp mapped
    cases same
    rcases List.mem_cons.mp member with rfl | there
    · exact ⟨first,List.mem_cons_self ..,found⟩
    · obtain ⟨a,known,image⟩ := ih later there
      exact ⟨a,List.mem_cons_of_mem _ known,image⟩

theorem collect_each {P : Entry → Prop}
    (each : ∀ dir cursor listing, list dir cursor = .ok listing → ∀ e ∈ listing.entries, P e) (collected : collect list fuel dir = some files) :
    ∀ e ∈ files, P e := by
  induction fuel generalizing dir files with
  | zero => cases collected
  | succ fuel ih =>
    obtain ⟨entries,paged,walked⟩ := Option.bind_eq_some_iff.mp collected
    obtain ⟨lists,mapped,rfl⟩ := Option.map_eq_some_iff.mp walked
    intro e member
    obtain ⟨found,listed,inside⟩ := List.mem_flatten.mp member
    obtain ⟨entry,known,image⟩ := mapM_source mapped listed
    split at image
    · exact ih image e inside
    · cases image
      rw [List.mem_singleton.mp inside]
      exact pages_each (each dir) paged entry known

def Listed (disk : Files) (p : Bytes) : Prop :=
  ∃ dir entries name node, nodeAt disk.root dir = some (.dir entries) ∧ (name,node) ∈ entries ∧ p = text (dir ++ [name])

theorem collected_listed (collected : collectFiles disk host caller fuel root = some files) : ∀ p ∈ files.map Entry.path, Listed disk p := by
  intro p member
  obtain ⟨e,known,rfl⟩ := List.mem_map.mp member
  apply collect_each (P := fun e => Listed disk e.path) _ collected e known
  intro dir cursor listing shown entry inside
  obtain ⟨resolved,infos,node,_,stands,info,path⟩ := listDir_entry shown inside
  exact ⟨resolved.full,infos,entry.name,node,stands,info,path⟩

def located (disk : Files) (host : Host) (caller : Caller) (p : Bytes) : Option Path := (access disk host caller p).toOption.map SecurePath.full

section Resolving
variable {tree : Tree} {now : Files} {host : Host} {caller : Caller}

theorem evalSymlinks_stored (ordinary : Ordinary path) (stored : nodeAt disk.root path = some node) (plain : node.isLink = false) :
    evalSymlinks disk path = .ok path :=
  evalSymlinks_walk.mpr ((walk_roomy maxLinksWalked ordinary (stored_roomy stored)).1 node stored plain)

section
variable (stands : nodeAt now.root dir = some (.dir entries)) (ordinary : Ordinary (dir ++ [name])) (named : Named (dir ++ [name]))
include stands ordinary named

-- As long as the directory stands a listed path is found where its links lead,
-- or it is the place of a link that leads nowhere, or of nothing.
theorem access_found (opened : access now host caller (text (dir ++ [name])) = .ok resolved) :
    evalSymlinks now (dir ++ [name]) = .ok resolved.full ∨
      (resolved.full = dir ++ [name] ∧ ∀ node, nodeAt now.root (dir ++ [name]) = some node → node.isLink = true) := by
  obtain ⟨_,parts⟩ := request_text ordinary named
  obtain ⟨_,_,_,found,_⟩ := resolve_parts.mp (access_resolved opened)
  rw [parts] at found
  unfold resolveReal at found
  split at found
  · rename_i real arrives
    cases found
    exact .inl arrives
  · rename_i missing
    have above : Ordinary dir := fun part member => ordinary part (List.mem_append_left _ member)
    have roomy := stored_roomy stands
    have real : evalSymlinks now dir = .ok dir := evalSymlinks_stored above stands rfl
    rw [List.reverse_append,List.reverse_singleton,List.singleton_append] at found
    unfold climb at found
    rw [List.reverse_reverse,lstat_roomy _ above roomy,stands] at found
    rw [real] at found
    dsimp only [Except.map] at found
    rw [clean_same ordinary] at found
    refine .inr ⟨(Except.ok.inj found).symm,?_⟩
    intro node stored
    cases linked : node.isLink with
    | true => rfl
    | false =>
      rw [evalSymlinks_stored ordinary stored linked] at missing
      cases missing
  · cases found

theorem hashed_found (hashed : checksum now host caller (text (dir ++ [name])) = .ok data) :
    ∃ place, located now host caller (text (dir ++ [name])) = some place ∧ evalSymlinks now (dir ++ [name]) = .ok place ∧
      nodeAt now.root place = some (.file data) := by
  obtain ⟨resolved,opened,stored⟩ := checksum_file.mp hashed
  have place : located now host caller (text (dir ++ [name])) = some resolved.full := by
    rw [located,opened]
    rfl
  refine ⟨resolved.full,place,?_,stored⟩
  rcases access_found stands ordinary named opened with found | ⟨same,link⟩
  · exact found
  · rw [same] at stored
    cases link _ stored

end

end Resolving

section Keeping
variable {disk now : Files} {q place : Path} {data : Bytes}

structure Left (disk now : Files) (q : Path) (data : Bytes) : Prop where
  grows : Grows now disk
  dirs : ∀ path entries, nodeAt disk.root path = some (.dir entries) → ∃ later, nodeAt now.root path = some (.dir later)
  file : nodeAt now.root q = some (.file data)

def Leaf (disk : Files) (place : Path) : Prop := ∀ path entries, nodeAt disk.root path = some (.dir entries) → ¬ place <+: path

theorem leaf_of (not : ∀ entries, nodeAt disk.root place ≠ some (.dir entries)) : Leaf disk place := by
  rintro path entries stands ⟨rest,rfl⟩
  by_cases here : rest = []
  · rw [here,List.append_nil] at stands
    exact not entries stands
  · cases stored : nodeAt disk.root place with
    | none =>
      rw [nodeAt_below disk.root stored rest] at stands
      cases stands
    | some node =>
      have strict : place ≠ place ++ rest := fun same => here (List.self_eq_append_right.mp same)
      have directory := stored_roomy stands place (List.prefix_append _ _) strict node stored
      cases node with
      | dir inner => exact not inner stored
      | file data | link target => cases directory

theorem leaf_below (leaf : Leaf disk place) (rest : Path) : Leaf disk (place ++ rest) :=
  fun path entries stands below => leaf path entries stands ((List.prefix_append _ _).trans below)

section
variable (left : Left disk now q data) (leaf : Leaf disk place)
include left leaf

theorem left_outside (apart : place ≠ q) : ¬ place <+: q := by
  rintro ⟨rest,rfl⟩
  by_cases here : rest = []
  · exact apart (by rw [here,List.append_nil])
  · cases stored : nodeAt now.root place with
    | none =>
      have none := left.file
      rw [nodeAt_below now.root stored rest] at none
      cases none
    | some node =>
      have strict : place ≠ place ++ rest := fun same => here (List.self_eq_append_right.mp same)
      have directory := stored_roomy left.file place (List.prefix_append _ _) strict node stored
      cases node with
      | file data | link target => cases directory
      | dir inner =>
        obtain ⟨old,stands⟩ := grows_dir left.grows stored
        exact leaf place old stands (List.prefix_refl _)

theorem left_cut (outside : ¬ place <+: q) (proper : place ≠ []) :
    Left disk (edit none place now) q data := by
  refine ⟨grows_trans (grows_back now proper) left.grows,?_,?_⟩
  · intro path entries stands
    obtain ⟨later,kept⟩ := left.dirs path entries stands
    exact dir_kept (leaf path entries stands) none kept
  · rcases place_cases place q with ⟨rest,strict,rfl⟩ | below | ⟨below,above⟩
    · rw [nodeAt_edit_above none now q strict,left.file]
      rfl
    · exact absurd below outside
    · rw [nodeAt_edit_apart none below above]
      exact left.file

theorem left_removed (outside : ¬ place <+: q) (proper : place ≠ []) (gone : List Path) :
    Left disk (removed place gone now) q data := by
  induction gone generalizing now with
  | nil => exact left
  | cons rest others ih =>
    apply ih
    apply left_cut left (leaf_below leaf rest)
    · exact fun below => outside ((List.prefix_append _ _).trans below)
    · exact fun empty => proper (List.append_eq_nil_iff.mp empty).1

end

theorem removeAll_left (left : Left disk now q data)
    (real : Real now.root resolved.full.dropLast) (leaf : Leaf disk resolved.full) (apart : resolved.full ≠ q) (gone : Option (List Path)) :
    Left disk (removeAll now links resolved gone).1 q data := by
  have outside := left_outside left leaf apart
  unfold removeAll
  split
  · exact left
  · cases entered : entryOf now links resolved.full with
    | none => exact left
    | some place =>
      have proper : resolved.full ≠ [] := by
        intro empty
        rw [empty] at entered
        cases entered
      obtain ⟨dir,name,split⟩ := (List.eq_nil_or_concat' resolved.full).resolve_left proper
      have same : place = resolved.full := by
        rw [split,List.dropLast_concat] at real
        rw [split] at entered ⊢
        exact entryOf_real real.1 real.2 entered
      rw [same]
      cases gone with
      | none => exact left_cut left leaf outside proper
      | some gone => exact left_removed left leaf outside proper gone

end Keeping

section Deleting
variable {tree : Tree} {now : Files} {host : Host} {caller : Caller} {q : Path} {data : Bytes}

def Compared (tree : Tree) (host : Host) (caller : Caller) (p : Bytes) : Prop :=
  Listed tree.disk p ∧ ∃ content, checksum tree.disk host caller p = .ok content

theorem compared_parts (compared : Compared tree host caller p) : ∃ dir entries name place content, p = text (dir ++ [name]) ∧
    nodeAt tree.disk.root dir = some (.dir entries) ∧ Ordinary (dir ++ [name]) ∧ Named (dir ++ [name]) ∧
    located tree.disk host caller p = some place ∧ evalSymlinks tree.disk (dir ++ [name]) = .ok place ∧
    nodeAt tree.disk.root place = some (.file content) := by
  obtain ⟨⟨dir,entries,name,node,stands,member,rfl⟩,content,hashed⟩ := compared
  obtain ⟨ordinary,named⟩ := named_snoc (stored_named stands) (tree.named dir entries stands (name,node) member)
  obtain ⟨place,where_,found,stored⟩ := hashed_found stands ordinary named hashed
  exact ⟨dir,entries,name,place,content,rfl,stands,ordinary,named,where_,found,stored⟩

theorem deleteOne_left (left : Left tree.disk now q data) (removal : Removal) (compared : Compared tree host caller removal.path)
    (elsewhere : located tree.disk host caller removal.path ≠ some q) : Left tree.disk (deleteOne host caller now removal).1 q data := by
  obtain ⟨dir,entries,name,place,content,path,stands,ordinary,named,where_,found,stored⟩ := compared_parts compared
  obtain ⟨later,standsNow⟩ := left.dirs dir entries stands
  unfold deleteOne
  cases opened : access now host caller removal.path with
  | error e => exact left
  | ok resolved =>
    obtain ⟨_,realFull,_⟩ := resolve_place (access_resolved opened)
    rw [path] at opened
    have reach : Leaf tree.disk resolved.full ∧ resolved.full ≠ q := by
      rcases access_found standsNow ordinary named opened with arrives | ⟨same,link⟩
      · have before := evalSymlinks_walk.mpr (walk_grows left.grows (evalSymlinks_walk.mp arrives))
        rw [found] at before
        cases before
        constructor
        · apply leaf_of
          intro entries directory
          rw [stored] at directory
          cases directory
        · intro hit
          exact elsewhere (hit ▸ where_)
      · constructor
        · rw [same]
          apply leaf_of
          intro entries directory
          obtain ⟨inner,kept⟩ := left.dirs _ _ directory
          cases link _ kept
        · intro hit
          rw [← same,hit] at link
          cases link _ left.file
    exact removeAll_left left realFull reach.1 reach.2 removal.gone

theorem each_left (left : Left tree.disk now q data) (removals : List Removal)
    (clear : ∀ removal ∈ removals, Compared tree host caller removal.path ∧ located tree.disk host caller removal.path ≠ some q) :
    Left tree.disk (each (deleteOne host caller) removals now).1 q data := by
  induction removals generalizing now with
  | nil => exact left
  | cons removal rest ih =>
    obtain ⟨compared,elsewhere⟩ := clear removal (List.mem_cons_self ..)
    exact ih (deleteOne_left left removal compared elsewhere) (fun other later => clear other (List.mem_cons_of_mem _ later))

theorem left_start (stored : nodeAt tree.disk.root q = some (.file data)) : Left tree.disk tree.disk q data :=
  ⟨grows_refl _,fun _ entries stands => ⟨entries,stands⟩,stored⟩

end Deleting

section Losing
variable {disk now : Files} {gone : List Path} {host : Host} {caller : Caller}

structure Without (disk now : Files) (gone : List Path) : Prop where
  files : ∀ path ∈ gone, ∃ data, nodeAt disk.root path = some (.file data)
  kept : ∀ path, path ∉ gone → (nodeAt now.root path).map kind = (nodeAt disk.root path).map kind
  absent : ∀ path ∈ gone, nodeAt now.root path = none
  content : ∀ path data, nodeAt now.root path = some (.file data) → nodeAt disk.root path = some (.file data)

theorem without_start (disk : Files) : Without disk disk [] := ⟨nofun,fun _ _ => rfl,nofun,fun _ _ stored => stored⟩

theorem file_below (stored : nodeAt disk.root place = some (.file data)) (rest : Path) (more : rest ≠ []) : nodeAt disk.root (place ++ rest) = none := by
  cases rest with
  | nil => exact absurd rfl more
  | cons step rest =>
    rw [nodeAt_append,stored,Option.bind_some]
    exact nodeAt_leaf rfl step rest

theorem cut_file (proper : place ≠ []) (stored : nodeAt (edit none place now).root path = some (.file data)) : nodeAt now.root path = some (.file data) := by
  rcases place_cases place path with ⟨rest,strict,rfl⟩ | below | ⟨below,above⟩
  · rw [nodeAt_edit_above none now path strict] at stored
    obtain ⟨node,found,same⟩ := Option.map_eq_some_iff.mp stored
    cases node with
    | file other =>
      cases same
      exact found
    | dir entries | link target => cases same
  · exact absurd below (cut_stood proper stored).1
  · rw [nodeAt_edit_apart none below above] at stored
    exact stored

section
variable (without : Without disk now gone)
include without

theorem without_cut (stored : nodeAt disk.root place = some (.file data)) (proper : place ≠ []) :
    Without disk (edit none place now) (place::gone) := by
  refine ⟨?_,?_,?_,?_⟩
  · intro path member
    rcases List.mem_cons.mp member with rfl | old
    · exact ⟨data,stored⟩
    · exact without.files path old
  · intro path outside
    rw [List.mem_cons,not_or] at outside
    by_cases below : place <+: path
    · obtain ⟨rest,rfl⟩ := below
      have more : rest ≠ [] := by
        rintro rfl
        exact outside.1 (List.append_nil _)
      rw [nodeAt_cut now proper rest,file_below stored rest more]
    · rw [cut_kept below none]
      exact without.kept path outside.2
  · intro path member
    by_cases below : place <+: path
    · obtain ⟨rest,rfl⟩ := below
      exact nodeAt_cut now proper rest
    · rcases List.mem_cons.mp member with rfl | old
      · exact absurd (List.prefix_refl _) below
      · have same : (nodeAt (edit none place now).root path).map kind = (nodeAt now.root path).map kind := cut_kept below none
        rw [without.absent path old] at same
        exact Option.map_eq_none_iff.mp same
  · intro path content found
    exact without.content path content (cut_file proper found)

theorem without_dir (stands : nodeAt disk.root path = some (.dir entries)) :
    path ∉ gone ∧ ∃ later, nodeAt now.root path = some (.dir later) := by
  have outside : path ∉ gone := by
    intro member
    obtain ⟨data,stored⟩ := without.files path member
    rw [stands] at stored
    cases stored
  have same := without.kept path outside
  rw [stands] at same
  obtain ⟨node,stored,alike⟩ := Option.map_eq_some_iff.mp same
  cases node with
  | dir later => exact ⟨outside,later,stored⟩
  | file data | link target => cases alike

theorem walkWith_without (outside : found ∉ gone)
    (follows : ∀ place parts, follow place parts = .found found → followNow place parts = .found found)
    (walked : walkWith disk.root follow place parts = .found found) : walkWith now.root followNow place parts = .found found := by
  induction parts generalizing place with
  | nil => exact walked
  | cons part rest ih =>
    unfold walkWith at walked ⊢
    by_cases plain : part = "" ∨ part = "."
    · rw [if_pos plain] at walked ⊢
      exact ih walked
    · rw [if_neg plain] at walked ⊢
      by_cases up : part = ".."
      · rw [if_pos up] at walked ⊢
        exact ih walked
      · rw [if_neg up] at walked ⊢
        have clear : place ++ [part] ∉ gone := by
          intro member
          obtain ⟨data,stored⟩ := without.files _ member
          rw [stored] at walked
          dsimp only at walked
          split at walked
          · cases walked
            exact outside member
          · cases walked
        have same := without.kept _ clear
        cases stored : nodeAt disk.root (place ++ [part]) with
        | none =>
          rw [stored] at walked
          cases walked
        | some node =>
          rw [stored] at walked same
          obtain ⟨other,storedNow,alike⟩ := Option.map_eq_some_iff.mp same
          rw [storedNow]
          cases node with
          | file data =>
            cases other with
            | file _ => exact walked
            | dir _ | link _ => cases alike
          | dir entries =>
            cases other with
            | file _ | link _ => cases alike
            | dir _ => exact ih walked
          | link target =>
            cases other with
            | file _ | dir _ => cases alike
            | link _ =>
              cases alike
              exact follows _ _ walked

theorem walk_without (outside : found ∉ gone) (walked : walk disk.root links place parts = .found found) :
    walk now.root links place parts = .found found := by
  induction links generalizing place parts with
  | zero => exact walkWith_without without outside (fun _ _ impossible => by cases impossible) walked
  | succ links ih => exact walkWith_without without outside (fun _ _ => ih) walked

theorem evalSymlinks_without (outside : found ∉ gone) (walked : evalSymlinks disk parts = .ok found) :
    evalSymlinks now parts = .ok found := evalSymlinks_walk.mpr (walk_without without outside (evalSymlinks_walk.mp walked))

theorem openJailRoot_without (stands : openJailRoot disk host root = true) : openJailRoot now host root = true := by
  rcases List.eq_nil_or_concat' root with rfl | ⟨dir,name,rfl⟩
  · rfl
  · unfold openJailRoot lstat at stands ⊢
    simp only [List.getLast?_append,List.getLast?_singleton,Option.some_or,List.dropLast_concat] at stands ⊢
    cases walked : walk disk.root host.links [] dir with
    | missing place rest | notDirectory | tooManyLinks =>
      rw [walked] at stands
      cases stands
    | found place =>
      rw [walked] at stands
      dsimp only at stands
      cases above : nodeAt disk.root place with
      | none =>
        rw [above] at stands
        cases stands
      | some node =>
        rw [above] at stands
        cases node with
        | file data | link target => cases stands
        | dir entries =>
          obtain ⟨outside,later,kept⟩ := without_dir without above
          rw [walk_without without outside walked]
          dsimp only at stands ⊢
          rw [kept]
          cases below : nodeAt disk.root (place ++ [name]) with
          | none =>
            rw [below] at stands
            cases stands
          | some child =>
            rw [below] at stands
            cases child with
            | file data | link target => cases stands
            | dir inner =>
              obtain ⟨_,innerLater,innerKept⟩ := without_dir without below
              rw [innerKept]
              rfl

end

end Losing

section Removing
variable {tree : Tree} {now : Files} {gone : List Path} {host : Host} {caller : Caller} {p : Bytes} {place : Path}

theorem lexicallyAllowed_without (without : Without tree.disk now gone) (stands : nodeAt tree.disk.root dir = some (.dir entries))
    (ordinary : Ordinary (dir ++ [name])) (found : evalSymlinks tree.disk (dir ++ [name]) = .ok place) (outside : place ∉ gone) (roots : List CleanPath)
    (allowed : lexicallyAllowed tree.disk (dir ++ [name]) roots = true) : lexicallyAllowed now (dir ++ [name]) roots = true := by
  unfold lexicallyAllowed at allowed ⊢
  rw [Bool.or_eq_true] at allowed ⊢
  apply allowed.imp_right
  intro some_
  obtain ⟨root,member,under⟩ := List.any_eq_true.mp some_
  apply List.any_eq_true.mpr
  refine ⟨root,member,?_⟩
  rw [Bool.or_eq_true] at under ⊢
  apply under.imp_right
  intro within
  cases real : evalSymlinks tree.disk root.path with
  | error e =>
    rw [real] at within
    cases within
  | ok target =>
    rw [real] at within
    have clear : target ∉ gone := by
      intro lost
      obtain ⟨data,stored⟩ := without.files target lost
      have below : target <+: dir ++ [name] := List.isPrefixOf_iff_prefix.mp within
      rcases List.prefix_concat_iff.mp below with rfl | above
      · rw [evalSymlinks_stored ordinary stored rfl] at found
        cases found
        exact outside lost
      · have leaf : Leaf tree.disk target := by
          apply leaf_of
          intro inner directory
          rw [stored] at directory
          cases directory
        exact leaf dir entries stands above
    rw [evalSymlinks_without without clear real]
    exact within

section
variable (without : Without tree.disk now gone) (compared : Compared tree host caller p) (where_ : located tree.disk host caller p = some place) (outside : place ∉ gone)
include without compared where_ outside

theorem access_without :
    ∃ resolved, access now host caller p = .ok resolved ∧ resolved.full = place ∧ resolved.root ≠ some place := by
  obtain ⟨dir,entries,name,same,content,rfl,stands,ordinary,named,again,found,stored⟩ := compared_parts compared
  rw [where_] at again
  cases again
  obtain ⟨resolved,opened,full⟩ : ∃ resolved, access tree.disk host caller (text (dir ++ [name])) = .ok resolved ∧ resolved.full = place := by
    rw [located] at where_
    cases opened : access tree.disk host caller (text (dir ++ [name])) with
    | error e =>
      rw [opened] at where_
      cases where_
    | ok resolved =>
      rw [opened] at where_
      exact ⟨resolved,rfl,Option.some.inj where_⟩
  obtain ⟨absolute,parts⟩ := request_text ordinary named
  obtain ⟨jailed,_,allowed,_,admitted⟩ := resolve_parts.mp (access_resolved opened)
  rw [full] at admitted
  rw [parts] at allowed
  have arrives : resolveReal now (caller.ops host).links (dir ++ [name]) = .ok place := by
    rw [resolveReal,evalSymlinks_without without outside found]
  have resolves : resolve now (caller.ops host) (request (text (dir ++ [name]))) = .ok place := by
    apply resolve_parts.mpr
    rw [parts]
    exact ⟨jailed,absolute,lexicallyAllowed_without without stands ordinary found outside _ allowed,arrives,admitted⟩
  have resolvesBefore := access_resolved opened
  rw [full] at resolvesBefore
  unfold access at opened ⊢
  rw [resolvesBefore] at opened
  rw [resolves]
  dsimp only at opened ⊢
  cases root : allowedRootFor caller place with
  | none => exact ⟨⟨place,none⟩,rfl,rfl,nofun⟩
  | some root =>
    rw [root] at opened
    dsimp only at opened ⊢
    split at opened
    · rename_i standing
      rw [if_pos (openJailRoot_without without standing)]
      refine ⟨_,rfl,rfl,?_⟩
      intro hit
      cases hit
      obtain ⟨ordinaryPlace,_⟩ := stored_named stored
      rw [openJailRoot,lstat_roomy _ ordinaryPlace (stored_roomy stored),stored] at standing
      cases standing
    · cases opened

theorem deleteOne_without :
    Without tree.disk (deleteOne host caller now ⟨p,none⟩).1 (place::gone) := by
  obtain ⟨resolved,opened,rfl,rootless⟩ := access_without without compared where_ outside
  obtain ⟨_,_,_,same,content,_,_,_,_,again,_,stored⟩ := compared_parts compared
  rw [where_] at again
  cases again
  have proper : resolved.full ≠ [] := by
    intro empty
    rw [empty] at stored
    cases stored
  obtain ⟨parent,last,split⟩ := (List.eq_nil_or_concat' resolved.full).resolve_left proper
  have entered : entryOf now host.links resolved.full = some resolved.full := by
    rw [split] at stored ⊢
    cases above : nodeAt tree.disk.root parent with
    | none =>
      rw [nodeAt_below tree.disk.root above] at stored
      cases stored
    | some node =>
      have directory := stored_roomy stored parent (List.prefix_append _ _) (by simp) node above
      cases node with
      | file data | link target => cases directory
      | dir entries =>
        obtain ⟨ordinary,_⟩ := stored_named above
        obtain ⟨_,later,kept⟩ := without_dir without above
        exact entryOf_within ((walk_roomy host.links ordinary (stored_roomy kept)).1 _ kept rfl) kept last
  have cut : (deleteOne host caller now ⟨p,none⟩).1 = edit none resolved.full now := by
    unfold deleteOne removeAll
    rw [opened]
    dsimp only
    rw [if_neg rootless,entered]
  rw [cut]
  exact without_cut without stored proper

end

theorem each_without (without : Without tree.disk now gone) (paths : List Bytes) (compared : ∀ p ∈ paths, Compared tree host caller p)
    (apart : (paths.map (located tree.disk host caller)).Nodup) (fresh : ∀ p ∈ paths, ∀ q ∈ gone, located tree.disk host caller p ≠ some q) :
    ∃ lost, Without tree.disk (each (deleteOne host caller) (paths.map (fun p => ⟨p,none⟩)) now).1 lost ∧ (∀ q ∈ gone, q ∈ lost) ∧
      ∀ p ∈ paths, ∀ q, located tree.disk host caller p = some q → q ∈ lost := by
  induction paths generalizing now gone with
  | nil => exact ⟨gone,without,fun _ member => member,nofun⟩
  | cons p rest ih =>
    rw [List.map_cons,List.nodup_cons] at apart
    have first := compared p (List.mem_cons_self ..)
    obtain ⟨_,_,_,place,_,_,_,_,_,where_,_,_⟩ := compared_parts first
    have outside : place ∉ gone := fun member => fresh p (List.mem_cons_self ..) place member where_
    have next := deleteOne_without without first where_ outside
    have later : ∀ other ∈ rest, ∀ q ∈ place::gone, located tree.disk host caller other ≠ some q := by
      intro other member q listed
      rcases List.mem_cons.mp listed with rfl | old
      · intro same
        apply apart.1
        rw [where_,← same]
        exact List.mem_map_of_mem member
      · exact fresh other (List.mem_cons_of_mem _ member) q old
    obtain ⟨lost,after,keeps,reaches⟩ := ih next (fun other member => compared other (List.mem_cons_of_mem _ member)) apart.2 later
    refine ⟨lost,after,fun q member => keeps q (List.mem_cons_of_mem _ member),?_⟩
    intro other member q found
    rcases List.mem_cons.mp member with rfl | tail
    · rw [where_] at found
      cases found
      exact keeps place (List.mem_cons_self ..)
    · exact reaches other tail q found

theorem representatives [DecidableEq β] (f : α → β) (list : List α) :
    ∃ chosen : List α, (∀ a ∈ chosen, a ∈ list) ∧ (chosen.map f).Nodup ∧ ∀ a ∈ list, f a ∈ chosen.map f := by
  induction list with
  | nil => exact ⟨[],nofun,List.nodup_nil,nofun⟩
  | cons first rest ih =>
    obtain ⟨chosen,inside,apart,reaches⟩ := ih
    by_cases known : f first ∈ chosen.map f
    · refine ⟨chosen,fun a member => List.mem_cons_of_mem _ (inside a member),apart,?_⟩
      intro a member
      rcases List.mem_cons.mp member with rfl | later
      · exact known
      · exact reaches a later
    · refine ⟨first::chosen,?_,List.nodup_cons.mpr ⟨known,apart⟩,?_⟩
      · intro a member
        rcases List.mem_cons.mp member with rfl | later
        · exact List.mem_cons_self ..
        · exact List.mem_cons_of_mem _ (inside a later)
      · intro a member
        rcases List.mem_cons.mp member with rfl | later
        · exact List.mem_cons_self ..
        · exact List.mem_cons_of_mem _ (reaches a later)

end Removing

end RemoteFileExplorer.DuplicateDeletes
