import Mathlib.Data.Set.Finite.Lattice
import RemoteFileExplorer.DuplicateDeletes
import RemoteFileExplorer.GraphWalks

namespace RemoteFileExplorer.FolderWalks
open FileTree hiding walk
open TreeEdits PercentCodes Trash TrashNames FileOps DirectoryListings DuplicateScans DuplicateDeletes GraphWalks

structure Volume extends Tree where
  distinct : ∀ path infos, nodeAt disk.root path = some (.dir infos) → (infos.map Prod.fst).Nodup

theorem stored_leaf (plain : leaf.isDir = false) : {path | (nodeAt leaf path).isSome = true}.Finite := by
  refine (Set.finite_singleton []).subset ?_
  intro path stored
  cases path with
  | nil => rfl
  | cons name rest =>
    rw [Set.mem_ofPred_eq,nodeAt_leaf plain] at stored
    cases stored

theorem stored_finite : (node : Node Bytes) → {path | (nodeAt node path).isSome = true}.Finite
  | .file data => stored_leaf rfl
  | .link target => stored_leaf rfl
  | .dir infos => by
    have all : {[]} ∪ ⋃ info ∈ {info | info ∈ infos},(info.1::·) '' {path | (nodeAt info.2 path).isSome = true} |>.Finite :=
      (Set.finite_singleton []).union (infos.finite_toSet.biUnion fun info _ => (stored_finite info.2).image _)
    refine all.subset ?_
    intro path stored
    cases path with
    | nil => exact .inl rfl
    | cons name rest =>
      obtain ⟨node,found⟩ := Option.isSome_iff_exists.mp stored
      obtain ⟨child,known,deeper⟩ := Option.bind_eq_some_iff.mp found
      refine .inr (Set.mem_biUnion (child_mem known) ⟨rest,?_,rfl⟩)
      rw [Set.mem_ofPred_eq,deeper]
      rfl
termination_by node => sizeOf node
decreasing_by
  rename_i member
  have smaller := List.sizeOf_lt_of_mem member
  obtain ⟨name,node⟩ := info
  simp only [Prod.mk.sizeOf_spec,Node.dir.sizeOf_spec] at smaller ⊢
  omega

theorem dirs_finite (disk : Files) : {dir | ∃ infos, nodeAt disk.root dir = some (.dir infos)}.Finite := by
  refine (stored_finite disk.root).subset ?_
  rintro dir ⟨infos,stands⟩
  rw [Set.mem_ofPred_eq,stands]
  rfl

section Walks
variable (disk : Files) (host : Host) (caller : Caller)

def shown (dir : Path) (info : Name × Node Bytes) : Entry :=
  entryFromSecureInfo disk host.links (SecurePath.child ⟨dir,allowedRootFor caller dir⟩ info.1) info.1 info.2

-- Where collectFiles goes from it: a directory is asked for by the path it was
-- listed with, and found where the links of this path lead.
def row (dir : Path) (info : Name × Node Bytes) : Name × (Entry ⊕ Option Path) :=
  (info.1,if (shown disk host caller dir info).isDir then .inr (located disk host caller (shown disk host caller dir info).path)
    else .inl (shown disk host caller dir info))

def rowsOf (place : Option Path) : Option (List (Name × (Entry ⊕ Option Path))) :=
  place.bind fun dir =>
    match nodeAt disk.root dir with
    | some (.dir infos) => some ((Pages.listed Prod.fst infos).map (row disk host caller dir))
    | _ => none

end Walks

theorem rowsOf_parts : rowsOf disk host caller place = some list ↔ ∃ dir infos, place = some dir ∧
    nodeAt disk.root dir = some (.dir infos) ∧ list = (Pages.listed Prod.fst infos).map (row disk host caller dir) := by
  unfold rowsOf
  rw [Option.bind_eq_some_iff]
  constructor
  · rintro ⟨dir,rfl,shown⟩
    split at shown
    · rename_i infos stands
      cases shown
      exact ⟨dir,infos,rfl,stands,rfl⟩
    · cases shown
  · rintro ⟨dir,infos,rfl,stands,rfl⟩
    refine ⟨dir,rfl,?_⟩
    rw [stands]

-- The directories as the agent lists them, with what it cannot find as `none`.
def listings (volume : Volume) (host : Host) (caller : Caller) : Graph (Option Path) Name Entry where
  rows := rowsOf volume.disk host caller
  distinct := by
    intro place list listed
    obtain ⟨dir,infos,_,stands,rfl⟩ := rowsOf_parts.mp listed
    rw [List.map_map]
    exact ((List.perm_insertionSort _ infos).map Prod.fst).nodup_iff.mpr (volume.distinct dir infos stands)

section Paging
variable {volume : Volume} {host : Host} {caller : Caller}

theorem access_located (where_ : located disk host caller path = some dir) : access disk host caller path = .ok ⟨dir,allowedRootFor caller dir⟩ := by
  unfold located at where_
  cases opened : access disk host caller path with
  | error e =>
    rw [opened] at where_
    cases where_
  | ok resolved =>
    rw [opened] at where_
    cases where_
    unfold access at opened
    split at opened
    · cases opened
    · split at opened
      · rename_i none
        cases opened
        rw [none]
      · rename_i root allowed
        split at opened
        · cases opened
          rw [allowed]
        · cases opened

theorem agentList_page (where_ : located disk host caller path = some dir) (stands : nodeAt disk.root dir = some (.dir infos)) :
    agentList disk host caller path cursor =
      .ok ⟨(Pages.page Prod.fst 200 cursor infos).items.map (shown disk host caller dir),(Pages.page Prod.fst 200 cursor infos).next⟩ := by
  have opens : openNode disk ⟨dir,allowedRootFor caller dir⟩ = some (.dir infos) := by
    rw [openNode,stands]
    rfl
  unfold agentList listDir
  rw [access_located where_]
  dsimp only
  rw [opens]
  rfl

theorem agentList_found {disk : Files} (answered : agentList disk host caller path cursor = .ok listing) :
    ∃ dir infos, located disk host caller path = some dir ∧ nodeAt disk.root dir = some (.dir infos) := by
  unfold agentList listDir at answered
  split at answered
  · cases answered
  · rename_i resolved opened
    split at answered
    · rename_i infos found
      refine ⟨resolved.full,infos,?_,(Option.filter_eq_some_iff.mp found).1⟩
      rw [located,opened]
      rfl
    · cases answered
    · cases answered

def fromCursor (disk : Files) (host : Host) (caller : Caller) (dir : Path) (infos : List (Name × Node Bytes)) (cursor : Option Name) : List Entry :=
  (Pages.after Prod.fst cursor (Pages.listed Prod.fst infos)).map (shown disk host caller dir)

theorem pages_step (distinct : (infos.map Prod.fst).Nodup) :
    fromCursor disk host caller dir infos cursor = (Pages.page Prod.fst 200 cursor infos).items.map (shown disk host caller dir) ++
      ((Pages.page Prod.fst 200 cursor infos).next.elim [] fun last => fromCursor disk host caller dir infos (some last)) := by
  have split : (Pages.page Prod.fst 200 cursor infos).items ++ Pages.remaining Prod.fst (Pages.page Prod.fst 200 cursor infos).next infos =
      Pages.after Prod.fst cursor (Pages.listed Prod.fst infos) := Pages.page_splits Prod.fst (by decide) distinct
  unfold fromCursor
  rw [← split,List.map_append]
  cases (Pages.page Prod.fst 200 cursor infos).next <;> rfl

section
variable (where_ : located volume.disk host caller path = some dir) (stands : nodeAt volume.disk.root dir = some (.dir infos))
include where_ stands

theorem pages_all (paged : pages (agentList volume.disk host caller path) fuel cursor = some entries) : entries = fromCursor volume.disk host caller dir infos cursor := by
  have distinct := volume.distinct dir infos stands
  induction fuel generalizing cursor entries with
  | zero => cases paged
  | succ fuel ih =>
    unfold pages at paged
    rw [agentList_page where_ stands] at paged
    rw [pages_step distinct]
    cases more : (Pages.page Prod.fst 200 cursor infos).next with
    | none =>
      rw [more] at paged
      cases paged
      exact (List.append_nil _).symm
    | some last =>
      rw [more] at paged
      obtain ⟨rest,later,rfl⟩ := Option.map_eq_some_iff.mp paged
      rw [ih later]
      rfl

theorem pages_enough (enough : (fromCursor volume.disk host caller dir infos cursor).length < fuel) : ∃ entries, pages (agentList volume.disk host caller path) fuel cursor = some entries := by
  have distinct := volume.distinct dir infos stands
  induction fuel generalizing cursor with
  | zero => cases enough
  | succ fuel ih =>
    unfold pages
    rw [agentList_page where_ stands]
    cases more : (Pages.page Prod.fst 200 cursor infos).next with
    | none => exact ⟨_,rfl⟩
    | some last =>
      have filled := List.length_pos_iff.mpr (Pages.page_fills Prod.fst more)
      rw [pages_step distinct,more,List.length_append,List.length_map] at enough
      dsimp only [Option.elim] at enough
      have shorter : (fromCursor volume.disk host caller dir infos (some last)).length < fuel := by omega
      obtain ⟨rest,later⟩ := ih shorter
      exact ⟨_,Option.map_eq_some_iff.mpr ⟨rest,later,rfl⟩⟩

end

theorem pages_more {list : Option Name → Except OpError Listing} (paged : pages list fuel cursor = some entries) (more : fuel ≤ other) :
    pages list other cursor = some entries := by
  induction fuel generalizing cursor entries other with
  | zero => cases paged
  | succ fuel ih =>
    obtain ⟨extra,rfl⟩ := Nat.exists_eq_add_of_le' more
    rw [← Nat.add_assoc]
    unfold pages at paged ⊢
    cases answered : list cursor with
    | error e =>
      rw [answered] at paged
      cases paged
    | ok listing =>
      rw [answered] at paged
      dsimp only at paged ⊢
      cases next : listing.nextCursor with
      | none =>
        rw [next] at paged
        exact paged
      | some last =>
        rw [next] at paged
        obtain ⟨rest,later,rfl⟩ := Option.map_eq_some_iff.mp paged
        exact Option.map_eq_some_iff.mpr ⟨rest,ih later (by omega),rfl⟩

end Paging

section Walking
variable {volume : Volume} {host : Host} {caller : Caller}

theorem mapM_carry {f g : α → Option (List β)} {list : List α} (carries : ∀ a ∈ list, ∀ b, f a = some b → g a = some b)
    (mapped : list.mapM f = some results) : list.mapM g = some results := by
  obtain ⟨every,rfl⟩ := mapM_some.mp mapped
  refine mapM_some.mpr ⟨?_,List.map_congr_left ?_⟩
  · intro a member
    obtain ⟨b,found⟩ := Option.isSome_iff_exists.mp (every a member)
    rw [carries a member b found]
    rfl
  · intro a member
    obtain ⟨b,found⟩ := Option.isSome_iff_exists.mp (every a member)
    rw [carries a member b found,found]

theorem collect_more {list : Bytes → Option Name → Except OpError Listing} (collected : collect list fuel dir = some files) (more : fuel ≤ other) :
    collect list other dir = some files := by
  induction fuel generalizing dir files other with
  | zero => cases collected
  | succ fuel ih =>
    obtain ⟨extra,rfl⟩ := Nat.exists_eq_add_of_le' more
    rw [← Nat.add_assoc]
    obtain ⟨entries,paged,walked⟩ := Option.bind_eq_some_iff.mp collected
    obtain ⟨lists,mapped,rfl⟩ := Option.map_eq_some_iff.mp walked
    refine Option.bind_eq_some_iff.mpr ⟨entries,pages_more paged (by omega),Option.map_eq_some_iff.mpr ⟨lists,?_,rfl⟩⟩
    refine mapM_carry ?_ mapped
    intro entry _ piece found
    split at found
    · rename_i directory
      rw [if_pos directory]
      exact ih found (by omega)
    · rename_i directory
      rw [if_neg directory]
      exact found

theorem fuel_all {f : Nat → α → Option β} {g : α → β} (more : ∀ fuel other a, f fuel a = some (g a) → fuel ≤ other → f other a = some (g a)) (list : List α)
    (each : ∀ a ∈ list, ∃ fuel, f fuel a = some (g a)) : ∃ fuel, ∀ a ∈ list, f fuel a = some (g a) := by
  induction list with
  | nil => exact ⟨0,nofun⟩
  | cons first rest ih =>
    obtain ⟨some_,found⟩ := each first (List.mem_cons_self ..)
    obtain ⟨enough,all⟩ := ih fun a member => each a (List.mem_cons_of_mem _ member)
    refine ⟨max some_ enough,?_⟩
    intro a member
    rcases List.mem_cons.mp member with rfl | later
    · exact more _ _ _ found (Nat.le_max_left ..)
    · exact more _ _ _ (all a later) (Nat.le_max_right ..)

def descend (disk : Files) (host : Host) (caller : Caller) (fuel : Nat) (e : Entry) : Option (List Entry) :=
  if e.isDir then collect (agentList disk host caller) fuel e.path else some [e]

theorem row_visit (dir : Path) (info : Name × Node Bytes) (walk : Option Path → Option (List Entry)) :
    visit walk (row disk host caller dir info).2 = if (shown disk host caller dir info).isDir then walk (located disk host caller (shown disk host caller dir info).path)
      else some [shown disk host caller dir info] := by
  unfold row
  split <;> rfl

theorem collect_walk (collected : collectFiles volume.disk host caller fuel path = some files) :
    walk (listings volume host caller) fuel (located volume.disk host caller path) = some files := by
  induction fuel generalizing path files with
  | zero => cases collected
  | succ fuel ih =>
    obtain ⟨entries,paged,walked⟩ := Option.bind_eq_some_iff.mp collected
    obtain ⟨lists,mapped,rfl⟩ := Option.map_eq_some_iff.mp walked
    have answered : ∃ listing, agentList volume.disk host caller path none = .ok listing := by
      cases fuel with
      | zero => cases paged
      | succ fuel =>
        unfold pages at paged
        split at paged
        · cases paged
        · exact ⟨_,‹_›⟩
    obtain ⟨listing,answer⟩ := answered
    obtain ⟨dir,infos,where_,stands⟩ := agentList_found answer
    have whole := pages_all where_ stands paged
    subst whole
    rw [where_,walk]
    refine Option.bind_eq_some_iff.mpr ⟨_,rowsOf_parts.mpr ⟨dir,infos,rfl,stands,rfl⟩,Option.map_eq_some_iff.mpr ⟨lists,?_,rfl⟩⟩
    unfold fromCursor at mapped
    rw [Pages.after_none,List.mapM_map] at mapped
    rw [List.mapM_map]
    refine mapM_carry ?_ mapped
    intro info _ piece found
    simp only [Function.comp_apply] at found ⊢
    rw [row_visit]
    split at found
    · rename_i directory
      rw [if_pos directory]
      exact ih found
    · rename_i directory
      rw [if_neg directory]
      exact found

theorem walk_collect (walked : walk (listings volume host caller) fuel (located volume.disk host caller path) = some files) :
    ∃ more, collectFiles volume.disk host caller more path = some files := by
  induction fuel generalizing path files with
  | zero => cases walked
  | succ fuel ih =>
    obtain ⟨list,listed,walked⟩ := Option.bind_eq_some_iff.mp walked
    obtain ⟨lists,mapped,rfl⟩ := Option.map_eq_some_iff.mp walked
    obtain ⟨dir,infos,where_,stands,rfl⟩ := rowsOf_parts.mp listed
    rw [List.mapM_map] at mapped
    obtain ⟨every,rfl⟩ := mapM_some.mp mapped
    have each : ∀ info ∈ Pages.listed Prod.fst infos, ∃ more, descend volume.disk host caller more (shown volume.disk host caller dir info) =
        some ((visit (walk (listings volume host caller) fuel) (row volume.disk host caller dir info).2).getD []) := by
      intro info member
      obtain ⟨piece,found⟩ := Option.isSome_iff_exists.mp (every info member)
      rw [Function.comp_apply] at found
      rw [found]
      rw [row_visit] at found
      unfold descend
      split at found
      · rename_i directory
        simp only [if_pos directory]
        exact ih found
      · rename_i directory
        simp only [if_neg directory]
        exact ⟨0,found⟩
    have longer : ∀ fuel other info files, descend volume.disk host caller fuel (shown volume.disk host caller dir info) = some files → fuel ≤ other →
        descend volume.disk host caller other (shown volume.disk host caller dir info) = some files := by
      intro fuel other info files found more
      unfold descend at found ⊢
      split at found
      · rename_i directory
        rw [if_pos directory]
        exact collect_more found more
      · rename_i directory
        rw [if_neg directory]
        exact found
    obtain ⟨enough,all⟩ := fuel_all (fun fuel other info found more => longer fuel other info _ found more) (Pages.listed Prod.fst infos) each
    obtain ⟨entries,paged⟩ := pages_enough where_ stands (Nat.lt_succ_self _)
    have whole := pages_all where_ stands paged
    subst whole
    -- Enough for each entry and for the pages.
    obtain ⟨most,forEach,forPages⟩ : ∃ most, enough ≤ most ∧ (fromCursor volume.disk host caller dir infos none).length + 1 ≤ most :=
      ⟨max enough _,Nat.le_max_left ..,Nat.le_max_right ..⟩
    have step : collectFiles volume.disk host caller (most + 1) path = (pages (agentList volume.disk host caller path) most none).bind fun entries =>
        (entries.mapM (descend volume.disk host caller most)).map List.flatten := rfl
    refine ⟨most + 1,?_⟩
    rw [step,pages_more paged forPages,Option.bind_some,fromCursor,Pages.after_none,List.mapM_map]
    refine Option.map_eq_some_iff.mpr ⟨_,mapM_some.mpr ⟨?_,List.map_congr_left ?_⟩,rfl⟩
    · intro info member
      exact Option.isSome_iff_exists.mpr ⟨_,longer _ _ info _ (all info member) forEach⟩
    · intro info member
      rw [Function.comp_apply,Function.comp_apply,longer _ _ info _ (all info member) forEach]
      rfl

end Walking

-- The walk ends with every regular file below the folder, under the path of its
-- real directory, and with no path twice.
def Walked (volume : Volume) (host : Host) (caller : Caller) (root : Bytes) : Prop :=
  ∃ fuel files, collectFiles volume.disk host caller fuel root = some files ∧
    (∀ top names data, located volume.disk host caller root = some top → nodeAt volume.disk.root (top ++ names) = some (.file data) →
      text (top ++ names) ∈ files.map Entry.path) ∧
    (files.map Entry.path).Nodup

section Exactness
variable {volume : Volume} {host : Host} {caller : Caller}

theorem holds_parts (holds : Holds (listings volume host caller) place name file) : ∃ dir infos node, place = some dir ∧
    nodeAt volume.disk.root dir = some (.dir infos) ∧ (name,node) ∈ infos ∧ file.path = text (dir ++ [name]) := by
  obtain ⟨list,listed,member⟩ := holds
  obtain ⟨dir,infos,rfl,stands,rfl⟩ := rowsOf_parts.mp listed
  obtain ⟨info,known,same⟩ := List.mem_map.mp member
  unfold row at same
  obtain ⟨rfl,same⟩ := Prod.mk.inj same
  split at same
  · cases same
  · cases same
    exact ⟨dir,infos,info.2,rfl,stands,(Pages.mem_listed Prod.fst).mp known,rfl⟩

theorem text_injective (one : Ordinary path ∧ Named path) (two : Ordinary other ∧ Named other) (same : text path = text other) : path = other := by
  rw [← (request_text one.1 one.2).2,same,(request_text two.1 two.2).2]

theorem holds_own (first : Holds (listings volume host caller) one name file) (second : Holds (listings volume host caller) two other same)
    (alike : file.path = same.path) : one = two ∧ name = other := by
  obtain ⟨dir,infos,node,rfl,stands,member,path⟩ := holds_parts first
  obtain ⟨dir',infos',node',rfl,stands',member',path'⟩ := holds_parts second
  rw [path,path'] at alike
  have whole := text_injective (named_snoc (stored_named stands) (volume.named dir infos stands _ member))
    (named_snoc (stored_named stands') (volume.named dir' infos' stands' _ member')) alike
  obtain ⟨rfl,last⟩ := List.append_inj' whole rfl
  exact ⟨rfl,(List.cons.inj last).1⟩

theorem listed_row (stands : nodeAt volume.disk.root dir = some (.dir infos)) (member : info ∈ infos) :
    ∃ list, (listings volume host caller).rows (some dir) = some list ∧ row volume.disk host caller dir info ∈ list :=
  ⟨_,rowsOf_parts.mpr ⟨dir,infos,rfl,stands,rfl⟩,List.mem_map_of_mem ((Pages.mem_listed Prod.fst).mpr member)⟩

theorem opened_dir (opened : Open (listings volume host caller) place) (route : Route (listings volume host caller) place labels last) :
    ∃ dir infos, last = some dir ∧ nodeAt volume.disk.root dir = some (.dir infos) := by
  obtain ⟨list,listed⟩ := opened labels last route
  obtain ⟨dir,infos,rfl,stands,_⟩ := rowsOf_parts.mp listed
  exact ⟨dir,infos,rfl,stands⟩

theorem located_dir {inner : List (Name × Node Bytes)} (stands : nodeAt volume.disk.root dir = some (.dir infos)) (member : (name,.dir inner) ∈ infos)
    (below : nodeAt volume.disk.root (dir ++ [name]) = some (.dir inner)) (where_ : located volume.disk host caller (text (dir ++ [name])) = some place) :
    place = dir ++ [name] := by
  obtain ⟨ordinary,named⟩ := named_snoc (stored_named stands) (volume.named dir infos stands _ member)
  rcases access_found stands ordinary named (access_located where_) with found | ⟨same,link⟩
  · rw [evalSymlinks_stored ordinary below rfl] at found
    exact (Except.ok.inj found).symm
  · exact same

theorem stored_route (opened : Open (listings volume host caller) (some top)) (stands : nodeAt volume.disk.root (top ++ names) = some (.dir infos)) :
    Route (listings volume host caller) (some top) names (some (top ++ names)) := by
  induction names using List.reverseRecOn generalizing infos with
  | nil =>
    rw [List.append_nil]
    exact .here _
  | append_singleton front name ih =>
    rw [← List.append_assoc] at stands ⊢
    have split := stands
    rw [nodeAt_snoc] at split
    obtain ⟨above,standing,child⟩ := Option.bind_eq_some_iff.mp split
    cases above with
    | file data | link target => cases child
    | dir outer =>
      have route := ih standing
      have member := child_mem child
      obtain ⟨list,listed,entry⟩ : ∃ list, (listings volume host caller).rows (some (top ++ front)) = some list ∧
          row volume.disk host caller (top ++ front) (name,.dir infos) ∈ list := listed_row standing member
      have descends : row volume.disk host caller (top ++ front) (name,.dir infos) = (name,.inr (located volume.disk host caller (text (top ++ front ++ [name])))) := rfl
      have further := route_append route (.down listed entry (.here _))
      obtain ⟨place,inner,found,_⟩ := opened_dir opened further
      rw [found] at further
      rw [located_dir standing member stands found] at further
      exact further

theorem walked_complete (opened : Open (listings volume host caller) (some top)) (walked : walk (listings volume host caller) fuel (some top) = some files)
    (stored : nodeAt volume.disk.root (top ++ names) = some (.file data)) : text (top ++ names) ∈ files.map Entry.path := by
  rcases List.eq_nil_or_concat' names with rfl | ⟨front,name,rfl⟩
  · rw [List.append_nil] at stored
    obtain ⟨dir,infos,same,stands⟩ := opened_dir opened (.here _)
    cases same
    rw [stored] at stands
    cases stands
  · rw [← List.append_assoc] at stored ⊢
    have split := stored
    rw [nodeAt_snoc] at split
    obtain ⟨above,standing,child⟩ := Option.bind_eq_some_iff.mp split
    cases above with
    | file data | link target => cases child
    | dir infos =>
      obtain ⟨list,listed,entry⟩ : ∃ list, (listings volume host caller).rows (some (top ++ front)) = some list ∧
          row volume.disk host caller (top ++ front) (name,.file data) ∈ list := listed_row standing (child_mem child)
      have own : row volume.disk host caller (top ++ front) (name,.file data) = (name,.inl (shown volume.disk host caller (top ++ front) (name,.file data))) := rfl
      exact List.mem_map.mpr ⟨_,(walk_member walked).mpr ⟨front,_,name,stored_route opened standing,list,listed,entry⟩,rfl⟩

theorem walk_exact (volume : Volume) (host : Host) (caller : Caller) (root : Bytes) : Walked volume host caller root ↔
    Open (listings volume host caller) (located volume.disk host caller root) ∧ Acyclic (listings volume host caller) (located volume.disk host caller root) ∧
      Single (listings volume host caller) (located volume.disk host caller root) := by
  constructor
  · rintro ⟨fuel,files,collected,_,once⟩
    have walked := collect_walk collected
    exact ⟨walked_open walked,walked_acyclic walked,nodup_single walked once⟩
  · rintro ⟨opened,acyclic,single⟩
    have finite := (dirs_finite volume.disk).image some
    have inside : ∀ last list, (listings volume host caller).rows last = some list → last ∈ finite.toFinset := by
      intro last list listed
      obtain ⟨dir,infos,rfl,stands,_⟩ := rowsOf_parts.mp listed
      exact finite.mem_toFinset.mpr ⟨dir,⟨infos,stands⟩,rfl⟩
    obtain ⟨fuel,files,walked⟩ := (ends_iff finite.toFinset inside).mpr ⟨opened,acyclic⟩
    obtain ⟨more,collected⟩ := walk_collect walked
    refine ⟨more,files,collected,?_,single_nodup (fun _ _ _ _ _ _ => holds_own) single walked⟩
    intro top names data where_ stored
    rw [where_] at opened walked
    exact walked_complete opened walked stored

end Exactness

section Shallow
variable {leaves links : List (Name × Node Bytes)}

theorem leaf_dir (plain : leaf.isDir = false) (path : Path) (infos : List (Name × Node Bytes)) : nodeAt leaf path ≠ some (.dir infos) := by
  cases path with
  | nil =>
    intro same
    cases same
    cases plain
  | cons step rest =>
    rw [nodeAt_leaf plain]
    exact nofun

theorem shallow_dirs (leavesPlain : ∀ info ∈ leaves, info.2.isDir = false) (linksPlain : ∀ info ∈ links, info.2.isDir = false)
    (stands : nodeAt (.dir (("b",.dir leaves)::links)) path = some (.dir infos)) : infos = ("b",.dir leaves)::links ∨ infos = leaves := by
  cases path with
  | nil =>
    cases stands
    exact .inl rfl
  | cons first rest =>
    obtain ⟨node,found,inside⟩ := Option.bind_eq_some_iff.mp stands
    rcases List.mem_cons.mp (child_mem found) with same | beside
    · cases same
      cases rest with
      | nil =>
        cases inside
        exact .inr rfl
      | cons name rest =>
        obtain ⟨leaf,known,deeper⟩ := Option.bind_eq_some_iff.mp inside
        exact absurd deeper (leaf_dir (leavesPlain _ (child_mem known)) rest infos)
    · exact absurd inside (leaf_dir (linksPlain _ beside) rest infos)

def shallow (leaves links : List (Name × Node Bytes)) (leavesPlain : ∀ info ∈ leaves, info.2.isDir = false) (linksPlain : ∀ info ∈ links, info.2.isDir = false)
    (names : ∀ name ∈ "b"::(leaves ++ links).map Prod.fst, Proper name ∧ ByteName name) (inner : (leaves.map Prod.fst).Nodup)
    (outer : ("b"::links.map Prod.fst).Nodup) : Volume where
  disk := ("b",.dir leaves)::links
  named := by
    intro path infos stands entry member
    apply names
    rw [List.map_append]
    rcases shallow_dirs leavesPlain linksPlain stands with rfl | rfl
    · rcases List.mem_cons.mp member with rfl | beside
      · exact List.mem_cons_self ..
      · exact List.mem_cons_of_mem _ (List.mem_append_right _ (List.mem_map_of_mem beside))
    · exact List.mem_cons_of_mem _ (List.mem_append_left _ (List.mem_map_of_mem member))
  distinct := by
    intro path infos stands
    rcases shallow_dirs leavesPlain linksPlain stands with rfl | rfl
    · exact outer
    · exact inner

end Shallow

def plainHost : Host := ⟨[],40,⟨["t"],t_ordinary⟩⟩

def everyone : Caller := ⟨[],false,false⟩

def looped : Volume := shallow [("f",.file [1]),("up",.link ⟨false,["."]⟩)] [] (by decide) (by decide) (by simp [Proper,ByteName]) (by decide) (by decide)

def doubled : Volume := shallow [("f",.file [1])] [("c",.link ⟨false,["b"]⟩)] (by decide) (by decide) (by simp [Proper,ByteName]) (by decide) (by decide)

theorem links_walked_again : ¬ Walked looped plainHost everyone (text ["b"]) ∧ ¬ Walked doubled plainHost everyone (text []) := by
  constructor
  · rintro ⟨fuel,files,collected,_⟩
    have walked := collect_walk collected
    have where_ : located looped.disk plainHost everyone (text ["b"]) = some ["b"] := by decide +kernel
    rw [where_] at walked
    have entry : row looped.disk plainHost everyone ["b"] ("up",.link ⟨false,["."]⟩) = ("up",.inr (some ["b"])) := by decide +kernel
    obtain ⟨list,listed,member⟩ : ∃ list, (listings looped plainHost everyone).rows (some ["b"]) = some list ∧
        row looped.disk plainHost everyone ["b"] ("up",.link ⟨false,["."]⟩) ∈ list :=
      listed_row rfl (List.mem_cons_of_mem _ (List.mem_cons_self ..))
    rw [entry] at member
    cases walked_acyclic walked [] _ _ (.here _) (.down listed member (.here _))
  · rintro ⟨fuel,files,collected,_,once⟩
    have walked := collect_walk collected
    have where_ : located doubled.disk plainHost everyone (text []) = some [] := by decide +kernel
    rw [where_] at walked
    have folder : row doubled.disk plainHost everyone [] ("b",.dir [("f",.file [1])]) = ("b",.inr (some ["b"])) := by decide +kernel
    have link : row doubled.disk plainHost everyone [] ("c",.link ⟨false,["b"]⟩) = ("c",.inr (some ["b"])) := by decide +kernel
    obtain ⟨list,listed,first⟩ : ∃ list, (listings doubled plainHost everyone).rows (some []) = some list ∧
        row doubled.disk plainHost everyone [] ("b",.dir [("f",.file [1])]) ∈ list :=
      listed_row rfl (List.mem_cons_self ..)
    obtain ⟨again,same,second⟩ : ∃ list, (listings doubled plainHost everyone).rows (some []) = some list ∧
        row doubled.disk plainHost everyone [] ("c",.link ⟨false,["b"]⟩) ∈ list :=
      listed_row rfl (List.mem_cons_of_mem _ (List.mem_cons_self ..))
    rw [folder] at first
    rw [link] at second
    obtain ⟨inside,listing,file⟩ : ∃ list, (listings doubled plainHost everyone).rows (some ["b"]) = some list ∧
        row doubled.disk plainHost everyone ["b"] ("f",.file [1]) ∈ list :=
      listed_row rfl (List.mem_cons_self ..)
    have alike := nodup_single walked once _ _ _ "f" _ (.down listed first (.here _)) (.down same second (.here _)) ⟨inside,listing,file⟩
    revert alike
    decide

end RemoteFileExplorer.FolderWalks
