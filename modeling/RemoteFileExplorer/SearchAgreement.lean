import Mathlib.Data.List.Pairwise
import RemoteFileExplorer.SearchWalk

namespace RemoteFileExplorer.SearchAgreement
open FileTree DirectoryIndex IndexMirror IndexListing SearchFilters SearchWalk

def place (found : Path × Found) : Path × Name := (found.1,found.2.name)

def itemOf (found : Path × Found) : Item := ⟨found.1,found.2.name,found.2.row.attrs⟩

section Visits
variable {world : World}

def visitRow (world : World) (depth : Nat) (path : Path) (f : Found) : List (Path × Found) :=
  if f.kind = .dir && shouldSkipVirtualDir (path ++ [f.name]) then []
  else (path,f)::if f.kind = .dir then visit world depth (path ++ [f.name]) else []

theorem visit_step (depth : Nat) (path : Path) : visit world (depth + 1) path =
    (world.listing path).elim [] fun rows => (rows.insertionSort fun a b => a.name ≤ b.name).flatMap (visitRow world depth path) := rfl

theorem visit_rows (listed : world.listing path = some rows) (depth : Nat) :
    visit world (depth + 1) path = (rows.insertionSort fun a b => a.name ≤ b.name).flatMap (visitRow world depth path) := by
  rw [visit_step,listed]
  rfl

theorem visit_unlisted (gone : world.listing path = none) (depth : Nat) : visit world depth path = [] := by
  cases depth with
  | zero => rfl
  | succ depth =>
    rw [visit_step,gone]
    rfl

theorem mem_visitRow : found ∈ visitRow world depth path f ↔ (f.kind = .dir && shouldSkipVirtualDir (path ++ [f.name])) = false ∧
    (found = (path,f) ∨ (f.kind = .dir ∧ found ∈ visit world depth (path ++ [f.name]))) := by
  unfold visitRow
  split
  · rename_i skipped
    rw [skipped]
    simp
  · rename_i kept
    rw [eq_false_of_ne_true kept,List.mem_cons]
    split
    · rename_i dir
      simp [dir]
    · rename_i other
      simp [other]

theorem mem_visit : found ∈ visit world (depth + 1) path ↔ ∃ rows f, world.listing path = some rows ∧ f ∈ rows ∧
    found ∈ visitRow world depth path f := by
  cases listed : world.listing path with
  | none => simp [visit_unlisted listed]
  | some rows =>
    rw [visit_rows listed,List.mem_flatMap]
    constructor
    · rintro ⟨f,member,inside⟩
      exact ⟨rows,f,rfl,(List.perm_insertionSort _ _).mem_iff.mp member,inside⟩
    · rintro ⟨_,f,same,member,inside⟩
      cases same
      exact ⟨f,(List.perm_insertionSort _ _).mem_iff.mpr member,inside⟩

theorem visit_below (member : found ∈ visit world depth path) : path <+: found.1 := by
  induction depth generalizing path with
  | zero => cases member
  | succ depth ih =>
    obtain ⟨rows,f,_,_,inside⟩ := mem_visit.mp member
    rcases (mem_visitRow.mp inside).2 with rfl | ⟨_,deeper⟩
    · exact List.prefix_refl _
    · exact (List.prefix_append _ _).trans (ih deeper)

theorem visit_listed (member : found ∈ visit world depth path) : ∃ rows, world.listing found.1 = some rows ∧ found.2 ∈ rows := by
  induction depth generalizing path with
  | zero => cases member
  | succ depth ih =>
    obtain ⟨rows,f,listed,row,inside⟩ := mem_visit.mp member
    rcases (mem_visitRow.mp inside).2 with rfl | ⟨_,deeper⟩
    · exact ⟨rows,listed,row⟩
    · exact ih deeper

theorem visit_same (one : found ∈ visit world depth path) (two : other ∈ visit world more root) (same : place found = place other) :
    found = other := by
  obtain ⟨rows,listed,member⟩ := visit_listed one
  obtain ⟨others,listed',member'⟩ := visit_listed two
  obtain ⟨dir,f⟩ := found
  obtain ⟨here,name⟩ := Prod.mk.inj same
  dsimp only at here name listed listed' member member'
  subst here
  rw [listed] at listed'
  cases listed'
  rw [List.inj_on_of_nodup_map (world.distinct _ _ listed) member member' name]

theorem visit_more (member : found ∈ visit world depth path) (more : Nat) : found ∈ visit world (depth + more) path := by
  induction depth generalizing path with
  | zero => cases member
  | succ depth ih =>
    obtain ⟨rows,f,listed,row,inside⟩ := mem_visit.mp member
    rw [Nat.succ_add]
    obtain ⟨kept,here⟩ := mem_visitRow.mp inside
    refine mem_visit.mpr ⟨rows,f,listed,row,mem_visitRow.mpr ⟨kept,?_⟩⟩
    exact here.imp (fun same => same) fun ⟨dir,deeper⟩ => ⟨dir,ih deeper⟩

theorem visit_between (member : found ∈ visit world depth path) (inside : path ++ names <+: found.1) :
    found ∈ visit world depth (path ++ names) := by
  induction names generalizing path depth with
  | nil =>
    rw [List.append_nil]
    exact member
  | cons name rest ih =>
    cases depth with
    | zero => cases member
    | succ depth =>
      obtain ⟨rows,f,listed,row,found'⟩ := mem_visit.mp member
      have step : path ++ name::rest = path ++ [name] ++ rest := by simp
      rcases (mem_visitRow.mp found').2 with rfl | ⟨_,deeper⟩
      · have longer := inside.length_le
        simp only [List.length_append,List.length_cons] at longer
        omega
      · have same : f.name = name := by
          by_contra different
          refine branches_apart different (visit_below deeper) (List.IsPrefix.trans ?_ inside)
          rw [step]
          exact List.prefix_append _ _
        rw [same] at deeper
        rw [step] at inside ⊢
        exact visit_more (ih deeper inside) 1

theorem visitRow_origin (member : found ∈ visitRow world depth path f) : place found = (path,f.name) ∨ path ++ [f.name] <+: found.1 := by
  rcases (mem_visitRow.mp member).2 with rfl | ⟨_,deeper⟩
  · exact .inl rfl
  · exact .inr (visit_below deeper)

theorem visitRow_distinct (lower : ((visit world depth (path ++ [f.name])).map place).Nodup) : ((visitRow world depth path f).map place).Nodup := by
  unfold visitRow
  split
  · exact List.nodup_nil
  · rw [List.map_cons,List.nodup_cons]
    split
    · refine ⟨?_,lower⟩
      intro same
      obtain ⟨found,inside,key⟩ := List.mem_map.mp same
      have dir : found.1 = path := congrArg Prod.fst key
      exact not_below_self (dir ▸ visit_below inside)
    · exact ⟨by simp,List.nodup_nil⟩

theorem visit_distinct (world : World) (depth : Nat) (path : Path) : ((visit world depth path).map place).Nodup := by
  induction depth generalizing path with
  | zero => exact List.nodup_nil
  | succ depth ih =>
    cases listed : world.listing path with
    | none =>
      rw [visit_unlisted listed]
      exact List.nodup_nil
    | some rows =>
      rw [visit_rows listed,List.map_flatMap,List.nodup_flatMap]
      have names : ((rows.insertionSort fun a b => a.name ≤ b.name).map Found.name).Nodup := by
        rw [((List.perm_insertionSort _ _).map Found.name).nodup_iff]
        exact world.distinct path rows listed
      refine ⟨fun f _ => visitRow_distinct (ih _),(List.pairwise_map.mp names).imp fun {left right} different => ?_⟩
      intro key one two
      obtain ⟨found,inside,rfl⟩ := List.mem_map.mp one
      obtain ⟨other,inside',same⟩ := List.mem_map.mp two
      have dir : other.1 = found.1 := (Prod.mk.inj same).1
      rcases visitRow_origin inside with here | below <;> rcases visitRow_origin inside' with here' | below'
      · rw [← same,here'] at here
        exact different (congrArg Prod.snd here).symm
      · have place' : found.1 = path := congrArg Prod.fst here
        rw [dir,place'] at below'
        exact not_below_self below'
      · have place' : other.1 = path := congrArg Prod.fst here'
        rw [← dir,place'] at below
        exact not_below_self below
      · rw [dir] at below'
        exact branches_apart different below below'

theorem skip_same (path : Path) (name : Name) : shouldSkipVirtualDir (path ++ [name]) = shouldSkipDir name (path ++ [name]) := by
  unfold shouldSkipVirtualDir shouldSkipDir
  simp [Bool.or_assoc,beq_eq_decide]

theorem kept_rows (listed : world.listing path = some rows) : (shownRows path (rows.map Found.row)).Perm
    ((rows.filter fun f => !(f.kind = .dir && shouldSkipVirtualDir (path ++ [f.name]))).map Found.row) := by
  refine (List.perm_insertionSort _ _).trans (List.Perm.of_eq ?_)
  rw [List.filter_map]
  refine congrArg (List.map Found.row) (List.filter_congr fun f member => ?_)
  have short := world.short path rows listed f member
  have fits : f.name.utf8ByteSize ≤ maxNameBytes := Nat.le_trans short (by decide)
  simp [Found.row,fits,skip_same]

theorem flatMap_skip (skip : α → Bool) (g : α → List β) (l : List α) :
    l.flatMap (fun a => if skip a then [] else g a) = (l.filter fun a => !skip a).flatMap g := by
  induction l with
  | nil => rfl
  | cons a rest ih =>
    rw [List.flatMap_cons,ih,List.filter_cons]
    cases skip a with
    | true => simp
    | false => simp

theorem walkItems_visit (world : World) (depth : Nat) (path : Path) :
    (walkItems world.disk depth path).Perm ((visit world depth path).map itemOf) := by
  induction depth generalizing path with
  | zero => exact List.Perm.refl _
  | succ depth ih =>
    cases listed : world.listing path with
    | none =>
      rw [visit_unlisted listed]
      unfold walkItems
      have gone : world.disk.entries path = none := by simp [World.disk,listed]
      rw [gone]
      exact List.Perm.refl _
    | some rows =>
      have entries : world.disk.entries path = some (rows.map Found.row) := by simp [World.disk,listed]
      have row : ∀ f : Found, (visitRow world depth path f).map itemOf = if f.kind = .dir && shouldSkipVirtualDir (path ++ [f.name]) then []
          else itemOf (path,f)::if f.kind = .dir then (visit world depth (path ++ [f.name])).map itemOf else [] := by
        intro f
        unfold visitRow
        split
        · rfl
        · split <;> rfl
      unfold walkItems
      rw [entries,Option.elim_some,visit_rows listed,List.map_flatMap]
      refine ((kept_rows listed).flatMap_right _).trans (List.Perm.trans ?_ ((List.perm_insertionSort _ rows).flatMap_right _).symm)
      rw [List.flatMap_map]
      simp only [row]
      rw [flatMap_skip]
      refine List.Perm.flatMap_left _ fun f _ => List.Perm.cons _ ?_
      have walks : (Found.row f).walkInto = decide (f.kind = .dir) := rfl
      have name : (Found.row f).name = f.name := rfl
      rw [walks,name]
      by_cases dir : f.kind = .dir
      · rw [if_pos dir]
        by_cases opens : world.disk.opensDir (path ++ [f.name])
        · rw [if_pos (by simp [dir,opens])]
          exact ih _
        · have gone : world.listing (path ++ [f.name]) = none := by simpa [World.disk] using opens
          rw [if_neg (by simp [opens]),visit_unlisted gone]
          exact List.Perm.refl _
      · rw [if_neg dir,if_neg (by simp [dir])]

end Visits

def below (world : World) (roots : List Path) : List (Path × Found) := roots.flatMap (visit world world.depth)

def pathOf (found : Path × Found) : Path := found.1 ++ [found.2.name]

section Roots
variable {world : World} {indexed roots : List Path}

theorem below_root (member : found ∈ below world roots) : ∃ root ∈ roots, found ∈ visit world world.depth root ∧ root <+: found.1 := by
  obtain ⟨root,listed,inside⟩ := List.mem_flatMap.mp member
  exact ⟨root,listed,inside,visit_below inside⟩

theorem below_same (one : found ∈ below world indexed) (two : other ∈ below world roots) (same : pathOf found = pathOf other) : found = other := by
  obtain ⟨_,_,inside,_⟩ := below_root one
  obtain ⟨_,_,inside',_⟩ := below_root two
  obtain ⟨dir,name⟩ := List.append_inj' same rfl
  refine visit_same inside inside' ?_
  unfold place
  rw [dir,(List.cons.inj name).1]

theorem apart_unique (apart : Apart roots) (one : a ∈ roots) (two : b ∈ roots) (before : a <+: b) : a = b := by
  by_contra different
  have mirrored : Std.Symm fun a b : Path => ¬ a <+: b ∧ ¬ b <+: a := ⟨fun _ _ both => ⟨both.2,both.1⟩⟩
  exact (apart.forall one two different).1 before

theorem below_distinct (world : World) (apart : Apart roots) : ((below world roots).map pathOf).Nodup := by
  have places : ((below world roots).map place).Nodup := by
    unfold below
    rw [List.map_flatMap,List.nodup_flatMap]
    refine ⟨fun root _ => visit_distinct world _ root,apart.imp fun {one two} different => ?_⟩
    intro key left right
    obtain ⟨found,inside,rfl⟩ := List.mem_map.mp left
    obtain ⟨other,inside',same⟩ := List.mem_map.mp right
    have dir : other.1 = found.1 := (Prod.mk.inj same).1
    rcases List.prefix_or_prefix_of_prefix (visit_below inside) (dir ▸ visit_below inside') with first | first
    · exact different.1 first
    · exact different.2 first
  have joined : (below world roots).map pathOf = ((below world roots).map place).map fun key => key.1 ++ [key.2] := by
    rw [List.map_map]
    rfl
  rw [joined]
  refine places.map fun left right same => ?_
  obtain ⟨dir,name⟩ := List.append_inj' same rfl
  exact Prod.ext dir (List.cons.inj name).1

theorem below_covered (apart : Apart indexed) (covered : indexCovers indexed root = true) (member : found ∈ below world indexed)
    (inside : root <+: found.1) : found ∈ visit world world.depth root := by
  obtain ⟨base,listed,visited,above⟩ := below_root member
  unfold indexCovers at covered
  rw [List.any_eq_true] at covered
  obtain ⟨cover,listed',covers⟩ := covered
  rw [Bool.and_eq_true] at covers
  have under : cover <+: root := List.isPrefixOf_iff_prefix.mp covers.1
  have same : base = cover := by
    rcases List.prefix_or_prefix_of_prefix above (under.trans inside) with first | first
    · exact apart_unique apart listed listed' first
    · exact (apart_unique apart listed' listed first).symm
  subst same
  obtain ⟨names,rfl⟩ := under
  exact visit_between visited inside

end Roots

theorem gather_whole (fits : matches_ = [] ∨ results.length + matches_.length < limit) :
    gather limit matches_ results = (results ++ matches_,false) := by
  induction matches_ generalizing results with
  | nil => simp [gather]
  | cons e rest ih =>
    have room : results.length + (e::rest).length < limit := by
      rcases fits with empty | room
      · cases empty
      · exact room
    rw [List.length_cons] at room
    unfold gather
    rw [if_neg (by simp only [List.length_append,List.length_singleton]; omega)]
    rw [ih (.inr (by simp only [List.length_append,List.length_singleton]; omega)),List.append_assoc]
    rfl

theorem gather_fits (unstopped : (gather limit matches_ results).2 = false) :
    matches_ = [] ∨ results.length + matches_.length < limit := by
  induction matches_ generalizing results with
  | nil => exact .inl rfl
  | cons e rest ih =>
    unfold gather at unstopped
    split at unstopped
    · cases unstopped
    · rename_i room
      have later := ih unstopped
      simp only [List.length_append,List.length_cons] at room later ⊢
      rcases later with rfl | fits
      · exact .inr (by omega)
      · exact .inr (by omega)

theorem gather_all (fits : matches_ = [] ∨ matches_.length < limit) : gather limit matches_ [] = (matches_,false) := by
  have whole := gather_whole (by rwa [List.length_nil,Nat.zero_add] : matches_ = [] ∨ ([] : List Entry).length + matches_.length < limit)
  rwa [List.nil_append] at whole

section Answers
variable {world : World} {casing : Casing} {filters : Filters} {indexed roots : List Path} {index : Index}

def walkMatches (world : World) (casing : Casing) (filters : Filters) (roots : List Path) : List Entry :=
  ((below world roots).filter (walkAccepts casing filters)).map walkEntry

theorem walkMatches_cons : walkMatches world casing filters (root::roots) =
    ((visit world world.depth root).filter (walkAccepts casing filters)).map walkEntry ++ walkMatches world casing filters roots := by
  unfold walkMatches below
  rw [List.flatMap_cons,List.filter_append,List.map_append]

theorem searchLive_whole (fits : walkMatches world casing filters roots = [] ∨ results.length + (walkMatches world casing filters roots).length < limit) :
    searchLive world casing filters limit roots results = (results ++ walkMatches world casing filters roots,false) := by
  induction roots generalizing results with
  | nil => simp [searchLive,walkMatches,below]
  | cons root rest ih =>
    rw [walkMatches_cons] at fits ⊢
    have first : walkForMatches world casing filters limit root results =
        (results ++ ((visit world world.depth root).filter (walkAccepts casing filters)).map walkEntry,false) := by
      refine gather_whole ?_
      rcases fits with empty | room
      · exact .inl (List.append_eq_nil_iff.mp empty).1
      · rw [List.length_append] at room
        exact .inr (by omega)
    unfold searchLive
    rw [first]
    rw [if_neg (by simp),ih ?_,List.append_assoc]
    rcases fits with empty | room
    · exact .inl (List.append_eq_nil_iff.mp empty).2
    · rw [List.length_append] at room
      rw [List.length_append]
      exact .inr (by omega)

def queryMatches (casing : Casing) (filters : Filters) (roots : List Path) (items : List Item) : List Entry :=
  (items.filter fun item => sidecarAccepts casing filters item && underAnyRootScopes roots (item.dir ++ [item.name])).map toEntry

theorem queryMatches_scope (items : List Item) : (queryMatches casing filters roots items).filter (fun e => underAnyRootScopes roots e.path) =
    queryMatches casing filters roots items := by
  rw [List.filter_eq_self]
  intro e member
  obtain ⟨item,inside,rfl⟩ := List.mem_map.mp member
  have kept := (List.mem_filter.mp inside).2
  rw [Bool.and_eq_true] at kept
  exact kept.2

section
variable (sequenced : sequence index = some items)
include sequenced

theorem query_eq (limit : Nat) : query casing filters index roots limit =
    some ((gather limit ((gather limit (queryMatches casing filters roots items) []).1.filter fun e => underAnyRootScopes roots e.path) []).1,
      index.truncated || (gather limit (queryMatches casing filters roots items) []).2) := by
  unfold query
  rw [sequenced]
  rfl

theorem query_whole (answered : query casing filters index roots limit = some (out,false)) :
    out = queryMatches casing filters roots items ∧
      (queryMatches casing filters roots items = [] ∨ (queryMatches casing filters roots items).length < limit) := by
  rw [query_eq sequenced] at answered
  obtain ⟨same,flags⟩ := Prod.mk.inj (Option.some.inj answered)
  rw [Bool.or_eq_false_iff] at flags
  have fits := gather_fits flags.2
  rw [List.length_nil,Nat.zero_add] at fits
  rw [gather_all fits,queryMatches_scope,gather_all fits] at same
  exact ⟨same.symm,fits⟩

theorem query_all (whole : index.truncated = false)
    (fits : (queryMatches casing filters roots items).length < limit) :
    query casing filters index roots limit = some (queryMatches casing filters roots items,false) := by
  rw [query_eq sequenced,gather_all (.inr fits),queryMatches_scope,gather_all (.inr fits),whole]
  rfl

end

theorem sequence_below (built : build world.disk schedule indexed limits = some index) (whole : index.truncated = false) :
    ∃ items, sequence index = some items ∧ items.Perm ((below world indexed).map itemOf) := by
  refine ⟨_,build_sequence built whole,?_⟩
  unfold below
  rw [List.map_flatMap]
  refine List.Perm.flatMap_left _ fun root _ => ?_
  by_cases opens : world.disk.opensRoot root
  · rw [if_pos opens]
    exact walkItems_visit world world.depth root
  · have gone : world.listing root = none := by simpa [World.disk] using opens
    rw [if_neg opens,visit_unlisted gone]
    exact List.Perm.refl _

theorem mem_queryMatches (listed : items.Perm ((below world indexed).map itemOf)) : e ∈ queryMatches casing filters roots items ↔
    ∃ found ∈ below world indexed, sidecarAccepts casing filters (itemOf found) = true ∧ (∃ root ∈ roots, root <+: pathOf found) ∧
      e = toEntry (itemOf found) := by
  unfold queryMatches
  rw [List.mem_map]
  constructor
  · rintro ⟨item,inside,rfl⟩
    obtain ⟨member,kept⟩ := List.mem_filter.mp inside
    obtain ⟨found,origin,rfl⟩ := List.mem_map.mp (listed.mem_iff.mp member)
    rw [Bool.and_eq_true] at kept
    obtain ⟨root,asked,above⟩ := List.any_eq_true.mp kept.2
    exact ⟨found,origin,kept.1,⟨root,asked,List.isPrefixOf_iff_prefix.mp above⟩,rfl⟩
  · rintro ⟨found,origin,accepted,⟨root,asked,above⟩,rfl⟩
    refine ⟨itemOf found,List.mem_filter.mpr ⟨listed.mem_iff.mpr (List.mem_map_of_mem origin),?_⟩,rfl⟩
    rw [Bool.and_eq_true]
    exact ⟨accepted,List.any_eq_true.mpr ⟨root,asked,List.isPrefixOf_iff_prefix.mpr above⟩⟩

theorem mem_walkMatches : e ∈ walkMatches world casing filters roots ↔
    ∃ found ∈ below world roots, walkAccepts casing filters found = true ∧ e = walkEntry found := by
  unfold walkMatches
  rw [List.mem_map]
  constructor
  · rintro ⟨found,inside,rfl⟩
    obtain ⟨member,accepted⟩ := List.mem_filter.mp inside
    exact ⟨found,member,accepted,rfl⟩
  · rintro ⟨found,member,accepted,rfl⟩
    exact ⟨found,List.mem_filter.mpr ⟨member,accepted⟩,rfl⟩

theorem queryMatches_distinct (apart : Apart indexed) (listed : items.Perm ((below world indexed).map itemOf)) :
    (queryMatches casing filters roots items).Nodup := by
  refine List.Nodup.of_map Entry.path ?_
  have paths : (items.map fun item => item.dir ++ [item.name]).Nodup := by
    rw [(listed.map _).nodup_iff,List.map_map]
    exact below_distinct world apart
  unfold queryMatches
  rw [List.map_map]
  exact paths.sublist (List.filter_sublist.map _)

theorem walkMatches_distinct (apart : Apart roots) : (walkMatches world casing filters roots).Nodup := by
  refine List.Nodup.of_map Entry.path ?_
  unfold walkMatches
  rw [List.map_map]
  exact (below_distinct world apart).sublist (List.filter_sublist.map _)

end Answers

-- The walk never hands out a root of its own; the index must not either.
def RootsStayOut (world : World) (casing : Casing) (filters : Filters) (indexed roots : List Path) : Prop :=
  ∀ found ∈ below world indexed, pathOf found ∈ roots → sidecarAccepts casing filters (itemOf found) = false

-- Both sides judge an entry below a search root alike, and describe it alike.
def Alike (world : World) (casing : Casing) (filters : Filters) (indexed roots : List Path) : Prop :=
  ∀ found ∈ below world roots,
    (walkAccepts casing filters found = true ↔ found ∈ below world indexed ∧ sidecarAccepts casing filters (itemOf found) = true) ∧
    (walkAccepts casing filters found = true → walkEntry found = toEntry (itemOf found))

def SameAnswers (world : World) (casing : Casing) (filters : Filters) (index : Index) (roots : List Path) : Prop :=
  ∀ limit out, query casing filters index roots limit = some (out,false) →
    (∀ e, e ∈ out ↔ e ∈ (searchLive world casing filters limit roots []).1) ∧ out.Nodup

section Agreement
variable {world : World} {casing : Casing} {filters : Filters} {indexed roots : List Path} {index : Index}

theorem strictly_below (apart : Apart roots) (one : root ∈ roots) (member : found ∈ below world roots) : pathOf found ≠ root := by
  intro same
  obtain ⟨other,listed,_,above⟩ := below_root member
  have longer : other <+: root := by
    rw [← same]
    exact above.trans (List.prefix_append _ _)
  rw [← apart_unique apart listed one longer] at same
  rw [← same] at above
  exact not_below_self above

theorem alike_entries (apart : Apart indexed) (covered : ∀ root ∈ roots, indexCovers indexed root = true)
    (stay : RootsStayOut world casing filters indexed roots) (alike : Alike world casing filters indexed roots)
    (listed : items.Perm ((below world indexed).map itemOf)) :
    ∀ e, e ∈ queryMatches casing filters roots items ↔ e ∈ walkMatches world casing filters roots := by
  intro e
  rw [mem_queryMatches listed,mem_walkMatches]
  constructor
  · rintro ⟨found,member,accepted,⟨root,asked,above⟩,rfl⟩
    rcases List.prefix_concat_iff.mp above with own | inside
    · have refused := stay found member (by rw [show pathOf found = root from own.symm]; exact asked)
      rw [accepted] at refused
      cases refused
    · have visited : found ∈ below world roots := List.mem_flatMap.mpr ⟨root,asked,below_covered apart (covered root asked) member inside⟩
      have walks := (alike found visited).1.mpr ⟨member,accepted⟩
      exact ⟨found,visited,walks,((alike found visited).2 walks).symm⟩
  · rintro ⟨found,visited,walks,rfl⟩
    obtain ⟨root,asked,_,above⟩ := below_root visited
    obtain ⟨member,accepted⟩ := (alike found visited).1.mp walks
    exact ⟨found,member,accepted,⟨root,asked,above.trans (List.prefix_append _ _)⟩,(alike found visited).2 walks⟩

theorem alike_of_same (separate : Apart roots) (listed : items.Perm ((below world indexed).map itemOf))
    (same : ∀ e, e ∈ queryMatches casing filters roots items ↔ e ∈ walkMatches world casing filters roots) :
    RootsStayOut world casing filters indexed roots ∧ Alike world casing filters indexed roots := by
  constructor
  · intro found member own
    by_contra accepted
    have answered := (same (toEntry (itemOf found))).mp ((mem_queryMatches listed).mpr
      ⟨found,member,eq_true_of_ne_false accepted,⟨_,own,List.prefix_refl _⟩,rfl⟩)
    obtain ⟨other,visited,_,equal⟩ := mem_walkMatches.mp answered
    have path : pathOf found = pathOf other := congrArg Entry.path equal
    exact strictly_below separate own visited path.symm
  · intro found visited
    obtain ⟨root,asked,_,above⟩ := below_root visited
    have described : walkAccepts casing filters found = true →
        found ∈ below world indexed ∧ sidecarAccepts casing filters (itemOf found) = true ∧ walkEntry found = toEntry (itemOf found) := by
      intro walks
      obtain ⟨other,member,accepted,_,equal⟩ := (mem_queryMatches listed).mp ((same _).mpr (mem_walkMatches.mpr ⟨found,visited,walks,rfl⟩))
      have path : pathOf found = pathOf other := congrArg Entry.path equal
      cases below_same visited member path
      exact ⟨member,accepted,equal⟩
    refine ⟨⟨fun walks => ⟨(described walks).1,(described walks).2.1⟩,?_⟩,fun walks => (described walks).2.2⟩
    rintro ⟨member,accepted⟩
    have scope : ∃ root ∈ roots, root <+: pathOf found := ⟨root,asked,above.trans (List.prefix_append _ _)⟩
    obtain ⟨other,visited',walks,equal⟩ := mem_walkMatches.mp ((same _).mp ((mem_queryMatches listed).mpr ⟨found,member,accepted,scope,rfl⟩))
    have path : pathOf found = pathOf other := congrArg Entry.path equal
    cases below_same visited visited' path
    exact walks

end Agreement

def asciiCasing : Casing := ⟨lowerAscii,lowerAscii⟩

def docsRow : Found := ⟨"docs",.dir,0,⟨1,0⟩,⟨1,0⟩,0,"",false,false⟩
def reportRow : Found := ⟨"report",.other,7,⟨2,0⟩,⟨2,0⟩,0,"",false,false⟩

def docsWorld : World where
  listing path := if path = ["home"] then some [docsRow] else if path = ["home","docs"] then some [reportRow] else none
  depth := 3
  distinct path rows listed := by
    split at listed
    · cases listed
      simp
    · split at listed
      · cases listed
        simp
      · cases listed
  bounded path rows listed := by
    split at listed
    · rename_i home
      rw [home]
      decide
    · split at listed
      · rename_i docs
        rw [docs]
        decide
      · cases listed
  short path rows listed f member := by
    split at listed
    · cases listed
      rw [List.mem_singleton.mp member]
      decide
    · split at listed
      · cases listed
        rw [List.mem_singleton.mp member]
        decide
      · cases listed

def needle (text : String) : Filters := ⟨"",text,none,none,none,none,none,none⟩

end RemoteFileExplorer.SearchAgreement
