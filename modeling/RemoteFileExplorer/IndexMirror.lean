import Mathlib.Algebra.Order.BigOperators.Group.List
import Mathlib.Algebra.Order.Group.Nat
import RemoteFileExplorer.IndexBounds

namespace RemoteFileExplorer.IndexMirror
open FileTree DirectoryIndex IndexBounds

structure Snapshot where
  listing : Path → Option (List Row)
  depth : Nat
  distinct : ∀ path rows, listing path = some rows → (rows.map Row.name).Nodup
  nested : ∀ path rows row, listing path = some rows → row ∈ rows → row.walkInto = true → (listing (path ++ [row.name])).isSome
  bounded : ∀ path rows, listing path = some rows → path.length < depth

def Snapshot.stat (tree : Snapshot) (path : Path) : Option Stat := do
  let name ← path.getLast?
  let rows ← tree.listing path.dropLast
  let row ← rows.find? fun row => row.name == name
  pure row.attrs.stat

def Snapshot.disk (tree : Snapshot) : Disk :=
  ⟨fun path => (tree.listing path).isSome,fun path => (tree.listing path).isSome,tree.listing,tree.stat,tree.depth⟩

def Rec.row (r : Rec) : Row := ⟨r.name,r.attrs,r.child.isSome⟩

-- The part of the attributes that is compared. A fresh stat written into a
-- record keeps the rest of what was seen.
structure View where
  of : Attrs → Attrs
  restat : ∀ a b, of a = of b → of {a with stat := b.stat} = of b

def View.all : View := ⟨id,fun a b same => by cases (show a = b from same); rfl⟩

def View.listed : View where
  of a := ⟨⟨a.stat.size,a.stat.mtime,0,0⟩,a.isDir,a.isSymlink,""⟩
  restat a b same := by
    simp only [Attrs.mk.injEq] at same ⊢
    exact ⟨trivial,same.2⟩

def Row.seen (view : View) (row : Row) : Row := {row with attrs := view.of row.attrs}
def Rec.seen (view : View) (r : Rec) : Rec := {r with attrs := view.of r.attrs}
def Chunk.seen (view : View) (c : Chunk) : Chunk := {c with recs := c.recs.map (Rec.seen view)}
def Item.seen (view : View) (item : Item) : Item := {item with attrs := view.of item.attrs}

def Snapshot.seen (tree : Snapshot) (view : View) : Snapshot where
  listing path := (tree.listing path).map (List.map (Row.seen view))
  depth := tree.depth
  distinct path rows listed := by
    obtain ⟨old,found,rfl⟩ := Option.map_eq_some_iff.mp listed
    rw [List.map_map]
    exact tree.distinct path old found
  nested path rows row listed member walks := by
    obtain ⟨old,found,rfl⟩ := Option.map_eq_some_iff.mp listed
    obtain ⟨row,inside,rfl⟩ := List.mem_map.mp member
    rw [Option.isSome_map]
    exact tree.nested path old row found inside walks
  bounded path rows listed := by
    obtain ⟨old,found,_⟩ := Option.map_eq_some_iff.mp listed
    exact tree.bounded path old found

-- The chunk with this id lists the directory, and its children what is below.
inductive Grown (chunks : List Chunk) (tree : Snapshot) : Nat → Path → Prop where
  | intro {c : Chunk} {rows : List Row} : c ∈ chunks → tree.listing c.dirPath = some rows → c.recs.map Rec.row = shownRows c.dirPath rows →
      (∀ r ∈ c.recs, ∀ k, r.child = some k → Grown chunks tree k (c.dirPath ++ [r.name])) → Grown chunks tree c.id c.dirPath

section Grown
variable {chunks others : List Chunk} {tree : Snapshot} {rows : List Row}

theorem grown_parts (grown : Grown chunks tree k path) : ∃ c rows, c ∈ chunks ∧ c.id = k ∧ c.dirPath = path ∧ tree.listing path = some rows ∧
    c.recs.map Rec.row = shownRows path rows ∧ ∀ r ∈ c.recs, ∀ j, r.child = some j → Grown chunks tree j (path ++ [r.name]) := by
  cases grown with
  | intro member listed same below => exact ⟨_,_,member,rfl,rfl,listed,same,below⟩

theorem grown_mono (fewer : ∀ c ∈ chunks, c ∈ others) (grown : Grown chunks tree k path) : Grown others tree k path := by
  induction grown with
  | intro member listed rows _ ih => exact .intro (fewer _ member) listed rows ih

theorem grown_rename (rename : Nat → Nat) (grown : Grown chunks tree k path) :
    Grown (chunks.map (renameChunk rename)) tree (rename k) path := by
  induction grown with
  | @intro c rows member listed same _ ih =>
    have moved : renameChunk rename c ∈ chunks.map (renameChunk rename) := List.mem_map_of_mem member
    refine Grown.intro moved listed ?_ ?_
    · simp only [renameChunk,List.map_map]
      rw [← same]
      refine List.map_congr_left fun r _ => ?_
      cases r.child <;> simp [Rec.row]
    · intro r listed' j points
      simp only [renameChunk,List.mem_map] at listed'
      obtain ⟨old,inside,rfl⟩ := listed'
      obtain ⟨i,points',rfl⟩ := Option.map_eq_some_iff.mp points
      exact ih old inside i points'

theorem record_rows (reuse : Name → Option Nat) (rows : List Row) (next : Nat) : (record reuse rows next).1.map Rec.row = rows := by
  induction rows generalizing next with
  | nil => rfl
  | cons row rest ih =>
    unfold record
    split
    · rename_i walks
      split
      all_goals
        simp only [List.map_cons,ih,Rec.row,Option.isSome_some]
        rw [← walks]
    · rename_i stays
      simp only [List.map_cons,ih,Rec.row,Option.isSome_none]
      rw [← eq_false_of_ne_true stays]

theorem record_children (reuse : Name → Option Nat) (rows : List Row) (next : Nat) :
    ∀ r ∈ (record reuse rows next).1, ∀ k, r.child = some k →
      reuse r.name = some k ∨ (reuse r.name = none ∧ (r.name,k) ∈ (record reuse rows next).2.1) := by
  induction rows generalizing next with
  | nil =>
    intro r member
    cases member
  | cons row rest ih =>
    intro r member k points
    unfold record at member ⊢
    split at member
    · rename_i walks
      rw [if_pos walks]
      cases known : reuse row.name with
      | some id =>
        rw [known] at member
        rcases List.mem_cons.mp member with rfl | later
        · cases points
          exact .inl known
        · exact ih next r later k points
      | none =>
        rw [known] at member
        rcases List.mem_cons.mp member with rfl | later
        · cases points
          exact .inr ⟨known,List.mem_cons_self⟩
        · exact (ih (next + 1) r later k points).imp id (fun new => ⟨new.1,List.mem_cons_of_mem _ new.2⟩)
    · rename_i stays
      rw [if_neg stays]
      rcases List.mem_cons.mp member with rfl | later
      · cases points
      · exact ih next r later k points

theorem mem_shownRows {row : Row} (shown : row ∈ shownRows path rows) : row ∈ rows := by
  unfold shownRows at shown
  rw [(List.perm_insertionSort _ _).mem_iff] at shown
  exact (List.mem_filter.mp shown).1

theorem shownRows_distinct (path : Path) (apart : (rows.map Row.name).Nodup) : ((shownRows path rows).map Row.name).Nodup := by
  unfold shownRows
  rw [((List.perm_insertionSort _ _).map Row.name).nodup_iff]
  exact apart.sublist (List.filter_sublist.map _)

theorem child_listed {recs : List Rec} (listed : tree.listing path = some rows) (same : recs.map Rec.row = shownRows path rows)
    (member : r ∈ recs) (points : r.child = some k) : ∃ below, tree.listing (path ++ [r.name]) = some below := by
  have shown : Rec.row r ∈ shownRows path rows := by
    rw [← same]
    exact List.mem_map_of_mem member
  exact Option.isSome_iff_exists.mp (tree.nested path rows _ listed (mem_shownRows shown) (by simp [Rec.row,points]))

theorem recs_distinct {recs : List Rec} (listed : tree.listing path = some rows) (same : recs.map Rec.row = shownRows path rows) :
    (recs.map Rec.name).Nodup := by
  have names : recs.map Rec.name = (shownRows path rows).map Row.name := by
    rw [← same,List.map_map]
    rfl
  rw [names]
  exact shownRows_distinct path (tree.distinct path rows listed)

theorem walkSubs_grown {walk : Path → Nat → Nat → List Chunk × Nat} {subs : List (Name × Nat)} (member : (name,k) ∈ subs)
    (opens : (tree.listing (path ++ [name])).isSome) (walks : ∀ next, Grown (walk (path ++ [name]) k next).1 tree k (path ++ [name])) (next : Nat) :
    Grown (walkSubs tree.disk walk path subs next).1 tree k (path ++ [name]) := by
  induction subs generalizing next with
  | nil => cases member
  | cons sub rest ih =>
    unfold walkSubs
    rcases List.mem_cons.mp member with same | later
    · cases same
      have opened : tree.disk.opensDir (path ++ [name]) = true := opens
      rw [if_pos opened]
      exact grown_mono (fun c inside => List.mem_append_left _ inside) (walks next)
    · split
      · exact grown_mono (fun c inside => List.mem_append_right _ inside) (ih later _)
      · exact ih later _

theorem walkDir_grown (depth : Nat) (k next : Nat) (deep : tree.depth ≤ path.length + depth) (listed : tree.listing path = some rows) :
    Grown (walkDir tree.disk depth path k next).1 tree k path := by
  induction depth generalizing path k next rows with
  | zero =>
    have short := tree.bounded path rows listed
    omega
  | succ depth ih =>
    have read : listDir tree.disk path k (fun _ => none) next = some (⟨k,path,(record (fun _ => none) (shownRows path rows) next).1⟩,
        (record (fun _ => none) (shownRows path rows) next).2) := by
      unfold listDir
      have entries : tree.disk.entries path = some rows := listed
      rw [entries]
      rfl
    unfold walkDir
    rw [read]
    have same := record_rows (fun _ => none) (shownRows path rows) next
    refine Grown.intro (c := ⟨k,path,(record (fun _ => none) (shownRows path rows) next).1⟩) List.mem_cons_self listed same ?_
    intro r member j points
    rcases record_children (fun _ => none) (shownRows path rows) next r member j points with known | ⟨_,sub⟩
    · cases known
    · obtain ⟨below,found⟩ := child_listed listed same member points
      refine grown_mono (fun c inside => List.mem_cons_of_mem _ inside) (walkSubs_grown sub (by rw [found]; rfl) ?_ _)
      exact fun after => ih j after (by simp only [List.length_append,List.length_singleton]; omega) found

theorem parWalk_grown (schedule : Schedule) {k next : Nat} (given : k < next) (listed : tree.listing path = some rows) :
    Grown (parWalk tree.disk schedule path k next).1 tree k path := by
  have walked := walkDir_grown tree.disk.depth k next (Nat.le_add_left _ _) listed
  unfold parWalk
  generalize walkDir tree.disk tree.disk.depth path k next = outcome at walked
  obtain ⟨chunks,last⟩ := outcome
  have renamed := grown_rename (schedule.rename next last) walked
  rw [schedule.outside next last k (by omega)] at renamed
  exact grown_mono (fun c inside => (schedule.perm _).mem_iff.mpr inside) renamed

theorem shownRows_seen (view : View) (path : Path) (rows : List Row) :
    shownRows path (rows.map (Row.seen view)) = (shownRows path rows).map (Row.seen view) := by
  unfold shownRows
  rw [List.filter_map]
  exact (List.map_insertionSort _ _ (Row.seen view) _ fun _ _ _ _ => Iff.rfl).symm

theorem seen_rows (view : View) (c : Chunk) : (Chunk.seen view c).recs.map Rec.row = (c.recs.map Rec.row).map (Row.seen view) := by
  simp only [Chunk.seen,List.map_map]
  rfl

theorem grown_seen (view : View) (grown : Grown chunks tree k path) :
    Grown (chunks.map (Chunk.seen view)) (tree.seen view) k path := by
  induction grown with
  | @intro c rows member listed same _ ih =>
    have stored : Chunk.seen view c ∈ chunks.map (Chunk.seen view) := List.mem_map_of_mem member
    have found : (tree.seen view).listing c.dirPath = some (rows.map (Row.seen view)) := by
      simp only [Snapshot.seen,listed,Option.map_some]
    refine Grown.intro (c := Chunk.seen view c) stored found ?_ ?_
    · rw [seen_rows,same]
      exact (shownRows_seen view c.dirPath rows).symm
    · intro r inside k points
      obtain ⟨old,known,rfl⟩ := List.mem_map.mp inside
      exact ih old known k points

end Grown

def specFrom (tree : Snapshot) : Nat → Path → List Item
  | 0,_ => []
  | depth + 1,path => (tree.listing path).elim [] fun rows => (shownRows path rows).flatMap fun row =>
    ⟨path,row.name,row.attrs⟩::if row.walkInto then specFrom tree depth (path ++ [row.name]) else []

def Exact (chunks : List Chunk) (idToPos : List (Option Nat)) : Prop :=
  ∀ (i : Nat) (c : Chunk), chunks[i]? = some c → idToPos[c.id]? = some (some i)

section Sequence
variable {chunks : List Chunk} {idToPos : List (Option Nat)} {tree : Snapshot}

theorem place_keeps {table result : List (Option Nat)} {pos : Nat} (placed : place table pos chunks = some result)
    (absent : k ∉ chunks.map Chunk.id) : result[k]? = table[k]? := by
  induction chunks generalizing table pos with
  | nil =>
    cases placed
    rfl
  | cons chunk rest ih =>
    rw [List.map_cons,List.mem_cons,not_or] at absent
    unfold place at placed
    split at placed
    · rw [ih placed absent.2,List.getElem?_set_ne (Ne.symm absent.1)]
    · cases placed

theorem place_exact {table result : List (Option Nat)} {pos : Nat} (distinct : (chunks.map Chunk.id).Nodup)
    (placed : place table pos chunks = some result) : ∀ (i : Nat) (c : Chunk), chunks[i]? = some c → result[c.id]? = some (some (pos + i)) := by
  induction chunks generalizing table pos with
  | nil =>
    intro i c found
    cases found
  | cons chunk rest ih =>
    obtain ⟨apart,others⟩ := List.nodup_cons.mp distinct
    unfold place at placed
    split at placed
    · rename_i inside
      intro i c found
      cases i with
      | zero =>
        cases found
        rw [place_keeps placed apart,List.getElem?_set_self inside]
        rfl
      | succ i =>
        rw [ih others placed i c (by simpa using found)]
        congr 2
        omega
    · cases placed

theorem mapM_map {f : α → Option β} {g : α → β} {l : List α} (each : ∀ a ∈ l, f a = some (g a)) : l.mapM f = some (l.map g) := by
  induction l with
  | nil => rfl
  | cons a rest ih =>
    rw [List.mapM_cons,each a List.mem_cons_self,ih fun b member => each b (List.mem_cons_of_mem _ member)]
    rfl

theorem grown_dfs (exact_ : Exact chunks idToPos) (grown : Grown chunks tree k path) :
    ∃ pos, idToPos[k]? = some (some pos) ∧ ∀ fuel, dfsFrom chunks idToPos fuel pos = some (specFrom tree fuel path) := by
  induction grown with
  | @intro c rows member listed same _ ih =>
    obtain ⟨pos,found⟩ := List.mem_iff_getElem?.mp member
    refine ⟨pos,exact_ pos c found,fun fuel => ?_⟩
    cases fuel with
    | zero => rfl
    | succ fuel =>
      unfold dfsFrom specFrom
      rw [found,Option.bind_some,listed,Option.elim_some,← same,List.flatMap_map]
      have each : ∀ r ∈ c.recs, dfsRec idToPos c.dirPath (dfsFrom chunks idToPos fuel) r =
          some (⟨c.dirPath,r.name,r.attrs⟩::if (Rec.row r).walkInto then specFrom tree fuel (c.dirPath ++ [r.name]) else []) := by
        intro r inside
        unfold dfsRec
        cases points : r.child with
        | none => simp [childPos,points,Rec.row]
        | some j =>
          obtain ⟨below,slot,walked⟩ := ih r inside j points
          have here : childPos idToPos r = some below := by simp [childPos,points,slot]
          rw [here]
          simp [walked,Rec.row,points]
      rw [mapM_map each,Option.map_some,List.flatMap_def]
      rfl

theorem specFrom_deeper (grown : Grown chunks tree k path) (short : ∀ c ∈ chunks, c.dirPath.length < path.length + fuel) (more : Nat) :
    specFrom tree (fuel + more) path = specFrom tree fuel path := by
  induction fuel generalizing k path with
  | zero =>
    cases grown with
    | intro member _ _ _ =>
      have := short _ member
      omega
  | succ fuel ih =>
    cases grown with
    | @intro c rows member listed same below =>
      rw [Nat.succ_add]
      unfold specFrom
      rw [listed,Option.elim_some,Option.elim_some,← same,List.flatMap_map,List.flatMap_map]
      refine List.flatMap_congr fun r inside => ?_
      cases points : r.child with
      | none => simp [Rec.row,points]
      | some j =>
        have deeper := ih (below r inside j points) (fun c member => by
          have := short c member
          simp only [List.length_append,List.length_singleton]
          omega)
        simp [Rec.row,points,deeper]

theorem dfsDepth_bounds (member : c ∈ chunks) : c.dirPath.length < dfsDepth chunks := by
  have least : ∀ (n : Nat) (lengths : List Nat), n ∈ lengths → n ≤ lengths.foldr max 0 := by
    intro n lengths listed
    induction lengths with
    | nil => cases listed
    | cons first rest ih =>
      rcases List.mem_cons.mp listed with rfl | later
      · exact Nat.le_max_left _ _
      · exact Nat.le_trans (ih later) (Nat.le_max_right _ _)
  exact Nat.lt_succ_of_le (least _ _ (List.mem_map_of_mem member))

-- The index of a tree as far as the view sees: every root has a chunk that
-- lists it, with all below.
structure Agrees (view : View) (index : Index) (tree : Snapshot) : Prop where
  valid : Valid index
  distinct : (index.chunks.map Chunk.id).Nodup
  exact_ : Exact index.chunks index.idToPos
  grown : ∀ root ∈ index.roots, ∃ pos c, root.2 = some pos ∧ index.chunks[pos]? = some c ∧
    Grown (index.chunks.map (Chunk.seen view)) (tree.seen view) c.id root.1

theorem exact_seen (view : View) (exact_ : Exact chunks idToPos) : Exact (chunks.map (Chunk.seen view)) idToPos := by
  intro i c found
  rw [List.getElem?_map] at found
  obtain ⟨old,stored,rfl⟩ := Option.map_eq_some_iff.mp found
  exact exact_ i old stored

theorem mapM_seen {f : α → Option β} {g : α → Option γ} {h : β → γ} {l : List α} (each : ∀ a ∈ l, g a = (f a).map h) :
    l.mapM g = (l.mapM f).map (List.map h) := by
  induction l with
  | nil => rfl
  | cons a rest ih =>
    rw [List.mapM_cons,List.mapM_cons,each a List.mem_cons_self,ih fun b member => each b (List.mem_cons_of_mem _ member)]
    cases f a with
    | none => rfl
    | some b =>
      cases rest.mapM f with
      | none => rfl
      | some bs => rfl

theorem dfsFrom_seen (view : View) (chunks : List Chunk) (idToPos : List (Option Nat)) (fuel pos : Nat) :
    dfsFrom (chunks.map (Chunk.seen view)) idToPos fuel pos = (dfsFrom chunks idToPos fuel pos).map (List.map (Item.seen view)) := by
  induction fuel generalizing pos with
  | zero => rfl
  | succ fuel ih =>
    unfold dfsFrom
    rw [List.getElem?_map]
    cases chunks[pos]? with
    | none => rfl
    | some c =>
      have each : ∀ r ∈ c.recs, dfsRec idToPos c.dirPath (dfsFrom (chunks.map (Chunk.seen view)) idToPos fuel) (Rec.seen view r) =
          (dfsRec idToPos c.dirPath (dfsFrom chunks idToPos fuel) r).map (List.map (Item.seen view)) := by
        intro r _
        unfold dfsRec
        have same : childPos idToPos (Rec.seen view r) = childPos idToPos r := rfl
        rw [same]
        cases childPos idToPos r with
        | none => rfl
        | some below =>
          dsimp only
          rw [ih below,Option.map_map,Option.map_map]
          rfl
      simp only [Option.map_some,Option.bind_some,Chunk.seen,List.mapM_map]
      have whole := mapM_seen each
      simp only [Function.comp_def]
      rw [whole,Option.map_map,Option.map_map]
      congr 1
      funext parts
      exact List.map_flatten.symm

theorem dfs_seen (view : View) (chunks : List Chunk) (idToPos : List (Option Nat)) (roots : List (Path × Option Nat)) :
    dfs (chunks.map (Chunk.seen view)) idToPos roots = (dfs chunks idToPos roots).map (List.map (Item.seen view)) := by
  have deep : dfsDepth (chunks.map (Chunk.seen view)) = dfsDepth chunks := by
    unfold dfsDepth
    rw [List.map_map]
    rfl
  have each : ∀ root ∈ roots, dfsRoot (chunks.map (Chunk.seen view)) idToPos root =
      (dfsRoot chunks idToPos root).map (List.map (Item.seen view)) := by
    intro root _
    unfold dfsRoot
    rw [deep]
    cases root.2 with
    | none => rfl
    | some pos => exact dfsFrom_seen view chunks idToPos _ pos
  unfold dfs
  rw [mapM_seen each,Option.map_map,Option.map_map]
  congr 1
  funext parts
  exact List.map_flatten.symm

theorem grown_root {roots : List (Path × Option Nat)} (exact_ : Exact chunks idToPos)
    (grown : ∀ root ∈ roots, ∃ pos c, root.2 = some pos ∧ chunks[pos]? = some c ∧ Grown chunks tree c.id root.1) (more : Nat) :
    dfs chunks idToPos roots = some ((roots.map Prod.fst).flatMap (specFrom tree (dfsDepth chunks + more))) := by
  have each : ∀ root ∈ roots, dfsRoot chunks idToPos root = some (specFrom tree (dfsDepth chunks + more) root.1) := by
    intro root member
    obtain ⟨pos,c,here,found,below⟩ := grown root member
    obtain ⟨same,slot,walked⟩ := grown_dfs exact_ below
    rw [exact_ pos c found] at slot
    cases slot
    unfold dfsRoot
    rw [here]
    dsimp only
    rw [walked,specFrom_deeper below (fun c listed => Nat.lt_add_left _ (dfsDepth_bounds listed)) more]
  unfold dfs
  rw [mapM_map each,Option.map_some,List.flatMap_map,List.flatMap_def]

theorem walkRoots_grown (schedule : Schedule) (opened : ∀ root ∈ roots, (tree.listing root).isSome) (next : Nat) :
    (walkRoots tree.disk schedule roots next).1.map Prod.fst = roots ∧
    ∀ root ∈ (walkRoots tree.disk schedule roots next).1, Grown (walkRoots tree.disk schedule roots next).2.1 tree root.2 root.1 := by
  induction roots generalizing next with
  | nil => simp [walkRoots]
  | cons root rest ih =>
    obtain ⟨walked,same,split⟩ := walkRoots_cons tree.disk schedule root rest next
    obtain ⟨names,below⟩ := ih (fun other member => opened other (List.mem_cons_of_mem _ member)) walked.2
    have opens : tree.disk.opensRoot root = true := opened root List.mem_cons_self
    rw [if_pos opens] at same
    rw [split]
    refine ⟨by rw [List.map_cons,names],?_⟩
    intro other member
    rcases List.mem_cons.mp member with rfl | later
    · obtain ⟨rows,listed⟩ := Option.isSome_iff_exists.mp (opened root List.mem_cons_self)
      have first := parWalk_grown schedule (Nat.lt_succ_self next) listed
      rw [← same] at first
      exact grown_mono (fun c inside => List.mem_append_left _ inside) first
    · exact grown_mono (fun c inside => List.mem_append_right _ inside) (below other later)

theorem build_parts (built : build disk schedule roots limits = some index) :
    ∃ items, index.chunks = (walkRoots disk schedule roots 0).2.1.insertionSort (fun a b => a.id ≤ b.id) ∧
      place (List.replicate (walkRoots disk schedule roots 0).2.2 none) 0 index.chunks = some index.idToPos ∧
      index.roots = (walkRoots disk schedule roots 0).1.map (fun root => (root.1,(index.idToPos[root.2]?).join)) ∧
      dfs index.chunks index.idToPos index.roots = some items ∧ index.visible = (applyBudget limits items 0 0).1 ∧ index.limits = limits := by
  unfold build at built
  simp only [bind,Option.bind_eq_some_iff] at built
  obtain ⟨table,placed,items,walked,same⟩ := built
  cases same
  exact ⟨items,rfl,placed,rfl,walked,rfl,rfl⟩

theorem build_agrees (view : View) (opened : ∀ root ∈ roots, (tree.listing root).isSome)
    (built : build tree.disk schedule roots limits = some index) : Agrees view index tree ∧ index.roots.map Prod.fst = roots := by
  obtain ⟨same,again,valid⟩ := build_valid tree.disk schedule roots limits
  rw [built] at again
  cases again
  obtain ⟨items,chunks,placed,roots_,_⟩ := build_parts built
  obtain ⟨_,_,apart⟩ := walkRoots_block tree.disk schedule roots 0
  obtain ⟨names,below⟩ := walkRoots_grown schedule opened 0
  have shuffled : index.chunks.Perm (walkRoots tree.disk schedule roots 0).2.1 := by
    rw [chunks]
    exact List.perm_insertionSort _ _
  have distinct : (index.chunks.map Chunk.id).Nodup := by
    rw [(shuffled.map Chunk.id).nodup_iff]
    exact apart
  have exact_ : Exact index.chunks index.idToPos := by
    intro i c found
    have slot := place_exact distinct placed i c found
    rwa [Nat.zero_add] at slot
  refine ⟨⟨valid,distinct,exact_,?_⟩,?_⟩
  · intro root member
    rw [roots_] at member
    obtain ⟨old,listed,rfl⟩ := List.mem_map.mp member
    have grown := grown_mono (fun c inside => shuffled.mem_iff.mpr inside) (below old listed)
    obtain ⟨pos,slot,_⟩ := grown_dfs exact_ grown
    obtain ⟨c,stored,named⟩ := valid.pointers old.2 pos slot
    exact ⟨pos,c,by rw [slot]; rfl,stored,by rw [named]; exact grown_seen view grown⟩
  · rw [roots_,List.map_map]
    exact names

def Item.key (item : Item) : Path × Name := (item.dir,item.name)

theorem spec_within (grown : Grown chunks tree k path) (member : item ∈ specFrom tree fuel path) :
    path <+: item.dir ∧ ∃ c ∈ chunks, ∃ r ∈ c.recs, c.dirPath = item.dir ∧ r.name = item.name := by
  induction fuel generalizing k path with
  | zero => cases member
  | succ fuel ih =>
    cases grown with
    | @intro c rows stored listed same below =>
      unfold specFrom at member
      rw [listed,Option.elim_some,← same,List.flatMap_map] at member
      obtain ⟨r,inside,part⟩ := List.mem_flatMap.mp member
      rcases List.mem_cons.mp part with rfl | deeper
      · exact ⟨List.prefix_refl _,c,stored,r,inside,rfl,rfl⟩
      · cases points : r.child with
        | none => simp [Rec.row,points] at deeper
        | some j =>
          simp only [Rec.row,points,Option.isSome_some,if_true] at deeper
          obtain ⟨extends_,found⟩ := ih (below r inside j points) deeper
          exact ⟨(List.prefix_append _ _).trans extends_,found⟩

theorem spec_below (member : item ∈ specFrom tree fuel path) : path <+: item.dir := by
  induction fuel generalizing path with
  | zero => cases member
  | succ fuel ih =>
    unfold specFrom at member
    cases listed : tree.listing path with
    | none =>
      rw [listed] at member
      cases member
    | some rows =>
      rw [listed,Option.elim_some] at member
      obtain ⟨row,_,part⟩ := List.mem_flatMap.mp member
      rcases List.mem_cons.mp part with rfl | deeper
      · exact List.prefix_refl _
      · split at deeper
        · exact (List.prefix_append _ _).trans (ih deeper)
        · cases deeper

theorem not_below_self (below : path ++ [name] <+: path) : False := by
  have longer := below.length_le
  rw [List.length_append,List.length_singleton] at longer
  omega

theorem branches_apart (different : left ≠ right) (one : path ++ [left] <+: dir)
    (two : path ++ [right] <+: dir) : False := by
  rcases List.prefix_or_prefix_of_prefix one two with first | first
  · exact different (by simpa using first)
  · exact different (by simpa using first.eq_of_length (by simp) |>.symm)

theorem spec_distinct (tree : Snapshot) (fuel : Nat) (path : Path) : ((specFrom tree fuel path).map Item.key).Nodup := by
  induction fuel generalizing path with
  | zero => exact List.nodup_nil
  | succ fuel ih =>
    unfold specFrom
    cases listed : tree.listing path with
    | none => exact List.nodup_nil
    | some rows =>
      rw [Option.elim_some,List.map_flatMap,List.nodup_flatMap]
      have names := shownRows_distinct path (tree.distinct path rows listed)
      constructor
      · intro row _
        rw [List.map_cons,List.nodup_cons]
        split
        · refine ⟨?_,ih _⟩
          intro same
          obtain ⟨item,inside,key⟩ := List.mem_map.mp same
          have dir : item.dir = path := congrArg Prod.fst key
          exact not_below_self (dir ▸ spec_below inside)
        · exact ⟨by simp,List.nodup_nil⟩
      · refine (List.pairwise_map.mp names).imp fun {left right} different => ?_
        intro key one two
        have origin : ∀ (row : Row), key ∈ List.map Item.key (⟨path,row.name,row.attrs⟩::if row.walkInto then specFrom tree fuel (path ++ [row.name]) else []) →
            key = (path,row.name) ∨ path ++ [row.name] <+: key.1 := by
          intro row member
          rw [List.map_cons,List.mem_cons] at member
          rcases member with same | later
          · exact .inl same
          · split at later
            · obtain ⟨item,inside,rfl⟩ := List.mem_map.mp later
              exact .inr (spec_below inside)
            · cases later
        rcases origin left one with rfl | below <;> rcases origin right two with same | other
        · exact different (congrArg Prod.snd same)
        · exact not_below_self other
        · rw [same] at below
          exact not_below_self below
        · exact branches_apart different below other

theorem subperm_sum {left right : List α} (fewer : left.Subperm right) (weight : α → Nat) :
    (left.map weight).sum ≤ (right.map weight).sum := by
  obtain ⟨middle,same,inside⟩ := fewer
  rw [← (same.map weight).sum_nat]
  exact (inside.map weight).sum_le_sum fun _ _ => Nat.zero_le _

-- No chunk is visited twice, so the entries of a traversal weigh at most what
-- all records do.
theorem spec_weighs {items : List Item} (distinct : (items.map Item.key).Nodup)
    (within : ∀ item ∈ items, ∃ c ∈ chunks, ∃ r ∈ c.recs, c.dirPath = item.dir ∧ r.name = item.name) (weight : Name → Nat) :
    (items.map fun item => weight item.name).sum ≤ (chunks.map fun c => (c.recs.map fun r => weight r.name).sum).sum := by
  have fewer : (items.map Item.key).Subperm (chunks.flatMap fun c => c.recs.map fun r => (c.dirPath,r.name)) := by
    refine List.subperm_of_subset distinct fun key member => ?_
    obtain ⟨item,inside,rfl⟩ := List.mem_map.mp member
    obtain ⟨c,stored,r,recorded,dir,name⟩ := within item inside
    exact List.mem_flatMap.mpr ⟨c,stored,List.mem_map.mpr ⟨r,recorded,by rw [dir,name]; rfl⟩⟩
  have total : ∀ l : List Chunk, ((l.flatMap fun c => c.recs.map fun r => (c.dirPath,r.name)).map fun key => weight key.2).sum =
      (l.map fun c => (c.recs.map fun r => weight r.name).sum).sum := by
    intro l
    induction l with
    | nil => rfl
    | cons c rest ih =>
      rw [List.flatMap_cons,List.map_append,List.sum_append,ih,List.map_cons,List.sum_cons,List.map_map]
      rfl
  have bound := subperm_sum fewer fun key => weight key.2
  rw [total,List.map_map] at bound
  exact bound

theorem applyBudget_all (few : entries + items.length ≤ limits.maxEntries)
    (small : bytes + (items.map fun item => cost item.name).sum ≤ limits.maxBytes) :
    applyBudget limits items entries bytes = (entries + items.length,false) := by
  induction items generalizing entries bytes with
  | nil => rfl
  | cons item rest ih =>
    rw [List.length_cons] at few
    rw [List.map_cons,List.sum_cons] at small
    unfold applyBudget
    rw [if_neg (by omega),ih (by omega) (by omega),List.length_cons]
    congr 1
    omega

def Apart (roots : List Path) : Prop := roots.Pairwise fun a b => ¬ a <+: b ∧ ¬ b <+: a

instance : DecidablePred Apart := fun roots =>
  inferInstanceAs (Decidable (roots.Pairwise fun a b => ¬ a <+: b ∧ ¬ b <+: a))

theorem specs_distinct {roots : List Path} (apart : Apart roots) (tree : Snapshot) (fuel : Nat) :
    ((roots.flatMap (specFrom tree fuel)).map Item.key).Nodup := by
  rw [List.map_flatMap,List.nodup_flatMap]
  refine ⟨fun root _ => spec_distinct tree fuel root,apart.imp fun {one two} different => ?_⟩
  intro key left right
  obtain ⟨item,inside,rfl⟩ := List.mem_map.mp left
  obtain ⟨other,below,same⟩ := List.mem_map.mp right
  have dir : other.dir = item.dir := congrArg Prod.fst same
  rcases List.prefix_or_prefix_of_prefix (spec_below inside) (dir ▸ spec_below below) with first | first
  · exact different.1 first
  · exact different.2 first

section
variable (agrees : Agrees view index tree)
include agrees

theorem agrees_items : ∃ items, dfs index.chunks index.idToPos index.roots = some items ∧
    ∀ more, items.map (Item.seen view) = (index.roots.map Prod.fst).flatMap (specFrom (tree.seen view) (dfsDepth index.chunks + more)) := by
  have deep : dfsDepth (index.chunks.map (Chunk.seen view)) = dfsDepth index.chunks := by
    unfold dfsDepth
    rw [List.map_map]
    rfl
  have roots : ∀ root ∈ index.roots, ∃ pos c, root.2 = some pos ∧ (index.chunks.map (Chunk.seen view))[pos]? = some c ∧
      Grown (index.chunks.map (Chunk.seen view)) (tree.seen view) c.id root.1 := by
    intro root member
    obtain ⟨pos,c,here,stored,grown⟩ := agrees.grown root member
    exact ⟨pos,Chunk.seen view c,here,by rw [List.getElem?_map,stored]; rfl,grown⟩
  have walked := grown_root (exact_seen view agrees.exact_) roots
  rw [deep,dfs_seen] at walked
  obtain ⟨items,found,_⟩ := Option.map_eq_some_iff.mp (walked 0)
  refine ⟨items,found,fun more => ?_⟩
  have again := walked more
  rw [found] at again
  exact Option.some.inj again

theorem agrees_opened : ∀ root ∈ index.roots.map Prod.fst, (tree.listing root).isSome := by
  intro root member
  obtain ⟨pair,listed,rfl⟩ := List.mem_map.mp member
  obtain ⟨_,_,_,_,grown⟩ := agrees.grown pair listed
  obtain ⟨_,_,_,_,_,found,_⟩ := grown_parts grown
  obtain ⟨rows,known,_⟩ := Option.map_eq_some_iff.mp found
  rw [known]
  rfl

theorem agrees_weighs (apart : Apart (index.roots.map Prod.fst)) (weight : Name → Nat)
    (walked : dfs index.chunks index.idToPos index.roots = some items) :
    (items.map fun item => weight item.name).sum ≤ (index.chunks.map fun c => (c.recs.map fun r => weight r.name).sum).sum := by
  obtain ⟨same,again,spec⟩ := agrees_items agrees
  rw [walked] at again
  cases again
  have distinct : ((items.map (Item.seen view)).map Item.key).Nodup := by
    rw [spec 0]
    exact specs_distinct apart (tree.seen view) _
  have within : ∀ item ∈ items.map (Item.seen view), ∃ c ∈ index.chunks.map (Chunk.seen view), ∃ r ∈ c.recs,
      c.dirPath = item.dir ∧ r.name = item.name := by
    intro item member
    rw [spec 0] at member
    obtain ⟨root,listed,inside⟩ := List.mem_flatMap.mp member
    obtain ⟨pair,stands,rfl⟩ := List.mem_map.mp listed
    obtain ⟨_,_,_,_,grown⟩ := agrees.grown pair stands
    exact (spec_within grown inside).2
  have bound := spec_weighs distinct within weight
  simp only [List.map_map,Function.comp_def,Chunk.seen,Item.seen,Rec.seen] at bound
  exact bound

end

def Budgeted (index : Index) : Prop := ∀ items, dfs index.chunks index.idToPos index.roots = some items →
  items.take index.visible = items.take (applyBudget index.limits items 0 0).1

theorem build_budgeted (built : build disk schedule roots limits = some index) : Budgeted index := by
  obtain ⟨items,_,_,_,walked,visible,same⟩ := build_parts built
  intro others again
  rw [walked] at again
  cases again
  rw [visible,same]

theorem whole_budgeted (agrees : Agrees view index tree) (apart : Apart (index.roots.map Prod.fst)) (whole : index.visible = totalRecs index.chunks)
    (few : totalRecs index.chunks ≤ index.limits.maxEntries) (small : totalBytes index.chunks ≤ index.limits.maxBytes) : Budgeted index := by
  intro items walked
  have count := agrees_weighs agrees apart (fun _ => 1) walked
  have weight := agrees_weighs agrees apart cost walked
  simp only [List.map_const',List.sum_replicate_nat,Nat.mul_one] at count
  have light : (index.chunks.map fun c => (c.recs.map fun r => cost r.name).sum).sum ≤ totalBytes index.chunks := by
    refine List.sum_le_sum fun c _ => ?_
    unfold Chunk.bytes
    omega
  have all : applyBudget index.limits items 0 0 = (0 + items.length,false) :=
    applyBudget_all (by unfold totalRecs at few; omega) (by omega)
  rw [all,whole,List.take_of_length_le (by unfold totalRecs; omega),List.take_of_length_le (by omega)]

theorem applyBudget_seen (view : View) (limits : Limits) (items : List Item) (entries bytes : Nat) :
    applyBudget limits (items.map (Item.seen view)) entries bytes = applyBudget limits items entries bytes := by
  induction items generalizing entries bytes with
  | nil => rfl
  | cons item rest ih =>
    rw [List.map_cons]
    unfold applyBudget
    rw [ih]
    rfl

theorem same_sequence (agrees : Agrees view index tree) (mirrored : Agrees view other tree)
    (roots : index.roots.map Prod.fst = other.roots.map Prod.fst) (limits : index.limits = other.limits)
    (left : Budgeted index) (right : Budgeted other) :
    ∃ entries, (sequence index).map (List.map (Item.seen view)) = some entries ∧ (sequence other).map (List.map (Item.seen view)) = some entries := by
  obtain ⟨items,found,spec⟩ := agrees_items agrees
  obtain ⟨others,again,spec'⟩ := agrees_items mirrored
  have same : items.map (Item.seen view) = others.map (Item.seen view) := by
    rw [spec (dfsDepth other.chunks),spec' (dfsDepth index.chunks),roots,Nat.add_comm]
  unfold DirectoryIndex.sequence
  rw [found,again]
  simp only [Option.map_some]
  refine ⟨_,rfl,?_⟩
  rw [left items found,right others again,List.map_take,List.map_take,← applyBudget_seen view index.limits items,
    ← applyBudget_seen view other.limits others,same,limits]

end Sequence

end RemoteFileExplorer.IndexMirror
