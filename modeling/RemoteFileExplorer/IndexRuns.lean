import RemoteFileExplorer.IndexUpdates

namespace RemoteFileExplorer.IndexRuns
open FileTree DirectoryIndex IndexBounds IndexMirror IndexReach IndexUpdates

def shown (view : View) (tree : Snapshot) (path : Path) : Option (List Row) :=
  (tree.listing path).map fun rows => (shownRows path rows).map (Row.seen view)

-- The dirty list names every directory that stays and whose listing changed,
-- and every root that is gone.
def Covers (view : View) (roots : List Path) (before after : Snapshot) (dirty : List Path) : Prop :=
  ∀ path, (before.listing path).isSome → ((after.listing path).isSome ∨ path ∈ roots) → shown view before path ≠ shown view after path → path ∈ dirty

section Outcome
variable {view : View} {index next : Index} {before after : Snapshot} {dirty all : List Path} {u : Update}

section
variable (agrees : Agrees view index before) (covers : Covers view (index.roots.map Prod.fst) before after dirty)
include agrees covers

theorem starts_holds :
    Holds view index after dirty [] [] ⟨untouched,[],[],index.nextId,[]⟩ := by
  refine ⟨⟨?_,?_,?_,?_⟩,?_,?_,?_,?_,?_,?_,?_,?_,Nat.le_refl _⟩
  · exact fun _ _ changed => (by cases changed)
  · exact fun _ _ changed => (by cases changed)
  · exact fun _ _ changed => (by cases changed)
  · exact fun _ _ changed => (by cases changed)
  · intro path pos c r k reached here member points young
    obtain ⟨d,_,stored,_,_,_,_,known⟩ := reached_listed agrees reached
    rw [chunkAt_untouched here] at stored
    cases stored
    exact absurd (known r member k points).1 (Nat.not_lt.mpr young)
  · intro path pos c rows reached here covered listed
    obtain ⟨d,old,stored,_,known,same,_⟩ := reached_listed agrees reached
    rw [chunkAt_untouched here] at stored
    cases stored
    have clean : path ∉ dirty := fun marked => by cases covered marked
    have unchanged : shown view before path = shown view after path := by
      by_contra changed
      exact clean (covers path (by rw [known]; rfl) (.inl (by rw [listed]; rfl)) changed)
    unfold shown at unchanged
    rw [known,listed] at unchanged
    rw [same]
    exact Option.some.inj unchanged
  · intro f member
    rcases member with walked | waits
    · cases walked
    · cases waits
  · exact fun _ member => (by cases member)
  · exact fun _ _ finished => (by cases finished)
  · exact fun _ member => (by cases member)
  · exact List.nodup_nil
  · exact fun _ member => (by cases member)

-- Once the dirty list is done, every directory reached is there and current.
theorem reached_after (holds : Holds view index after dirty all [] u) (finished : ∀ path ∈ dirty, path ∈ all) (reached : Reached index u.replaced path pos) :
    (after.listing path).isSome := by
  induction reached with
  | @root path pos member =>
    by_cases marked : path ∈ dirty
    · exact holds.roots _ member (finished _ marked)
    · have top : path ∈ index.roots.map Prod.fst := List.mem_map_of_mem member
      have opened := agrees_opened agrees path top
      have unchanged : shown view before path = shown view after path := by
        by_contra changed
        exact marked (covers path opened (.inr top) changed)
      obtain ⟨rows,listed⟩ := Option.isSome_iff_exists.mp opened
      unfold shown at unchanged
      rw [listed,Option.map_some] at unchanged
      obtain ⟨others,found,_⟩ := Option.map_eq_some_iff.mp unchanged.symm
      rw [found]
      rfl
  | @step path pos r below c front here member points ih =>
    obtain ⟨rows,listed⟩ := Option.isSome_iff_exists.mp ih
    have same := holds.listed _ _ _ rows front here (fun marked => finished _ marked) listed
    have shown : Row.seen view (Rec.row r) ∈ (shownRows path rows).map (Row.seen view) := by
      rw [← same]
      exact List.mem_map_of_mem (List.mem_map_of_mem member)
    obtain ⟨row,inside,equal⟩ := List.mem_map.mp shown
    have name : row.name = r.name := congrArg Row.name equal
    have walks : row.walkInto = r.child.isSome := congrArg Row.walkInto equal
    obtain ⟨k,child,_⟩ := childPos_parts points
    rw [child] at walks
    rw [← name]
    exact after.nested path rows row listed (mem_shownRows inside) walks

end

theorem kept_mem (holds : Holds view index after dirty all [] u) (agrees : Agrees view index before) (reached : Reached index u.replaced path pos)
    (here : chunkAt index u.replaced pos = some c) : c ∈ kept index u := by
  obtain ⟨again,stored,known,inside,_,_,id,_⟩ := reached_chunk agrees holds.shape reached
  rw [here] at known
  cases known
  refine List.mem_filterMap.mpr ⟨(stored,pos),List.mem_zipIdx_iff_getElem?.mpr inside,?_⟩
  have stays : stored.id ∉ u.removed := fun gone => holds.removed _ gone path pos c reached here id
  rw [if_neg (by simpa using stays)]
  unfold chunkAt at here
  rw [inside] at here
  exact here

theorem grown_after (agrees : Agrees view index before) (covers : Covers view (index.roots.map Prod.fst) before after dirty)
    (holds : Holds view index after dirty all [] u) (finished : ∀ path ∈ dirty, path ∈ all) (depth : Nat) (deep : after.depth ≤ path.length + depth)
    (reached : Reached index u.replaced path pos) (here : chunkAt index u.replaced pos = some c) :
    Grown ((kept index u ++ u.added).map (Chunk.seen view)) (after.seen view) c.id path := by
  induction depth generalizing path pos c with
  | zero =>
    obtain ⟨rows,listed⟩ := Option.isSome_iff_exists.mp (reached_after agrees covers holds finished reached)
    have short := after.bounded path rows listed
    omega
  | succ depth ih =>
    obtain ⟨rows,listed⟩ := Option.isSome_iff_exists.mp (reached_after agrees covers holds finished reached)
    have same := holds.listed path pos c rows reached here (fun marked => finished _ marked) listed
    obtain ⟨again,stored,known,inside,_,dir,id,_⟩ := reached_chunk agrees holds.shape reached
    rw [here] at known
    cases known
    obtain ⟨first,_,inside',_,_,_,_,children⟩ := reached_listed agrees (reached_before agrees.valid holds.shape reached)
    rw [inside] at inside'
    cases inside'
    have member : Chunk.seen view c ∈ (kept index u ++ u.added).map (Chunk.seen view) :=
      List.mem_map_of_mem (List.mem_append_left _ (kept_mem holds agrees reached here))
    have found : (after.seen view).listing (Chunk.seen view c).dirPath = some (rows.map (Row.seen view)) := by
      have place : (Chunk.seen view c).dirPath = path := dir
      simp only [Snapshot.seen]
      rw [place,listed]
      rfl
    rw [← dir]
    refine Grown.intro (c := Chunk.seen view c) member found ?_ ?_
    · rw [seen_rows,same]
      have place : (Chunk.seen view c).dirPath = path := dir
      rw [place,shownRows_seen]
    · intro r' listed' k points
      obtain ⟨r,origin,rfl⟩ := List.mem_map.mp listed'
      have place : (Chunk.seen view c).dirPath = path := dir
      rw [place]
      have child : r.child = some k := points
      by_cases young : index.nextId ≤ k
      · rcases holds.new path pos c r k reached here origin child young with grown | impossible
        · refine grown_mono (fun d there => ?_) grown
          rw [List.map_append]
          exact List.mem_append_right _ there
        · cases impossible
      · obtain ⟨old,origin',_,child'⟩ := shape_known holds.shape here inside r origin k child (Nat.lt_of_not_le young)
        obtain ⟨_,below,slot⟩ := children old origin' k child'
        have points' : childPos index.idToPos r = some below := by
          unfold childPos at slot ⊢
          rw [child]
          rw [child'] at slot
          exact slot
        have deeper : Reached index u.replaced (path ++ [r.name]) below := .step reached here origin points'
        obtain ⟨d,stored',there,inside',_,_,id',_⟩ := reached_chunk agrees holds.shape deeper
        have grown := ih (by simp only [List.length_append,List.length_singleton]; omega) deeper there
        obtain ⟨j,child'',slot'⟩ := childPos_parts points'
        rw [child] at child''
        cases child''
        obtain ⟨e,there',named⟩ := agrees.valid.pointers k below slot'
        rw [inside'] at there'
        cases there'
        rw [id',named] at grown
        exact grown

theorem finish_parts (finished : finish index u = .ok next) :
    ∃ table roots, place (List.replicate u.nextId none) 0 (kept index u ++ u.added) = some table ∧
      index.roots.mapM (newRoot index.chunks table) = .ok roots ∧ totalRecs (kept index u ++ u.added) ≤ index.limits.maxEntries ∧
      totalBytes (kept index u ++ u.added) ≤ index.limits.maxBytes ∧
      next = ⟨kept index u ++ u.added,table,roots,totalRecs (kept index u ++ u.added),u.nextId,index.limits,false⟩ := by
  obtain ⟨table,placed,onward⟩ := bind_ok finished
  obtain ⟨roots,mapped,rest⟩ := bind_ok onward
  split at rest
  · cases rest
  · rename_i fits
    rw [not_or,Nat.not_lt,Nat.not_lt] at fits
    obtain ⟨items,_,same⟩ := bind_ok rest
    cases same
    refine ⟨table,roots,?_,mapped,fits.1,fits.2,rfl⟩
    cases outcome : place (List.replicate u.nextId none) 0 (kept index u ++ u.added) with
    | none =>
      rw [outcome] at placed
      cases placed
    | some result =>
      rw [outcome] at placed
      cases placed
      rfl

theorem newRoots_parts {chunks : List Chunk} {table : List (Option Nat)} {roots moved : List (Path × Option Nat)}
    (mapped : roots.mapM (newRoot chunks table) = .ok moved) : moved.map Prod.fst = roots.map Prod.fst ∧
      ∀ root ∈ moved, ∃ old ∈ roots, ∃ pos c, old.1 = root.1 ∧ old.2 = some pos ∧ chunks[pos]? = some c ∧ table[c.id]? = some root.2 := by
  induction roots generalizing moved with
  | nil =>
    cases mapped
    exact ⟨rfl,fun _ member => (by cases member)⟩
  | cons root rest ih =>
    rw [List.mapM_cons] at mapped
    obtain ⟨first,one,onward⟩ := bind_ok mapped
    obtain ⟨others,two,same⟩ := bind_ok onward
    cases same
    obtain ⟨names,origin⟩ := ih two
    unfold newRoot at one
    split at one
    · cases one
    · rename_i pos here
      obtain ⟨c,stored,onward'⟩ := bind_ok one
      obtain ⟨at_,slot,same⟩ := bind_ok onward'
      cases same
      refine ⟨by rw [List.map_cons,List.map_cons,names],?_⟩
      intro other member
      rcases List.mem_cons.mp member with rfl | later
      · exact ⟨root,List.mem_cons_self,pos,c,rfl,here,getPos_parts stored,getPos_parts slot⟩
      · obtain ⟨old,listed,rest⟩ := origin other later
        exact ⟨old,List.mem_cons_of_mem _ listed,rest⟩

theorem kept_sublist (shape : Shape index u.replaced) : ((kept index u).map Chunk.id).Sublist (index.chunks.map Chunk.id) := by
  have ids : ∀ pairs : List (Chunk × Nat), (∀ c ∈ pairs, index.chunks[c.2]? = some c.1) →
      ((pairs.filterMap fun c => if u.removed.contains c.1.id then none else some ((u.replaced c.2).getD c.1)).map Chunk.id).Sublist
        (pairs.map fun c => c.1.id) := by
    intro pairs stored
    induction pairs with
    | nil => exact List.Sublist.refl _
    | cons pair rest ih =>
      have later := ih fun c member => stored c (List.mem_cons_of_mem _ member)
      rw [List.filterMap_cons]
      split
      · exact later.cons _
      · rename_i chosen
        obtain ⟨_,⟨⟩⟩ := Option.ite_none_left_eq_some.mp chosen
        rw [List.map_cons,List.map_cons,current_id shape.steady (stored pair List.mem_cons_self)]
        exact later.cons_cons _
  have whole := ids index.chunks.zipIdx fun c member => List.mem_zipIdx_iff_getElem?.mp member
  have same : index.chunks.zipIdx.map (fun c => c.1.id) = index.chunks.map Chunk.id := by
    rw [← List.zipIdx_map_fst 0 index.chunks,List.map_map]
    simp only [List.zipIdx_map_fst]
    rfl
  rw [same] at whole
  exact whole

theorem finish_agrees (agrees : Agrees view index before) (apart : Apart (index.roots.map Prod.fst))
    (covers : Covers view (index.roots.map Prod.fst) before after dirty) (holds : Holds view index after dirty all [] u)
    (done : ∀ path ∈ dirty, path ∈ all) (finished : finish index u = .ok next) (valid : Valid next) :
    Agrees view next after ∧ next.roots.map Prod.fst = index.roots.map Prod.fst ∧ next.limits = index.limits ∧ Budgeted next := by
  obtain ⟨table,roots,placed,mapped,few,small,rfl⟩ := finish_parts finished
  obtain ⟨names,origin⟩ := newRoots_parts mapped
  have ranges := holds.range
  have separate := holds.apart
  simp only [List.map_nil,List.append_nil] at ranges separate
  have distinct : ((kept index u ++ u.added).map Chunk.id).Nodup := by
    rw [List.map_append]
    refine List.nodup_append.mpr ⟨agrees.distinct.sublist (kept_sublist holds.shape),separate,?_⟩
    rintro id left _ right rfl
    obtain ⟨c,stored,same⟩ := List.mem_map.mp ((kept_sublist holds.shape).subset left)
    have low := agrees.valid.ids c stored
    have high := (ranges id right).1
    omega
  have exact_ : Exact (kept index u ++ u.added) table := by
    intro i c found
    have slot := place_exact distinct placed i c found
    rwa [Nat.zero_add] at slot
  have grown : ∀ root ∈ roots, ∃ pos c, root.2 = some pos ∧ (kept index u ++ u.added)[pos]? = some c ∧
      Grown ((kept index u ++ u.added).map (Chunk.seen view)) (after.seen view) c.id root.1 := by
    intro root member
    obtain ⟨old,listed,pos,stored,path,here,inside,slot⟩ := origin root member
    have reached : Reached index u.replaced root.1 pos := by
      refine .root ?_
      rw [← path,← here]
      exact listed
    obtain ⟨c,stored',there,inside',_,_,id,_⟩ := reached_chunk agrees holds.shape reached
    rw [inside] at inside'
    cases inside'
    have below := grown_after agrees covers holds done after.depth (Nat.le_add_left _ _) reached there
    rw [id] at below
    obtain ⟨at_,slot',_⟩ := grown_dfs (exact_seen view exact_) below
    rw [slot] at slot'
    have position : root.2 = some at_ := Option.some.inj slot'
    rw [position] at slot
    obtain ⟨d,found,named⟩ := valid.pointers stored.id at_ slot
    exact ⟨at_,d,position,found,by rw [named]; exact below⟩
  have mirrored : Agrees view ⟨kept index u ++ u.added,table,roots,totalRecs (kept index u ++ u.added),u.nextId,index.limits,false⟩ after :=
    ⟨valid,distinct,exact_,grown⟩
  exact ⟨mirrored,names,rfl,whole_budgeted mirrored (by rw [names]; exact apart) rfl few small⟩

theorem workOrder_mem (member : path ∈ dirty) : path ∈ workOrder dirty := by
  unfold workOrder
  rw [List.mem_dedup,(List.perm_insertionSort _ _).mem_iff]
  exact member

theorem apply_agrees (agrees : Agrees view index before) (apart : Apart (index.roots.map Prod.fst))
    (covers : Covers view (index.roots.map Prod.fst) before after dirty) (applied : apply after.disk schedule index dirty = .ok next) :
    Agrees view next after ∧ next.roots.map Prod.fst = index.roots.map Prod.fst ∧ next.limits = index.limits ∧ Budgeted next := by
  have valid := apply_valid agrees.valid applied
  unfold apply at applied
  split at applied
  · cases applied
  · obtain ⟨u,looped,finished⟩ := bind_ok applied
    obtain ⟨all,holds,done,_⟩ := workLoop_holds agrees apart (starts_holds agrees covers) (Nat.lt_succ_self _) looped
    exact finish_agrees agrees apart covers holds (fun path member => done path (workOrder_mem member)) finished valid

end Outcome

def advance (s : Snapshot × Index) (event : Snapshot × Schedule × List Path) : Option (Snapshot × Index) :=
  (step s.2 (event.1.disk,event.2)).map fun next => (event.1,next)

structure Mirrors (view : View) (roots : List Path) (limits : Limits) (s : Snapshot × Index) : Prop where
  agrees : Agrees view s.2 s.1
  roots : s.2.roots.map Prod.fst = roots
  limits : s.2.limits = limits
  budgeted : Budgeted s.2

theorem advance_mirrors (apart : Apart roots) (mirrors : Mirrors view roots limits s) (covers : Covers view roots s.1 event.1 event.2.2)
    (moved : advance s event = some next) : Mirrors view roots limits next := by
  unfold advance step at moved
  obtain ⟨index,applied,rfl⟩ := Option.map_eq_some_iff.mp moved
  split at applied
  · rename_i outcome
    cases applied
    have same := mirrors.roots
    subst same
    obtain ⟨agrees,names,limits',budgeted⟩ := apply_agrees mirrors.agrees apart covers outcome
    exact ⟨agrees,names,limits'.trans mirrors.limits,budgeted⟩
  · cases applied

theorem build_mirrors (view : View) (opened : ∀ root ∈ roots, (tree.listing root).isSome)
    (built : build tree.disk schedule roots limits = some index) : Mirrors view roots limits (tree,index) := by
  obtain ⟨agrees,names⟩ := build_agrees view opened built
  obtain ⟨_,_,_,_,_,_,same⟩ := build_parts built
  exact ⟨agrees,names,same,build_budgeted built⟩

def homeTree (folder : Row) (files : List Row) (named : folder.name = "docs") (apart : (files.map Row.name).Nodup)
    (flat : ∀ row ∈ files, row.walkInto = false) : Snapshot where
  listing path := if path = ["home"] then some [folder] else if path = ["home","docs"] then some files else none
  depth := 3
  distinct path rows listed := by
    split at listed
    · cases listed
      simp
    · split at listed
      · cases listed
        exact apart
      · cases listed
  nested path rows row listed member walks := by
    split at listed
    · rename_i home
      cases listed
      rw [List.mem_singleton.mp member,named,home]
      rfl
    · split at listed
      · cases listed
        rw [flat row member] at walks
        cases walks
      · cases listed
  bounded path rows listed := by
    split at listed
    · rename_i home
      rw [home]
      decide
    · split at listed
      · rename_i docs
        rw [docs]
        decide
      · cases listed

def emptyFolder : Snapshot := homeTree ⟨"docs",⟨⟨0,1,1,0⟩,true,false,""⟩,true⟩ [] rfl List.nodup_nil (by simp)
def filledFolder : Snapshot := homeTree ⟨"docs",⟨⟨0,2,2,0⟩,true,false,""⟩,true⟩ [⟨"notes",⟨⟨7,2,2,0⟩,false,false,""⟩,false⟩] rfl (by simp) (by simp)

end RemoteFileExplorer.IndexRuns
