import RemoteFileExplorer.IndexMirror

namespace RemoteFileExplorer.IndexListing
open FileTree DirectoryIndex IndexBounds IndexMirror

-- What a walk of a directory lists, depth first. A directory that cannot be
-- opened or read is an entry with nothing below it.
def walkItems (disk : Disk) : Nat → Path → List Item
  | 0,_ => []
  | depth + 1,path => (disk.entries path).elim [] fun rows => (shownRows path rows).flatMap fun row =>
    ⟨path,row.name,row.attrs⟩::if row.walkInto && disk.opensDir (path ++ [row.name]) then walkItems disk depth (path ++ [row.name]) else []

def findChunk (chunks : List Chunk) (id : Nat) : Option Chunk := chunks.find? fun c => c.id == id

def itemsFrom (chunks : List Chunk) : Nat → Nat → List Item
  | 0,_ => []
  | fuel + 1,id => (findChunk chunks id).elim [] fun c => c.recs.flatMap fun r => ⟨c.dirPath,r.name,r.attrs⟩::r.child.elim [] (itemsFrom chunks fuel)

section Chunks
variable {chunks others : List Chunk}

theorem findChunk_none (absent : ∀ c ∈ chunks, c.id ≠ k) : findChunk chunks k = none := by
  unfold findChunk
  rw [List.find?_eq_none]
  intro c member
  simpa using absent c member

theorem findChunk_mem (found : findChunk chunks k = some c) : c ∈ chunks ∧ c.id = k :=
  ⟨List.mem_of_find?_eq_some found,by simpa using List.find?_some found⟩

theorem findChunk_of {c : Chunk} (distinct : (chunks.map Chunk.id).Nodup) (member : c ∈ chunks) : findChunk chunks c.id = some c := by
  unfold findChunk
  have present : (chunks.find? fun d => d.id == c.id).isSome := List.find?_isSome.mpr ⟨c,member,by simp⟩
  obtain ⟨d,found⟩ := Option.isSome_iff_exists.mp present
  have same : d.id = c.id := by simpa using List.find?_some found
  rw [found,List.inj_on_of_nodup_map distinct (List.mem_of_find?_eq_some found) member same]

theorem findChunk_perm (distinct : (chunks.map Chunk.id).Nodup) (shuffled : others.Perm chunks) (k : Nat) :
    findChunk others k = findChunk chunks k := by
  cases found : findChunk chunks k with
  | none =>
    refine findChunk_none fun c member same => ?_
    have here := findChunk_of distinct (shuffled.mem_iff.mp member)
    rw [same,found] at here
    cases here
  | some c =>
    obtain ⟨member,rfl⟩ := findChunk_mem found
    exact findChunk_of ((shuffled.map Chunk.id).nodup_iff.mpr distinct) (shuffled.mem_iff.mpr member)

theorem findChunk_append (k : Nat) : findChunk (chunks ++ others) k = (findChunk chunks k).or (findChunk others k) := List.find?_append

theorem itemsFrom_missing (fuel : Nat) (absent : findChunk chunks k = none) : itemsFrom chunks fuel k = [] := by
  cases fuel with
  | zero => rfl
  | succ fuel =>
    unfold itemsFrom
    rw [absent]
    rfl

theorem itemsFrom_congr (inside : Nat → Prop) (agree : ∀ j, inside j → findChunk chunks j = findChunk others j)
    (closed : ∀ j c, inside j → findChunk chunks j = some c → ∀ r ∈ c.recs, ∀ k, r.child = some k → inside k) (fuel : Nat) (start : inside k) :
    itemsFrom chunks fuel k = itemsFrom others fuel k := by
  induction fuel generalizing k with
  | zero => rfl
  | succ fuel ih =>
    unfold itemsFrom
    rw [← agree k start]
    cases found : findChunk chunks k with
    | none => rfl
    | some c =>
      refine List.flatMap_congr fun r member => ?_
      cases points : r.child with
      | none => rfl
      | some j => rw [Option.elim_some,Option.elim_some,ih (closed k c start found r member j points)]

theorem itemsFrom_perm (distinct : (chunks.map Chunk.id).Nodup) (shuffled : others.Perm chunks) (fuel k : Nat) :
    itemsFrom others fuel k = itemsFrom chunks fuel k :=
  itemsFrom_congr (fun _ => True) (fun j _ => findChunk_perm distinct shuffled j) (fun _ _ _ _ _ _ _ _ => trivial) fuel trivial

theorem findChunk_rename (rename : Equiv.Perm Nat) (k : Nat) :
    findChunk (chunks.map (renameChunk rename)) (rename k) = (findChunk chunks k).map (renameChunk rename) := by
  unfold findChunk
  rw [List.find?_map]
  congr 2
  funext c
  simp [renameChunk]

theorem itemsFrom_rename (chunks : List Chunk) (rename : Equiv.Perm Nat) (fuel k : Nat) :
    itemsFrom (chunks.map (renameChunk rename)) fuel (rename k) = itemsFrom chunks fuel k := by
  induction fuel generalizing k with
  | zero => rfl
  | succ fuel ih =>
    unfold itemsFrom
    rw [findChunk_rename]
    cases findChunk chunks k with
    | none => rfl
    | some c =>
      simp only [Option.map_some,Option.elim_some,renameChunk,List.flatMap_map]
      refine List.flatMap_congr fun r _ => ?_
      cases r.child with
      | none => rfl
      | some j => simp only [Option.map_some,Option.elim_some,ih]

end Chunks

section Walks
variable {disk : Disk}

def Closed (next : Nat) (walked : List Chunk × Nat) : Prop :=
  ∀ c ∈ walked.1, ∀ r ∈ c.recs, ∀ k, r.child = some k → next ≤ k ∧ k < walked.2

theorem walkSubs_closed (disk : Disk) (path : Path) {walk : Path → Nat → Nat → List Chunk × Nat} (blocks : ∀ path id next, id < next → Block [id] next (walk path id next))
    (closes : ∀ path id next, id < next → Closed next (walk path id next)) {subs : List (Name × Nat)} (given : ∀ sub ∈ subs, sub.2 < next)
    (apart : (subs.map Prod.snd).Nodup) : Closed next (walkSubs disk walk path subs next) := by
  induction subs generalizing next with
  | nil =>
    intro c member
    cases member
  | cons sub rest ih =>
    obtain ⟨name,id⟩ := sub
    obtain ⟨_,restApart⟩ := List.nodup_cons.mp apart
    have restGiven : ∀ sub ∈ rest, sub.2 < next := fun sub member => given sub (List.mem_cons_of_mem _ member)
    unfold walkSubs
    split
    · have mine : id < next := given (name,id) List.mem_cons_self
      have below := blocks (path ++ [name]) id next mine
      have laterGiven : ∀ sub ∈ rest, sub.2 < (walk (path ++ [name]) id next).2 :=
        fun sub member => Nat.lt_of_lt_of_le (restGiven sub member) below.grows
      have others := walkSubs_block disk path blocks laterGiven restApart
      intro c member r inside k points
      rcases List.mem_append.mp member with low | high
      · have range := closes (path ++ [name]) id next mine c low r inside k points
        exact ⟨range.1,Nat.lt_of_lt_of_le range.2 others.grows⟩
      · have range := ih laterGiven restApart c high r inside k points
        exact ⟨Nat.le_trans below.grows range.1,range.2⟩
    · exact ih restGiven restApart

theorem walkDir_closed (disk : Disk) (depth : Nat) (path : Path) (id next : Nat) (given : id < next) :
    Closed next (walkDir disk depth path id next) := by
  induction depth generalizing path id next with
  | zero =>
    intro c member
    cases member
  | succ depth ih =>
    unfold walkDir
    split
    · intro c member
      cases member
    · rename_i chunk subs middle listed
      obtain ⟨rows,_,rfl,rfl,rfl⟩ := listDir_parts listed
      obtain ⟨grows,inside,apart⟩ := record_ids (fun _ => none) (shownRows path rows) next
      have below := walkSubs_block disk path (walkDir_block disk depth) (fun sub member => (inside sub member).2) apart
      have closed := walkSubs_closed disk path (walkDir_block disk depth) ih (fun sub member => (inside sub member).2) apart
      intro c member r recorded k points
      rcases List.mem_cons.mp member with rfl | later
      · rcases record_children (fun _ => none) (shownRows path rows) next r recorded k points with known | ⟨_,sub⟩
        · cases known
        · have range := inside _ sub
          exact ⟨range.1,Nat.lt_of_lt_of_le range.2 below.grows⟩
      · have range := closed c later r recorded k points
        exact ⟨Nat.le_trans grows range.1,range.2⟩

theorem itemsFrom_left (block : Block [k] next walked) (closed : Closed next walked)
    (apart : ∀ c ∈ others, c.id ≠ k ∧ (c.id < next ∨ walked.2 ≤ c.id)) (fuel : Nat) :
    itemsFrom (walked.1 ++ others) fuel k = itemsFrom walked.1 fuel k := by
  refine (itemsFrom_congr (fun j => j = k ∨ (next ≤ j ∧ j < walked.2)) ?_ ?_ fuel (.inl rfl)).symm
  · intro j inside
    rw [findChunk_append]
    have absent : findChunk others j = none := by
      refine findChunk_none fun c member same => ?_
      have away := apart c member
      rcases inside with rfl | range
      · exact away.1 same
      · omega
    rw [absent,Option.or_none]
  · intro j c _ found r member i points
    exact .inr (closed c (findChunk_mem found).1 r member i points)

theorem itemsFrom_right (walked others : List Chunk) (inside : Nat → Prop) (outside : ∀ c ∈ walked, ¬ inside c.id)
    (closed : ∀ c ∈ others, ∀ r ∈ c.recs, ∀ k, r.child = some k → inside k) (fuel : Nat) (start : inside first) :
    itemsFrom (walked ++ others) fuel first = itemsFrom others fuel first := by
  refine (itemsFrom_congr inside ?_ ?_ fuel start).symm
  · intro j member
    have absent : findChunk walked j = none := findChunk_none fun c listed same => outside c listed (by rw [same]; exact member)
    rw [findChunk_append,absent,Option.none_or]
  · exact fun j c _ found r member k points => closed c (findChunk_mem found).1 r member k points

theorem walkSubs_items (disk : Disk) (path : Path) {walk : Path → Nat → Nat → List Chunk × Nat} {lists : Path → List Item} (fuel : Nat)
    (blocks : ∀ path id next, id < next → Block [id] next (walk path id next)) (closes : ∀ path id next, id < next → Closed next (walk path id next))
    (items : ∀ path id next, id < next → (∀ c ∈ (walk path id next).1, c.dirPath.length < path.length + fuel) →
      itemsFrom (walk path id next).1 fuel id = lists path)
    {subs : List (Name × Nat)} (given : ∀ sub ∈ subs, sub.2 < next) (apart : (subs.map Prod.snd).Nodup)
    (short : ∀ c ∈ (walkSubs disk walk path subs next).1, c.dirPath.length < path.length + 1 + fuel) (member : (name,k) ∈ subs) :
    itemsFrom (walkSubs disk walk path subs next).1 fuel k = if disk.opensDir (path ++ [name]) then lists (path ++ [name]) else [] := by
  induction subs generalizing next with
  | nil => cases member
  | cons sub rest ih =>
    obtain ⟨first,id⟩ := sub
    obtain ⟨away,restApart⟩ := List.nodup_cons.mp apart
    have mine : id < next := given (first,id) List.mem_cons_self
    have restGiven : ∀ sub ∈ rest, sub.2 < next := fun sub member => given sub (List.mem_cons_of_mem _ member)
    have unlike : ∀ sub ∈ rest, sub.2 ≠ id := by
      intro sub listed same
      exact away (List.mem_map.mpr ⟨sub,listed,same⟩)
    unfold walkSubs at short ⊢
    by_cases opens : disk.opensDir (path ++ [first])
    · rw [if_pos opens] at short ⊢
      have below := blocks (path ++ [first]) id next mine
      have laterGiven : ∀ sub ∈ rest, sub.2 < (walk (path ++ [first]) id next).2 :=
        fun sub member => Nat.lt_of_lt_of_le (restGiven sub member) below.grows
      have others := walkSubs_block disk path blocks laterGiven restApart
      have closed := walkSubs_closed disk path blocks closes laterGiven restApart
      have least := below.grows
      rcases List.mem_cons.mp member with same | later
      · cases same
        rw [if_pos opens]
        rw [itemsFrom_left below (closes _ _ _ mine) ?_ fuel,items _ _ _ mine]
        · intro c listed
          have bound := short c (List.mem_append_left _ listed)
          rw [List.length_append,List.length_singleton]
          exact bound
        · intro c listed
          rcases others.ids c listed with own | new
          · obtain ⟨sub,listed',same⟩ := List.mem_map.mp own
            have bound := restGiven sub listed'
            exact ⟨by rw [← same]; exact unlike sub listed',.inl (by omega)⟩
          · exact ⟨by omega,.inr new.1⟩
      · have range := itemsFrom_right (walk (path ++ [first]) id next).1
          (walkSubs disk walk path rest (walk (path ++ [first]) id next).2).1
          (fun j => j ∈ rest.map Prod.snd ∨ (walk (path ++ [first]) id next).2 ≤ j) ?_ ?_ fuel (.inl (List.mem_map.mpr ⟨_,later,rfl⟩))
        · rw [range]
          exact ih laterGiven restApart (fun c listed => short c (List.mem_append_right _ listed)) later
        · intro c listed both
          rcases both with own | high
          · obtain ⟨sub,listed',same⟩ := List.mem_map.mp own
            have bound := restGiven sub listed'
            rcases below.ids c listed with single | new
            · exact unlike sub listed' (same.trans (List.mem_singleton.mp single))
            · omega
          · rcases below.ids c listed with single | new
            · have := List.mem_singleton.mp single
              omega
            · omega
        · exact fun c listed r recorded j points => .inr (closed c listed r recorded j points).1
    · rw [if_neg opens] at short ⊢
      rcases List.mem_cons.mp member with same | later
      · cases same
        rw [if_neg opens]
        refine itemsFrom_missing fuel (findChunk_none fun c listed same => ?_)
        have others := walkSubs_block disk path blocks restGiven restApart
        rcases others.ids c listed with own | new
        · obtain ⟨sub,listed',equal⟩ := List.mem_map.mp own
          exact unlike sub listed' (equal.trans same)
        · omega
      · exact ih restGiven restApart short later

theorem walkDir_items (disk : Disk) (depth : Nat) (path : Path) (id next fuel : Nat) (given : id < next)
    (short : ∀ c ∈ (walkDir disk depth path id next).1, c.dirPath.length < path.length + fuel) :
    itemsFrom (walkDir disk depth path id next).1 fuel id = walkItems disk depth path := by
  induction depth generalizing path id next fuel with
  | zero => exact itemsFrom_missing fuel rfl
  | succ depth ih =>
    unfold walkDir at short ⊢
    unfold walkItems
    cases listed : listDir disk path id (fun _ => none) next with
    | none =>
      unfold listDir at listed
      rw [Option.map_eq_none_iff] at listed
      rw [listed]
      exact itemsFrom_missing fuel rfl
    | some outcome =>
      obtain ⟨chunk,subs,middle⟩ := outcome
      rw [listed] at short
      obtain ⟨rows,read,rfl,rfl,rfl⟩ := listDir_parts listed
      have same := record_rows (fun _ => none) (shownRows path rows) next
      have children := record_children (fun _ => none) (shownRows path rows) next
      obtain ⟨grows,inside,apart⟩ := record_ids (fun _ => none) (shownRows path rows) next
      clear listed
      generalize record (fun _ => none) (shownRows path rows) next = recorded at *
      obtain ⟨recs,subs,middle⟩ := recorded
      have subGiven : ∀ sub ∈ subs, sub.2 < middle := fun sub member => (inside sub member).2
      have closed := walkSubs_closed disk path (walkDir_block disk depth) (walkDir_closed disk depth) subGiven apart
      have deep := short _ List.mem_cons_self
      dsimp only at deep
      obtain ⟨fuel,rfl⟩ : ∃ less, fuel = less + 1 := ⟨fuel - 1,by omega⟩
      have found : findChunk (⟨id,path,recs⟩::(walkSubs disk (walkDir disk depth) path subs middle).1) id = some ⟨id,path,recs⟩ := by
        simp [findChunk]
      unfold itemsFrom
      rw [read,found,Option.elim_some,Option.elim_some,← same,List.flatMap_map]
      refine List.flatMap_congr fun r member => ?_
      cases points : r.child with
      | none => simp [Rec.row,points]
      | some k =>
        rcases children r member k points with known | ⟨_,sub⟩
        · cases known
        · have right := itemsFrom_right [⟨id,path,recs⟩] (walkSubs disk (walkDir disk depth) path subs middle).1 (fun j => next ≤ j)
            (fun c listed high => by rw [List.mem_singleton.mp listed] at high; exact absurd given (Nat.not_lt.mpr high))
            (fun c listed s recorded j points' => Nat.le_trans grows (closed c listed s recorded j points').1) fuel (inside _ sub).1
          rw [List.singleton_append] at right
          have lower := walkSubs_items disk path fuel (walkDir_block disk depth) (walkDir_closed disk depth)
            (fun other j after small => ih other j after fuel small) subGiven apart
            (fun c listed => by have := short c (List.mem_cons_of_mem _ listed); omega) sub
          rw [Option.elim_some,right,lower]
          simp [Rec.row,points]

theorem parWalk_items (disk : Disk) (schedule : Schedule) (path : Path) (fuel : Nat) (given : k < next)
    (short : ∀ c ∈ (parWalk disk schedule path k next).1, c.dirPath.length < path.length + fuel) :
    itemsFrom (parWalk disk schedule path k next).1 fuel k = walkItems disk disk.depth path := by
  have block := parWalk_block disk schedule path given
  have walked := fun small => walkDir_items disk disk.depth path k next fuel given small
  unfold parWalk at short block ⊢
  generalize walkDir disk disk.depth path k next = outcome at *
  obtain ⟨chunks,last⟩ := outcome
  have shuffled := schedule.perm (chunks.map (renameChunk (schedule.rename next last)))
  have small : ∀ c ∈ chunks, c.dirPath.length < path.length + fuel := fun c member =>
    short (renameChunk (schedule.rename next last) c) (shuffled.mem_iff.mpr (List.mem_map_of_mem member))
  have renamed := itemsFrom_rename chunks (schedule.rename next last) fuel k
  rw [schedule.outside next last k (by omega)] at renamed
  have distinct := (shuffled.map Chunk.id).nodup_iff.mp block.distinct
  rw [itemsFrom_perm distinct shuffled,renamed,walked small]

theorem parWalk_closed (disk : Disk) (schedule : Schedule) (path : Path) (given : k < next) :
    Closed next (parWalk disk schedule path k next) := by
  have closed := walkDir_closed disk disk.depth path k next given
  unfold parWalk
  generalize walkDir disk disk.depth path k next = outcome at *
  obtain ⟨chunks,last⟩ := outcome
  intro c member r recorded j points
  rw [(schedule.perm _).mem_iff] at member
  obtain ⟨old,listed,rfl⟩ := List.mem_map.mp member
  obtain ⟨first,inside,rfl⟩ := List.mem_map.mp recorded
  obtain ⟨i,child,rfl⟩ := Option.map_eq_some_iff.mp points
  have range := closed old listed first inside i child
  -- A permutation that moves only what lies in a range stays inside it.
  by_contra escapes
  have fixed := schedule.outside next last _ escapes
  rw [(schedule.rename next last).injective fixed] at escapes
  exact escapes range

theorem walkRoots_closed (disk : Disk) (schedule : Schedule) (roots : List Path) (next : Nat) :
    Closed next (walkRoots disk schedule roots next).2 := by
  induction roots generalizing next with
  | nil =>
    intro c member
    cases member
  | cons root rest ih =>
    obtain ⟨walked,same,split⟩ := walkRoots_cons disk schedule root rest next
    obtain ⟨later,_,_⟩ := walkRoots_block disk schedule rest walked.2
    have first : Closed (next + 1) walked ∧ next + 1 ≤ walked.2 := by
      rw [same]
      split
      · exact ⟨parWalk_closed disk schedule root (Nat.lt_succ_self next),(parWalk_block disk schedule root (Nat.lt_succ_self next)).grows⟩
      · exact ⟨fun c member => (by cases member),Nat.le_refl _⟩
    rw [split]
    intro c member r recorded k points
    dsimp only
    rcases List.mem_append.mp member with mine | other
    · have range := first.1 c mine r recorded k points
      omega
    · have range := ih walked.2 c other r recorded k points
      omega

theorem walkRoots_items (disk : Disk) (schedule : Schedule) (fuel : Nat) (roots : List Path) (next : Nat)
    (short : ∀ c ∈ (walkRoots disk schedule roots next).2.1, c.dirPath.length < fuel) :
    (walkRoots disk schedule roots next).1.map Prod.fst = roots ∧
    ∀ root ∈ (walkRoots disk schedule roots next).1, root.2 < (walkRoots disk schedule roots next).2.2 ∧
      next ≤ root.2 ∧ itemsFrom (walkRoots disk schedule roots next).2.1 fuel root.2 = if disk.opensRoot root.1 then walkItems disk disk.depth root.1 else [] := by
  induction roots generalizing next with
  | nil => simp [walkRoots]
  | cons root rest ih =>
    obtain ⟨walked,same,split⟩ := walkRoots_cons disk schedule root rest next
    obtain ⟨later,inside,_⟩ := walkRoots_block disk schedule rest walked.2
    have closed := walkRoots_closed disk schedule rest walked.2
    rw [split] at short ⊢
    obtain ⟨names,below⟩ := ih walked.2 fun c member => short c (List.mem_append_right _ member)
    have first : Block [next] (next + 1) walked ∧ Closed (next + 1) walked := by
      rw [same]
      split
      · exact ⟨parWalk_block disk schedule root (Nat.lt_succ_self next),parWalk_closed disk schedule root (Nat.lt_succ_self next)⟩
      · exact ⟨⟨Nat.le_refl _,by simp,by simp⟩,fun c member => (by cases member)⟩
    have grows := first.1.grows
    refine ⟨by rw [List.map_cons,names],?_⟩
    intro other member
    rcases List.mem_cons.mp member with rfl | listed
    · refine ⟨by dsimp only; omega,Nat.le_refl _,?_⟩
      rw [itemsFrom_left first.1 first.2 ?_ fuel]
      · by_cases opens : disk.opensRoot root
        · rw [if_pos opens] at same ⊢
          rw [same]
          refine parWalk_items disk schedule root fuel (Nat.lt_succ_self next) fun c member => ?_
          rw [← same] at member
          exact Nat.lt_add_left _ (short c (List.mem_append_left _ member))
        · rw [if_neg opens] at same ⊢
          rw [same]
          exact itemsFrom_missing fuel rfl
      · intro c member
        have range := inside c member
        exact ⟨by omega,.inr range.1⟩
    · obtain ⟨bound,low,items⟩ := below other listed
      refine ⟨bound,by omega,?_⟩
      rw [itemsFrom_right walked.1 _ (fun j => walked.2 ≤ j) ?_ ?_ fuel low,items]
      · intro c member high
        rcases first.1.ids c member with own | new
        · have := List.mem_singleton.mp own
          omega
        · omega
      · exact fun c member r recorded j points => (closed c member r recorded j points).1

end Walks

section Built
variable {chunks : List Chunk} {idToPos : List (Option Nat)}

theorem dfsFrom_items (distinct : (chunks.map Chunk.id).Nodup) (exact_ : Exact chunks idToPos) (pointers : Pointers chunks idToPos) (fuel : Nat)
    (here : chunks[pos]? = some c) : dfsFrom chunks idToPos fuel pos = some (itemsFrom chunks fuel c.id) := by
  induction fuel generalizing pos c with
  | zero => rfl
  | succ fuel ih =>
    unfold dfsFrom itemsFrom
    rw [here,Option.bind_some,findChunk_of distinct (List.mem_of_getElem? here),Option.elim_some]
    have each : ∀ r ∈ c.recs, dfsRec idToPos c.dirPath (dfsFrom chunks idToPos fuel) r =
        some (⟨c.dirPath,r.name,r.attrs⟩::r.child.elim [] (itemsFrom chunks fuel)) := by
      intro r _
      unfold dfsRec
      cases points : r.child with
      | none => simp [childPos,points]
      | some k =>
        cases slot : childPos idToPos r with
        | none =>
          have absent : findChunk chunks k = none := by
            refine findChunk_none fun d member same => ?_
            obtain ⟨i,found⟩ := List.mem_iff_getElem?.mp member
            have placed := exact_ i d found
            rw [same] at placed
            simp [childPos,points,placed] at slot
          rw [Option.elim_some,itemsFrom_missing fuel absent]
        | some below =>
          obtain ⟨j,child,placed⟩ := childPos_parts slot
          rw [points] at child
          cases child
          obtain ⟨d,found,same⟩ := pointers k below placed
          dsimp only
          rw [ih found,same]
          rfl
    rw [mapM_map each,Option.map_some,List.flatMap_def]

theorem build_lists (built : build disk schedule roots limits = some index) :
    dfs index.chunks index.idToPos index.roots =
      some (roots.flatMap fun root => if disk.opensRoot root then walkItems disk disk.depth root else []) := by
  obtain ⟨same,again,valid⟩ := build_valid disk schedule roots limits
  rw [built] at again
  cases again
  obtain ⟨items,chunks,placed,roots_,_⟩ := build_parts built
  obtain ⟨_,_,apart⟩ := walkRoots_block disk schedule roots 0
  have shuffled : index.chunks.Perm (walkRoots disk schedule roots 0).2.1 := by
    rw [chunks]
    exact List.perm_insertionSort _ _
  have distinct : (index.chunks.map Chunk.id).Nodup := by
    rw [(shuffled.map Chunk.id).nodup_iff]
    exact apart
  have exact_ : Exact index.chunks index.idToPos := by
    intro i c found
    have slot := place_exact distinct placed i c found
    rwa [Nat.zero_add] at slot
  obtain ⟨names,below⟩ := walkRoots_items disk schedule (dfsDepth index.chunks) roots 0
    fun c member => dfsDepth_bounds (shuffled.mem_iff.mpr member)
  have each : ∀ root ∈ (walkRoots disk schedule roots 0).1, dfsRoot index.chunks index.idToPos (root.1,(index.idToPos[root.2]?).join) =
      some (if disk.opensRoot root.1 then walkItems disk disk.depth root.1 else []) := by
    intro root member
    obtain ⟨_,_,lists⟩ := below root member
    rw [← itemsFrom_perm apart shuffled] at lists
    unfold dfsRoot
    cases slot : (index.idToPos[root.2]?).join with
    | none =>
      have absent : findChunk index.chunks root.2 = none := by
        refine findChunk_none fun d listed equal => ?_
        obtain ⟨i,found⟩ := List.mem_iff_getElem?.mp listed
        have place := exact_ i d found
        rw [equal] at place
        rw [place] at slot
        cases slot
      rw [← lists,itemsFrom_missing _ absent]
    | some pos =>
      obtain ⟨d,found,named⟩ := valid.pointers root.2 pos (Option.join_eq_some_iff.mp slot)
      dsimp only
      rw [dfsFrom_items distinct exact_ valid.pointers _ found,named,lists]
  unfold dfs
  rw [roots_,List.mapM_map]
  rw [mapM_map (g := fun root => if disk.opensRoot root.1 then walkItems disk disk.depth root.1 else []) each]
  rw [Option.map_some,← names,List.flatMap_map,List.flatMap_def,names]

theorem build_sequence (built : build disk schedule roots limits = some index)
    (whole : index.truncated = false) :
    sequence index = some (roots.flatMap fun root => if disk.opensRoot root then walkItems disk disk.depth root else []) := by
  have lists := build_lists built
  have complete : ∀ (items : List Item) (entries bytes : Nat), (applyBudget limits items entries bytes).2 = false →
      (applyBudget limits items entries bytes).1 = entries + items.length := by
    intro items
    induction items with
    | nil => exact fun _ _ _ => rfl
    | cons item rest ih =>
      intro entries bytes fits
      unfold applyBudget at fits ⊢
      split at fits
      · cases fits
      · rename_i small
        rw [if_neg small,ih _ _ fits,List.length_cons]
        omega
  unfold build at built
  simp only [bind,Option.bind_eq_some_iff] at built
  obtain ⟨table,_,items,walked,same⟩ := built
  cases same
  rw [walked] at lists
  cases lists
  rw [Bool.or_eq_false_iff] at whole
  unfold DirectoryIndex.sequence
  dsimp only
  rw [walked,Option.map_some,complete _ 0 0 whole.2,List.take_of_length_le (by omega)]

end Built

end RemoteFileExplorer.IndexListing
