import RemoteFileExplorer.IndexReach

namespace RemoteFileExplorer.IndexUpdates
open FileTree DirectoryIndex IndexBounds IndexMirror IndexReach

-- An update under way: `done` has been re-listed or is not reached any more,
-- `pending` has an id and is still to be walked.
structure Holds (view : View) (index : Index) (after : Snapshot) (dirty done : List Path) (pending : List (Path × Nat)) (u : Update) : Prop where
  shape : Shape index u.replaced
  new : ∀ path pos c r k, Reached index u.replaced path pos → chunkAt index u.replaced pos = some c → r ∈ c.recs → r.child = some k →
    index.nextId ≤ k → Grown (u.added.map (Chunk.seen view)) (after.seen view) k (path ++ [r.name]) ∨ (path ++ [r.name],k) ∈ pending
  listed : ∀ path pos c rows, Reached index u.replaced path pos → chunkAt index u.replaced pos = some c → (path ∈ dirty → path ∈ done) →
    after.listing path = some rows → (c.recs.map Rec.row).map (Row.seen view) = (shownRows path rows).map (Row.seen view)
  fresh : ∀ f, f ∈ u.fresh ∨ f ∈ pending.map Prod.fst → (∃ root ∈ index.roots, root.1 <+: f ∧ root.1 ≠ f) ∧ ∀ pos, ¬ Reached index u.replaced f pos
  removed : ∀ id ∈ u.removed, ∀ path pos c, Reached index u.replaced path pos → chunkAt index u.replaced pos = some c → c.id ≠ id
  roots : ∀ root ∈ index.roots, root.1 ∈ done → (after.listing root.1).isSome
  opens : ∀ sub ∈ pending, (after.listing sub.1).isSome
  apart : (u.added.map Chunk.id ++ pending.map Prod.snd).Nodup
  range : ∀ id ∈ u.added.map Chunk.id ++ pending.map Prod.snd, index.nextId ≤ id ∧ id < u.nextId
  grows : index.nextId ≤ u.nextId

section Steps
variable {view : View} {index : Index} {before after : Snapshot} {dirty done : List Path} {pending : List (Path × Nat)} {u : Update}

theorem holds_done (holds : Holds view index after dirty done pending u) (path : Path)
    (away : (∀ pos, ¬ Reached index u.replaced path pos) ∨ after.listing path = none)
    (inner : ∀ root ∈ index.roots, root.1 ≠ path) : Holds view index after dirty (path::done) pending u := by
  refine ⟨holds.shape,holds.new,?_,holds.fresh,holds.removed,?_,holds.opens,holds.apart,holds.range,holds.grows⟩
  · intro other pos c rows reached here covered listed
    refine holds.listed other pos c rows reached here (fun marked => ?_) listed
    rcases List.mem_cons.mp (covered marked) with rfl | later
    · rcases away with unreached | gone
      · exact absurd reached (unreached pos)
      · rw [gone] at listed
        cases listed
    · exact later
  · intro root member finished
    rcases List.mem_cons.mp finished with same | later
    · exact absurd same (inner root member)
    · exact holds.roots root member later

theorem stat_of_row (listed : after.listing path = some rows) (member : row ∈ rows) :
    after.stat (path ++ [row.name]) = some row.attrs.stat := by
  have found : rows.find? (fun other => other.name == row.name) = some row := by
    have present : (rows.find? fun other => other.name == row.name).isSome := List.find?_isSome.mpr ⟨row,member,by simp⟩
    obtain ⟨other,search⟩ := Option.isSome_iff_exists.mp present
    have named : other.name = row.name := by simpa using List.find?_some search
    rw [search,List.inj_on_of_nodup_map (after.distinct path rows listed) (List.mem_of_find?_eq_some search) member named]
  unfold Snapshot.stat
  simp [listed,found]

theorem setStat_names (name : Name) (stat : Stat) (c : Chunk) : (setStat name stat c).recs.map Rec.name = c.recs.map Rec.name := by
  simp only [setStat,List.map_map]
  refine List.map_congr_left fun r _ => ?_
  simp only [Function.comp_apply]
  split <;> rfl

theorem setStat_mem (member : r ∈ (setStat name stat c).recs) : ∃ old ∈ c.recs, old.name = r.name ∧ old.child = r.child := by
  obtain ⟨old,inside,rfl⟩ := List.mem_map.mp member
  refine ⟨old,inside,?_⟩
  split <;> exact ⟨rfl,rfl⟩

-- A listing that is current stays so when the fresh stat of one entry is
-- written into it.
theorem setStat_seen (listed : after.listing path = some rows)
    (same : (c.recs.map Rec.row).map (Row.seen view) = (shownRows path rows).map (Row.seen view)) (fresh : after.stat (path ++ [name]) = some stat) :
    ((setStat name stat c).recs.map Rec.row).map (Row.seen view) = (shownRows path rows).map (Row.seen view) := by
  rw [← same]
  simp only [setStat,List.map_map]
  refine List.map_congr_left fun r member => ?_
  simp only [Function.comp_apply]
  split
  · rename_i named
    have shown : Row.seen view (Rec.row r) ∈ (shownRows path rows).map (Row.seen view) := by
      rw [← same]
      exact List.mem_map_of_mem (List.mem_map_of_mem member)
    obtain ⟨row,inside,equal⟩ := List.mem_map.mp shown
    have name' : row.name = r.name := congrArg Row.name equal
    have attrs : view.of row.attrs = view.of r.attrs := congrArg Row.attrs equal
    have known := stat_of_row listed (mem_shownRows inside)
    rw [name',named,fresh] at known
    cases known
    simp only [Row.seen,Rec.row]
    rw [view.restat r.attrs row.attrs attrs.symm,attrs]
  · rfl

theorem swap_fewer (valid : Valid index) (here : chunkAt index replaced pos = some old)
    (records : ∀ r ∈ chunk.recs, ∀ k, r.child = some k → k < index.nextId → ∃ first ∈ old.recs, first.name = r.name ∧ first.child = some k)
    (reached : Reached index (Function.update replaced pos (some chunk)) path at_) : Reached index replaced path at_ := by
  obtain ⟨stored,inside,_⟩ := Option.map_eq_some_iff.mp here
  refine reached_fewer ?_ reached
  intro other c r below known member points
  by_cases same : other = pos
  · subst same
    rw [chunkAt_self inside] at known
    cases known
    obtain ⟨k,child,bound,slot⟩ := child_old valid points
    obtain ⟨first,listed,name,child'⟩ := records r member k child bound
    exact ⟨old,here,first,listed,name,by simp [childPos,child',slot]⟩
  · rw [chunkAt_other same] at known
    exact ⟨c,known,r,member,rfl,points⟩

theorem restat_fewer (valid : Valid index) (here : chunkAt index replaced pos = some parent)
    (reached : Reached index (Function.update replaced pos (some (setStat name stat parent))) path at_) : Reached index replaced path at_ := by
  refine swap_fewer valid here ?_ reached
  intro r member k points _
  obtain ⟨old,listed,name',child⟩ := setStat_mem member
  exact ⟨old,listed,name',child.trans points⟩

section
variable (agrees : Agrees view index before) (holds : Holds view index after dirty done pending u)
include agrees holds

theorem restat_holds (reached : Reached index u.replaced path pos)
    (here : chunkAt index u.replaced pos = some parent) (fresh : after.stat (path ++ [name]) = some stat) :
    Holds view index after dirty done pending {u with replaced := Function.update u.replaced pos (some (setStat name stat parent))} := by
  obtain ⟨again,stored,known,inside,dir,dir',id,distinct⟩ := reached_chunk agrees holds.shape reached
  rw [here] at known
  cases known
  have origin : ∀ at_ c, chunkAt index (Function.update u.replaced pos (some (setStat name stat parent))) at_ = some c →
      ∃ d, chunkAt index u.replaced at_ = some d ∧ d.id = c.id ∧ ∀ r ∈ c.recs, ∃ old ∈ d.recs, old.name = r.name ∧ old.child = r.child := by
    intro at_ c known
    by_cases same : at_ = pos
    · subst same
      rw [chunkAt_self inside] at known
      cases known
      exact ⟨parent,here,rfl,fun r member => setStat_mem member⟩
    · rw [chunkAt_other same] at known
      exact ⟨c,known,rfl,fun r member => ⟨r,member,rfl,rfl⟩⟩
  refine ⟨?_,?_,?_,?_,?_,holds.roots,holds.opens,holds.apart,holds.range,holds.grows⟩
  · refine shape_update holds.shape inside id (dir'.trans dir.symm) (by rw [setStat_names]; exact distinct) ?_
    intro r member k points bound
    obtain ⟨old,listed,name',child⟩ := setStat_mem member
    rw [← name']
    exact shape_known holds.shape here inside old listed k (child.trans points) bound
  · intro other at_ c r k walked known member points bound
    obtain ⟨d,known',_,records⟩ := origin at_ c known
    obtain ⟨old,listed,name',child⟩ := records r member
    rw [← name']
    exact holds.new other at_ d old k (restat_fewer agrees.valid here walked) known' listed (child.trans points) bound
  · intro other at_ c rows walked known covered listed
    have old := restat_fewer agrees.valid here walked
    by_cases same : at_ = pos
    · subst same
      rw [chunkAt_self inside] at known
      cases known
      cases reached_path agrees (reached_before agrees.valid holds.shape reached) (reached_before agrees.valid holds.shape old)
      exact setStat_seen listed (holds.listed path at_ parent rows reached here covered listed) fresh
    · rw [chunkAt_other same] at known
      exact holds.listed other at_ c rows old known covered listed
  · intro f member
    obtain ⟨root,unreached⟩ := holds.fresh f member
    exact ⟨root,fun at_ walked => unreached at_ (restat_fewer agrees.valid here walked)⟩
  · intro gone member other at_ c walked known
    obtain ⟨d,known',same,_⟩ := origin at_ c known
    rw [← same]
    exact holds.removed gone member other at_ d (restat_fewer agrees.valid here walked) known'

theorem patchParent_holds (patched : patchParent after.disk index u.replaced path = .ok next) : Holds view index after dirty done pending {u with replaced := next} := by
  unfold patchParent at patched
  split at patched
  · rename_i stat name fresh last
    obtain ⟨found,located,onward⟩ := bind_ok patched
    cases found with
    | none =>
      cases onward
      exact holds
    | some at_ =>
      obtain ⟨parent,read,rest⟩ := bind_ok onward
      split at rest
      · cases rest
        exact holds
      · cases rest
        have whole : path.dropLast ++ [name] = path := List.dropLast_append_getLast? name last
        exact restat_holds agrees holds (locate_sound located).1 (current_chunkAt read) (by rw [whole]; exact fresh)
  · cases patched
    exact holds

end

structure Relisted (after : Snapshot) (path : Path) (old chunk : Chunk) (subs : List (Name × Nat)) (first next : Nat) : Prop where
  id : chunk.id = old.id
  dir : chunk.dirPath = path
  rows : ∃ rows, after.listing path = some rows ∧ chunk.recs.map Rec.row = shownRows path rows
  records : ∀ r ∈ chunk.recs, ∀ k, r.child = some k → (∃ known ∈ old.recs, known.name = r.name ∧ known.child = some k) ∨ (r.name,k) ∈ subs
  given : ∀ sub ∈ subs, first ≤ sub.2 ∧ sub.2 < next ∧ (∀ known ∈ old.recs, known.name = sub.1 → known.child = none) ∧
    (after.listing (path ++ [sub.1])).isSome
  distinct : (subs.map Prod.snd).Nodup
  grows : first ≤ next

theorem record_subs (reuse : Name → Option Nat) (rows : List Row) (next : Nat) :
    ∀ sub ∈ (record reuse rows next).2.1, reuse sub.1 = none ∧ ∃ row ∈ rows, row.name = sub.1 ∧ row.walkInto = true := by
  induction rows generalizing next with
  | nil =>
    intro sub member
    cases member
  | cons row rest ih =>
    intro sub member
    have deeper : ∀ next, sub ∈ (record reuse rest next).2.1 → reuse sub.1 = none ∧ ∃ found ∈ row::rest, found.name = sub.1 ∧ found.walkInto = true := by
      intro next later
      obtain ⟨unknown,found,inside,same⟩ := ih next sub later
      exact ⟨unknown,found,List.mem_cons_of_mem _ inside,same⟩
    unfold record at member
    split at member
    · rename_i walks
      split at member
      · exact deeper _ member
      · rename_i unknown
        rcases List.mem_cons.mp member with rfl | later
        · exact ⟨unknown,row,List.mem_cons_self,rfl,walks⟩
        · exact deeper _ later
    · exact deeper _ member

theorem listDir_relisted (distinct : (old.recs.map Rec.name).Nodup)
    (read : listDir after.disk path old.id (fun name => (findRec old name).bind Rec.child) first = some (chunk,subs,next)) :
    Relisted after path old chunk subs first next := by
  obtain ⟨rows,listed,rfl,rfl,rfl⟩ := listDir_parts read
  obtain ⟨grows,range,apart⟩ := record_ids (fun name => (findRec old name).bind Rec.child) (shownRows path rows) first
  refine ⟨rfl,rfl,⟨rows,listed,record_rows _ _ _⟩,?_,?_,apart,grows⟩
  · intro r member k points
    rcases record_children _ _ _ r member k points with known | ⟨_,sub⟩
    · obtain ⟨found,search,child⟩ := Option.bind_eq_some_iff.mp known
      exact .inl ⟨found,List.mem_of_find?_eq_some search,by simpa using List.find?_some search,child⟩
    · exact .inr sub
  · intro sub member
    obtain ⟨unknown,row,shown,name,walks⟩ := record_subs _ _ _ sub member
    refine ⟨(range sub member).1,(range sub member).2,?_,?_⟩
    · intro known inside same
      have found := findRec_of distinct inside
      rw [same] at found
      rw [found] at unknown
      exact unknown
    · rw [← name]
      exact after.nested path rows row listed (mem_shownRows shown) walks

theorem collectAll_below {good : Path → Prop}
    (bases : ∀ id ∈ gone, ∃ base, good base ∧ ∀ pos, (index.idToPos[id]?).join = some pos → ∃ path, Reached index replaced path pos ∧ base <+: path)
    (collected : collectAll index replaced gone removed = .ok ids) : ∀ id ∈ ids, id ∈ removed ∨
      ∃ base pos path, good base ∧ (index.idToPos[id]?).join = some pos ∧ Reached index replaced path pos ∧ base <+: path := by
  induction gone generalizing removed with
  | nil =>
    cases collected
    exact fun id member => .inl member
  | cons first rest ih =>
    obtain ⟨middle,one,onward⟩ := bind_ok collected
    obtain ⟨base,fine,below⟩ := bases first List.mem_cons_self
    intro id member
    rcases ih (fun other listed => bases other (List.mem_cons_of_mem _ listed)) onward id member with inside | found
    · rcases collectSubtree_below base _ (fun other listed => by rw [List.mem_singleton.mp listed]; exact below) one id inside with old | ⟨pos,path,rest⟩
      · exact .inl old
      · exact .inr ⟨base,pos,path,fine,rest⟩
    · exact .inr found

theorem relisted_known (relisted : Relisted after path old chunk subs first next) (young : index.nextId ≤ first) :
    ∀ r ∈ chunk.recs, ∀ k, r.child = some k → k < index.nextId → ∃ known ∈ old.recs, known.name = r.name ∧ known.child = some k := by
  intro r member k points bound
  rcases relisted.records r member k points with known | sub
  · exact known
  · have range := (relisted.given _ sub).1
    omega

theorem relisted_shape (agrees : Agrees view index before) (shape : Shape index replaced) (reached : Reached index replaced path pos)
    (here : chunkAt index replaced pos = some old) (relisted : Relisted after path old chunk subs first next) (young : index.nextId ≤ first) :
    Shape index (Function.update replaced pos (some chunk)) := by
  obtain ⟨again,stored,known,inside,dir,_,id,_⟩ := reached_chunk agrees shape reached
  rw [here] at known
  cases known
  obtain ⟨rows,listed,same⟩ := relisted.rows
  refine shape_update shape inside (relisted.id.trans id) (relisted.dir.trans dir.symm) (recs_distinct listed same) ?_
  intro r member k points bound
  obtain ⟨known,origin,name,child⟩ := relisted_known relisted young r member k points bound
  rw [← name]
  exact shape_known shape here inside known origin k child bound

theorem relisted_child (agrees : Agrees view index before) (apart : Apart (index.roots.map Prod.fst))
    (shape : Shape index (Function.update replaced pos (some chunk))) (inside : index.chunks[pos]? = some stored)
    (standing : Reached index untouched path pos) (reached : Reached index (Function.update replaced pos (some chunk)) (path ++ [name]) at_) :
    ∃ r ∈ chunk.recs, r.name = name ∧ childPos index.idToPos r = some at_ := by
  rcases reached_parts reached with listed | ⟨front,parent,c,r,split,above,known,member,points⟩
  · obtain ⟨root,origin,under⟩ := reached_under standing
    have same := apart_same apart origin listed (under.trans (List.prefix_append _ _))
    subst same
    exact (not_below_self under).elim
  · obtain ⟨rfl,last⟩ := List.append_inj' split rfl
    cases reached_unique agrees apart standing (reached_before agrees.valid shape above)
    rw [chunkAt_self inside] at known
    cases known
    exact ⟨r,member,(List.cons.inj last).1.symm,points⟩

theorem goneChildren_bases (reached : Reached index replaced path pos) (here : chunkAt index replaced pos = some old) :
    ∀ k ∈ goneChildren old chunk, ∃ base, (∃ r ∈ old.recs, base = path ++ [r.name] ∧ ∀ s ∈ chunk.recs, s.child ≠ r.child) ∧
      ∀ place, (index.idToPos[k]?).join = some place → ∃ front, Reached index replaced front place ∧ base <+: front := by
  intro k dropped
  unfold goneChildren at dropped
  rw [List.mem_filter] at dropped
  obtain ⟨r,origin,points⟩ := List.mem_filterMap.mp dropped.1
  refine ⟨path ++ [r.name],⟨r,origin,rfl,?_⟩,?_⟩
  · intro s member child
    have present : k ∈ chunk.recs.filterMap Rec.child := List.mem_filterMap.mpr ⟨s,member,child.trans points⟩
    simp [present] at dropped
  · intro place slot
    exact ⟨path ++ [r.name],.step reached here origin (by simp [childPos,points,slot]),List.prefix_refl _⟩

section
variable (agrees : Agrees view index before) (apart : Apart (index.roots.map Prod.fst))
include agrees apart

theorem exchange_removed (holds : Holds view index after dirty done pending u) (reached : Reached index u.replaced path pos) (here : chunkAt index u.replaced pos = some old)
    (relisted : Relisted after path old chunk subs u.nextId next)
    (collected : collectAll index u.replaced (goneChildren old chunk) u.removed = .ok removed)
    (shape : Shape index (Function.update u.replaced pos (some chunk))) :
    ∀ id ∈ removed, ∀ other at_ c, Reached index (Function.update u.replaced pos (some chunk)) other at_ →
      chunkAt index (Function.update u.replaced pos (some chunk)) at_ = some c → c.id ≠ id := by
  obtain ⟨again,stored,known,inside,_,_,_,distinct⟩ := reached_chunk agrees holds.shape reached
  rw [here] at known
  cases known
  have standing := reached_before agrees.valid holds.shape reached
  have fewer : ∀ {other at_}, Reached index (Function.update u.replaced pos (some chunk)) other at_ → Reached index u.replaced other at_ :=
    fun walked => swap_fewer agrees.valid here (relisted_known relisted holds.grows) walked
  intro gone member other at_ c walked found equal
  rcases collectAll_below (goneChildren_bases reached here) collected gone member with
    already | ⟨_,place,front,⟨r,origin,rfl,dropped⟩,slot,collectedAt,under⟩
  · by_cases spot : at_ = pos
    · subst spot
      rw [chunkAt_self inside] at found
      cases found
      exact holds.removed gone already path at_ old reached here (by rw [← relisted.id]; exact equal)
    · rw [chunkAt_other spot] at found
      exact holds.removed gone already other at_ c (fewer walked) found equal
  · -- The collected chunk is the reached one, so the subdirectory above it is
    -- reached too, by a record of the new listing.
    obtain ⟨d,first,found',stored',_,_,id,_⟩ := reached_chunk agrees shape walked
    rw [found] at found'
    cases found'
    have slot' := agrees.exact_ at_ first stored'
    rw [← id,equal,Option.join_eq_some_iff.mp slot] at slot'
    cases slot'
    cases reached_path agrees (reached_before agrees.valid shape walked) (reached_before agrees.valid holds.shape collectedAt)
    obtain ⟨root,top,above⟩ := reached_under reached
    obtain ⟨spot,between⟩ := reached_between apart top (above.trans (List.prefix_append _ _)) under walked
    obtain ⟨s,listed,name,points⟩ := relisted_child agrees apart shape inside standing between
    obtain ⟨k,child,bound,_⟩ := child_old agrees.valid points
    obtain ⟨t,origin',name',child'⟩ := relisted_known relisted holds.grows s listed k child bound
    cases name_unique distinct origin' origin (name'.trans name)
    exact dropped s listed (child.trans child'.symm)

theorem exchange_holds (holds : Holds view index after dirty done [] u) (reached : Reached index u.replaced path pos) (here : chunkAt index u.replaced pos = some old)
    (relisted : Relisted after path old chunk subs u.nextId next)
    (collected : collectAll index u.replaced (goneChildren old chunk) u.removed = .ok removed) :
    Holds view index after dirty (path::done) (subs.map fun sub => (path ++ [sub.1],sub.2))
      ⟨Function.update u.replaced pos (some chunk),removed,u.added,next,u.fresh⟩ := by
  obtain ⟨again,stored,known,inside,_,_,id,distinct⟩ := reached_chunk agrees holds.shape reached
  rw [here] at known
  cases known
  have standing := reached_before agrees.valid holds.shape reached
  have shape := relisted_shape agrees holds.shape reached here relisted holds.grows
  have fewer : ∀ {other at_}, Reached index (Function.update u.replaced pos (some chunk)) other at_ → Reached index u.replaced other at_ :=
    fun walked => swap_fewer agrees.valid here (relisted_known relisted holds.grows) walked
  have only : ∀ {other}, Reached index (Function.update u.replaced pos (some chunk)) other pos → other = path :=
    fun walked => reached_path agrees (reached_before agrees.valid shape walked) standing
  obtain ⟨rows,listed,same⟩ := relisted.rows
  refine ⟨shape,?_,?_,?_,?_,?_,?_,?_,?_,Nat.le_trans holds.grows relisted.grows⟩
  · intro other at_ c r k walked found member points bound
    by_cases place : at_ = pos
    · subst place
      cases only walked
      rw [chunkAt_self inside] at found
      cases found
      rcases relisted.records r member k points with ⟨first,origin,name,child⟩ | sub
      · rw [← name]
        refine (holds.new path at_ old first k reached here origin child bound).imp (fun grown => grown) fun impossible => ?_
        cases impossible
      · exact .inr (List.mem_map.mpr ⟨_,sub,rfl⟩)
    · rw [chunkAt_other place] at found
      refine (holds.new other at_ c r k (fewer walked) found member points bound).imp (fun grown => grown) fun impossible => ?_
      cases impossible
  · intro other at_ c others walked found covered read
    by_cases place : at_ = pos
    · subst place
      cases only walked
      rw [chunkAt_self inside] at found
      cases found
      rw [listed] at read
      cases read
      rw [same]
    · rw [chunkAt_other place] at found
      refine holds.listed other at_ c others (fewer walked) found (fun marked => ?_) read
      rcases List.mem_cons.mp (covered marked) with rfl | later
      · exact absurd (reached_unique agrees apart (reached_before agrees.valid shape walked) standing) place
      · exact later
  · intro f member
    rcases member with old' | young
    · obtain ⟨root,unreached⟩ := holds.fresh f (.inl old')
      exact ⟨root,fun at_ walked => unreached at_ (fewer walked)⟩
    · rw [List.map_map] at young
      obtain ⟨sub,handed,rfl⟩ := List.mem_map.mp young
      obtain ⟨root,origin,under⟩ := reached_under reached
      refine ⟨⟨root,origin,under.trans (List.prefix_append _ _),?_⟩,?_⟩
      · intro equal
        rw [equal] at under
        exact not_below_self under
      · intro at_ walked
        obtain ⟨r,member,name,points⟩ := relisted_child agrees apart shape inside standing walked
        obtain ⟨k,child,bound,_⟩ := child_old agrees.valid points
        obtain ⟨first,origin,name',child'⟩ := relisted_known relisted holds.grows r member k child bound
        have none := (relisted.given sub handed).2.2.1 first origin (name'.trans name)
        rw [child'] at none
        cases none
  · intro gone member other at_ c walked found equal
    exact exchange_removed agrees apart holds reached here relisted collected shape gone member other at_ c walked found equal
  · intro root member finished
    rcases List.mem_cons.mp finished with rfl | later
    · rw [listed]
      rfl
    · exact holds.roots root member later
  · intro sub member
    obtain ⟨given,handed,rfl⟩ := List.mem_map.mp member
    exact (relisted.given given handed).2.2.2
  · rw [List.map_map]
    have ranges := holds.range
    have distinct' := holds.apart
    simp only [List.map_nil,List.append_nil] at ranges distinct'
    refine List.nodup_append.mpr ⟨distinct',relisted.distinct,?_⟩
    rintro k left _ right rfl
    obtain ⟨sub,handed,rfl⟩ := List.mem_map.mp right
    have low := (relisted.given sub handed).1
    have high := (ranges _ left).2
    exact absurd high (Nat.not_lt.mpr low)
  · intro k member
    rw [List.map_map] at member
    have low := holds.grows
    have high := relisted.grows
    rcases List.mem_append.mp member with old' | young
    · have range := holds.range k (List.mem_append_left _ old')
      exact ⟨range.1,Nat.lt_of_lt_of_le range.2 high⟩
    · obtain ⟨sub,handed,rfl⟩ := List.mem_map.mp young
      have range := relisted.given sub handed
      exact ⟨Nat.le_trans low range.1,range.2.1⟩

end

theorem block_apart (block : Block [k] next walked) (apart : (ids ++ k::others).Nodup)
    (low : ∀ id ∈ ids ++ k::others, id < next) : (ids ++ walked.1.map Chunk.id ++ others).Nodup := by
  have small : ∀ c ∈ walked.1, c.id < next → c.id = k := by
    intro c member bound
    rcases block.ids c member with own | new
    · exact List.mem_singleton.mp own
    · omega
  have mixed := List.nodup_middle.mp apart
  obtain ⟨away,both⟩ := List.nodup_cons.mp mixed
  obtain ⟨left,right,between⟩ := List.nodup_append.mp both
  have fresh : ∀ id, id ∈ ids ∨ id ∈ others → id ∉ walked.1.map Chunk.id := by
    intro id old member
    obtain ⟨c,inside,rfl⟩ := List.mem_map.mp member
    have bound : c.id < next := low c.id (by
      rcases old with one | two
      · exact List.mem_append_left _ one
      · exact List.mem_append_right _ (List.mem_cons_of_mem _ two))
    rw [small c inside bound] at old
    exact away (List.mem_append.mpr old)
  rw [List.append_assoc]
  refine List.nodup_append.mpr ⟨left,List.nodup_append.mpr ⟨block.distinct,right,?_⟩,?_⟩
  · rintro id one _ two rfl
    exact fresh id (.inr two) one
  · rintro id one _ two rfl
    rcases List.mem_append.mp two with inside | other
    · exact fresh id (.inl one) inside
    · exact between id one id other rfl

theorem walked_holds (schedule : Schedule) (holds : Holds view index after dirty done ((f,k)::pending) u) :
    Holds view index after dirty done pending {u with
      nextId := (parWalk after.disk schedule f k u.nextId).2,
      added := u.added ++ (parWalk after.disk schedule f k u.nextId).1,
      fresh := u.fresh ++ [f]} := by
  have bound : k < u.nextId := (holds.range k (List.mem_append_right _ List.mem_cons_self)).2
  have block := parWalk_block after.disk schedule f bound
  obtain ⟨rows,listed⟩ := Option.isSome_iff_exists.mp (holds.opens (f,k) List.mem_cons_self)
  have grown := grown_seen view (parWalk_grown schedule bound listed)
  refine ⟨holds.shape,?_,holds.listed,?_,holds.removed,holds.roots,?_,?_,?_,Nat.le_trans holds.grows block.grows⟩
  · intro path pos c r j reached here member points young
    rcases holds.new path pos c r j reached here member points young with old | waits
    · refine .inl (grown_mono (fun d inside => ?_) old)
      rw [List.map_append]
      exact List.mem_append_left _ inside
    · rcases List.mem_cons.mp waits with same | later
      · cases same
        refine .inl (grown_mono (fun d inside => ?_) grown)
        rw [List.map_append]
        exact List.mem_append_right _ inside
      · exact .inr later
  · intro other member
    refine holds.fresh other ?_
    rcases member with done' | later
    · rcases List.mem_append.mp done' with old | new
      · exact .inl old
      · rw [List.mem_singleton.mp new]
        exact .inr List.mem_cons_self
    · exact .inr (List.mem_cons_of_mem _ later)
  · exact fun sub member => holds.opens sub (List.mem_cons_of_mem _ member)
  · rw [List.map_append]
    exact block_apart block holds.apart fun id member => (holds.range id member).2
  · intro id member
    rw [List.map_append] at member
    have young := holds.grows
    rcases List.mem_append.mp member with front | later
    · rcases List.mem_append.mp front with old | new
      · have range := holds.range id (List.mem_append_left _ old)
        exact ⟨range.1,Nat.lt_of_lt_of_le range.2 block.grows⟩
      · obtain ⟨c,inside,rfl⟩ := List.mem_map.mp new
        rcases block.ids c inside with own | range
        · rw [List.mem_singleton.mp own]
          have range := holds.range k (List.mem_append_right _ List.mem_cons_self)
          exact ⟨range.1,Nat.lt_of_lt_of_le range.2 block.grows⟩
        · exact ⟨Nat.le_trans young range.1,range.2⟩
    · have range := holds.range id (List.mem_append_right _ (List.mem_cons_of_mem _ later))
      exact ⟨range.1,Nat.lt_of_lt_of_le range.2 block.grows⟩

theorem walkNew_holds (holds : Holds view index after dirty done (subs.map fun sub => (path ++ [sub.1],sub.2)) u)
    (walked : walkNew after.disk schedule limits path subs u = .ok next) : Holds view index after dirty done [] next := by
  induction subs generalizing u with
  | nil =>
    cases walked
    exact holds
  | cons sub rest ih =>
    obtain ⟨name,k⟩ := sub
    have opens : after.disk.opensDir (path ++ [name]) = true := holds.opens _ List.mem_cons_self
    unfold walkNew at walked
    rw [if_pos opens] at walked
    dsimp only at walked
    split at walked
    · cases walked
    · exact ih (walked_holds schedule holds) walked

section
variable (agrees : Agrees view index before) (apart : Apart (index.roots.map Prod.fst)) (holds : Holds view index after dirty done [] u)
include agrees apart holds

theorem relistAt_holds (reached : Reached index u.replaced path pos) (opens : (after.listing path).isSome)
    (relisted : relistAt after.disk schedule index u path root pos = .ok next) : Holds view index after dirty (path::done) [] next := by
  obtain ⟨old,read,onward⟩ := bind_ok relisted
  have here := current_chunkAt read
  obtain ⟨again,_,known,_,_,_,_,distinct⟩ := reached_chunk agrees holds.shape reached
  rw [here] at known
  cases known
  split at onward
  · rename_i failed
    unfold listDir at failed
    rw [Option.map_eq_none_iff] at failed
    have none : after.listing path = none := failed
    rw [none] at opens
    cases opens
  · rename_i chunk subs last listed
    obtain ⟨removed,collected,rest⟩ := bind_ok onward
    obtain ⟨replaced,exchanged,walked⟩ := bind_ok rest
    have swapped := exchange_holds agrees apart holds reached here (listDir_relisted distinct listed) collected
    unfold replaceChunk at exchanged
    split at exchanged
    · cases exchanged
      exact walkNew_holds swapped walked
    · exact walkNew_holds (patchParent_holds agrees swapped exchanged) walked

theorem relist_holds (relisted : relist after.disk schedule index u path = .ok (next,pushed)) :
    Holds view index after dirty (path::done) [] next ∧ (pushed = [] ∨ (pushed = [path.dropLast] ∧ path ≠ [])) := by
  unfold relist at relisted
  split at relisted
  · rename_i walked
    cases relisted
    rw [List.any_eq_true] at walked
    obtain ⟨f,member,above⟩ := walked
    have inside : f <+: path := List.isPrefixOf_iff_prefix.mp above
    obtain ⟨⟨root,origin,under,proper⟩,unreached⟩ := holds.fresh f (.inl member)
    refine ⟨holds_done holds path (.inl ?_) ?_,.inl rfl⟩
    · intro pos reached
      obtain ⟨at_,between⟩ := reached_between apart origin under inside reached
      exact unreached at_ between
    · intro other listed same
      have top : root = other := apart_same apart origin listed (by rw [same]; exact under.trans inside)
      rw [top,same] at under proper
      exact proper (under.eq_of_length_le inside.length_le)
  · obtain ⟨found,located,onward⟩ := bind_ok relisted
    cases found with
    | none =>
      cases onward
      have unreached : ∀ pos, ¬ Reached index u.replaced path pos := by
        intro pos reached
        obtain ⟨root,again⟩ := locate_complete agrees apart holds.shape reached
        rw [located] at again
        cases again
      refine ⟨holds_done holds path (.inl unreached) ?_,.inl rfl⟩
      intro root listed same
      obtain ⟨pos,_,here,_⟩ := agrees.grown root listed
      refine unreached pos (.root ?_)
      rw [← same,← here]
      exact listed
    | some at_ =>
      obtain ⟨reached,above,top,origin⟩ := locate_sound located
      dsimp only at onward
      split at onward
      · cases onward
      · split at onward
        · rename_i closed
          split at onward
          · cases onward
          · rename_i inner
            cases onward
            have gone : after.listing path = none := by
              have shut : (after.listing path).isSome = false := by simpa [Snapshot.disk] using closed
              simpa using shut
            refine ⟨holds_done holds path (.inr gone) ?_,.inr ⟨rfl,?_⟩⟩
            · intro other listed same
              have single := apart_same apart origin listed (by rw [same]; exact above)
              rw [← single] at same
              exact inner same.symm
            · rintro rfl
              exact inner (List.prefix_nil.mp above).symm
        · rename_i opens
          obtain ⟨last,done',same⟩ := bind_ok onward
          cases same
          have listed : (after.listing path).isSome = true := by simpa [Snapshot.disk,Option.isSome_iff_ne_none] using opens
          exact ⟨relistAt_holds agrees apart holds reached listed done',.inl rfl⟩

end

def weight (work : List Path) : Nat := (work.map fun path => path.length + 1).sum

theorem workLoop_holds (agrees : Agrees view index before) (apart : Apart (index.roots.map Prod.fst))
    (holds : Holds view index after dirty done [] u) (enough : weight work < fuel)
    (ran : workLoop after.disk schedule index fuel work u = .ok last) :
    ∃ all, Holds view index after dirty all [] last ∧ (∀ path ∈ work, path ∈ all) ∧ ∀ path ∈ done, path ∈ all := by
  induction fuel generalizing work u done with
  | zero => omega
  | succ fuel ih =>
    cases work with
    | nil =>
      cases ran
      exact ⟨done,holds,by simp,fun path member => member⟩
    | cons path rest =>
      obtain ⟨⟨next,pushed⟩,relisted,onward⟩ := bind_ok ran
      obtain ⟨stands,short⟩ := relist_holds agrees apart holds relisted
      have less : weight (rest ++ pushed) < fuel := by
        unfold weight at enough ⊢
        rw [List.map_cons,List.sum_cons] at enough
        rw [List.map_append,List.sum_append]
        rcases short with rfl | ⟨rfl,filled⟩
        · simp only [List.map_nil,List.sum_nil]
          omega
        · have length : 0 < path.length := List.length_pos_iff.mpr filled
          simp only [List.map_cons,List.map_nil,List.sum_cons,List.sum_nil,List.length_dropLast]
          omega
      obtain ⟨all,finished,covered,kept⟩ := ih stands less onward
      refine ⟨all,finished,?_,fun other member => kept other (List.mem_cons_of_mem _ member)⟩
      intro other member
      rcases List.mem_cons.mp member with rfl | later
      · exact kept _ List.mem_cons_self
      · exact covered other (List.mem_append_left _ later)

end Steps

end RemoteFileExplorer.IndexUpdates
