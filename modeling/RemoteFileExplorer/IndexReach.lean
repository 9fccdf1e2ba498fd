import Mathlib.Data.List.Pairwise
import RemoteFileExplorer.IndexMirror

namespace RemoteFileExplorer.IndexReach
open FileTree DirectoryIndex IndexBounds IndexMirror

def chunkAt (index : Index) (replaced : Replaced) (pos : Nat) : Option Chunk :=
  (index.chunks[pos]?).map fun stored => (replaced pos).getD stored

-- Directories the records of the moment lead to from the roots.
inductive Reached (index : Index) (replaced : Replaced) : Path → Nat → Prop where
  | root : (path,some pos) ∈ index.roots → Reached index replaced path pos
  | step {c : Chunk} : Reached index replaced path pos → chunkAt index replaced pos = some c → r ∈ c.recs → childPos index.idToPos r = some below →
      Reached index replaced (path ++ [r.name]) below

def untouched : Replaced := fun _ => none

section Positions
variable {index : Index} {replaced next : Replaced}

theorem chunkAt_current (stored : chunkAt index replaced pos = some c) : current index replaced pos = .ok c := by
  obtain ⟨old,inside,rfl⟩ := Option.map_eq_some_iff.mp stored
  exact current_ok inside

theorem current_chunkAt (read : current index replaced pos = .ok c) : chunkAt index replaced pos = some c := by
  obtain ⟨stored,inside,rfl⟩ := current_parts read
  unfold chunkAt
  rw [inside]
  rfl

theorem chunkAt_untouched (stored : chunkAt index untouched pos = some c) : index.chunks[pos]? = some c := by
  obtain ⟨old,inside,rfl⟩ := Option.map_eq_some_iff.mp stored
  exact inside

theorem untouched_chunkAt (stored : index.chunks[pos]? = some c) : chunkAt index untouched pos = some c := by
  unfold chunkAt
  rw [stored]
  rfl

theorem chunkAt_self (inside : index.chunks[pos]? = some stored) : chunkAt index (Function.update replaced pos (some c)) pos = some c := by
  unfold chunkAt
  rw [inside,Function.update_self]
  rfl

theorem chunkAt_other (different : other ≠ pos) : chunkAt index (Function.update replaced pos (some c)) other = chunkAt index replaced other := by
  unfold chunkAt
  rw [Function.update_of_ne different]

theorem reached_parts (reached : Reached index replaced path pos) : (path,some pos) ∈ index.roots ∨
    ∃ front parent c r, path = front ++ [r.name] ∧ Reached index replaced front parent ∧ chunkAt index replaced parent = some c ∧
      r ∈ c.recs ∧ childPos index.idToPos r = some pos := by
  cases reached with
  | root member => exact .inl member
  | step front stored inside points => exact .inr ⟨_,_,_,_,rfl,front,stored,inside,points⟩

theorem reached_under (reached : Reached index replaced path pos) : ∃ root ∈ index.roots, root.1 <+: path := by
  induction reached with
  | root member => exact ⟨_,member,List.prefix_refl _⟩
  | step _ _ _ _ ih =>
    obtain ⟨root,member,under⟩ := ih
    exact ⟨root,member,under.trans (List.prefix_append _ _)⟩

theorem reached_fewer (fewer : ∀ pos c r below, chunkAt index next pos = some c → r ∈ c.recs → childPos index.idToPos r = some below →
      ∃ d, chunkAt index replaced pos = some d ∧ ∃ old ∈ d.recs, old.name = r.name ∧ childPos index.idToPos old = some below)
    (reached : Reached index next path pos) : Reached index replaced path pos := by
  induction reached with
  | root member => exact .root member
  | step _ stored inside points ih =>
    obtain ⟨d,known,old,member,name,same⟩ := fewer _ _ _ _ stored inside points
    rw [← name]
    exact .step ih known member same

theorem apart_same {roots : List (Path × Option Nat)} (apart : Apart (roots.map Prod.fst)) (one : a ∈ roots) (two : b ∈ roots)
    (before : a.1 <+: b.1) : a = b := by
  by_contra different
  have pairs : roots.Pairwise fun a b => ¬ a.1 <+: b.1 ∧ ¬ b.1 <+: a.1 := List.pairwise_map.mp apart
  have mirrored : Std.Symm fun a b : Path × Option Nat => ¬ a.1 <+: b.1 ∧ ¬ b.1 <+: a.1 := ⟨fun _ _ both => ⟨both.2,both.1⟩⟩
  exact (pairs.forall one two different).1 before

theorem apart_root {roots : List (Path × Option Nat)} (apart : Apart (roots.map Prod.fst)) (one : a ∈ roots) (two : b ∈ roots)
    (left : a.1 <+: path) (right : b.1 <+: path) : a = b := by
  rcases List.prefix_or_prefix_of_prefix left right with before | before
  · exact apart_same apart one two before
  · exact (apart_same apart two one before).symm

theorem reached_between (apart : Apart (index.roots.map Prod.fst)) (member : root ∈ index.roots) (low : root.1 <+: middle) (high : middle <+: path)
    (reached : Reached index replaced path pos) : ∃ at_, Reached index replaced middle at_ := by
  induction reached with
  | root listed =>
    have same := apart_same apart member listed (low.trans high)
    subst same
    have length := high.eq_of_length_le low.length_le
    rw [length]
    exact ⟨_,.root listed⟩
  | step front stored inside points ih =>
    rcases List.prefix_concat_iff.mp high with rfl | shorter
    · exact ⟨_,.step front stored inside points⟩
    · exact ih shorter

end Positions

section Before
variable {view : View} {index : Index} {before : Snapshot}

theorem exact_same {chunks : List Chunk} {idToPos : List (Option Nat)} {i j : Nat} (exact_ : Exact chunks idToPos) {c d : Chunk} (one : chunks[i]? = some c)
    (two : chunks[j]? = some d) (same : c.id = d.id) : i = j := by
  have first := exact_ i c one
  rw [same,exact_ j d two] at first
  cases first
  rfl

theorem grown_at {c : Chunk} {pos : Nat} (exact_ : Exact index.chunks index.idToPos) (stored : index.chunks[pos]? = some c)
    (grown : Grown (index.chunks.map (Chunk.seen view)) (before.seen view) c.id path) :
    c.dirPath = path ∧ ∃ rows, before.listing path = some rows ∧ (c.recs.map Rec.row).map (Row.seen view) = (shownRows path rows).map (Row.seen view) ∧
      ∀ r ∈ c.recs, ∀ j, r.child = some j → Grown (index.chunks.map (Chunk.seen view)) (before.seen view) j (path ++ [r.name]) := by
  obtain ⟨copy,seen,member,id,dir,listed,same,below⟩ := grown_parts grown
  obtain ⟨other,inside,rfl⟩ := List.mem_map.mp member
  obtain ⟨i,found⟩ := List.mem_iff_getElem?.mp inside
  have here := exact_same exact_ found stored id
  subst here
  rw [stored] at found
  cases found
  obtain ⟨rows,known,rfl⟩ := Option.map_eq_some_iff.mp listed
  refine ⟨dir,rows,known,?_,fun r inside j points => below (Rec.seen view r) (List.mem_map_of_mem inside) j points⟩
  rw [seen_rows,shownRows_seen] at same
  exact same

theorem seen_names {recs : List Rec} {rows : List Row} (same : (recs.map Rec.row).map (Row.seen view) = rows.map (Row.seen view)) :
    recs.map Rec.name = rows.map Row.name := by
  have names := congrArg (List.map Row.name) same
  rw [List.map_map,List.map_map,List.map_map] at names
  exact names

section
variable (agrees : Agrees view index before) (reached : Reached index untouched path pos)
include agrees reached

theorem reached_grown :
    ∃ c, index.chunks[pos]? = some c ∧ Grown (index.chunks.map (Chunk.seen view)) (before.seen view) c.id path := by
  induction reached with
  | root member =>
    obtain ⟨_,c,here,stored,grown⟩ := agrees.grown _ member
    cases here
    exact ⟨c,stored,grown⟩
  | step _ stored inside points ih =>
    obtain ⟨c,known,grown⟩ := ih
    rw [chunkAt_untouched stored] at known
    cases known
    obtain ⟨_,_,_,_,below⟩ := grown_at agrees.exact_ (chunkAt_untouched stored) grown
    obtain ⟨j,child,slot⟩ := childPos_parts points
    obtain ⟨d,found,id⟩ := agrees.valid.pointers j _ slot
    exact ⟨d,found,by rw [id]; exact below _ inside j child⟩

theorem reached_listed :
    ∃ c rows, index.chunks[pos]? = some c ∧ c.dirPath = path ∧ before.listing path = some rows ∧
      (c.recs.map Rec.row).map (Row.seen view) = (shownRows path rows).map (Row.seen view) ∧ (c.recs.map Rec.name).Nodup ∧
      ∀ r ∈ c.recs, ∀ j, r.child = some j → j < index.nextId ∧ ∃ below, childPos index.idToPos r = some below := by
  obtain ⟨c,stored,grown⟩ := reached_grown agrees reached
  obtain ⟨dir,rows,known,same,below⟩ := grown_at agrees.exact_ stored grown
  refine ⟨c,rows,stored,dir,known,same,?_,?_⟩
  · rw [seen_names same]
    exact shownRows_distinct path (before.distinct path rows known)
  · intro r inside j points
    obtain ⟨at_,slot,_⟩ := grown_dfs (exact_seen view agrees.exact_) (below r inside j points)
    have bound : j < index.idToPos.length := List.getElem?_eq_some_iff.mp slot |>.1
    rw [agrees.valid.table] at bound
    exact ⟨bound,at_,by simp [childPos,points,slot]⟩

end

theorem reached_path (agrees : Agrees view index before) (one : Reached index untouched path pos) (two : Reached index untouched other pos) :
    path = other := by
  obtain ⟨c,_,stored,dir,_⟩ := reached_listed agrees one
  obtain ⟨d,_,again,dir',_⟩ := reached_listed agrees two
  rw [stored] at again
  cases again
  exact dir.symm.trans dir'

theorem name_unique {recs : List Rec} {r s : Rec} (distinct : (recs.map Rec.name).Nodup) (one : r ∈ recs) (two : s ∈ recs) (same : r.name = s.name) : r = s :=
  List.inj_on_of_nodup_map distinct one two same

theorem reached_unique (agrees : Agrees view index before) (apart : Apart (index.roots.map Prod.fst))
    (one : Reached index untouched path pos) (two : Reached index untouched path at_) : pos = at_ := by
  induction one generalizing at_ with
  | root member =>
    rcases reached_parts two with listed | ⟨front,parent,c,r,rfl,above,_⟩
    · have same := apart_same apart member listed (List.prefix_refl _)
      cases same
      rfl
    · obtain ⟨root,listed,under⟩ := reached_under above
      have same := apart_same apart listed member (under.trans (List.prefix_append _ _))
      subst same
      exact (not_below_self under).elim
  | step front stored inside points ih =>
    rcases reached_parts two with listed | ⟨other,parent,c,r,split,above,stored',inside',points'⟩
    · obtain ⟨root,member,under⟩ := reached_under front
      have same := apart_same apart member listed (under.trans (List.prefix_append _ _))
      subst same
      exact (not_below_self under).elim
    · obtain ⟨rfl,last⟩ := List.append_inj' split rfl
      cases ih above
      obtain ⟨d,_,known,_,_,_,distinct,_⟩ := reached_listed agrees front
      have first := chunkAt_untouched stored
      have second := chunkAt_untouched stored'
      rw [known] at first second
      cases first
      cases second
      have name : r.name = _ := (List.cons.inj last).1.symm
      cases name_unique distinct inside' inside name
      rw [points] at points'
      exact Option.some.inj points'

end Before

-- What a replacement keeps of the chunk it stands for: its place, distinct
-- names, and an old subdirectory only under the name it had.
structure Shape (index : Index) (replaced : Replaced) : Prop where
  steady : Steady index replaced
  dirs : ∀ pos c, replaced pos = some c → ∀ stored, index.chunks[pos]? = some stored → c.dirPath = stored.dirPath
  names : ∀ pos c, replaced pos = some c → (c.recs.map Rec.name).Nodup
  known : ∀ pos c, replaced pos = some c → ∀ stored, index.chunks[pos]? = some stored → ∀ r ∈ c.recs, ∀ k, r.child = some k →
    k < index.nextId → ∃ old ∈ stored.recs, old.name = r.name ∧ old.child = some k

section Lookups
variable {view : View} {index : Index} {before : Snapshot} {replaced : Replaced}

theorem shape_update {stored c : Chunk} (shape : Shape index replaced) (inside : index.chunks[pos]? = some stored) (id : c.id = stored.id)
    (dir : c.dirPath = stored.dirPath) (distinct : (c.recs.map Rec.name).Nodup)
    (known : ∀ r ∈ c.recs, ∀ k, r.child = some k → k < index.nextId → ∃ old ∈ stored.recs, old.name = r.name ∧ old.child = some k) :
    Shape index (Function.update replaced pos (some c)) := by
  refine ⟨steady_update shape.steady inside id,?_,?_,?_⟩
  · intro other d changed old found
    by_cases here : other = pos
    · subst here
      rw [Function.update_self] at changed
      rw [inside] at found
      cases changed
      cases found
      exact dir
    · rw [Function.update_of_ne here] at changed
      exact shape.dirs other d changed old found
  · intro other d changed
    by_cases here : other = pos
    · subst here
      rw [Function.update_self] at changed
      cases changed
      exact distinct
    · rw [Function.update_of_ne here] at changed
      exact shape.names other d changed
  · intro other d changed old found
    by_cases here : other = pos
    · subst here
      rw [Function.update_self] at changed
      rw [inside] at found
      cases changed
      cases found
      exact known
    · rw [Function.update_of_ne here] at changed
      exact shape.known other d changed old found

theorem shape_known {c : Chunk} (shape : Shape index replaced) (here : chunkAt index replaced pos = some c) (stored : index.chunks[pos]? = some old) :
    ∀ r ∈ c.recs, ∀ k, r.child = some k → k < index.nextId → ∃ first ∈ old.recs, first.name = r.name ∧ first.child = some k := by
  unfold chunkAt at here
  rw [stored] at here
  cases change : replaced pos with
  | none =>
    rw [change] at here
    cases here
    exact fun r inside k points _ => ⟨r,inside,rfl,points⟩
  | some d =>
    rw [change] at here
    cases here
    exact shape.known pos d change old stored

theorem child_old (valid : Valid index) {r : Rec} (points : childPos index.idToPos r = some below) :
    ∃ k, r.child = some k ∧ k < index.nextId ∧ index.idToPos[k]? = some (some below) := by
  obtain ⟨k,child,slot⟩ := childPos_parts points
  have bound : k < index.idToPos.length := List.getElem?_eq_some_iff.mp slot |>.1
  rw [valid.table] at bound
  exact ⟨k,child,bound,slot⟩

theorem reached_before (valid : Valid index) (shape : Shape index replaced) (reached : Reached index replaced path pos) :
    Reached index untouched path pos := by
  refine reached_fewer ?_ reached
  intro at_ c r below here inside points
  obtain ⟨k,child,bound,slot⟩ := child_old valid points
  obtain ⟨stored,found,_⟩ := Option.map_eq_some_iff.mp here
  obtain ⟨old,member,name,same⟩ := shape_known shape here found r inside k child bound
  exact ⟨stored,untouched_chunkAt found,old,member,name,by simp [childPos,same,slot]⟩

theorem reached_chunk (agrees : Agrees view index before) (shape : Shape index replaced) (reached : Reached index replaced path pos) :
    ∃ c stored, chunkAt index replaced pos = some c ∧ index.chunks[pos]? = some stored ∧ stored.dirPath = path ∧ c.dirPath = path ∧ c.id = stored.id ∧
      (c.recs.map Rec.name).Nodup := by
  obtain ⟨stored,_,found,dir,_,_,distinct,_⟩ := reached_listed agrees (reached_before agrees.valid shape reached)
  unfold chunkAt
  rw [found]
  cases change : replaced pos with
  | none => exact ⟨stored,stored,rfl,rfl,dir,dir,rfl,distinct⟩
  | some c => exact ⟨c,stored,rfl,rfl,dir,(shape.dirs pos c change stored found).trans dir,shape.steady pos c change stored found,shape.names pos c change⟩

theorem follow_sound (reached : Reached index replaced path pos) (followed : follow index replaced names pos = .ok (some last)) :
    Reached index replaced (path ++ names) last := by
  induction names generalizing path pos with
  | nil =>
    cases followed
    rw [List.append_nil]
    exact reached
  | cons name rest ih =>
    obtain ⟨c,read,onward⟩ := bind_ok followed
    split at onward
    · cases onward
    · rename_i below found
      obtain ⟨r,search,points⟩ := Option.bind_eq_some_iff.mp found
      have named : r.name = name := by simpa using List.find?_some search
      have deeper := Reached.step reached (current_chunkAt read) (List.mem_of_find?_eq_some search) points
      rw [named] at deeper
      have arrived := ih deeper onward
      rwa [List.append_assoc] at arrived

theorem locate_sound (located : locate index replaced path = .ok (some (root,pos))) :
    Reached index replaced path pos ∧ root <+: path ∧ ∃ at_, (root,some at_) ∈ index.roots := by
  have inner : ∀ roots : List (Path × Option Nat), (∀ r ∈ roots, r ∈ index.roots) → locateFrom index replaced path roots = .ok (some (root,pos)) →
      Reached index replaced path pos ∧ root <+: path ∧ ∃ at_, (root,some at_) ∈ index.roots := by
    intro roots inside found
    induction roots with
    | nil => cases found
    | cons first rest ih =>
      obtain ⟨top,rootPos⟩ := first
      unfold locateFrom at found
      split at found
      · rename_i under
        cases rootPos with
        | none => cases found
        | some at_ =>
          obtain ⟨outcome,followed,same⟩ := bind_ok found
          cases outcome with
          | none => cases same
          | some last =>
            cases same
            have member := inside (root,some at_) List.mem_cons_self
            have above : root <+: path := List.isPrefixOf_iff_prefix.mp under
            have arrived := follow_sound (.root member) followed
            rw [List.prefix_iff_eq_append.mp above] at arrived
            exact ⟨arrived,above,at_,member⟩
      · exact ih (fun r member => inside r (List.mem_cons_of_mem _ member)) found
  exact inner index.roots (fun _ member => member) located

theorem follow_snoc {c : Chunk} (first : follow index replaced names pos = .ok (some middle)) (here : chunkAt index replaced middle = some c)
    (found : (findRec c name).bind (childPos index.idToPos) = some below) :
    follow index replaced (names ++ [name]) pos = .ok (some below) := by
  induction names generalizing pos with
  | nil =>
    cases first
    rw [List.nil_append]
    unfold follow
    rw [chunkAt_current here]
    simp only [bind,Except.bind]
    rw [found]
    rfl
  | cons other rest ih =>
    obtain ⟨d,read,onward⟩ := bind_ok first
    rw [List.cons_append]
    unfold follow
    rw [read]
    simp only [bind,Except.bind]
    split at onward
    · cases onward
    · exact ih onward

theorem findRec_of {c : Chunk} {r : Rec} (distinct : (c.recs.map Rec.name).Nodup) (member : r ∈ c.recs) : findRec c r.name = some r := by
  unfold findRec
  have present : (c.recs.find? fun s => s.name == r.name).isSome := List.find?_isSome.mpr ⟨r,member,by simp⟩
  obtain ⟨s,found⟩ := Option.isSome_iff_exists.mp present
  have named : s.name = r.name := by simpa using List.find?_some found
  rw [found,name_unique distinct (List.mem_of_find?_eq_some found) member named]

theorem follow_complete (agrees : Agrees view index before) (shape : Shape index replaced) (reached : Reached index replaced path pos) :
    ∃ root at_, (root,some at_) ∈ index.roots ∧ root <+: path ∧ follow index replaced (path.drop root.length) at_ = .ok (some pos) := by
  induction reached with
  | root member => exact ⟨_,_,member,List.prefix_refl _,by rw [List.drop_length]; rfl⟩
  | step front here inside points ih =>
    obtain ⟨root,at_,member,under,followed⟩ := ih
    obtain ⟨c,_,again,_,_,_,_,distinct⟩ := reached_chunk agrees shape front
    rw [here] at again
    cases again
    refine ⟨root,at_,member,under.trans (List.prefix_append _ _),?_⟩
    rw [List.drop_append_of_le_length under.length_le]
    exact follow_snoc followed here (by rw [findRec_of distinct inside]; exact points)

theorem locate_complete (agrees : Agrees view index before) (apart : Apart (index.roots.map Prod.fst)) (shape : Shape index replaced)
    (reached : Reached index replaced path pos) : ∃ root, locate index replaced path = .ok (some (root,pos)) := by
  obtain ⟨root,at_,member,under,followed⟩ := follow_complete agrees shape reached
  have inner : ∀ roots : List (Path × Option Nat), (∀ r ∈ roots, r ∈ index.roots) → (root,some at_) ∈ roots →
      locateFrom index replaced path roots = .ok (some (root,pos)) := by
    intro roots inside listed
    induction roots with
    | nil => cases listed
    | cons first rest ih =>
      obtain ⟨top,rootPos⟩ := first
      unfold locateFrom
      split
      · rename_i above
        have same := apart_root apart (inside (top,rootPos) List.mem_cons_self) member (List.isPrefixOf_iff_prefix.mp above) under
        cases same
        dsimp only
        rw [followed]
        rfl
      · rename_i outside
        refine ih (fun r listed => inside r (List.mem_cons_of_mem _ listed)) ?_
        rcases List.mem_cons.mp listed with same | later
        · cases same
          exact absurd (List.isPrefixOf_iff_prefix.mpr under) outside
        · exact later
  exact ⟨root,inner index.roots (fun _ listed => listed) member⟩

theorem collectSubtree_below (base : Path) (fuel : Nat)
    (below : ∀ id ∈ stack, ∀ pos, (index.idToPos[id]?).join = some pos → ∃ path, Reached index replaced path pos ∧ base <+: path)
    (collected : collectSubtree index replaced fuel stack out = .ok ids) :
    ∀ id ∈ ids, id ∈ out ∨ ∃ pos path, (index.idToPos[id]?).join = some pos ∧ Reached index replaced path pos ∧ base <+: path := by
  induction fuel generalizing stack out with
  | zero =>
    cases collected
    exact fun id member => .inl member
  | succ fuel ih =>
    cases stack with
    | nil =>
      cases collected
      exact fun id member => .inl member
    | cons first rest =>
      have others := fun id member => below id (List.mem_cons_of_mem first member)
      unfold collectSubtree at collected
      split at collected
      · exact ih others collected
      · rename_i pos slot
        split at collected
        · exact ih others collected
        · obtain ⟨c,read,onward⟩ := bind_ok collected
          obtain ⟨path,reached,under⟩ := below first List.mem_cons_self pos slot
          intro id member
          have deeper := ih ?_ onward id member
          · rcases deeper with inside | found
            · rcases List.mem_cons.mp inside with rfl | old
              · exact .inr ⟨pos,path,slot,reached,under⟩
              · exact .inl old
            · exact .inr found
          · intro k listed at_ place
            rcases List.mem_append.mp listed with child | old
            · obtain ⟨r,inside,points⟩ := List.mem_filterMap.mp (List.mem_reverse.mp child)
              refine ⟨path ++ [r.name],.step reached (current_chunkAt read) inside ?_,under.trans (List.prefix_append _ _)⟩
              simp [childPos,points,place]
            · exact others k old at_ place

end Lookups

end RemoteFileExplorer.IndexReach
