import RemoteFileExplorer.Runs
import RemoteFileExplorer.DirectoryIndex

namespace RemoteFileExplorer.IndexBounds
open FileTree DirectoryIndex

-- The table sends an id to the position of the chunk that has it.
def Pointers (chunks : List Chunk) (idToPos : List (Option Nat)) : Prop :=
  ∀ id pos, idToPos[id]? = some (some pos) → ∃ c : Chunk, chunks[pos]? = some c ∧ c.id = id

structure Valid (index : Index) : Prop where
  table : index.idToPos.length = index.nextId
  pointers : Pointers index.chunks index.idToPos
  ids : ∀ c ∈ index.chunks, c.id < index.nextId
  roots : ∀ root ∈ index.roots, ∀ pos, root.2 = some pos → pos < index.chunks.length

section Outcomes
variable {α β : Type}

theorem bind_ok {x : Except Failure α} {f : α → Except Failure β} (done : (x >>= f) = .ok b) : ∃ a, x = .ok a ∧ f a = .ok b := by
  cases x with
  | error e => cases done
  | ok a => exact ⟨a,rfl,done⟩

theorem getPos_ok {v : List α} (inside : v[pos]? = some a) : getPos v pos = .ok a := by
  unfold getPos
  rw [inside]
  rfl

theorem getPos_parts {v : List α} (read : getPos v pos = .ok a) : v[pos]? = some a := by
  unfold getPos at read
  cases found : v[pos]? with
  | none =>
    rw [found] at read
    cases read
  | some b =>
    rw [found] at read
    cases read
    rfl

theorem mapM_total {f : α → Option β} {l : List α} (total : ∀ a ∈ l, ∃ b, f a = some b) : ∃ bs, l.mapM f = some bs := by
  induction l with
  | nil => exact ⟨[],rfl⟩
  | cons a rest ih =>
    obtain ⟨b,first⟩ := total a List.mem_cons_self
    obtain ⟨bs,others⟩ := ih fun a member => total a (List.mem_cons_of_mem _ member)
    exact ⟨b::bs,by simp [List.mapM_cons,first,others]⟩

end Outcomes

section Lookups
variable {index : Index} {replaced : Replaced}

theorem childPos_parts {r : Rec} (below : childPos idToPos r = some pos) : ∃ id, r.child = some id ∧ idToPos[id]? = some (some pos) := by
  obtain ⟨id,points,joined⟩ := Option.bind_eq_some_iff.mp below
  refine ⟨id,points,?_⟩
  cases slot : idToPos[id]? with
  | none =>
    rw [slot] at joined
    cases joined
  | some entry =>
    rw [slot] at joined
    exact congrArg some joined

theorem childPos_inside (pointers : Pointers index.chunks index.idToPos) {r : Rec} (below : childPos index.idToPos r = some pos) :
    ∃ c, index.chunks[pos]? = some c := by
  obtain ⟨id,_,slot⟩ := childPos_parts below
  obtain ⟨c,stored,_⟩ := pointers id pos slot
  exact ⟨c,stored⟩

theorem current_ok (inside : index.chunks[pos]? = some c) : current index replaced pos = .ok ((replaced pos).getD c) := by
  unfold current
  rw [getPos_ok inside]
  rfl

theorem current_parts (read : current index replaced pos = .ok c) :
    ∃ stored, index.chunks[pos]? = some stored ∧ c = (replaced pos).getD stored := by
  obtain ⟨stored,found,same⟩ := bind_ok read
  cases same
  exact ⟨stored,getPos_parts found,rfl⟩

theorem follow_total (replaced : Replaced) (pointers : Pointers index.chunks index.idToPos) (names : List Name) (inside : index.chunks[pos]? = some c) :
    ∃ found, follow index replaced names pos = .ok found ∧ ∀ at_, found = some at_ → ∃ c, index.chunks[at_]? = some c := by
  induction names generalizing pos c with
  | nil => exact ⟨some pos,rfl,fun at_ same => by cases same; exact ⟨c,inside⟩⟩
  | cons name rest ih =>
    unfold follow
    rw [current_ok inside]
    simp only [bind,Except.bind]
    split
    · exact ⟨none,rfl,nofun⟩
    · rename_i below found
      obtain ⟨r,_,points⟩ := Option.bind_eq_some_iff.mp found
      obtain ⟨next,stored⟩ := childPos_inside pointers points
      exact ih stored

theorem locateFrom_total (pointers : Pointers index.chunks index.idToPos) (path : Path) {roots : List (Path × Option Nat)}
    (valid : ∀ root ∈ roots, ∀ pos, root.2 = some pos → pos < index.chunks.length) :
    ∃ found, locateFrom index replaced path roots = .ok found ∧ ∀ root pos, found = some (root,pos) → ∃ c, index.chunks[pos]? = some c := by
  induction roots with
  | nil => exact ⟨none,rfl,nofun⟩
  | cons first rest ih =>
    obtain ⟨root,rootPos⟩ := first
    unfold locateFrom
    split
    · cases rootPos with
      | none => exact ⟨none,rfl,nofun⟩
      | some pos =>
        have inside := valid (root,some pos) List.mem_cons_self pos rfl
        obtain ⟨found,followed,stands⟩ := follow_total replaced pointers (path.drop root.length)
          (List.getElem?_eq_getElem inside)
        refine ⟨found.map fun at_ => (root,at_),by simp only [followed]; rfl,?_⟩
        intro other at_ same
        obtain ⟨place,known,pair⟩ := Option.map_eq_some_iff.mp same
        cases pair
        exact stands at_ known
    · exact ih fun root member => valid root (List.mem_cons_of_mem _ member)

theorem locate_total (replaced : Replaced) (valid : Valid index) (path : Path) :
    ∃ found, locate index replaced path = .ok found ∧ ∀ root pos, found = some (root,pos) → ∃ c, index.chunks[pos]? = some c :=
  locateFrom_total valid.pointers path valid.roots

theorem collectSubtree_total (replaced : Replaced) (pointers : Pointers index.chunks index.idToPos) (fuel : Nat) (stack out : List Nat) :
    ∃ ids, collectSubtree index replaced fuel stack out = .ok ids := by
  induction fuel generalizing stack out with
  | zero => exact ⟨out,rfl⟩
  | succ fuel ih =>
    cases stack with
    | nil => exact ⟨out,rfl⟩
    | cons id stack =>
      unfold collectSubtree
      cases slot : (index.idToPos[id]?).join with
      | none => exact ih stack out
      | some pos =>
        dsimp only
        split
        · exact ih stack out
        · have known : index.idToPos[id]? = some (some pos) := Option.join_eq_some_iff.mp slot
          obtain ⟨c,stored,_⟩ := pointers id pos known
          rw [current_ok stored]
          exact ih _ _

end Lookups

section Walks
variable {disk : Disk}

theorem record_ids (reuse : Name → Option Nat) (rows : List Row) (next : Nat) :
    next ≤ (record reuse rows next).2.2 ∧
    (∀ sub ∈ (record reuse rows next).2.1, next ≤ sub.2 ∧ sub.2 < (record reuse rows next).2.2) ∧
    ((record reuse rows next).2.1.map Prod.snd).Nodup := by
  induction rows generalizing next with
  | nil => simp [record]
  | cons row rest ih =>
    unfold record
    split
    · split
      · exact ih next
      · obtain ⟨grows,inside,distinct⟩ := ih (next + 1)
        refine ⟨Nat.le_of_succ_le grows,?_,?_⟩
        · intro sub member
          rcases List.mem_cons.mp member with rfl | later
          · exact ⟨Nat.le_refl _,grows⟩
          · exact ⟨Nat.le_of_succ_le (inside sub later).1,(inside sub later).2⟩
        · refine List.nodup_cons.mpr ⟨?_,distinct⟩
          rw [List.mem_map]
          rintro ⟨sub,later,same⟩
          have least := (inside sub later).1
          omega
    · exact ih next

structure Block (given : List Nat) (next : Nat) (walked : List Chunk × Nat) : Prop where
  grows : next ≤ walked.2
  ids : ∀ c ∈ walked.1, c.id ∈ given ∨ (next ≤ c.id ∧ c.id < walked.2)
  distinct : (walked.1.map Chunk.id).Nodup

theorem walkSubs_block (disk : Disk) (path : Path) {walk : Path → Nat → Nat → List Chunk × Nat} (walks : ∀ path id next, id < next → Block [id] next (walk path id next))
    {subs : List (Name × Nat)} (given : ∀ sub ∈ subs, sub.2 < next) (apart : (subs.map Prod.snd).Nodup) :
    Block (subs.map Prod.snd) next (walkSubs disk walk path subs next) := by
  induction subs generalizing next with
  | nil => exact ⟨Nat.le_refl _,by simp [walkSubs],by simp [walkSubs]⟩
  | cons sub rest ih =>
    obtain ⟨name,id⟩ := sub
    obtain ⟨other,restApart⟩ := List.nodup_cons.mp apart
    have restGiven : ∀ sub ∈ rest, sub.2 < next := fun sub member => given sub (List.mem_cons_of_mem _ member)
    unfold walkSubs
    split
    · have below := walks (path ++ [name]) id next (given (name,id) List.mem_cons_self)
      have others := ih (fun sub member => Nat.lt_of_lt_of_le (restGiven sub member) below.grows) restApart
      refine ⟨Nat.le_trans below.grows others.grows,?_,?_⟩
      · intro c member
        rcases List.mem_append.mp member with low | high
        · rcases below.ids c low with own | new
          · exact .inl (List.mem_cons.mpr (.inl (List.mem_singleton.mp own)))
          · exact .inr ⟨new.1,Nat.lt_of_lt_of_le new.2 others.grows⟩
        · rcases others.ids c high with own | new
          · exact .inl (List.mem_cons_of_mem _ own)
          · exact .inr ⟨Nat.le_trans below.grows new.1,new.2⟩
      · rw [List.map_append]
        refine List.nodup_append.mpr ⟨below.distinct,others.distinct,?_⟩
        rintro _ left _ right rfl
        obtain ⟨c,low,rfl⟩ := List.mem_map.mp left
        obtain ⟨d,high,same⟩ := List.mem_map.mp right
        have mine := given (name,id) List.mem_cons_self
        rcases below.ids c low with own | new <;> rcases others.ids d high with other' | new'
        · rw [List.mem_singleton.mp own] at same
          rw [same] at other'
          exact other other'
        · rw [List.mem_singleton.mp own] at same
          have := below.grows
          omega
        · obtain ⟨sub,member,known⟩ := List.mem_map.mp other'
          have := restGiven sub member
          omega
        · omega
    · have others := ih restGiven restApart
      exact ⟨others.grows,fun c member => (others.ids c member).imp (List.mem_cons_of_mem _) (fun new => new),others.distinct⟩

theorem listDir_parts {id : Nat} (listed : listDir disk path id reuse next = some (chunk,subs,last)) :
    ∃ rows, disk.entries path = some rows ∧ chunk = ⟨id,path,(record reuse (shownRows path rows) next).1⟩ ∧
      subs = (record reuse (shownRows path rows) next).2.1 ∧ last = (record reuse (shownRows path rows) next).2.2 := by
  obtain ⟨rows,read,same⟩ := Option.map_eq_some_iff.mp listed
  cases same
  exact ⟨rows,read,rfl,rfl,rfl⟩

theorem walkDir_block (disk : Disk) (depth : Nat) (path : Path) (id next : Nat) (given : id < next) : Block [id] next (walkDir disk depth path id next) := by
  induction depth generalizing path id next with
  | zero => exact ⟨Nat.le_refl _,by simp [walkDir],by simp [walkDir]⟩
  | succ depth ih =>
    unfold walkDir
    split
    · exact ⟨Nat.le_refl _,by simp,by simp⟩
    · rename_i chunk subs middle listed
      obtain ⟨rows,_,rfl,rfl,rfl⟩ := listDir_parts listed
      obtain ⟨grows,inside,apart⟩ := record_ids (fun _ => none) (shownRows path rows) next
      have below := walkSubs_block disk path ih (fun sub member => (inside sub member).2) apart
      have news : ∀ c ∈ (walkSubs disk (walkDir disk depth) path (record (fun _ => none) (shownRows path rows) next).2.1
          (record (fun _ => none) (shownRows path rows) next).2.2).1, next ≤ c.id ∧ c.id < (walkSubs disk (walkDir disk depth) path
          (record (fun _ => none) (shownRows path rows) next).2.1 (record (fun _ => none) (shownRows path rows) next).2.2).2 := by
        intro c member
        rcases below.ids c member with own | new
        · obtain ⟨sub,listedSub,same⟩ := List.mem_map.mp own
          have range := inside sub listedSub
          have := below.grows
          omega
        · exact ⟨Nat.le_trans grows new.1,new.2⟩
      refine ⟨Nat.le_trans grows below.grows,?_,?_⟩
      · intro c member
        rcases List.mem_cons.mp member with rfl | later
        · exact .inl List.mem_cons_self
        · exact .inr (news c later)
      · refine List.nodup_cons.mpr ⟨?_,below.distinct⟩
        intro member
        obtain ⟨c,later,same⟩ := List.mem_map.mp member
        have := (news c later).1
        dsimp only at same
        omega

theorem parWalk_block {id : Nat} (disk : Disk) (schedule : Schedule) (path : Path) (given : id < next) : Block [id] next (parWalk disk schedule path id next) := by
  have walked := walkDir_block disk disk.depth path id next given
  unfold parWalk
  generalize walkDir disk disk.depth path id next = outcome at walked
  obtain ⟨chunks,last⟩ := outcome
  have renamed : ∀ i, next ≤ i → i < last → next ≤ schedule.rename next last i ∧ schedule.rename next last i < last := by
    intro i low high
    by_contra escapes
    have fixed := schedule.outside next last _ escapes
    have same := (schedule.rename next last).injective fixed
    rw [same] at escapes
    exact escapes ⟨low,high⟩
  refine ⟨walked.grows,?_,?_⟩
  · intro c member
    rw [(schedule.perm _).mem_iff] at member
    obtain ⟨old,listed,rfl⟩ := List.mem_map.mp member
    rcases walked.ids old listed with own | new
    · left
      have fixed : schedule.rename next last old.id = old.id := schedule.outside next last _ (by
        rw [List.mem_singleton.mp own]
        omega)
      simp only [renameChunk,fixed]
      exact own
    · exact .inr (renamed old.id new.1 new.2)
  · have shuffled := (schedule.perm (chunks.map (renameChunk (schedule.rename next last)))).map Chunk.id
    rw [shuffled.nodup_iff,List.map_map]
    have same : (Chunk.id ∘ renameChunk (schedule.rename next last)) = schedule.rename next last ∘ Chunk.id := rfl
    rw [same,← List.map_map]
    exact walked.distinct.map (schedule.rename next last).injective

end Walks

structure Going (index : Index) (u : Update) : Prop where
  steady : ∀ pos c, u.replaced pos = some c → ∀ stored, index.chunks[pos]? = some stored → c.id = stored.id
  ids : ∀ c ∈ u.added, c.id < u.nextId
  grows : index.nextId ≤ u.nextId

section Updates
variable {disk : Disk} {schedule : Schedule} {index : Index} {u : Update}

def Steady (index : Index) (replaced : Replaced) : Prop :=
  ∀ pos c, replaced pos = some c → ∀ stored, index.chunks[pos]? = some stored → c.id = stored.id

theorem current_id (steady : Steady index replaced) (inside : index.chunks[pos]? = some stored) :
    ((replaced pos).getD stored).id = stored.id := by
  cases change : replaced pos with
  | none => rfl
  | some c => exact steady pos c change stored inside

theorem steady_update (steady : Steady index replaced) (inside : index.chunks[pos]? = some stored) (same : c.id = stored.id) :
    Steady index (Function.update replaced pos (some c)) := by
  intro other chunk changed old found
  by_cases here : other = pos
  · subst here
    rw [Function.update_self] at changed
    rw [inside] at found
    cases changed
    cases found
    exact same
  · rw [Function.update_of_ne here] at changed
    exact steady other chunk changed old found

theorem patchParent_total (disk : Disk) (valid : Valid index) (steady : Steady index replaced) (path : Path) :
    ∃ next, patchParent disk index replaced path = .ok next ∧ Steady index next := by
  unfold patchParent
  split
  · obtain ⟨found,located,stands⟩ := locate_total replaced valid path.dropLast
    rw [located]
    cases found with
    | none => exact ⟨replaced,rfl,steady⟩
    | some at_ =>
      obtain ⟨root,pos⟩ := at_
      obtain ⟨stored,inside⟩ := stands root pos rfl
      simp only [bind,Except.bind]
      rw [current_ok inside]
      dsimp only
      split
      · exact ⟨replaced,rfl,steady⟩
      · exact ⟨_,rfl,steady_update steady inside (current_id steady inside)⟩
  · exact ⟨replaced,rfl,steady⟩

theorem walkNew_going (going : Going index u) {subs : List (Name × Nat)} (given : ∀ sub ∈ subs, sub.2 < u.nextId) :
    walkNew disk schedule limits path subs u = .error .rebuild ∨
    ∃ next, walkNew disk schedule limits path subs u = .ok next ∧ Going index next := by
  induction subs generalizing u with
  | nil => exact .inr ⟨u,rfl,going⟩
  | cons sub rest ih =>
    obtain ⟨name,id⟩ := sub
    have restGiven : ∀ sub ∈ rest, sub.2 < u.nextId := fun sub member => given sub (List.mem_cons_of_mem _ member)
    unfold walkNew
    split
    · dsimp only
      split
      · exact .inl rfl
      · have mine : id < u.nextId := given (name,id) List.mem_cons_self
        have block := parWalk_block disk schedule (path ++ [name]) mine
        refine ih ⟨going.steady,?_,Nat.le_trans going.grows block.grows⟩
          (fun sub member => Nat.lt_of_lt_of_le (restGiven sub member) block.grows)
        intro c member
        rcases List.mem_append.mp member with old | new
        · exact Nat.lt_of_lt_of_le (going.ids c old) block.grows
        · rcases block.ids c new with own | inside
          · rw [List.mem_singleton.mp own]
            exact Nat.lt_of_lt_of_le mine block.grows
          · exact inside.2
    · exact ih going restGiven

theorem collectAll_total (replaced : Replaced) (pointers : Pointers index.chunks index.idToPos) (gone removed : List Nat) :
    ∃ ids, collectAll index replaced gone removed = .ok ids := by
  unfold collectAll
  induction gone generalizing removed with
  | nil => exact ⟨removed,rfl⟩
  | cons id rest ih =>
    obtain ⟨ids,collected⟩ := collectSubtree_total replaced pointers (collectFuel index replaced) [id] removed
    rw [List.foldlM_cons,collected]
    exact ih ids

theorem replaceChunk_total (disk : Disk) (valid : Valid index) (steady : Steady index replaced) (path root : Path)
    (inside : index.chunks[pos]? = some stored) (same : chunk.id = stored.id) :
    ∃ next, replaceChunk disk index replaced path root pos chunk = .ok next ∧ Steady index next := by
  have keeps := steady_update steady inside same
  unfold replaceChunk
  split
  · exact ⟨_,rfl,keeps⟩
  · exact patchParent_total disk valid keeps path

theorem exchange_going (valid : Valid index) (going : Going index u) (inside : index.chunks[pos]? = some stored)
    (same : chunk.id = stored.id) (grows : u.nextId ≤ next) {subs : List (Name × Nat)} (given : ∀ sub ∈ subs, sub.2 < next) :
    exchange disk schedule index u path root pos old chunk subs next = .error .rebuild ∨
    ∃ done, exchange disk schedule index u path root pos old chunk subs next = .ok done ∧ Going index done := by
  unfold exchange
  obtain ⟨removed,collected⟩ := collectAll_total u.replaced valid.pointers (goneChildren old chunk) u.removed
  obtain ⟨replaced,exchanged,keeps⟩ := replaceChunk_total disk valid going.steady path root inside same
  rw [collected]
  rw [exchanged]
  have begun : Going index ⟨replaced,removed,u.added,next,u.fresh⟩ :=
    ⟨keeps,fun c member => Nat.lt_of_lt_of_le (going.ids c member) grows,Nat.le_trans going.grows grows⟩
  exact walkNew_going begun given

theorem relistAt_going (disk : Disk) (schedule : Schedule) (valid : Valid index) (going : Going index u) (path root : Path) (inside : index.chunks[pos]? = some stored) :
    relistAt disk schedule index u path root pos = .error .rebuild ∨
    ∃ done, relistAt disk schedule index u path root pos = .ok done ∧ Going index done := by
  unfold relistAt
  rw [current_ok inside]
  simp only [bind,Except.bind]
  split
  · obtain ⟨removed,collected⟩ := collectSubtree_total u.replaced valid.pointers
      (collectFuel index u.replaced) [((u.replaced pos).getD stored).id] u.removed
    rw [collected]
    refine .inr ⟨_,rfl,?_⟩
    exact ⟨going.steady,going.ids,going.grows⟩
  · rename_i chunk subs next listed
    obtain ⟨rows,_,rfl,rfl,rfl⟩ := listDir_parts listed
    obtain ⟨grows,given,_⟩ := record_ids (fun name => (findRec ((u.replaced pos).getD stored) name).bind Rec.child)
      (shownRows path rows) u.nextId
    have same : (⟨((u.replaced pos).getD stored).id,path,(record (fun name => (findRec ((u.replaced pos).getD stored) name).bind Rec.child)
        (shownRows path rows) u.nextId).1⟩ : Chunk).id = stored.id := current_id going.steady inside
    exact exchange_going valid going inside same grows (fun sub member => (given sub member).2)

theorem relist_going (disk : Disk) (schedule : Schedule) (valid : Valid index) (going : Going index u) (path : Path) :
    relist disk schedule index u path = .error .rebuild ∨
    ∃ next pushed, relist disk schedule index u path = .ok (next,pushed) ∧ Going index next := by
  unfold relist
  split
  · exact .inr ⟨u,[],rfl,going⟩
  · obtain ⟨found,located,stands⟩ := locate_total u.replaced valid path
    rw [located]
    cases found with
    | none => exact .inr ⟨u,[],rfl,going⟩
    | some at_ =>
      obtain ⟨root,pos⟩ := at_
      obtain ⟨stored,inside⟩ := stands root pos rfl
      simp only [bind,Except.bind]
      split
      · exact .inl rfl
      · split
        · split
          · exact .inl rfl
          · exact .inr ⟨u,_,rfl,going⟩
        · rcases relistAt_going disk schedule valid going path root inside with failed | ⟨done,relisted,keeps⟩
          · rw [failed]
            exact .inl rfl
          · rw [relisted]
            exact .inr ⟨done,[],rfl,keeps⟩

theorem workLoop_going (disk : Disk) (schedule : Schedule) (valid : Valid index) (fuel : Nat) (work : List Path) (going : Going index u) :
    workLoop disk schedule index fuel work u = .error .rebuild ∨
    ∃ done, workLoop disk schedule index fuel work u = .ok done ∧ Going index done := by
  induction fuel generalizing work u with
  | zero => exact .inr ⟨u,rfl,going⟩
  | succ fuel ih =>
    cases work with
    | nil => exact .inr ⟨u,rfl,going⟩
    | cons path rest =>
      unfold workLoop
      rcases relist_going disk schedule valid going path with failed | ⟨next,pushed,relisted,keeps⟩
      · rw [failed]
        exact .inl rfl
      · rw [relisted]
        exact ih (rest ++ pushed) keeps

end Updates

theorem place_total {chunks : List Chunk} (table : List (Option Nat)) (pos : Nat) (inside : ∀ c ∈ chunks, c.id < table.length) :
    ∃ result, place table pos chunks = some result ∧ result.length = table.length ∧
      ∀ id p, result[id]? = some (some p) → table[id]? = some (some p) ∨ ∃ i c, p = pos + i ∧ chunks[i]? = some c ∧ c.id = id := by
  induction chunks generalizing table pos with
  | nil => exact ⟨table,rfl,rfl,fun id p slot => .inl slot⟩
  | cons chunk rest ih =>
    have mine := inside chunk List.mem_cons_self
    have later : ∀ c ∈ rest, c.id < (table.set chunk.id (some pos)).length := by
      intro c member
      rw [List.length_set]
      exact inside c (List.mem_cons_of_mem _ member)
    obtain ⟨result,placed,length,slots⟩ := ih _ (pos + 1) later
    refine ⟨result,by rw [place,if_pos mine,placed],by rw [length,List.length_set],?_⟩
    intro id p slot
    rcases slots id p slot with old | ⟨i,c,rfl,found,same⟩
    · by_cases here : chunk.id = id
      · subst here
        rw [List.getElem?_set_self mine] at old
        cases old
        exact .inr ⟨0,chunk,rfl,rfl,rfl⟩
      · rw [List.getElem?_set_ne here] at old
        exact .inl old
    · exact .inr ⟨i + 1,c,by omega,found,same⟩

theorem place_pointers {chunks : List Chunk} {size : Nat} (inside : ∀ c ∈ chunks, c.id < size) :
    ∃ table, place (List.replicate size none) 0 chunks = some table ∧ table.length = size ∧ Pointers chunks table := by
  obtain ⟨table,placed,length,slots⟩ := place_total (List.replicate size none) 0 (by simpa using inside)
  refine ⟨table,placed,by simpa using length,?_⟩
  intro id pos slot
  rcases slots id pos slot with old | ⟨i,c,rfl,found,same⟩
  · rw [List.getElem?_replicate] at old
    split at old <;> cases old
  · exact ⟨c,by simpa using found,same⟩

theorem dfsFrom_total {chunks : List Chunk} {idToPos : List (Option Nat)} (pointers : Pointers chunks idToPos) (depth : Nat)
    (inside : chunks[pos]? = some c) : ∃ items, dfsFrom chunks idToPos depth pos = some items := by
  induction depth generalizing pos c with
  | zero => exact ⟨[],rfl⟩
  | succ depth ih =>
    have parts : ∃ parts, c.recs.mapM (dfsRec idToPos c.dirPath (dfsFrom chunks idToPos depth)) = some parts := by
      refine mapM_total fun r _ => ?_
      unfold dfsRec
      cases points : childPos idToPos r with
      | none => exact ⟨_,rfl⟩
      | some below =>
        obtain ⟨id,_,slot⟩ := childPos_parts points
        obtain ⟨next,stored,_⟩ := pointers id below slot
        obtain ⟨items,walked⟩ := ih stored
        exact ⟨_,by simp only [walked]; rfl⟩
    obtain ⟨parts,walked⟩ := parts
    refine ⟨parts.flatten,?_⟩
    unfold dfsFrom
    rw [inside,Option.bind_some,walked]
    rfl

theorem dfs_total {chunks : List Chunk} {idToPos : List (Option Nat)} {roots : List (Path × Option Nat)}
    (pointers : Pointers chunks idToPos) (inside : ∀ root ∈ roots, ∀ pos, root.2 = some pos → pos < chunks.length) :
    ∃ items, dfs chunks idToPos roots = some items := by
  have parts : ∃ parts, roots.mapM (dfsRoot chunks idToPos) = some parts := by
    refine mapM_total fun root member => ?_
    unfold dfsRoot
    cases at_ : root.2 with
    | none => exact ⟨[],rfl⟩
    | some pos => exact dfsFrom_total pointers _ (List.getElem?_eq_getElem (inside root member pos at_))
  obtain ⟨parts,walked⟩ := parts
  exact ⟨parts.flatten,by unfold dfs; rw [walked]; rfl⟩

section Finish
variable {index : Index} {u : Update}

theorem kept_ids (steady : Steady index u.replaced) (member : c ∈ kept index u) : ∃ stored ∈ index.chunks, c.id = stored.id := by
  obtain ⟨pair,listed,chosen⟩ := List.mem_filterMap.mp member
  obtain ⟨stored,pos⟩ := pair
  have found := List.mem_zipIdx_iff_getElem?.mp listed
  split at chosen
  · cases chosen
  · cases chosen
    exact ⟨stored,List.mem_of_getElem? found,current_id steady found⟩

theorem newRoot_ok {chunks : List Chunk} {idToPos : List (Option Nat)} {root : Path × Option Nat}
    (inside : ∀ pos, root.2 = some pos → pos < chunks.length) (ids : ∀ c ∈ chunks, c.id < idToPos.length) (stands : root.2 ≠ none) :
    ∃ pos c at_, root.2 = some pos ∧ chunks[pos]? = some c ∧ idToPos[c.id]? = some at_ ∧ newRoot chunks idToPos root = .ok (root.1,at_) := by
  cases here : root.2 with
  | none => exact absurd here stands
  | some pos =>
    have stored := List.getElem?_eq_getElem (inside pos here)
    have known := ids _ (List.mem_of_getElem? stored)
    refine ⟨pos,_,_,rfl,stored,List.getElem?_eq_getElem known,?_⟩
    unfold newRoot
    rw [here]
    simp only [bind,Except.bind]
    rw [getPos_ok stored]
    dsimp only
    rw [getPos_ok (List.getElem?_eq_getElem known)]
    rfl

theorem newRoots_ok {chunks : List Chunk} {idToPos : List (Option Nat)} {roots : List (Path × Option Nat)}
    (inside : ∀ root ∈ roots, ∀ pos, root.2 = some pos → pos < chunks.length) (ids : ∀ c ∈ chunks, c.id < idToPos.length)
    (stand : ∀ root ∈ roots, root.2 ≠ none) :
    ∃ next, roots.mapM (newRoot chunks idToPos) = .ok next ∧
      ∀ root ∈ next, ∃ old ∈ roots, ∃ pos c, old.1 = root.1 ∧ old.2 = some pos ∧ chunks[pos]? = some c ∧ idToPos[c.id]? = some root.2 := by
  induction roots with
  | nil => exact ⟨[],rfl,by simp⟩
  | cons root rest ih =>
    obtain ⟨pos,c,at_,here,stored,slot,first⟩ := newRoot_ok (inside root List.mem_cons_self) ids (stand root List.mem_cons_self)
    obtain ⟨next,others,origin⟩ := ih (fun r member => inside r (List.mem_cons_of_mem _ member))
      (fun r member => stand r (List.mem_cons_of_mem _ member))
    refine ⟨(root.1,at_)::next,by rw [List.mapM_cons,first]; simp only [bind,Except.bind]; rw [others]; rfl,?_⟩
    intro other member
    rcases List.mem_cons.mp member with rfl | later
    · exact ⟨root,List.mem_cons_self,pos,c,rfl,here,stored,slot⟩
    · obtain ⟨old,listed,rest⟩ := origin other later
      exact ⟨old,List.mem_cons_of_mem _ listed,rest⟩

theorem newRoots_panic {chunks : List Chunk} {idToPos : List (Option Nat)} {roots : List (Path × Option Nat)}
    (inside : ∀ root ∈ roots, ∀ pos, root.2 = some pos → pos < chunks.length) (ids : ∀ c ∈ chunks, c.id < idToPos.length)
    (missing : ∃ root ∈ roots, root.2 = none) : roots.mapM (newRoot chunks idToPos) = .error .panic := by
  induction roots with
  | nil =>
    obtain ⟨_,member,_⟩ := missing
    cases member
  | cons root rest ih =>
    rw [List.mapM_cons]
    by_cases here : root.2 = none
    · have fails : newRoot chunks idToPos root = .error .panic := by
        unfold newRoot
        rw [here]
      rw [fails]
      rfl
    · obtain ⟨_,_,at_,_,_,_,first⟩ := newRoot_ok (inside root List.mem_cons_self) ids here
      have later : ∃ root ∈ rest, root.2 = none := by
        obtain ⟨other,member,none⟩ := missing
        rcases List.mem_cons.mp member with rfl | listed
        · exact absurd none here
        · exact ⟨other,listed,none⟩
      rw [first]
      simp only [bind,Except.bind]
      rw [ih (fun r member => inside r (List.mem_cons_of_mem _ member)) later]

section
variable (valid : Valid index) (going : Going index u)
include valid going

theorem finish_ids : ∀ c ∈ kept index u ++ u.added, c.id < u.nextId := by
  intro c member
  rcases List.mem_append.mp member with old | new
  · obtain ⟨stored,listed,same⟩ := kept_ids going.steady old
    rw [same]
    exact Nat.lt_of_lt_of_le (valid.ids stored listed) going.grows
  · exact going.ids c new

theorem finish_stands (stand : ∀ root ∈ index.roots, root.2 ≠ none) :
    finish index u = .error .rebuild ∨ ∃ next, finish index u = .ok next ∧ Valid next := by
  have ids := finish_ids valid going
  obtain ⟨table,placed,length,pointers⟩ := place_pointers ids
  have known : ∀ c ∈ index.chunks, c.id < table.length := by
    intro c member
    rw [length]
    exact Nat.lt_of_lt_of_le (valid.ids c member) going.grows
  obtain ⟨roots,mapped,origin⟩ := newRoots_ok valid.roots known stand
  have inside : ∀ root ∈ roots, ∀ pos, root.2 = some pos → pos < (kept index u ++ u.added).length := by
    intro root member pos here
    obtain ⟨old,_,_,c,_,_,_,slot⟩ := origin root member
    rw [here] at slot
    obtain ⟨found,stored,_⟩ := pointers c.id pos slot
    exact (List.getElem?_eq_some_iff.mp stored).1
  obtain ⟨items,walked⟩ := dfs_total pointers inside
  unfold finish
  dsimp only
  rw [placed]
  simp only [bind,Except.bind,Option.elim]
  rw [mapped]
  dsimp only
  split
  · exact .inl rfl
  · rw [walked]
    exact .inr ⟨_,rfl,⟨length,pointers,ids,inside⟩⟩

theorem finish_panics (missing : ∃ root ∈ index.roots, root.2 = none) :
    finish index u = .error .panic := by
  obtain ⟨table,placed,length,_⟩ := place_pointers (finish_ids valid going)
  have known : ∀ c ∈ index.chunks, c.id < table.length := by
    intro c member
    rw [length]
    exact Nat.lt_of_lt_of_le (valid.ids c member) going.grows
  unfold finish
  dsimp only
  rw [placed]
  simp only [bind,Except.bind,Option.elim]
  rw [newRoots_panic valid.roots known missing]

end

end Finish

section Reach
variable {index : Index}

theorem starts_going (index : Index) : Going index ⟨fun _ => none,[],[],index.nextId,[]⟩ :=
  ⟨fun _ _ changed => (by cases changed),by simp,Nat.le_refl _⟩

theorem apply_stands (disk : Disk) (schedule : Schedule) (dirty : List Path) (valid : Valid index) (stand : ∀ root ∈ index.roots, root.2 ≠ none) :
    apply disk schedule index dirty = .error .rebuild ∨ ∃ next, apply disk schedule index dirty = .ok next ∧ Valid next := by
  unfold apply
  split
  · exact .inl rfl
  · rcases workLoop_going disk schedule valid (workFuel (workOrder dirty)) (workOrder dirty) (starts_going index) with
      failed | ⟨done,looped,going⟩
    · simp only [bind,Except.bind]
      rw [failed]
      exact .inl rfl
    · simp only [bind,Except.bind]
      rw [looped]
      exact finish_stands valid going stand

theorem apply_ok_stands {disk : Disk} {schedule : Schedule} {dirty : List Path} {next : Index} (valid : Valid index)
    (applied : apply disk schedule index dirty = .ok next) : ∀ root ∈ index.roots, root.2 ≠ none := by
  intro root member none
  unfold apply at applied
  split at applied
  · cases applied
  · obtain ⟨done,looped,finished⟩ := bind_ok applied
    rcases workLoop_going disk schedule valid (workFuel (workOrder dirty)) (workOrder dirty) (starts_going index) with
      failed | ⟨same,again,going⟩
    · rw [failed] at looped
      cases looped
    · rw [again] at looped
      cases looped
      rw [finish_panics valid going ⟨root,member,none⟩] at finished
      cases finished

theorem apply_valid {disk : Disk} {schedule : Schedule} {dirty : List Path} {next : Index} (valid : Valid index)
    (applied : apply disk schedule index dirty = .ok next) : Valid next := by
  rcases apply_stands disk schedule dirty valid (apply_ok_stands valid applied) with failed | ⟨same,again,stands⟩
  · rw [failed] at applied
    cases applied
  · rw [again] at applied
    cases applied
    exact stands

theorem walkRoots_cons (disk : Disk) (schedule : Schedule) (root : Path) (rest : List Path) (next : Nat) :
    ∃ walked, walked = (if disk.opensRoot root then parWalk disk schedule root next (next + 1) else ([],next + 1)) ∧
    walkRoots disk schedule (root::rest) next = ((root,next)::(walkRoots disk schedule rest walked.2).1,
      walked.1 ++ (walkRoots disk schedule rest walked.2).2.1,(walkRoots disk schedule rest walked.2).2.2) := ⟨_,rfl,rfl⟩

theorem walkRoots_block (disk : Disk) (schedule : Schedule) (roots : List Path) (next : Nat) :
    next ≤ (walkRoots disk schedule roots next).2.2 ∧
    (∀ c ∈ (walkRoots disk schedule roots next).2.1, next ≤ c.id ∧ c.id < (walkRoots disk schedule roots next).2.2) ∧
    ((walkRoots disk schedule roots next).2.1.map Chunk.id).Nodup := by
  induction roots generalizing next with
  | nil => simp [walkRoots]
  | cons root rest ih =>
    have first : Block [next] (next + 1) (if disk.opensRoot root then parWalk disk schedule root next (next + 1) else ([],next + 1)) := by
      split
      · exact parWalk_block disk schedule root (Nat.lt_succ_self next)
      · exact ⟨Nat.le_refl _,by simp,by simp⟩
    obtain ⟨walked,same,split⟩ := walkRoots_cons disk schedule root rest next
    rw [← same] at first
    rw [split]
    dsimp only
    obtain ⟨grows,inside,distinct⟩ := ih walked.2
    have least := first.grows
    refine ⟨by omega,?_,?_⟩
    · intro c member
      rcases List.mem_append.mp member with mine | other
      · rcases first.ids c mine with own | new
        · have := List.mem_singleton.mp own
          omega
        · omega
      · have := inside c other
        omega
    · rw [List.map_append]
      refine List.nodup_append.mpr ⟨first.distinct,distinct,?_⟩
      rintro _ left _ right rfl
      obtain ⟨c,mine,rfl⟩ := List.mem_map.mp left
      obtain ⟨d,other,same⟩ := List.mem_map.mp right
      have low := (inside d other).1
      rcases first.ids c mine with own | new
      · have := List.mem_singleton.mp own
        omega
      · omega

theorem build_valid (disk : Disk) (schedule : Schedule) (roots : List Path) (limits : Limits) :
    ∃ index, build disk schedule roots limits = some index ∧ Valid index := by
  obtain ⟨_,inside,_⟩ := walkRoots_block disk schedule roots 0
  have ids : ∀ c ∈ (walkRoots disk schedule roots 0).2.1.insertionSort (fun a b => a.id ≤ b.id), c.id < (walkRoots disk schedule roots 0).2.2 := by
    intro c member
    exact (inside c ((List.perm_insertionSort _ _).mem_iff.mp member)).2
  obtain ⟨table,placed,length,pointers⟩ := place_pointers ids
  have positions : ∀ root ∈ (walkRoots disk schedule roots 0).1.map (fun root => (root.1,(table[root.2]?).join)), ∀ pos, root.2 = some pos →
      pos < ((walkRoots disk schedule roots 0).2.1.insertionSort (fun a b => a.id ≤ b.id)).length := by
    intro root member pos here
    obtain ⟨old,_,rfl⟩ := List.mem_map.mp member
    obtain ⟨c,stored,_⟩ := pointers old.2 pos (Option.join_eq_some_iff.mp here)
    exact (List.getElem?_eq_some_iff.mp stored).1
  obtain ⟨items,walked⟩ := dfs_total pointers positions
  unfold build
  simp only [bind,Option.bind]
  rw [placed]
  dsimp only
  rw [walked]
  exact ⟨_,rfl,⟨length,pointers,ids,positions⟩⟩

-- The applier publishes what an update returns; a rebuild starts a new run.
def step (index : Index) (event : Disk × Schedule × List Path) : Option Index :=
  match apply event.1 event.2.1 index event.2.2 with
  | .ok next => some next
  | .error _ => none

theorem run_valid (valid : Valid start) (ran : Runs.run step start events = some last) : Valid last := by
  refine Runs.run_preserves ?_ valid ran
  intro s event next stands stepped
  unfold step at stepped
  split at stepped
  · rename_i applied
    cases stepped
    exact apply_valid stands applied
  · cases stepped

theorem apply_in_bounds_iff (disk : Disk) (schedule : Schedule) (roots : List Path) (limits : Limits) (events : List (Disk × Schedule × List Path))
    {start last : Index} (built : build disk schedule roots limits = some start) (ran : Runs.run step start events = some last) :
    (∀ disk schedule dirty, apply disk schedule last dirty ≠ .error .panic) ↔
    (last.truncated = true ∨ ∀ root ∈ last.roots, root.2 ≠ none) := by
  obtain ⟨same,again,valid⟩ := build_valid disk schedule roots limits
  rw [built] at again
  cases again
  have stands := run_valid valid ran
  constructor
  · intro safe
    by_contra broken
    obtain ⟨whole,missing⟩ := not_or.mp broken
    have lost : ∃ root ∈ last.roots, root.2 = none := by
      by_contra every
      exact missing fun root member none => every ⟨root,member,none⟩
    -- With nothing to re-list the update goes straight to its last part.
    refine safe disk schedule [] ?_
    unfold apply
    rw [if_neg whole]
    exact finish_panics stands (starts_going last) lost
  · intro fits disk schedule dirty panics
    rcases fits with cut | stand
    · unfold apply at panics
      rw [if_pos cut] at panics
      cases panics
    · rcases apply_stands disk schedule dirty stands stand with failed | ⟨next,applied,_⟩
      · rw [failed] at panics
        cases panics
      · rw [applied] at panics
        cases panics

-- However an index was built and updated, its table has a slot for every id, sends
-- ids to the chunks that have them, and no root lies outside of the chunks.
theorem reachable_valid (built : build disk schedule roots limits = some start) (ran : Runs.run step start events = some last) : Valid last := by
  obtain ⟨same,again,valid⟩ := build_valid disk schedule roots limits
  rw [built] at again
  cases again
  exact run_valid valid ran

end Reach

def inOrder : Schedule := ⟨fun _ _ => Equiv.refl Nat,fun _ _ _ _ => rfl,id,fun _ => .refl _⟩

def unmounted : Disk := ⟨fun _ => false,fun _ => false,fun _ => none,fun _ => none,1⟩

theorem missing_root_panics : ∃ index, build unmounted inOrder [["home"]] ⟨1000,1000000⟩ = some index ∧ index.truncated = false ∧
    apply unmounted inOrder index [["home","docs"]] = .error .panic := ⟨_,rfl,rfl,rfl⟩

def homeDisk : Disk :=
  ⟨fun path => path == ["home"],fun path => path == ["home"] || path == ["home","docs"],
    fun path => if path = ["home"] then some [⟨"notes",⟨⟨7,1,1,0⟩,false,false,""⟩,false⟩,⟨"docs",⟨⟨0,1,1,0⟩,true,false,""⟩,true⟩]
      else if path = ["home","docs"] then some [] else none,
    fun _ => some ⟨0,1,1,0⟩,2⟩

theorem opened_root_never_panics : ∃ start last, build homeDisk inOrder [["home"]] ⟨1000,1000000⟩ = some start ∧
    Runs.run step start [(homeDisk,inOrder,[["home","docs"]])] = some last ∧
    ∀ disk schedule dirty, apply disk schedule last dirty ≠ .error .panic := by
  have outcome : ∃ start last, build homeDisk inOrder [["home"]] ⟨1000,1000000⟩ = some start ∧
      Runs.run step start [(homeDisk,inOrder,[["home","docs"]])] = some last ∧ last.roots = [(["home"],some 0)] := ⟨_,_,rfl,rfl,rfl⟩
  obtain ⟨start,last,built,ran,roots⟩ := outcome
  refine ⟨start,last,built,ran,(apply_in_bounds_iff homeDisk inOrder _ _ _ built ran).mpr (.inr ?_)⟩
  rw [roots]
  simp

theorem updated_home_valid : ∃ start last, build homeDisk inOrder [["home"]] ⟨1000,1000000⟩ = some start ∧
    Runs.run step start [(homeDisk,inOrder,[["home","docs"]])] = some last ∧ Valid last := by
  have outcome : ∃ start last, build homeDisk inOrder [["home"]] ⟨1000,1000000⟩ = some start ∧
      Runs.run step start [(homeDisk,inOrder,[["home","docs"]])] = some last := ⟨_,_,rfl,rfl⟩
  obtain ⟨start,last,built,ran⟩ := outcome
  exact ⟨start,last,built,ran,reachable_valid built ran⟩

end RemoteFileExplorer.IndexBounds
