import RemoteFileExplorer.ParallelScans
import RemoteFileExplorer.SearchAgreement

namespace RemoteFileExplorer.IndexQueries
open FileTree DirectoryIndex IndexMirror SearchFilters SearchWalk SearchAgreement ParallelScans

structure Visit where
  pos : Nat
  i : Nat
  item : Item
  deriving DecidableEq, Repr

def rawRec (idToPos : List (Option Nat)) (pos : Nat) (dir : Path) (walk : Nat → Option (List Visit)) (r : Rec × Nat) : Option (List Visit) :=
  match childPos idToPos r.1 with
  | none => some [⟨pos,r.2,⟨dir,r.1.name,r.1.attrs⟩⟩]
  | some below => (walk below).map (⟨pos,r.2,⟨dir,r.1.name,r.1.attrs⟩⟩::·)

def rawFrom (chunks : List Chunk) (idToPos : List (Option Nat)) : Nat → Nat → Option (List Visit)
  | 0,_ => some []
  | depth + 1,pos => (chunks[pos]?).bind fun chunk =>
    (chunk.recs.zipIdx.mapM (rawRec idToPos pos chunk.dirPath (rawFrom chunks idToPos depth))).map List.flatten

def rawRoot (chunks : List Chunk) (idToPos : List (Option Nat)) (root : Path × Option Nat) : Option (List Visit) :=
  match root.2 with
  | none => some []
  | some pos => rawFrom chunks idToPos (dfsDepth chunks) pos

def dfsRaw (chunks : List Chunk) (idToPos : List (Option Nat)) (roots : List (Path × Option Nat)) : Option (List Visit) :=
  (roots.mapM (rawRoot chunks idToPos)).map List.flatten

structure Seg where
  pos : Nat
  start : Nat
  stop : Nat
  deriving DecidableEq, Repr

def pushSeg (segs : List Seg) (at_ : Nat × Nat) : List Seg :=
  match segs.getLast? with
  | none => segs ++ [⟨at_.1,at_.2,at_.2+1⟩]
  | some last =>
    if last.pos = at_.1 ∧ last.stop = at_.2 then segs.dropLast ++ [{last with stop := last.stop+1}]
    else segs ++ [⟨at_.1,at_.2,at_.2+1⟩]

def segments (places : List (Nat × Nat)) : List Seg := places.foldl pushSeg []

def Seg.places (s : Seg) : List (Nat × Nat) := (List.range' s.start (s.stop - s.start)).map fun i => (s.pos,i)

def segsOf (index : Index) : Option (List Seg) :=
  (dfsRaw index.chunks index.idToPos index.roots).map fun visits => segments ((visits.take index.visible).map fun v => (v.pos,v.i))

-- A segment looks at the gate before it and at every 8192nd record.
def Seg.work (s : Seg) : List (Instr (Nat × Nat)) :=
  .check::s.places.flatMap fun at_ => if at_.2 % 8192 = 8191 then [.check,.entry at_] else [.entry at_]

def groupWork (group : List Seg) : List (Instr (Nat × Nat)) := group.flatMap Seg.work

-- The groups of the source: cut once they hold `target` entries.
def cut (target : Nat) : List Seg → List Seg → Nat → List (List Seg)
  | [],held,_ => if held = [] then [] else [held]
  | s::rest,held,acc =>
    if target ≤ acc + (s.stop - s.start) then (held ++ [s])::cut target rest [] 0 else cut target rest (held ++ [s]) (acc + (s.stop - s.start))

-- Any division of the segments; a slice has no more groups than a usize counts.
structure Division (index : Index) where
  groups : List (List Seg)
  whole : segsOf index = some groups.flatten
  fits : groups.length ≤ usizeMax

section Scan
variable (casing : Casing) (filters : Filters) (roots : List Path) (index : Index)

def itemAt (at_ : Nat × Nat) : Option Item :=
  (index.chunks[at_.1]?).bind fun chunk => (chunk.recs[at_.2]?).map fun r => ⟨chunk.dirPath,r.name,r.attrs⟩

def scanEntry (at_ : Nat × Nat) : Option Entry :=
  (itemAt index at_).bind fun item =>
    if sidecarAccepts casing filters item && underAnyRootScopes roots (item.dir ++ [item.name]) then some (toEntry item) else none

def scanStart (division : Division index) : State (Nat × Nat) Entry := start usizeMax (division.groups.map groupWork)

def scanStep (limit : Nat) : State (Nat × Nat) Entry → Event → Option (State (Nat × Nat) Entry) :=
  step limit (scanEntry casing filters roots index)

def answer (limit : Nat) (s : State (Nat × Nat) Entry) : List Entry × Bool :=
  let joined := join limit (s.threads.map Thread.out).flatten []
  (joined.1,index.truncated || joined.2)

end Scan

section Traversal
variable {chunks : List Chunk} {idToPos : List (Option Nat)} {index : Index} {items : List Item}

theorem rawFrom_items (depth pos : Nat) : dfsFrom chunks idToPos depth pos = (rawFrom chunks idToPos depth pos).map (List.map Visit.item) := by
  induction depth generalizing pos with
  | zero => rfl
  | succ depth ih =>
    unfold dfsFrom rawFrom
    cases chunks[pos]? with
    | none => rfl
    | some chunk =>
      have each : ∀ r ∈ chunk.recs.zipIdx, dfsRec idToPos chunk.dirPath (dfsFrom chunks idToPos depth) r.1 =
          (rawRec idToPos pos chunk.dirPath (rawFrom chunks idToPos depth) r).map (List.map Visit.item) := by
        intro r _
        unfold dfsRec rawRec
        cases childPos idToPos r.1 with
        | none => rfl
        | some below =>
          dsimp only
          rw [ih below,Option.map_map,Option.map_map]
          rfl
      have whole := mapM_seen each
      have plain : chunk.recs.mapM (dfsRec idToPos chunk.dirPath (dfsFrom chunks idToPos depth)) =
          chunk.recs.zipIdx.mapM fun r => dfsRec idToPos chunk.dirPath (dfsFrom chunks idToPos depth) r.1 := by
        have names : chunk.recs.zipIdx.map Prod.fst = chunk.recs := List.zipIdx_map_fst ..
        conv_lhs => rw [← names,List.mapM_map]
        rfl
      rw [Option.bind_some,Option.bind_some,plain,whole,Option.map_map,Option.map_map]
      congr 1
      funext parts
      exact List.map_flatten.symm

theorem dfsRaw_items (roots : List (Path × Option Nat)) : dfs chunks idToPos roots = (dfsRaw chunks idToPos roots).map (List.map Visit.item) := by
  have each : ∀ root ∈ roots, dfsRoot chunks idToPos root = (rawRoot chunks idToPos root).map (List.map Visit.item) := by
    intro root _
    unfold dfsRoot rawRoot
    cases root.2 with
    | none => rfl
    | some pos => exact rawFrom_items _ pos
  unfold dfs dfsRaw
  rw [mapM_seen each,Option.map_map,Option.map_map]
  congr 1
  funext parts
  exact List.map_flatten.symm

def Listed (chunks : List Chunk) (v : Visit) : Prop :=
  ∃ chunk r, chunks[v.pos]? = some chunk ∧ chunk.recs[v.i]? = some r ∧ v.item = ⟨chunk.dirPath,r.name,r.attrs⟩

theorem mapM_mem {α β : Type} {f : α → Option (List β)} {l : List α} {parts : List (List β)} (mapped : l.mapM f = some parts) {b : β} (mem : b ∈ parts.flatten) :
    ∃ a ∈ l, ∃ part, f a = some part ∧ b ∈ part := by
  obtain ⟨part,inside,there⟩ := List.mem_flatten.mp mem
  induction l generalizing parts with
  | nil =>
    cases mapped
    cases inside
  | cons a rest ih =>
    rw [List.mapM_cons] at mapped
    obtain ⟨first,made,others⟩ := Option.bind_eq_some_iff.mp mapped
    obtain ⟨tail,more,same⟩ := Option.bind_eq_some_iff.mp others
    cases same
    rcases List.mem_cons.mp inside with rfl | later
    · exact ⟨a,List.mem_cons_self ..,_,made,there⟩
    · obtain ⟨c,listed,piece,from_,holds⟩ := ih more (List.mem_flatten.mpr ⟨part,later,there⟩) later
      exact ⟨c,List.mem_cons_of_mem _ listed,piece,from_,holds⟩

theorem rawFrom_listed (depth : Nat) {pos : Nat} {visits : List Visit} (walked : rawFrom chunks idToPos depth pos = some visits) :
    ∀ v ∈ visits, Listed chunks v := by
  induction depth generalizing pos visits with
  | zero =>
    cases walked
    intro v mem
    cases mem
  | succ depth ih =>
    obtain ⟨chunk,stored,rest⟩ := Option.bind_eq_some_iff.mp walked
    obtain ⟨parts,mapped,rfl⟩ := Option.map_eq_some_iff.mp rest
    intro v mem
    obtain ⟨⟨r,i⟩,numbered,part,made,inside⟩ := mapM_mem mapped mem
    have own : Listed chunks ⟨pos,i,⟨chunk.dirPath,r.name,r.attrs⟩⟩ :=
      ⟨chunk,r,stored,List.mem_zipIdx_iff_getElem?.mp numbered,rfl⟩
    unfold rawRec at made
    split at made
    · cases made
      rw [List.mem_singleton.mp inside]
      exact own
    · obtain ⟨below,went,rfl⟩ := Option.map_eq_some_iff.mp made
      rcases List.mem_cons.mp inside with rfl | under
      · exact own
      · exact ih went v under

theorem dfsRaw_listed {roots : List (Path × Option Nat)} {visits : List Visit} (walked : dfsRaw chunks idToPos roots = some visits) :
    ∀ v ∈ visits, Listed chunks v := by
  obtain ⟨parts,mapped,rfl⟩ := Option.map_eq_some_iff.mp walked
  intro v mem
  obtain ⟨root,_,part,made,inside⟩ := mapM_mem mapped mem
  unfold rawRoot at made
  split at made
  · cases made
    cases inside
  · exact rawFrom_listed _ made v inside

end Traversal

def Seg.Long (s : Seg) : Prop := s.start < s.stop

theorem places_grow {s : Seg} (long : s.Long) : Seg.places {s with stop := s.stop+1} = s.places ++ [(s.pos,s.stop)] := by
  unfold Seg.Long at long
  have size : s.stop + 1 - s.start = (s.stop - s.start) + 1 := by omega
  have last : s.start + (s.stop - s.start) = s.stop := by omega
  unfold Seg.places
  rw [size,List.range'_1_concat,List.map_append,last]
  rfl

theorem places_new (pos i : Nat) : Seg.places ⟨pos,i,i+1⟩ = [(pos,i)] := by
  unfold Seg.places
  rw [Nat.add_sub_cancel_left]
  rfl

theorem pushSeg_places (long : ∀ s ∈ segs, s.Long) (at_ : Nat × Nat) :
    (pushSeg segs at_).flatMap Seg.places = segs.flatMap Seg.places ++ [at_] ∧ ∀ s ∈ pushSeg segs at_, s.Long := by
  have fresh : (segs ++ [(⟨at_.1,at_.2,at_.2+1⟩ : Seg)]).flatMap Seg.places = segs.flatMap Seg.places ++ [at_] ∧
      ∀ s ∈ segs ++ [(⟨at_.1,at_.2,at_.2+1⟩ : Seg)], s.Long := by
    refine ⟨?_,?_⟩
    · rw [List.flatMap_append,List.flatMap_singleton,places_new]
    · intro s mem
      rcases List.mem_append.mp mem with old | new
      · exact long s old
      · rw [List.mem_singleton.mp new]
        exact Nat.lt_succ_self _
  unfold pushSeg
  cases tail : segs.getLast? with
  | none => exact fresh
  | some last =>
    dsimp only
    split
    · rename_i adjacent
      obtain ⟨before,rfl⟩ := List.getLast?_eq_some_iff.mp tail
      have own : last.Long := long last (by simp)
      rw [List.dropLast_concat]
      refine ⟨?_,?_⟩
      · rw [List.flatMap_append,List.flatMap_append,List.flatMap_singleton,List.flatMap_singleton,places_grow own,adjacent.1,adjacent.2,List.append_assoc]
      · intro s mem
        rcases List.mem_append.mp mem with old | new
        · exact long s (List.mem_append_left _ old)
        · rw [List.mem_singleton.mp new]
          exact Nat.lt_succ_of_lt own
    · exact fresh

theorem segments_places (places : List (Nat × Nat)) : (segments places).flatMap Seg.places = places := by
  have grows (segs : List Seg) (long : ∀ s ∈ segs, s.Long) : (places.foldl pushSeg segs).flatMap Seg.places = segs.flatMap Seg.places ++ places := by
    induction places generalizing segs with
    | nil => rw [List.foldl_nil,List.append_nil]
    | cons at_ rest ih =>
      obtain ⟨pushed,kept⟩ := pushSeg_places long at_
      rw [List.foldl_cons,ih _ kept,pushed,List.append_assoc]
      rfl
  exact grows [] nofun

theorem cut_whole (target : Nat) (segs held : List Seg) (acc : Nat) : (cut target segs held acc).flatten = held ++ segs := by
  induction segs generalizing held acc with
  | nil =>
    unfold cut
    split
    · rename_i empty
      rw [empty]
      rfl
    · simp
  | cons s rest ih =>
    unfold cut
    split
    · rw [List.flatten_cons,ih,List.nil_append,List.append_assoc]
      rfl
    · rw [ih,List.append_assoc]
      rfl

theorem cut_length (target : Nat) (segs held : List Seg) (acc : Nat) : (cut target segs held acc).length ≤ (held ++ segs).length := by
  induction segs generalizing held acc with
  | nil =>
    unfold cut
    split
    · exact Nat.zero_le _
    · rename_i some_held
      have one : 0 < held.length := List.length_pos_iff.mpr some_held
      rw [List.append_nil]
      exact one
  | cons s rest ih =>
    unfold cut
    split
    · have others := ih [] 0
      simp only [List.length_cons,List.length_append,List.length_nil] at others ⊢
      omega
    · have others := ih (held ++ [s]) (acc + (s.stop - s.start))
      rwa [List.append_assoc] at others

def sourceDivision {index : Index} {segs : List Seg} (target : Nat) (kept : segsOf index = some segs) (fits : segs.length ≤ usizeMax) : Division index :=
  ⟨cut target segs [] 0,by rw [cut_whole]; exact kept,Nat.le_trans (cut_length target segs [] 0) fits⟩

section Answers
variable {casing : Casing} {filters : Filters} {roots : List Path} {index : Index} {items : List Item} {limit : Nat}

theorem found_append {α β : Type} (matched : α → Option β) (one other : List (Instr α)) :
    found matched (one ++ other) = found matched one ++ found matched other := List.filterMap_append

theorem found_work {β : Type} (matched : Nat × Nat → Option β) (s : Seg) : found matched s.work = s.places.filterMap matched := by
  have records (places : List (Nat × Nat)) :
      found matched (places.flatMap fun at_ => if at_.2 % 8192 = 8191 then [.check,.entry at_] else [.entry at_]) = places.filterMap matched := by
    induction places with
    | nil => rfl
    | cons at_ rest ih =>
      have one : found matched (if at_.2 % 8192 = 8191 then [.check,.entry at_] else [.entry at_]) = [at_].filterMap matched := by
        split <;> rfl
      rw [List.flatMap_cons,found_append,ih,one,← List.filterMap_append]
      rfl
  exact records s.places

theorem found_groups {β : Type} (matched : Nat × Nat → Option β) (groups : List (List Seg)) :
    ((groups.map groupWork).map (found matched)).flatten = (groups.flatten.flatMap Seg.places).filterMap matched := by
  induction groups with
  | nil => rfl
  | cons group rest ih =>
    have one : found matched (groupWork group) = (group.flatMap Seg.places).filterMap matched := by
      unfold groupWork
      induction group with
      | nil => rfl
      | cons s others tail =>
        rw [List.flatMap_cons,found_append,tail,found_work,List.flatMap_cons,List.filterMap_append]
    rw [List.map_cons,List.map_cons,List.flatten_cons,ih,one,List.flatten_cons,List.flatMap_append,List.filterMap_append]

theorem listed_item (listed : Listed index.chunks v) : itemAt index (v.pos,v.i) = some v.item := by
  obtain ⟨chunk,r,stored,placed,same⟩ := listed
  unfold itemAt
  rw [stored,Option.bind_some,placed,same]
  rfl

theorem segs_listed (kept : segsOf index = some segs) :
    ∃ visits : List Visit, DirectoryIndex.sequence index = some (visits.map Visit.item) ∧ segs.flatMap Seg.places = visits.map (fun v => (v.pos,v.i)) ∧
      ∀ v ∈ visits, itemAt index (v.pos,v.i) = some v.item := by
  obtain ⟨visits,walked,rfl⟩ := Option.map_eq_some_iff.mp kept
  refine ⟨visits.take index.visible,?_,segments_places _,?_⟩
  · unfold DirectoryIndex.sequence
    rw [dfsRaw_items,walked,Option.map_some,Option.map_some,List.map_take]
  · intro v mem
    exact listed_item (dfsRaw_listed walked v (List.mem_of_mem_take mem))

theorem scan_matches (visits : List Visit) (listed : ∀ v ∈ visits, itemAt index (v.pos,v.i) = some v.item) :
    (visits.map fun v => (v.pos,v.i)).filterMap (scanEntry casing filters roots index) = queryMatches casing filters roots (visits.map Visit.item) := by
  induction visits with
  | nil => rfl
  | cons v rest ih =>
    have tail := ih fun u mem => listed u (List.mem_cons_of_mem _ mem)
    have own := listed v (List.mem_cons_self ..)
    unfold queryMatches at tail ⊢
    rw [List.map_cons,List.map_cons,List.filterMap_cons,List.filter_cons,tail]
    unfold scanEntry
    rw [own,Option.bind_some]
    cases sidecarAccepts casing filters v.item && underAnyRootScopes roots (v.item.dir ++ [v.item.name]) with
    | false => rfl
    | true => rfl

section
variable (division : Division index) (sequenced : DirectoryIndex.sequence index = some items)
include division sequenced

theorem division_matches :
    ((division.groups.map groupWork).map (found (scanEntry casing filters roots index))).flatten = queryMatches casing filters roots items := by
  obtain ⟨visits,same,places,listed⟩ := segs_listed division.whole
  rw [sequenced] at same
  cases same
  rw [found_groups,places,scan_matches visits listed]

theorem stuck_answer (positive : 1 ≤ limit)
    (ran : Runs.run (scanStep casing filters roots index limit) (scanStart index division) events = some last)
    (stuck : ∀ event, scanStep casing filters roots index limit last event = none) :
    answer index limit last = ((queryMatches casing filters roots items).take limit,
      index.truncated || decide (limit ≤ (queryMatches casing filters roots items).length)) := by
  have joined := scans_joined positive (by rw [List.length_map]; exact division.fits) ran stuck
  rw [division_matches division sequenced] at joined
  unfold answer
  rw [joined]

end

-- The joined answer of the groups is the front of all matches in depth-first
-- order, whatever each group saw of the others and when; no run goes on forever.
theorem parallel_query_exact (division : Division index) (sequenced : DirectoryIndex.sequence index = some items) (positive : 1 ≤ limit)
    (events : List Event) (last : State (Nat × Nat) Entry)
    (ran : Runs.run (scanStep casing filters roots index limit) (scanStart index division) events = some last) :
    events.length ≤ (scanStart index division).left ∧
      ((∀ event, scanStep casing filters roots index limit last event = none) →
        answer index limit last = ((queryMatches casing filters roots items).take limit,
          index.truncated || decide (limit ≤ (queryMatches casing filters roots items).length))) := by
  refine ⟨?_,?_⟩
  · have steps := run_left ran
    omega
  · intro stuck
    exact stuck_answer division sequenced positive ran stuck

def smallIndex : Index :=
  ⟨[⟨0,[],[⟨"a",⟨⟨0,0,0,0⟩,true,false,""⟩,some 1⟩,⟨"b",⟨⟨1,5,5,0⟩,false,false,""⟩,none⟩]⟩,⟨1,["a"],[⟨"c",⟨⟨2,6,6,0⟩,false,false,""⟩,none⟩]⟩],
    [some 0,some 1],[([],some 0)],3,2,⟨10,1000⟩,false⟩

def twoGroups : Division smallIndex := ⟨[[⟨0,0,1⟩],[⟨1,0,1⟩,⟨0,1,2⟩]],by decide,by decide⟩

def anyName : Filters := ⟨"","",none,none,none,none,none,none⟩

def secondStops : List Event := [⟨0,usizeMax⟩,⟨0,0⟩,⟨0,0⟩,⟨1,0⟩]

theorem second_group_stops : ∃ items last, DirectoryIndex.sequence smallIndex = some items ∧
    Runs.run (scanStep ⟨lowerAscii,lowerAscii⟩ anyName [[]] smallIndex 1) (scanStart smallIndex twoGroups) secondStops = some last ∧
    secondStops.length ≤ (scanStart smallIndex twoGroups).left ∧
      ((∀ event, scanStep ⟨lowerAscii,lowerAscii⟩ anyName [[]] smallIndex 1 last event = none) →
        answer smallIndex 1 last = ((queryMatches ⟨lowerAscii,lowerAscii⟩ anyName [[]] items).take 1,
          smallIndex.truncated || decide (1 ≤ (queryMatches ⟨lowerAscii,lowerAscii⟩ anyName [[]] items).length))) :=
  ⟨_,_,rfl,rfl,parallel_query_exact twoGroups rfl (Nat.le_refl 1) secondStops _ rfl⟩

theorem join_gather (parts out : List Entry) : join limit parts out = gather limit parts out := by
  induction parts generalizing out with
  | nil => rfl
  | cons e rest ih =>
    unfold join gather
    rw [ih]

theorem query_refines (division : Division index) (sequenced : DirectoryIndex.sequence index = some items) (positive : 1 ≤ limit)
    (ran : Runs.run (scanStep casing filters roots index limit) (scanStart index division) events = some last)
    (stuck : ∀ event, scanStep casing filters roots index limit last event = none) :
    query casing filters index roots limit =
      some ((gather limit ((answer index limit last).1.filter fun e => underAnyRootScopes roots e.path) []).1,(answer index limit last).2) := by
  have exactly := stuck_answer division sequenced positive ran stuck
  have one : gather limit (queryMatches casing filters roots items) [] =
      ((queryMatches casing filters roots items).take limit,decide (limit ≤ (queryMatches casing filters roots items).length)) := by
    rw [← join_gather,join_eq positive,List.nil_append]
  rw [query_eq sequenced,exactly,one]

end Answers

end RemoteFileExplorer.IndexQueries
