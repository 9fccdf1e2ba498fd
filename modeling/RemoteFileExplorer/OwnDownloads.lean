import RemoteFileExplorer.FolderDownloads

namespace RemoteFileExplorer.FolderDownloads
open Runs PathTexts TransferNames Slices Placings
open DesktopTransfers (Resolution Policy)

section Downloads
variable {Place : Type} [DecidableEq Place] {locate : List Text → Place} {before : Place → Option Entry} {s : State Place}

-- The name a download is about to replace was taken before the transfer began,
-- and no other file of the tree that is cleaned to it replaces it too. A folder
-- is never replaced.
def Outside (locate : List Text → Place) (before : Place → Option Entry) (s : State Place) (i : Nat) (item : Item Place) : Prop :=
  s.entries (item.wanted.target locate) = some .folder ∨
    (before (item.wanted.target locate) ≠ none ∧
      ∀ other ∈ s.items.eraseIdx i, other.resolution = some .replace → other.wanted.target locate ≠ item.wanted.target locate)

-- A conflict is settled by replacing only over what the tree did not bring.
def Sparing (locate : List Text → Place) (before : Place → Option Entry) (s : State Place) : Event → Prop
  | .resolves i how =>
    match s.items[i]? with
    | none => True
    | some item => how = .replace → Outside locate before s i item
  | .settles i =>
    match s.items[i]? with
    | none => True
    | some item => item.settled s.policy = some .replace → Outside locate before s i item
  | _ => True

instance (locate : List Text → Place) (before : Place → Option Entry) (s : State Place) (i : Nat) (item : Item Place) :
    Decidable (Outside locate before s i item) := by
  unfold Outside
  infer_instance

instance (locate : List Text → Place) (before : Place → Option Entry) (s : State Place) : (event : Event) → Decidable (Sparing locate before s event)
  | .resolves i how =>
    match found : s.items[i]? with
    | none => .isTrue (by simp only [Sparing,found])
    | some item => decidable_of_iff (how = .replace → Outside locate before s i item) (by simp only [Sparing,found])
  | .settles i =>
    match found : s.items[i]? with
    | none => .isTrue (by simp only [Sparing,found])
    | some item => decidable_of_iff (item.settled s.policy = some .replace → Outside locate before s i item) (by simp only [Sparing,found])
  | .walks | .refuses | .looks _ | .fetches _ _ | .restarts _ | .publishes _ | .stops _ | .cancels _ | .retries _ | .prefers _ => .isTrue trivial

def Placed (s : State Place) (i : Nat) (entry : Entry) (place : Place) : Prop :=
  ∃ item, s.items[i]? = some item ∧ item.stage = .done place ∧ entry = .file item.wanted.bytes

structure Kept (locate : List Text → Place) (before : Place → Option Entry) (s : State Place) : Prop where
  stays : ∀ place, before place ≠ none → s.entries place ≠ none
  parts : ∀ item ∈ s.items, item.part <+: item.wanted.bytes
  chosen : ∀ item ∈ s.items, item.stage = .fetching (some .replace) → item.resolution = some .replace
  outside : ∀ (i : Nat) (item : Item Place), s.items[i]? = some item → item.resolution = some .replace → Outside locate before s i item
  origin : ∀ item ∈ s.items, ∀ place, item.stage = .done place → (∃ name, place = locate (item.wanted.dir ++ [name])) ∧
    (before place = none ∨ (place = item.wanted.target locate ∧ item.resolution = some .replace))
  own : Own s.entries (Placed s)

inductive Dug : (Place → Option Entry) → (Place → Option Entry) → Prop where
  | same : Dug entries entries
  | made : entries place = none → Dug (Function.update entries place (some .folder)) last → Dug entries last

theorem createDirs_dug {dirs : List (List Text)} {entries last : Place → Option Entry} (created : createDirs locate entries dirs = some last) :
    Dug entries last := by
  induction dirs generalizing entries with
  | nil =>
    cases created
    exact .same
  | cons dir rest ih =>
    unfold createDirs at created
    split at created
    · rename_i free
      exact .made free (ih created)
    · exact ih created
    · cases created

theorem dug_grows {entries last : Place → Option Entry} {place : Place} {entry : Entry} (dug : Dug entries last) (there : entries place = some entry) :
    last place = some entry := by
  induction dug with
  | same => exact there
  | @made entries other last free _ ih =>
    apply ih
    have different : place ≠ other := by
      rintro rfl
      rw [free] at there
      cases there
    rw [Function.update_of_ne different]
    exact there

theorem dug_own {entries last : Place → Option Entry} {placed : Nat → Entry → Place → Prop} (dug : Dug entries last) (own : Own entries placed) :
    Own last placed := by
  induction dug with
  | same => exact own
  | made free _ ih => exact ih (own_beside own free)

theorem kept_dug {entries : Place → Option Entry} {walk : Walk} (kept : Kept locate before s) (dug : Dug s.entries entries)
    (fresh : List Wanted) : Kept locate before {s with
      entries := entries
      walk := walk
      items := s.items ++ fresh.map fun wanted => ⟨wanted,[],none,.waiting⟩} := by
  have old : ∀ (i : Nat) (item : Item Place), (s.items ++ fresh.map fun wanted => ⟨wanted,[],none,.waiting⟩)[i]? = some item →
      s.items[i]? = some item ∨ (item.part = [] ∧ item.resolution = none ∧ item.stage = .waiting) := by
    intro i item found
    rw [List.getElem?_append] at found
    split at found
    · exact .inl found
    · rw [List.getElem?_map] at found
      obtain ⟨wanted,_,rfl⟩ := Option.map_eq_some_iff.mp found
      exact .inr ⟨rfl,rfl,rfl⟩
  have member : ∀ item ∈ s.items ++ fresh.map fun wanted => (⟨wanted,[],none,.waiting⟩ : Item Place),
      item ∈ s.items ∨ (item.part = [] ∧ item.resolution = none ∧ item.stage = .waiting) := by
    intro item present
    obtain ⟨i,found⟩ := List.getElem?_of_mem present
    rcases old i item found with before | new
    · exact .inl (List.mem_of_getElem? before)
    · exact .inr new
  refine ⟨?_,?_,?_,?_,?_,?_⟩
  · intro place taken
    obtain ⟨entry,there⟩ := Option.ne_none_iff_exists'.mp (kept.stays place taken)
    exact Option.ne_none_iff_exists'.mpr ⟨entry,dug_grows dug there⟩
  · intro item present
    rcases member item present with before | ⟨empty,_,_⟩
    · exact kept.parts item before
    · rw [empty]
      exact List.nil_prefix
  · intro item present stage
    rcases member item present with before | ⟨_,_,waits⟩
    · exact kept.chosen item before stage
    · rw [waits] at stage
      cases stage
  · intro i item found replaces
    rcases old i item found with here | ⟨_,undecided,_⟩
    · rcases kept.outside i item here replaces with folder | ⟨taken,others⟩
      · exact .inl (dug_grows dug folder)
      · refine .inr ⟨taken,?_⟩
        intro other present also
        obtain ⟨j,different,there⟩ := List.mem_eraseIdx_iff_getElem?.mp present
        rcases old j other there with already | ⟨_,undecided,_⟩
        · exact others other (List.mem_eraseIdx_iff_getElem?.mpr ⟨j,different,already⟩) also
        · rw [undecided] at also
          cases also
    · rw [undecided] at replaces
      cases replaces
  · intro item present place done
    rcases member item present with before | ⟨_,_,waits⟩
    · exact kept.origin item before place done
    · rw [waits] at done
      cases done
  · refine own_fewer (dug_own dug kept.own) ?_
    rintro i entry place ⟨item,found,done,rfl⟩
    rcases old i item found with here | ⟨_,_,waits⟩
    · exact ⟨item,here,done,rfl⟩
    · rw [waits] at done
      cases done

theorem set_cases {α : Type} {items : List α} {i j : Nat} {next item : α} (found : (items.set i next)[j]? = some item) :
    (j = i ∧ item = next) ∨ (j ≠ i ∧ items[j]? = some item) := by
  by_cases equal : j = i
  · subst j
    have low : i < items.length := by
      have bound := (List.getElem?_eq_some_iff.mp found).1
      rw [List.length_set] at bound
      exact bound
    rw [List.getElem?_set_self low] at found
    exact .inl ⟨rfl,(Option.some.inj found).symm⟩
  · rw [List.getElem?_set_ne (Ne.symm equal)] at found
    exact .inr ⟨equal,found⟩

theorem set_member {α : Type} {items : List α} {i : Nat} {next item : α} (present : item ∈ items.set i next) : item = next ∨ item ∈ items := by
  obtain ⟨j,found⟩ := List.getElem?_of_mem present
  rcases set_cases found with ⟨_,same⟩ | ⟨_,old⟩
  · exact .inl same
  · exact .inr (List.mem_of_getElem? old)

theorem outside_set {entries : Place → Option Entry} {i j : Nat} {item next other : Item Place} (kept : Kept locate before s)
    (folders : ∀ place, s.entries place = some .folder → entries place = some .folder) (same : next.wanted = item.wanted)
    (choice : next.resolution = some .replace → Outside locate before s i item) (there : s.items[j]? = some other) (different : j ≠ i)
    (replaces : other.resolution = some .replace) :
    Outside locate before {s with entries := entries,items := s.items.set i next} j other := by
  rcases kept.outside j other there replaces with folder | ⟨taken,others⟩
  · exact .inl (folders _ folder)
  · by_cases clash : next.resolution = some .replace ∧ next.wanted.target locate = other.wanted.target locate
    · obtain ⟨also,equal⟩ := clash
      rw [same] at equal
      rcases choice also with folder | ⟨_,apart⟩
      · rw [equal] at folder
        exact .inl (folders _ folder)
      · exact absurd equal.symm (apart other (List.mem_eraseIdx_iff_getElem?.mpr ⟨j,different,there⟩) replaces)
    · refine .inr ⟨taken,?_⟩
      intro third present also
      obtain ⟨k,apart,found⟩ := List.mem_eraseIdx_iff_getElem?.mp present
      rcases set_cases found with ⟨_,rfl⟩ | ⟨_,old⟩
      · exact fun equal => clash ⟨also,equal⟩
      · exact others third (List.mem_eraseIdx_iff_getElem?.mpr ⟨k,apart,old⟩) also

omit [DecidableEq Place] in
theorem outside_self {entries : Place → Option Entry} {i : Nat} {item next : Item Place}
    (folders : ∀ place, s.entries place = some .folder → entries place = some .folder) (same : next.wanted = item.wanted)
    (outside : Outside locate before s i item) : Outside locate before {s with entries := entries,items := s.items.set i next} i next := by
  unfold Outside at outside ⊢
  rw [same]
  rcases outside with folder | ⟨taken,others⟩
  · exact .inl (folders _ folder)
  · refine .inr ⟨taken,?_⟩
    intro third present also
    obtain ⟨k,apart,found⟩ := List.mem_eraseIdx_iff_getElem?.mp present
    rcases set_cases found with ⟨equal,_⟩ | ⟨_,old⟩
    · exact absurd equal apart
    · exact others third (List.mem_eraseIdx_iff_getElem?.mpr ⟨k,apart,old⟩) also

theorem kept_puts {i : Nat} {item next : Item Place} (kept : Kept locate before s) (same : next.wanted = item.wanted)
    (part : next.part <+: next.wanted.bytes) (chosen : next.stage = .fetching (some .replace) → next.resolution = some .replace)
    (undone : ∀ place, next.stage ≠ .done place) (choice : next.resolution = some .replace → Outside locate before s i item) :
    Kept locate before (s.puts i next) := by
  refine ⟨kept.stays,?_,?_,?_,?_,?_⟩
  · intro other present
    rcases set_member present with rfl | old
    · exact part
    · exact kept.parts other old
  · intro other present stage
    rcases set_member present with rfl | old
    · exact chosen stage
    · exact kept.chosen other old stage
  · intro j other found replaces
    rcases set_cases found with ⟨rfl,rfl⟩ | ⟨different,old⟩
    · exact outside_self (fun _ there => there) same (choice replaces)
    · exact outside_set kept (fun _ there => there) same choice old different replaces
  · intro other present place done
    rcases set_member present with rfl | old
    · exact absurd done (undone place)
    · exact kept.origin other old place done
  · refine own_fewer kept.own ?_
    rintro j entry place ⟨other,found,done,rfl⟩
    rcases set_cases found with ⟨_,rfl⟩ | ⟨_,old⟩
    · exact absurd done (undone place)
    · exact ⟨other,old,done,rfl⟩

theorem kept_places {i : Nat} {item : Item Place} {place : Place} (kept : Kept locate before s) (found : s.items[i]? = some item)
    (whole : item.part = item.wanted.bytes) (clear : ∀ j entry, ¬ Placed s j entry place) (unfoldered : s.entries place ≠ some .folder)
    (origin : (∃ name, place = locate (item.wanted.dir ++ [name])) ∧
      (before place = none ∨ (place = item.wanted.target locate ∧ item.resolution = some .replace))) :
    Kept locate before (s.places i item place) := by
  have folders : ∀ there, s.entries there = some .folder →
      Function.update s.entries place (some (.file item.part)) there = some .folder := by
    intro there folder
    have different : there ≠ place := by
      rintro rfl
      exact unfoldered folder
    rw [Function.update_of_ne different]
    exact folder
  refine ⟨?_,?_,?_,?_,?_,?_⟩
  · intro there taken
    change Function.update s.entries place (some (.file item.part)) there ≠ none
    by_cases equal : there = place
    · subst there
      rw [Function.update_self]
      nofun
    · rw [Function.update_of_ne equal]
      exact kept.stays there taken
  · intro other present
    rcases set_member present with rfl | old
    · exact kept.parts item (List.mem_of_getElem? found)
    · exact kept.parts other old
  · intro other present stage
    rcases set_member present with rfl | old
    · cases stage
    · exact kept.chosen other old stage
  · intro j other there replaces
    have choice : item.resolution = some .replace → Outside locate before s i item := kept.outside i item found
    rcases set_cases there with ⟨rfl,rfl⟩ | ⟨different,old⟩
    · exact outside_self folders rfl (choice replaces)
    · exact outside_set kept folders rfl choice old different replaces
  · intro other present there done
    rcases set_member present with rfl | old
    · cases done
      exact origin
    · exact kept.origin other old there done
  · refine own_put (i := i) kept.own (fun j entry present => absurd present (clear j entry)) ?_
    rintro j entry there ⟨other,now,done,rfl⟩
    rcases set_cases now with ⟨rfl,rfl⟩ | ⟨_,old⟩
    · cases done
      exact .inr ⟨rfl,by rw [whole],rfl⟩
    · exact .inl ⟨other,old,done,rfl⟩

section
variable (kept : Kept locate before s)
include kept

theorem publishes_kept (found : s.items[i]? = some item)
    (stage : item.stage = .fetching how) (full : item.wanted.bytes.length ≤ item.part.length) : Kept locate before (s.publishes locate i item how) := by
  have present := List.mem_of_getElem? found
  have whole : item.part = item.wanted.bytes := (kept.parts item present).eq_of_length_le full
  have failed : Kept locate before (s.puts i {item with stage := .waiting}) :=
    kept_puts kept rfl (kept.parts item present) nofun nofun (kept.outside i item found)
  unfold State.publishes
  dsimp only
  split
  · rename_i replaces
    rw [replaces] at stage
    have decided := kept.chosen item present stage
    split
    · exact failed
    · rename_i unfoldered
      rcases kept.outside i item found decided with folder | ⟨taken,others⟩
      · exact absurd folder unfoldered
      · refine kept_places kept found whole ?_ unfoldered ⟨⟨_,rfl⟩,.inr ⟨rfl,decided⟩⟩
        rintro j entry ⟨other,there,done,_⟩
        rcases (kept.origin other (List.mem_of_getElem? there) _ done).2 with free | ⟨equal,also⟩
        · exact taken free
        · by_cases same : j = i
          · subst j
            rw [found] at there
            cases there
            rw [stage] at done
            cases done
          · exact others other (List.mem_eraseIdx_iff_getElem?.mpr ⟨j,same,there⟩) also equal.symm
  · split
    · exact failed
    · rename_i n first
      have free : s.entries (locate (item.wanted.dir ++ [numberedName item.name n])) = none := by
        have vacant := firstFree_free first
        exact Option.isNone_iff_eq_none.mp vacant
      refine kept_places kept found whole (fun j entry => free_unplaced kept.own free) ?_ ⟨⟨_,rfl⟩,.inl ?_⟩
      · rw [free]
        nofun
      · by_contra taken
        exact kept.stays _ taken free

theorem acts_kept (found : s.items[i]? = some item)
    (own : event.item = some i) (sparing : Sparing locate before s event) (acted : item.acts locate s i event = some next) :
    Kept locate before next := by
  have present := List.mem_of_getElem? found
  have part := kept.parts item present
  have choice := kept.outside i item found
  cases event with
  | looks k =>
    obtain ⟨_,acted⟩ := Option.ite_none_right_eq_some.mp acted
    split at acted
    · cases acted
      exact kept_puts kept rfl part (fun same => Stage.fetching.inj same) nofun choice
    · cases acted
      exact kept_puts kept rfl part nofun nofun choice
  | resolves k how =>
    cases own
    obtain ⟨asked,⟨⟩⟩ := Option.ite_none_right_eq_some.mp acted
    simp only [Sparing,found] at sparing
    refine kept_puts kept rfl part (fun fetches => ?_) (fun place done => ?_) (fun same => sparing (Option.some.inj same))
    · rw [show item.stage = .fetching (some .replace) from fetches] at asked
      cases asked.1
    · rw [show item.stage = .done place from done] at asked
      cases asked.1
  | settles k =>
    cases own
    simp only [Sparing,found] at sparing
    simp only [Item.acts] at acted
    split at acted
    · cases acted
      exact kept_puts kept rfl part nofun nofun nofun
    · rename_i how _ _ settled
      cases acted
      refine kept_puts kept rfl part (fun same => Stage.fetching.inj same) nofun ?_
      intro same
      apply sparing
      rw [settled]
      exact same
    · cases acted
  | fetches k n =>
    simp only [Item.acts] at acted
    split at acted
    · rename_i how stage
      cases acted
      refine kept_puts kept rfl ?_ (kept.chosen item present) ?_ choice
      · obtain ⟨rest,whole⟩ := part
        refine ⟨rest.drop n,?_⟩
        rw [← whole]
        unfold slice
        rw [List.drop_left,List.append_assoc,List.take_append_drop]
      · intro place done
        rw [show item.stage = .done place from done] at stage
        cases stage
    · cases acted
  | restarts k =>
    simp only [Item.acts] at acted
    split at acted
    · rename_i how stage
      cases acted
      refine kept_puts kept rfl List.nil_prefix (kept.chosen item present) ?_ choice
      intro place done
      rw [show item.stage = .done place from done] at stage
      cases stage
    · cases acted
  | publishes k =>
    simp only [Item.acts] at acted
    split at acted
    · rename_i how stage
      obtain ⟨full,⟨⟩⟩ := Option.ite_none_right_eq_some.mp acted
      exact publishes_kept kept found stage full
    · cases acted
  | stops k | retries k =>
    obtain ⟨_,⟨⟩⟩ := Option.ite_none_right_eq_some.mp acted
    exact kept_puts kept rfl part nofun nofun choice
  | cancels k =>
    obtain ⟨_,⟨⟩⟩ := Option.ite_none_right_eq_some.mp acted
    exact kept_puts kept rfl List.nil_prefix nofun nofun choice
  | walks | refuses | prefers => cases own

theorem kept_walk : Kept locate before {s with walk := walk} := by
  have dug : Kept locate before {s with
      walk := walk
      items := s.items ++ [].map fun wanted => ⟨wanted,[],none,.waiting⟩} := kept_dug kept .same []
  rw [List.map_nil,List.append_nil] at dug
  exact dug

theorem walks_kept (walked : s.walks locate = some next) : Kept locate before next := by
  unfold State.walks at walked
  split at walked
  · rename_i dir listed stack folders _
    split at walked
    · cases walked
      exact kept_walk kept
    · rename_i entries created
      cases walked
      have dug : Kept locate before {s with
          entries := entries
          walk := .going stack (some (dir,listed)) folders
          items := s.items ++ [].map fun wanted => ⟨wanted,[],none,.waiting⟩} := kept_dug kept (createDirs_dug created) []
      rw [List.map_nil,List.append_nil] at dug
      exact dug
  · cases walked
    exact kept_walk kept
  · split at walked <;> cases walked <;> exact kept_walk kept
  · rename_i stack dir path bytes rest folders _
    split at walked
    · cases walked
      exact kept_walk kept
    · cases walked
      unfold State.startDownload
      split
      · split
        · exact kept_walk kept
        · rename_i entries created
          exact kept_dug kept (createDirs_dug created) [⟨dir,path,bytes⟩]
      · exact kept_walk kept
  · split at walked <;> cases walked <;> exact kept_walk kept
  · cases walked
  · cases walked

theorem step_kept (sparing : Sparing locate before s event)
    (stepped : step locate s event = some next) : Kept locate before next := by
  unfold step at stepped
  split at stepped
  · exact walks_kept kept stepped
  · split at stepped
    · cases stepped
      exact kept_walk kept
    · cases stepped
  · cases stepped
    exact ⟨kept.stays,kept.parts,kept.chosen,kept.outside,kept.origin,kept.own⟩
  · split at stepped
    · cases stepped
    · rename_i i own
      split at stepped
      · cases stepped
      · rename_i item found
        exact acts_kept kept found own sparing stepped

end

def Walk.pending : Walk → List Wanted
  | .going stack none _ => stack.flatMap fun folder => filesOf folder.1 folder.2
  | .going stack (some here) _ => filesOf here.1 here.2 ++ stack.flatMap fun folder => filesOf folder.1 folder.2
  | .ended | .refused => []

def Queued (tree : List Wanted) (s : State Place) : Prop :=
  s.walk ≠ .refused → (s.items.map Item.wanted ++ s.walk.pending).Perm tree

omit [DecidableEq Place] in
theorem queued_items (queued : Queued tree s) (walk : next.walk = s.walk)
    (same : next.items.map Item.wanted = s.items.map Item.wanted) : Queued tree next := by
  unfold Queued
  rw [walk,same]
  exact queued

omit [DecidableEq Place] in
theorem puts_wanted (found : s.items[i]? = some item) (same : next.wanted = item.wanted) :
    (s.items.set i next).map Item.wanted = s.items.map Item.wanted := by
  obtain ⟨low,here⟩ := List.getElem?_eq_some_iff.mp found
  have listed : i < (s.items.map Item.wanted).length := by
    rw [List.length_map]
    exact low
  have there : (s.items.map Item.wanted)[i] = item.wanted := by
    rw [List.getElem_map,here]
  rw [List.map_set,same,← there]
  exact List.set_getElem_self listed

theorem acts_wanted {i : Nat} (found : s.items[i]? = some item)
    (acted : item.acts locate s i event = some next) : next.walk = s.walk ∧ next.items.map Item.wanted = s.items.map Item.wanted := by
  have moved : ∀ other : Item Place, other.wanted = item.wanted →
      (s.puts i other).walk = s.walk ∧ (s.puts i other).items.map Item.wanted = s.items.map Item.wanted :=
    fun other same => ⟨rfl,puts_wanted found same⟩
  have placed : ∀ place, (s.places i item place).walk = s.walk ∧ (s.places i item place).items.map Item.wanted = s.items.map Item.wanted :=
    fun place => ⟨rfl,puts_wanted found rfl⟩
  cases event with
  | publishes k =>
    simp only [Item.acts] at acted
    split at acted
    · obtain ⟨_,⟨⟩⟩ := Option.ite_none_right_eq_some.mp acted
      unfold State.publishes
      dsimp only
      split
      all_goals
        split
        · exact moved _ rfl
        · exact placed _
    · cases acted
  | looks k =>
    obtain ⟨_,acted⟩ := Option.ite_none_right_eq_some.mp acted
    split at acted <;> cases acted <;> exact moved _ rfl
  | settles k =>
    simp only [Item.acts] at acted
    split at acted
    · cases acted
      exact moved _ rfl
    · cases acted
      exact moved _ rfl
    · cases acted
  | resolves | fetches | restarts | stops | cancels | retries =>
    simp only [Item.acts] at acted
    split at acted
    · cases acted
      exact moved _ rfl
    · cases acted
  | walks | refuses | prefers => cases acted

theorem walks_queued (queued : Queued tree s) (walked : s.walks locate = some next) : Queued tree next := by
  unfold State.walks at walked
  split at walked
  · rename_i dir listed stack folders walk
    have going := queued (by rw [walk]; nofun)
    rw [walk] at going
    split at walked
    · cases walked
      exact fun going => absurd rfl going
    · cases walked
      exact fun _ => going
  · rename_i folders walk
    have going := queued (by rw [walk]; nofun)
    rw [walk] at going
    cases walked
    exact fun _ => going
  · rename_i stack dir path isSymlink listed rest folders walk
    have going := queued (by rw [walk]; nofun)
    rw [walk] at going
    split at walked
    · rename_i link
      cases walked
      intro _
      simpa only [Walk.pending,filesOf,Remote.files,link,if_true,List.nil_append] using going
    · rename_i plain
      cases walked
      intro _
      refine List.Perm.trans ?_ going
      simp only [Walk.pending,filesOf,Remote.files,List.flatMap_cons]
      rw [if_neg plain,← List.append_assoc (filesOf dir rest)]
      exact (List.perm_append_comm.append_right _).append_left _
  · rename_i stack dir path bytes rest folders walk
    have going := queued (by rw [walk]; nofun)
    rw [walk] at going
    split at walked
    · cases walked
      exact fun going => absurd rfl going
    · cases walked
      unfold State.startDownload
      split
      · split
        · exact fun going => absurd rfl going
        · intro _
          simpa only [Walk.pending,filesOf,Remote.files,List.map_append,List.map_cons,List.map_nil,List.append_assoc] using going
      · exact fun going => absurd rfl going
  · rename_i stack dir folders walk
    have going := queued (by rw [walk]; nofun)
    rw [walk] at going
    split at walked
    · cases walked
      exact fun going => absurd rfl going
    · cases walked
      intro _
      simpa only [Walk.pending,filesOf,List.nil_append] using going
  · cases walked
  · cases walked

theorem step_queued {tree : List Wanted} (queued : Queued tree s)
    (stepped : step locate s event = some next) : Queued tree next := by
  unfold step at stepped
  split at stepped
  · exact walks_queued queued stepped
  · split at stepped
    · cases stepped
      exact fun going => absurd rfl going
    · cases stepped
  · cases stepped
    exact queued
  · split at stepped
    · cases stepped
    · split at stepped
      · cases stepped
      · rename_i item found
        obtain ⟨walk,same⟩ := acts_wanted found stepped
        exact queued_items queued walk same

omit [DecidableEq Place] in
theorem initial_kept (locate : List Text → Place) (entries : Place → Option Entry) (policy : Policy) (root : Remote) :
    Kept locate entries (initial entries policy root) := by
  cases root with
  | file | folder =>
    refine ⟨fun _ taken => taken,?_,?_,?_,?_,?_⟩
    · intro item present
      cases present
    · intro item present
      cases present
    · intro i item found
      cases found
    · intro item present
      cases present
    · refine ⟨?_,?_⟩
      · rintro i entry place ⟨item,found,_⟩
        cases found
      · rintro i j one other place ⟨item,found,_⟩
        cases found

omit [DecidableEq Place] in
theorem initial_queued (entries : Place → Option Entry) (policy : Policy) (root : Remote) : Queued root.tree (initial entries policy root) := by
  cases root with
  | file path bytes => exact fun _ => .refl _
  | folder path isSymlink listed =>
    intro _
    simp [initial,Walk.pending,Remote.tree]

end Downloads

-- Every file of the tree is queued once, and every finished download has its
-- bytes in a file below the chosen folder that no other one of the tree has.
structure OwnFiles {Place : Type} (locate : List Text → Place) (tree : List Wanted) (s : State Place) : Prop where
  all : s.walk = .ended → (s.items.map Item.wanted).Perm tree
  held : ∀ item ∈ s.items, ∀ place, item.stage = .done place →
    s.entries place = some (.file item.wanted.bytes) ∧ ∃ name, place = locate (item.wanted.dir ++ [name])
  alone : ∀ (i j : Nat) (one other : Item Place) (place : Place), s.items[i]? = some one → s.items[j]? = some other →
    one.stage = .done place → other.stage = .done place → i = j

theorem downloads_own {Place : Type} [DecidableEq Place] {locate : List Text → Place} {entries : Place → Option Entry} {policy : Policy}
    {root : Remote} {events : List Event} {last : State Place}
    (sparing : Every (step locate) (Sparing locate entries) (initial entries policy root) events)
    (ran : run (step locate) (initial entries policy root) events = some last) : OwnFiles locate root.tree last := by
  have kept : Kept locate entries last := run_preserves_when (Kept locate entries)
    (fun _ _ _ kept meets stepped => step_kept kept meets stepped) (initial_kept locate entries policy root) sparing ran
  have queued : Queued root.tree last := run_preserves (fun _ _ _ queued stepped => step_queued queued stepped)
    (initial_queued entries policy root) ran
  refine ⟨?_,?_,?_⟩
  · intro ended
    have all := queued (by rw [ended]; nofun)
    rw [ended] at all
    simpa only [Walk.pending,List.append_nil] using all
  · intro item present place done
    obtain ⟨i,found⟩ := List.getElem?_of_mem present
    exact ⟨kept.own.held i _ place ⟨item,found,done,rfl⟩,(kept.origin item present place done).1⟩
  · intro i j one other place first second done also
    exact kept.own.alone i j _ _ place ⟨one,first,done,rfl⟩ ⟨other,second,also,rfl⟩

end RemoteFileExplorer.FolderDownloads
