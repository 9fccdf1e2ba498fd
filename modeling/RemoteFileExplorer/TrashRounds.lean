import RemoteFileExplorer.Runs
import RemoteFileExplorer.TrashSteps

namespace RemoteFileExplorer.TrashRounds
open FileTree Jail TreeEdits SystemCalls PercentCodes TrashInfo Trash TrashNames TrashSteps Runs

-- What was trashed: its name in the store, the path it was taken from and the tree itself.
structure Item where
  own : Name
  original : Path
  node : Node Bytes

def itemOf (disk : Files) (host : Host) (caller : Caller) (r : TrashRequest) : Option Item :=
  match access disk host caller r.path with
  | .error _ => none
  | .ok resolved =>
    if (trashPath disk host caller r).2 = none then
      (nodeAt disk.root resolved.full).map fun node => ⟨uniqueTrashName disk host (baseName resolved.full),resolved.full,node⟩
    else none

def itemsOfEach (host : Host) (caller : Caller) : List TrashRequest → Files → List Item
  | [],_ => []
  | r::rest,disk => (itemOf disk host caller r).toList ++ itemsOfEach host caller rest (trashPath disk host caller r).1

def readied (disk : Files) (host : Host) : Option Files :=
  (mkdirAll disk host.links (trashFilesDir host)).bind (mkdirAll · host.links (trashInfoDir host))

structure Call where
  caller : Caller
  requests : List TrashRequest

def itemsOf (disk : Files) (host : Host) (call : Call) : List Item :=
  if call.caller.readOnly then [] else (readied disk host).elim [] (itemsOfEach host call.caller call.requests)

def step (host : Host) (s : Files × List Item) (call : Call) : Option (Files × List Item) :=
  some ((moveToTrash s.1 host call.caller call.requests).1,s.2 ++ itemsOf s.1 host call)

def ClearPath (disk : Files) (host : Host) (caller : Caller) (r : TrashRequest) : Prop :=
  ∀ resolved node files info, access disk host caller r.path = .ok resolved → nodeAt disk.root resolved.full = some node →
    Reaches disk host files info → Clear disk host resolved.full files info

def ClearEach (host : Host) (caller : Caller) : List TrashRequest → Files → Prop
  | [],_ => True
  | r::rest,disk => ClearPath disk host caller r ∧ ClearEach host caller rest (trashPath disk host caller r).1

def ClearCall (host : Host) (s : Files × List Item) (call : Call) : Prop :=
  ∀ ready, readied s.1 host = some ready → ClearEach host call.caller call.requests ready

-- An item whose payload and information are in the store, with room for it
-- where it came from, and without which the store is found as well.
structure Held (disk : Files) (host : Host) (files info : Path) (item : Item) : Prop where
  separate : Apart files info
  ordinary : Ordinary item.original
  proper : item.original ≠ []
  named : Named item.original
  unprotected : host.protectedDirs.any (isUnder item.original) = false
  candidate : ∃ k, item.own = candidateAt (baseName item.original) k
  outside : ¬ files <+: item.original ∧ ¬ info <+: item.original
  payload : nodeAt disk.root (files ++ [item.own]) = some item.node
  noted : ∃ now, nodeAt disk.root (info ++ [infoName item.own]) = some (.file (content (text item.original) now))
  roomy : Roomy disk item.original
  aside : Reaches (edit none (info ++ [infoName item.own]) (edit none (files ++ [item.own]) disk)) host files info

def Keeps (host : Host) (s : Files × List Item) : Prop :=
  s.2 = [] ∨ ∃ files info, Placed s.1 host files info ∧ ∀ item ∈ s.2, Held s.1 host files info item

section Step
variable {fit : Node Bytes → Prop} {disk now : Files} {host : Host} {full files info : Path} {node : Node Bytes} {own : Name} {item : Item}

theorem infoName_inj (same : infoName one = infoName other) : one = other := by
  unfold infoName at same
  have lists := congrArg String.toList same
  rw [String.toList_append,String.toList_append] at lists
  exact String.toList_inj.mp (List.append_cancel_right lists)

theorem apart_names (differs : one ≠ other) (dir : Path) : Apart (dir ++ [one]) (dir ++ [other]) := by
  constructor <;>
  · intro inner
    have same := inner.eq_of_length (by simp)
    simp only [List.append_cancel_left_eq,List.cons.injEq,and_true] at same
    first
    | exact differs same
    | exact differs same.symm

section
variable (scene : Scene disk host full files info node own) (touched : Touches fit disk full node (places files info own) now)
include scene touched

theorem held_kept (held : Held disk host files info item) : Held now host files info item := by
  have other : item.own ≠ own := by
    intro same
    have stored := held.payload
    rw [same,scene.freeFiles] at stored
    cases stored
  have payloadApart : ∀ place ∈ places files info own, Apart place (files ++ [item.own]) := by
    intro place known
    simp only [places,List.mem_cons,List.not_mem_nil,or_false] at known
    rcases known with rfl | rfl
    · exact apart_names other.symm files
    · exact apart_symm (apart_children scene.separate item.own (infoName own))
  have infoApart : ∀ place ∈ places files info own, Apart place (info ++ [infoName item.own]) := by
    intro place known
    simp only [places,List.mem_cons,List.not_mem_nil,or_false] at known
    rcases known with rfl | rfl
    · exact apart_children scene.separate own (infoName item.own)
    · exact apart_names (fun same => other (infoName_inj same).symm) info
  have unstored : ∀ place ∈ places files info own, ¬ place <+: item.original := by
    intro place known inner
    simp only [places,List.mem_cons,List.not_mem_nil,or_false] at known
    rcases known with rfl | rfl
    · exact held.outside.1 ((List.prefix_append files [own]).trans inner)
    · exact held.outside.2 ((List.prefix_append info [infoName own]).trans inner)
  have grows := touches_grows touched scene.proper scene.free
  have meets : Meets (edit none (info ++ [infoName item.own]) (edit none (files ++ [item.own]) disk)) (edit none full disk)
      (edit none (info ++ [infoName item.own]) (edit none (files ++ [item.own]) now)) := by
    intro path one another left right
    obtain ⟨unnoted,first⟩ := cut_stood (by simp) left
    obtain ⟨middle,found,alike⟩ := Option.map_eq_some_iff.mp first
    obtain ⟨outside,stood⟩ := cut_stood (by simp) found
    have stands := (cut_stood scene.proper right).2
    rw [stood,alike] at stands
    have same : kind one = kind another := Option.some.inj stands
    refine ⟨same,?_⟩
    rw [cut_kept unnoted none,cut_kept outside none,grows path another right,same]
  obtain ⟨time,noted⟩ := held.noted
  exact ⟨scene.separate,held.ordinary,held.proper,held.named,held.unprotected,held.candidate,held.outside,
    (touches_elsewhere touched (scene.away_files _) payloadApart).trans held.payload,
    ⟨time,(touches_elsewhere touched (scene.away_info _) infoApart).trans noted⟩,
    touches_roomy touched scene.proper scene.stored unstored held.roomy,reaches_meets meets held.aside scene.kept⟩

theorem held_new (named : Named full) (unprotected : host.protectedDirs.any (isUnder full) = false) (candidate : ∃ k, own = candidateAt (baseName full) k)
    (payload : nodeAt now.root (files ++ [own]) = some node)
    (noted : nodeAt now.root (info ++ [infoName own]) = some (.file (content (text full) time))) :
    Held now host files info ⟨own,full,node⟩ := by
  have unstored : ∀ place ∈ places files info own, ¬ place <+: full := by
    intro place known
    simp only [places,List.mem_cons,List.not_mem_nil,or_false] at known
    rcases known with rfl | rfl
    · exact (scene.away_files own).2
    · exact (scene.away_info _).2
  have grows := touches_grows touched scene.proper scene.free
  have meets : Meets (edit none full disk) (edit none full disk) (edit none (info ++ [infoName own]) (edit none (files ++ [own]) now)) := by
    intro path one another left right
    rw [left] at right
    cases right
    have stood := (cut_stood scene.proper left).2
    have outside : ∀ place, nodeAt disk.root place = none → ¬ place <+: path := by
      rintro place free ⟨more,rfl⟩
      rw [nodeAt_below disk.root free] at stood
      cases stood
    refine ⟨rfl,?_⟩
    rw [cut_kept (outside _ scene.freeInfo) none,cut_kept (outside _ scene.freeFiles) none,grows path one left]
  exact ⟨scene.separate,scene.ordinary,scene.proper,named,unprotected,candidate,scene.outside,payload,⟨time,noted⟩,
    touches_roomy touched scene.proper scene.stored unstored (stored_roomy scene.stored),reaches_meets meets scene.kept scene.kept⟩

end

theorem above_stays (placed : Placed disk host files info) (above : full <+: files) (entered : full ≠ [] → entryOf disk host.links full = some full)
    (stored : nodeAt disk.root full = some node) (free : nodeAt disk.root (files ++ [own]) = none) (root : Option Path) (fate : Fate) :
    moveAcrossRootsSecure disk host.links ⟨full,root⟩ ⟨trashFilesDir host ++ [own],none⟩ fate = (disk,false) := by
  obtain ⟨entries,stands⟩ := placed.filesStand
  have inner : full <+: files ++ [own] := above.trans (List.prefix_append files [own])
  have differs : full ≠ files ++ [own] := by
    rintro rfl
    exact absurd above.length_le (by simp)
  unfold moveAcrossRootsSecure
  split
  · rfl
  · unfold carry
    by_cases empty : full = []
    · subst empty
      rfl
    · rw [entered empty,entryOf_within placed.reaches.1 stands]
      dsimp only
      rw [stored,free]
      dsimp only
      rw [if_neg (blocked_free _ _ _ node),if_neg differs,if_pos (List.isPrefixOf_iff_prefix.mpr inner)]

def Anything (_ : Node Bytes) : Prop := True

-- Step lemma: one path keeps the store and every item in it, and adds its own.
theorem trashPath_keeps (placed : Placed disk host files info)
    (held : ∀ item ∈ items, Held disk host files info item) (clear : ClearPath disk host caller r) :
    Placed (trashPath disk host caller r).1 host files info ∧
    ∀ item ∈ items ++ (itemOf disk host caller r).toList, Held (trashPath disk host caller r).1 host files info item := by
  have unchanged : (trashPath disk host caller r).1 = disk → itemOf disk host caller r = none →
      Placed (trashPath disk host caller r).1 host files info ∧
      ∀ item ∈ items ++ (itemOf disk host caller r).toList, Held (trashPath disk host caller r).1 host files info item := by
    intro same nothing
    rw [same,nothing,Option.toList_none,List.append_nil]
    exact ⟨placed,held⟩
  cases opened : access disk host caller r.path with
  | error e => exact unchanged (by unfold trashPath; rw [opened]) (by unfold itemOf; rw [opened])
  | ok resolved =>
    have failing : ∀ code, (trashPath disk host caller r) = (disk,some code) → itemOf disk host caller r = none := by
      intro code ran
      unfold itemOf
      rw [opened,ran]
      rfl
    obtain ⟨ordinary,real,unprotected⟩ := resolve_place (access_resolved opened)
    cases looked : lstat disk host.links resolved.full with
    | error e =>
      have ran : ∃ code, trashPath disk host caller r = (disk,some code) := by
        unfold trashPath
        rw [opened]
        dsimp only
        rw [looked]
        cases e <;> exact ⟨_,rfl⟩
      obtain ⟨code,ran⟩ := ran
      exact unchanged (by rw [ran]) (failing code ran)
    | ok node =>
      obtain ⟨stored,entered⟩ := lstat_place ordinary real looked
      have ran : trashPath disk host caller r = trashOne disk host resolved r := by
        unfold trashPath
        rw [opened]
        dsimp only
        rw [looked]
      obtain ⟨named,separate,outside,kept,room⟩ := clear resolved node files info opened stored placed.reaches
      obtain ⟨freeFiles,freeInfo⟩ := untaken_free placed (uniqueTrashName_free room)
      obtain ⟨full,root⟩ := resolved
      by_cases above : full <+: files
      · have refused : trashOne disk host ⟨full,root⟩ r = (disk,some .TRASH_FAILED) := by
          unfold trashOne
          dsimp only
          rw [above_stays placed above entered stored freeFiles]
        rw [refused] at ran
        exact unchanged (by rw [ran]) (failing _ ran)
      · obtain ⟨below,kept⟩ := kept.resolve_left above
        have proper : full ≠ [] := by
          rintro rfl
          exact above List.nil_prefix
        have scene : Scene disk host full files info node (uniqueTrashName disk host (baseName full)) :=
          ⟨placed,ordinary,proper,stored,entered proper,separate,outside,⟨above,below⟩,kept,freeFiles,freeInfo⟩
        have notes : ∀ data, data <+: content (text full) r.now → Anything (.file data) := fun _ _ => trivial
        have fits : Anything node := trivial
        obtain ⟨touched,done⟩ := scene.trashes root r fits notes
        rw [ran]
        refine ⟨scene.stays touched,?_⟩
        intro item member
        rcases List.mem_append.mp member with old | new
        · exact held_kept scene touched (held item old)
        · unfold itemOf at new
          rw [opened,ran] at new
          dsimp only at new
          rw [stored] at new
          by_cases success : (trashOne disk host ⟨full,root⟩ r).2 = none
          · rw [if_pos success] at new
            simp only [Option.map_some,Option.toList_some,List.mem_singleton] at new
            subst new
            obtain ⟨payload,noted⟩ := done success
            exact held_new scene touched named unprotected (uniqueTrashName_candidate disk host (baseName full)) payload noted
          · rw [if_neg success] at new
            cases new

theorem trashEach_keeps (placed : Placed disk host files info)
    (held : ∀ item ∈ items, Held disk host files info item) (clear : ClearEach host caller requests disk) :
    Placed (trashEach host caller requests disk).1 host files info ∧
    ∀ item ∈ items ++ itemsOfEach host caller requests disk, Held (trashEach host caller requests disk).1 host files info item := by
  induction requests generalizing disk items with
  | nil =>
    simp only [itemsOfEach,List.append_nil]
    exact ⟨placed,held⟩
  | cons r rest ih =>
    obtain ⟨stays,kept⟩ := trashPath_keeps placed held clear.1
    unfold itemsOfEach
    rw [← List.append_assoc]
    exact ih stays kept clear.2

theorem readied_placed (ready : readied disk host = some now) : ∃ files info, Placed now host files info := by
  obtain ⟨made,first,second⟩ := Option.bind_eq_some_iff.mp ready
  have filesMade : mkdirAll disk host.links (host.trashDir.path ++ ["files"]) = some made := first
  have infoMade : mkdirAll made host.links (host.trashDir.path ++ ["info"]) = some now := second
  obtain ⟨files,filesEntries,walkFiles,filesStand⟩ := mkdirAll_found (by decide) filesMade
  obtain ⟨info,infoEntries,walkInfo,infoStands⟩ := mkdirAll_found (by decide) infoMade
  have grows := mkdirAll_grows second
  exact ⟨files,info,⟨walk_grows grows walkFiles,walkInfo⟩,grows_dir grows filesStand,⟨infoEntries,infoStands⟩⟩

theorem placed_readied (placed : Placed disk host files info) : readied disk host = some disk := by
  obtain ⟨⟨walkFiles,walkInfo⟩,⟨_,filesStand⟩,⟨_,infoStands⟩⟩ := placed
  unfold readied
  rw [mkdirAll_stands ((stat_within walkFiles).trans filesStand),Option.bind_some,
    mkdirAll_stands ((stat_within walkInfo).trans infoStands)]

theorem moveToTrash_readied (writable : caller.readOnly = false) (ready : readied disk host = some now)
    (requests : List TrashRequest) : moveToTrash disk host caller requests = trashEach host caller requests now := by
  obtain ⟨made,first,second⟩ := Option.bind_eq_some_iff.mp ready
  unfold moveToTrash
  rw [writable,if_neg Bool.false_ne_true,first]
  dsimp only
  rw [second]

theorem step_keeps (host : Host) (s : Files × List Item) (call : Call) (next : Files × List Item) (keeps : Keeps host s)
    (clear : ClearCall host s call) (moved : step host s call = some next) : Keeps host next := by
  obtain ⟨disk,items⟩ := s
  cases moved
  cases locked : call.caller.readOnly with
  | true =>
    have same : (moveToTrash disk host call.caller call.requests).1 = disk := by
      unfold moveToTrash
      rw [locked,if_pos rfl]
    have nothing : itemsOf disk host call = [] := by
      unfold itemsOf
      rw [locked,if_pos rfl]
    rw [same,nothing,List.append_nil]
    exact keeps
  | false =>
    cases ready : readied disk host with
    | none =>
      have nothing : itemsOf disk host call = [] := by
        unfold itemsOf
        rw [locked,if_neg Bool.false_ne_true,ready]
        rfl
      rcases keeps with empty | ⟨files,info,placed,_⟩
      · left
        rw [empty,nothing]
        rfl
      · rw [placed_readied placed] at ready
        cases ready
    | some now =>
      have listed : itemsOf disk host call = itemsOfEach host call.caller call.requests now := by
        unfold itemsOf
        rw [locked,if_neg Bool.false_ne_true,ready]
        rfl
      rw [moveToTrash_readied locked ready,listed]
      right
      have clearly := clear now ready
      rcases keeps with empty | ⟨files,info,placed,held⟩
      · obtain ⟨files,info,placed⟩ := readied_placed ready
        rw [empty]
        exact ⟨files,info,trashEach_keeps placed (by simp) clearly⟩
      · rw [placed_readied placed] at ready
        cases ready
        exact ⟨files,info,trashEach_keeps placed held clearly⟩

theorem run_keeps (clear : Every (step host) (ClearCall host) (disk,[]) calls) (ran : run (step host) (disk,[]) calls = some last) :
    Keeps host last :=
  run_preserves_when (Keeps host) (step_keeps host) (.inl rfl) clear ran

end Step

end RemoteFileExplorer.TrashRounds
