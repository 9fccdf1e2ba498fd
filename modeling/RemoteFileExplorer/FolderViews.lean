import RemoteFileExplorer.Runs
import RemoteFileExplorer.PathTexts

namespace RemoteFileExplorer.FolderViews
open PathTexts

def isLetter (c : Char) : Bool := ('a' ≤ c && c ≤ 'z') || ('A' ≤ c && c ≤ 'Z')

def onDrive : Text → Bool
  | letter:: ':'::_ => isLetter letter
  | _ => false

def climb (separator : Char) : Text → List Text → List Text
  | _,[] => []
  | cur,part::rest => (cur ++ separator::part)::climb separator (cur ++ separator::part) rest

def buildPathStack (path : Text) : List Text :=
  if onDrive path then
    match ((path.map fun c => if c = '/' then '\\' else c).splitOn '\\').filter (· ≠ []) with
    | [] => [['\\']]
    | drive::parts => (drive ++ ['\\'])::climb '\\' drive parts
  else ['/']::climb '/' [] ((path.splitOn '/').filter (· ≠ []))

-- `lower` is toLowerCase.
def buildPathStackWithinRoot (lower : Text → Text) (rootPath path : Text) : List Text :=
  let pathStack := buildPathStack path
  let root := (buildPathStack rootPath).getLastD []
  match pathStack.findIdx? (fun c => if '\\' ∈ root then lower c == lower root else c == root) with
  | none => [rootPath]
  | some idx => rootPath::pathStack.drop (idx + 1)

structure Listing (Entry : Type) where
  entries : List Entry
  nextCursor : Option Text
  deriving DecidableEq, Repr

structure Answer (Entry : Type) where
  path : Text
  cursor : Option Text
  listing : Listing Entry

-- Where a call waits: for the cache, for the client, for the page. A load
-- remembers whether the cache had the folder.
inductive Stage where
  | lookup
  | client (cached : Bool)
  | listing (cached : Bool)
  | moreClient (cursor : Text)
  | moreListing (cursor : Text)
  deriving DecidableEq, Repr

structure Job where
  path : Text
  stage : Stage
  deriving DecidableEq, Repr

-- A call is known by the generation it took. `answers` records the pages taken
-- into the view and has no part in what the code does.
structure State (Entry : Type) where
  rootPath : Text
  pathStack : List Text
  entries : List Entry
  loading : Bool
  loadingMore : Bool
  loadMoreError : Option String
  error : Option String
  errorCode : Option String
  stale : Bool
  offline : Bool
  nextCursor : Option Text
  generation : Nat
  shownPath : Option Text
  jobs : Nat → Option Job
  cache : Text → Option (List Entry)
  puts : List (Text × List Entry)
  answers : List (Answer Entry)

inductive Event (Entry : Type) where
  | navigate (path : Text)
  | popDirectory
  | navigateTo (index : Nat)
  | jumpTo (path : Text)
  | load
  | loadMore (retry : Bool)
  | looked (gen : Nat) (readable : Bool)
  | connected (gen : Nat)
  | answered (gen : Nat) (listing : Listing Entry)
  | failed (gen : Nat) (message : String) (code : Option String)
  | stored (k : Nat)
  | unstored (k : Nat)
  | evicted (path : Text)

variable {Entry : Type}

def State.currentPath (s : State Entry) : Text := s.pathStack.getLastD []

def State.setJob (s : State Entry) (gen : Nat) (job : Option Job) : State Entry :=
  {s with jobs := fun other => if other = gen then job else s.jobs other}

def State.begin (s : State Entry) (job : Job) : State Entry :=
  ({s with generation := s.generation + 1} : State Entry).setJob (s.generation + 1) (some job)

def State.load (s : State Entry) : State Entry := s.begin ⟨s.currentPath,.lookup⟩

-- loadMore returns at once, or goes out with this cursor.
def State.wantsMore (s : State Entry) (retry : Bool) : Option Text :=
  if s.loading || s.loadingMore || (s.loadMoreError.isSome && !retry) then none else s.nextCursor

def looked (s : State Entry) (path : Text) : Option (List Entry) → State Entry
  | some rows =>
    {s with
      shownPath := some path,entries := rows,loading := false,loadingMore := false,stale := true,offline := false
      error := none,loadMoreError := none,nextCursor := none}
  | none =>
    let missed := {s with loading := true,loadingMore := false,error := none,errorCode := none,loadMoreError := none,nextCursor := none}
    if s.shownPath = some path then missed else {missed with entries := [],stale := false,offline := false}

def loadFails (s : State Entry) (cached : Bool) (message : String) (code : Option String) : State Entry :=
  if cached then {s with loading := false,stale := true,offline := true}
  else {s with loading := false,error := some message,errorCode := code}

def loaded (s : State Entry) (path : Text) (page : Listing Entry) : State Entry :=
  {s with
    shownPath := some path,loading := false,entries := page.entries,stale := false,offline := false,error := none,errorCode := none
    nextCursor := page.nextCursor,puts := s.puts ++ [(path,page.entries)],answers := ⟨path,none,page⟩::s.answers}

def moreLoaded (s : State Entry) (path cursor : Text) (page : Listing Entry) : State Entry :=
  {s with
    entries := s.entries ++ page.entries,loadingMore := false,nextCursor := page.nextCursor
    puts := s.puts ++ [(path,s.entries ++ page.entries)],answers := ⟨path,some cursor,page⟩::s.answers}

def resume (s : State Entry) (gen : Nat) (job : Job) : Event Entry → Option (State Entry)
  | .looked _ readable =>
    if job.stage = .lookup then
      let cached := if readable then s.cache job.path else none
      some ((looked s job.path cached).setJob gen (some ⟨job.path,.client cached.isSome⟩))
    else none
  | .connected _ =>
    match job.stage with
    | .client cached => some (s.setJob gen (some ⟨job.path,.listing cached⟩))
    | .moreClient cursor => some (s.setJob gen (some ⟨job.path,.moreListing cursor⟩))
    | _ => none
  | .answered _ page =>
    match job.stage with
    | .listing _ => some ((loaded s job.path page).setJob gen none)
    | .moreListing cursor => some ((moreLoaded s job.path cursor page).setJob gen none)
    | _ => none
  | .failed _ message code =>
    match job.stage with
    | .client cached | .listing cached => some ((loadFails s cached message code).setJob gen none)
    | .moreClient _ | .moreListing _ => some (({s with loadingMore := false,loadMoreError := some message} : State Entry).setJob gen none)
    | .lookup => none
  | _ => none

def complete (s : State Entry) (gen : Nat) (event : Event Entry) : Option (State Entry) :=
  match s.jobs gen with
  | none => none
  | some job => if gen = s.generation then resume s gen job event else some (s.setJob gen none)

def step (lower : Text → Text) (s : State Entry) : Event Entry → Option (State Entry)
  | .navigate path => some ({s with pathStack := s.pathStack ++ [path]} : State Entry).load
  | .popDirectory => if s.pathStack.length = 1 then some s else some ({s with pathStack := s.pathStack.dropLast} : State Entry).load
  | .navigateTo index => if s.pathStack.length ≤ index then some s else some ({s with pathStack := s.pathStack.take (index + 1)} : State Entry).load
  | .jumpTo path => some ({s with pathStack := buildPathStackWithinRoot lower s.rootPath path} : State Entry).load
  | .load => some s.load
  | .loadMore retry =>
    match s.wantsMore retry with
    | none => some s
    | some cursor => some (({s with loadingMore := true,loadMoreError := none} : State Entry).begin ⟨s.currentPath,.moreClient cursor⟩)
  | .looked gen readable => complete s gen (.looked gen readable)
  | .connected gen => complete s gen (.connected gen)
  | .answered gen page => complete s gen (.answered gen page)
  | .failed gen message code => complete s gen (.failed gen message code)
  | .stored k =>
    match s.puts[k]? with
    | none => none
    | some (path,rows) => some {s with cache := fun other => if other = path then some rows else s.cache other,puts := s.puts.eraseIdx k}
  | .unstored k => some {s with puts := s.puts.eraseIdx k}
  | .evicted path => some {s with cache := fun other => if other = path then none else s.cache other}

def initial (rootPath : Text) (cache : Text → Option (List Entry)) (answers : List (Answer Entry)) : State Entry :=
  ⟨rootPath,[rootPath],[],false,false,none,none,none,false,false,none,0,none,fun _ => none,cache,[],answers⟩

-- Consecutive pages of one listing of the path, from its first page on.
inductive Chain (answers : List (Answer Entry)) (path : Text) : List Entry → Option Text → Prop where
  | first : ⟨path,none,page⟩ ∈ answers → Chain answers path page.entries page.nextCursor
  | more : Chain answers path entries (some cursor) → ⟨path,some cursor,page⟩ ∈ answers → Chain answers path (entries ++ page.entries) page.nextCursor

def Listed (answers : List (Answer Entry)) (path : Text) (entry : Entry) : Prop :=
  ∃ answer ∈ answers, answer.path = path ∧ entry ∈ answer.listing.entries

def Stage.loads : Stage → Bool
  | .lookup | .client _ | .listing _ => true
  | .moreClient _ | .moreListing _ => false

def State.live (s : State Entry) : Option Job := s.jobs s.generation

def State.loadInFlight (s : State Entry) : Bool := s.live.any (fun job => job.stage.loads)
def State.lookingUp (s : State Entry) : Bool := s.live.any (fun job => job.stage == .lookup)

-- loadMore does not go out while the view still shows the folder that has just
-- been left.
def settledIn (s : State Entry) : Event Entry → Bool
  | .loadMore retry => (s.wantsMore retry).isNone || s.shownPath == some s.currentPath
  | _ => true

section Pages
variable {answers : List (Answer Entry)}

theorem listed_later (listed : Listed answers path entry) (answer : Answer Entry) : Listed (answer::answers) path entry := by
  obtain ⟨one,member,same,shown⟩ := listed
  exact ⟨one,List.mem_cons_of_mem _ member,same,shown⟩

theorem chain_later (chain : Chain answers path entries next) (answer : Answer Entry) : Chain (answer::answers) path entries next := by
  induction chain with
  | first member => exact .first (List.mem_cons_of_mem _ member)
  | more _ member ih => exact .more ih (List.mem_cons_of_mem _ member)

theorem chain_listed (chain : Chain answers path entries next) : ∀ entry ∈ entries, Listed answers path entry := by
  induction chain with
  | first member => exact fun entry shown => ⟨_,member,rfl,shown⟩
  | more _ member ih =>
    intro entry shown
    rcases List.mem_append.mp shown with old | new
    · exact ih entry old
    · exact ⟨_,member,rfl,new⟩

end Pages

def Quiet (s : State Entry) : Prop := s.stale = false ∧ s.offline = false ∧ s.loading = false ∧ s.error = none

structure Backed (s : State Entry) : Prop where
  rows : ∀ entry ∈ s.entries, ∃ path, s.shownPath = some path ∧ Listed s.answers path entry
  cache : ∀ path rows, s.cache path = some rows → ∀ entry ∈ rows, Listed s.answers path entry
  puts : ∀ put ∈ s.puts, ∀ entry ∈ put.2, Listed s.answers put.1 entry
  cursor : ∀ last, s.nextCursor = some last → ∃ path, s.shownPath = some path ∧ Chain s.answers path s.entries (some last)

def Waits (s : State Entry) : Stage → Prop
  | .moreClient cursor | .moreListing cursor => s.nextCursor = some cursor ∧ s.shownPath = some s.currentPath
  | _ => True

structure Consistent (s : State Entry) : Prop where
  backed : Backed s
  call : ∀ job, s.live = some job → job.path = s.currentPath ∧ Waits s job.stage
  here : 0 < s.generation → s.lookingUp = false → s.shownPath = some s.currentPath ∨ s.entries = []
  quiet : 0 < s.generation → s.loadInFlight = false → Quiet s →
    s.shownPath = some s.currentPath ∧ Chain s.answers s.currentPath s.entries s.nextCursor

section Calls
variable {s next : State Entry} {job : Job} {event : Event Entry}

@[simp] theorem begin_live (s : State Entry) (job : Job) : (s.begin job).live = some job := if_pos rfl

theorem setJob_live {job : Option Job} (current : s.generation = gen) : (s.setJob gen job).live = job := if_pos current

theorem setJob_other {job : Option Job} (other : gen ≠ s.generation) : (s.setJob gen job).live = s.live := if_neg (Ne.symm other)

theorem Backed.moved (backed : Backed s) (stack : List Text) : Backed {s with pathStack := stack} :=
  ⟨backed.rows,backed.cache,backed.puts,backed.cursor⟩

theorem load_consistent (backed : Backed s) : Consistent s.load := by
  have live : s.load.live = some ⟨s.currentPath,.lookup⟩ := begin_live _ _
  refine ⟨⟨backed.rows,backed.cache,backed.puts,backed.cursor⟩,?_,?_,?_⟩
  · intro job known
    rw [live] at known
    cases known
    exact ⟨rfl,trivial⟩
  · intro _ idle
    simp [State.lookingUp,live] at idle
  · intro _ idle
    simp [State.loadInFlight,live,Stage.loads] at idle

section
variable (backed : Backed s) (here : s.shownPath = some s.currentPath) (last : s.nextCursor = some cursor)
include backed here last

theorem cursor_chain :
    Chain s.answers s.currentPath s.entries (some cursor) := by
  obtain ⟨path,shown,chain⟩ := backed.cursor cursor last
  rw [here] at shown
  cases shown
  exact chain

theorem more_consistent :
    Consistent (({s with loadingMore := true,loadMoreError := none} : State Entry).begin ⟨s.currentPath,.moreClient cursor⟩) := by
  have chain : Chain s.answers s.currentPath s.entries s.nextCursor := last ▸ cursor_chain backed here last
  refine ⟨⟨backed.rows,backed.cache,backed.puts,backed.cursor⟩,?_,?_,?_⟩
  · intro job known
    rw [begin_live] at known
    cases known
    exact ⟨rfl,last,here⟩
  · exact fun _ _ => .inl here
  · exact fun _ _ _ => ⟨here,chain⟩

end

theorem wantsMore_cursor (wants : s.wantsMore retry = some cursor) : s.nextCursor = some cursor := by
  unfold State.wantsMore at wants
  split at wants
  · cases wants
  · exact wants

theorem overtaken_consistent (kept : Consistent s) (other : gen ≠ s.generation) : Consistent (s.setJob gen none) := by
  have live : (s.setJob gen none).live = s.live := setJob_other other
  refine ⟨⟨kept.backed.rows,kept.backed.cache,kept.backed.puts,kept.backed.cursor⟩,?_,?_,?_⟩
  · intro job known
    rw [live] at known
    exact kept.call job known
  · intro started idle
    apply kept.here started
    rwa [State.lookingUp,live] at idle
  · intro started idle
    apply kept.quiet started
    rwa [State.loadInFlight,live] at idle

theorem looked_frame (s : State Entry) (path : Text) (cached : Option (List Entry)) :
    (looked s path cached).generation = s.generation ∧ (looked s path cached).pathStack = s.pathStack := by
  cases cached with
  | some rows => exact ⟨rfl,rfl⟩
  | none =>
    simp only [looked]
    split <;> exact ⟨rfl,rfl⟩

theorem looked_backed (backed : Backed s) (known : ∀ rows, cached = some rows → ∀ entry ∈ rows, Listed s.answers path entry) :
    Backed (looked s path cached) := by
  cases cached with
  | some rows =>
    refine ⟨?_,backed.cache,backed.puts,?_⟩
    · exact fun entry shown => ⟨path,rfl,known rows rfl entry shown⟩
    · exact nofun
  | none =>
    simp only [looked]
    split
    · exact ⟨backed.rows,backed.cache,backed.puts,nofun⟩
    · exact ⟨fun _ none => (List.not_mem_nil none).elim,backed.cache,backed.puts,nofun⟩

theorem looked_shown (s : State Entry) (path : Text) (cached : Option (List Entry)) :
    (looked s path cached).shownPath = some path ∨ (looked s path cached).entries = [] := by
  cases cached with
  | some rows => exact .inl rfl
  | none =>
    simp only [looked]
    split
    · rename_i same
      exact .inl same
    · exact .inr rfl

section
variable (kept : Consistent s)
include kept

theorem looked_consistent (live : s.live = some job) (cached : Option (List Entry))
    (known : ∀ rows, cached = some rows → ∀ entry ∈ rows, Listed s.answers job.path entry) :
    Consistent ((looked s job.path cached).setJob s.generation (some ⟨job.path,.client cached.isSome⟩)) := by
  obtain ⟨generation,stack⟩ := looked_frame s job.path cached
  have now : ((looked s job.path cached).setJob s.generation (some ⟨job.path,.client cached.isSome⟩)).live = some ⟨job.path,.client cached.isSome⟩ :=
    setJob_live generation
  have here : job.path = (looked s job.path cached).currentPath := by
    rw [State.currentPath,stack]
    exact (kept.call job live).1
  have backed := looked_backed kept.backed known
  refine ⟨⟨backed.rows,backed.cache,backed.puts,backed.cursor⟩,?_,?_,?_⟩
  · intro other same
    rw [now] at same
    cases same
    exact ⟨here,trivial⟩
  · intro _ _
    rcases looked_shown s job.path cached with same | empty
    · exact .inl (same.trans (congrArg some here))
    · exact .inr empty
  · intro _ idle
    simp [State.loadInFlight,now,Stage.loads] at idle

theorem connected_consistent (live : s.live = some job) (loads : job.stage.loads = later.loads)
    (past : job.stage ≠ .lookup) (waits : Waits s job.stage → Waits s later) : Consistent (s.setJob s.generation (some ⟨job.path,later⟩)) := by
  have now : (s.setJob s.generation (some ⟨job.path,later⟩)).live = some ⟨job.path,later⟩ := setJob_live rfl
  refine ⟨⟨kept.backed.rows,kept.backed.cache,kept.backed.puts,kept.backed.cursor⟩,?_,?_,?_⟩
  · intro other known
    rw [now] at known
    cases known
    exact ⟨(kept.call job live).1,waits (kept.call job live).2⟩
  · intro started _
    apply kept.here started
    simp [State.lookingUp,live,past]
  · intro started idle
    apply kept.quiet started
    simpa [State.loadInFlight,live,now,loads] using idle

theorem loaded_consistent (live : s.live = some job) (page : Listing Entry) :
    Consistent ((loaded s job.path page).setJob s.generation none) := by
  have here := (kept.call job live).1
  have backed := kept.backed
  have chain : Chain (⟨job.path,none,page⟩::s.answers) job.path page.entries page.nextCursor := .first (List.mem_cons_self ..)
  have listed := chain_listed chain
  refine ⟨⟨?_,?_,?_,?_⟩,?_,?_,?_⟩
  · exact fun entry shown => ⟨job.path,rfl,listed entry shown⟩
  · exact fun path rows stored entry shown => listed_later (backed.cache path rows stored entry shown) _
  · intro put member entry shown
    rcases List.mem_append.mp member with old | new
    · exact listed_later (backed.puts put old entry shown) _
    · cases List.mem_singleton.mp new
      exact listed entry shown
  · intro last some
    exact ⟨job.path,rfl,some ▸ chain⟩
  · intro other known
    cases (setJob_live rfl).symm.trans known
  · exact fun _ _ => .inl (congrArg some here)
  · exact fun _ _ _ => ⟨congrArg some here,here ▸ chain⟩

theorem moreLoaded_consistent (live : s.live = some ⟨path,.moreListing cursor⟩) (page : Listing Entry) :
    Consistent ((moreLoaded s path cursor page).setJob s.generation none) := by
  obtain ⟨same,last,here⟩ := kept.call _ live
  have backed := kept.backed
  have chain : Chain (⟨path,some cursor,page⟩::s.answers) path (s.entries ++ page.entries) page.nextCursor := by
    refine .more (chain_later ?_ _) (List.mem_cons_self ..)
    rw [show path = s.currentPath from same]
    exact cursor_chain backed here last
  have listed := chain_listed chain
  have shown : s.shownPath = some path := here.trans (congrArg some same.symm)
  refine ⟨⟨?_,?_,?_,?_⟩,?_,?_,?_⟩
  · exact fun entry member => ⟨path,shown,listed entry member⟩
  · exact fun path rows stored entry member => listed_later (backed.cache path rows stored entry member) _
  · intro put member entry within
    rcases List.mem_append.mp member with old | new
    · exact listed_later (backed.puts put old entry within) _
    · cases List.mem_singleton.mp new
      exact listed entry within
  · intro last some
    exact ⟨path,shown,some ▸ chain⟩
  · intro other known
    cases (setJob_live rfl).symm.trans known
  · exact fun _ _ => .inl here
  · exact fun _ _ _ => ⟨here,same ▸ chain⟩

theorem loadFails_consistent (live : s.live = some job) (past : job.stage ≠ .lookup) (cached : Bool) (message : String)
    (code : Option String) : Consistent ((loadFails s cached message code).setJob s.generation none) := by
  have backed := kept.backed
  have before : s.lookingUp = false := by simp [State.lookingUp,live,past]
  cases cached with
  | true =>
    refine ⟨⟨backed.rows,backed.cache,backed.puts,backed.cursor⟩,?_,?_,?_⟩
    · intro other known
      cases (setJob_live rfl).symm.trans known
    · exact fun started _ => kept.here started before
    · exact fun _ _ quiet => nomatch quiet.1
  | false =>
    refine ⟨⟨backed.rows,backed.cache,backed.puts,backed.cursor⟩,?_,?_,?_⟩
    · intro other known
      cases (setJob_live rfl).symm.trans known
    · exact fun started _ => kept.here started before
    · exact fun _ _ quiet => nomatch quiet.2.2.2

theorem moreFails_consistent (live : s.live = some job) (more : job.stage.loads = false) (message : String) :
    Consistent (({s with loadingMore := false,loadMoreError := some message} : State Entry).setJob s.generation none) := by
  have backed := kept.backed
  have before : s.loadInFlight = false := by simp [State.loadInFlight,live,more]
  have past : s.lookingUp = false := by
    simp only [State.lookingUp,live,Option.any_some,beq_eq_false_iff_ne]
    rintro same
    rw [same] at more
    cases more
  refine ⟨⟨backed.rows,backed.cache,backed.puts,backed.cursor⟩,?_,?_,?_⟩
  · intro other known
    cases (setJob_live rfl).symm.trans known
  · exact fun started _ => kept.here started past
  · exact fun started _ quiet => kept.quiet started before quiet

theorem resume_consistent (live : s.live = some job) (resumed : resume s s.generation job event = some next) : Consistent next := by
  obtain ⟨path,stage⟩ := job
  cases event with
  | looked gen readable =>
    simp only [resume] at resumed
    split at resumed
    · cases resumed
      apply looked_consistent kept live
      intro rows found
      split at found
      · exact kept.backed.cache path rows found
      · cases found
    · cases resumed
  | connected gen =>
    cases stage with
    | client cached | moreClient cursor =>
      cases resumed
      exact connected_consistent kept live rfl nofun id
    | lookup | listing | moreListing => cases resumed
  | answered gen page =>
    cases stage with
    | listing cached =>
      cases resumed
      exact loaded_consistent kept live page
    | moreListing cursor =>
      cases resumed
      exact moreLoaded_consistent kept live page
    | lookup | client | moreClient => cases resumed
  | failed gen message code =>
    cases stage with
    | client cached | listing cached =>
      cases resumed
      exact loadFails_consistent kept live nofun cached message code
    | moreClient cursor | moreListing cursor =>
      cases resumed
      exact moreFails_consistent kept live rfl message
    | lookup => cases resumed
  | navigate | popDirectory | navigateTo | jumpTo | load | loadMore | stored | unstored | evicted => cases resumed

theorem complete_consistent (completed : complete s gen event = some next) : Consistent next := by
  simp only [complete] at completed
  split at completed
  · cases completed
  · rename_i job waiting
    split at completed
    · rename_i current
      subst current
      exact resume_consistent kept waiting completed
    · rename_i other
      cases completed
      exact overtaken_consistent kept other

theorem step_consistent (meets : settledIn s event = true) (stepped : step lower s event = some next) :
    Consistent next := by
  have backed := kept.backed
  cases event with
  | navigate path | jumpTo path =>
    cases stepped
    exact load_consistent (backed.moved _)
  | popDirectory | navigateTo index =>
    simp only [step] at stepped
    split at stepped
    · cases stepped
      exact kept
    · cases stepped
      exact load_consistent (backed.moved _)
  | load =>
    cases stepped
    exact load_consistent backed
  | loadMore retry =>
    simp only [step] at stepped
    split at stepped
    · cases stepped
      exact kept
    · rename_i cursor wants
      cases stepped
      simp only [settledIn,wants,Option.isNone_some,Bool.false_or,beq_iff_eq] at meets
      exact more_consistent backed meets (wantsMore_cursor wants)
  | looked | connected | answered | failed => exact complete_consistent kept stepped
  | stored k =>
    simp only [step] at stepped
    split at stepped
    · cases stepped
    · rename_i path rows waiting
      cases stepped
      refine ⟨⟨backed.rows,?_,?_,backed.cursor⟩,kept.call,kept.here,kept.quiet⟩
      · intro other found stored
        simp only at stored
        split at stored
        · rename_i own
          cases stored
          exact own ▸ backed.puts _ (List.mem_of_getElem? waiting)
        · exact backed.cache other found stored
      · exact fun put member => backed.puts put (List.mem_of_mem_eraseIdx member)
  | unstored k =>
    cases stepped
    exact ⟨⟨backed.rows,backed.cache,fun put member => backed.puts put (List.mem_of_mem_eraseIdx member),backed.cursor⟩,kept.call,kept.here,kept.quiet⟩
  | evicted path =>
    cases stepped
    refine ⟨⟨backed.rows,?_,backed.puts,backed.cursor⟩,kept.call,kept.here,kept.quiet⟩
    intro other rows stored
    simp only at stored
    split at stored
    · cases stored
    · exact backed.cache other rows stored

end

end Calls

section Runs
variable {rootPath : Text} {lower : Text → Text} {cache : Text → Option (List Entry)} {answers : List (Answer Entry)} {s : State Entry}
  {events : List (Event Entry)}

theorem initial_consistent (owned : ∀ path rows, cache path = some rows → ∀ entry ∈ rows, Listed answers path entry) :
    Consistent (initial rootPath cache answers) := by
  refine ⟨⟨?_,owned,?_,?_⟩,?_,?_,?_⟩
  · exact fun _ none => (List.not_mem_nil none).elim
  · exact fun _ none => (List.not_mem_nil none).elim
  · exact nofun
  · exact nofun
  all_goals exact fun started => absurd started (Nat.lt_irrefl 0)

theorem folder_view_consistent (owned : ∀ path rows, cache path = some rows → ∀ entry ∈ rows, Listed answers path entry)
    (meets : Runs.Every (step lower) (fun s event => settledIn s event = true) (initial rootPath cache answers) events)
    (ran : Runs.run (step lower) (initial rootPath cache answers) events = some s) (started : 0 < s.generation) :
    (s.loadInFlight = false → Quiet s → Chain s.answers s.currentPath s.entries s.nextCursor) ∧
    (s.lookingUp = false → ∀ entry ∈ s.entries, Listed s.answers s.currentPath entry) := by
  have kept : Consistent s :=
    Runs.run_preserves_when Consistent (fun s event next held ok stepped => step_consistent held ok stepped) (initial_consistent owned) meets ran
  refine ⟨fun idle quiet => (kept.quiet started idle quiet).2,?_⟩
  intro past entry member
  rcases kept.here started past with here | empty
  · obtain ⟨path,shown,listed⟩ := kept.backed.rows entry member
    rw [here] at shown
    cases shown
    exact listed
  · rw [empty] at member
    cases member

def rowsOfA : Listing String := ⟨["a1"],some ['a','1']⟩

def turned : List (Event String) :=
  [.load,.looked 1 true,.connected 1,.answered 1 rowsOfA,.loadMore false,.connected 2,.answered 2 ⟨["a2"],none⟩,
    .navigate ['/','b'],.looked 3 true,.connected 3,.answered 3 ⟨["b1"],none⟩,.stored 0]

theorem turned_consistent : ∃ s, Runs.run (step id) (initial ['/'] (fun _ => none) []) turned = some s ∧
    (s.loadInFlight = false → Quiet s → Chain s.answers s.currentPath s.entries s.nextCursor) ∧
    (s.lookingUp = false → ∀ entry ∈ s.entries, Listed s.answers s.currentPath entry) := by
  have meets : Runs.Every (step id) (fun s event => settledIn s event = true) (initial ['/'] (fun _ => none) []) turned := by decide
  refine ⟨_,rfl,folder_view_consistent ?_ meets rfl (by decide)⟩
  intro path rows none
  cases none

-- loadMore goes out between the navigation and the cache lookup of its load: it
-- ends that load and asks the new folder for the page after the old one's rows.
theorem loadMore_overtakes_navigation : ∃ s : State String,
    Runs.run (step id) (initial ['/'] (fun _ => none) [])
      [.load,.looked 1 true,.connected 1,.answered 1 rowsOfA,.navigate ['/','b'],.loadMore false,.looked 2 true,.connected 3,
        .answered 3 ⟨["b2"],none⟩] = some s ∧
    s.currentPath = ['/','b'] ∧ s.loadInFlight = false ∧ Quiet s ∧ s.entries = ["a1","b2"] ∧
    ¬ Chain s.answers s.currentPath s.entries s.nextCursor ∧ ¬ Listed s.answers s.currentPath "a1" := by
  have foreign : ¬ Listed [(⟨['/','b'],some ['a','1'],⟨["b2"],none⟩⟩ : Answer String),⟨['/'],none,rowsOfA⟩] ['/','b'] "a1" := by
    rintro ⟨answer,member,path,shown⟩
    rcases List.mem_cons.mp member with rfl | older
    · simp at shown
    · cases List.mem_singleton.mp older
      simp at path
  refine ⟨_,rfl,rfl,rfl,⟨rfl,rfl,rfl,rfl⟩,rfl,?_,foreign⟩
  exact fun chain => foreign (chain_listed chain "a1" (List.mem_cons_self ..))

end Runs

end RemoteFileExplorer.FolderViews
