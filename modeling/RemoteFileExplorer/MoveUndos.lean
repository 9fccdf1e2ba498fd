import RemoteFileExplorer.Groupings
import RemoteFileExplorer.HostMoves
import RemoteFileExplorer.PathAlgebra

namespace RemoteFileExplorer.MoveUndos
open CodeUnits RemotePaths PathAlgebra Relocations Groupings HostMoves

inductive System where
  | posix
  | windows
  deriving DecidableEq,Repr

-- How many leading names a root has: none, or the drive.
def System.depth : System → Nat
  | .posix => 0
  | .windows => 1

def System.namesOf : System → Units → List Units
  | .posix,text => filled slash text
  | .windows,text => filled backslash (turned text)

structure BatchItemResult where
  path : Units
  ok : Bool
  deriving DecidableEq,Repr

def move (system : System) (destDir : Units) : Disk → List (Units × Bool) → Disk × List BatchItemResult
  | disk,[] => (disk,[])
  | disk,(src,refused)::rest =>
    let one := moveOne system.depth disk (system.namesOf destDir) (system.namesOf src) refused
    let more := move system destDir one.1 rest
    (more.1,⟨src,one.2⟩::more.2)

inductive UndoOp where
  | rename (source target : Units)
  | move (groups : List (Units × List Units))
  deriving DecidableEq,Repr

def renameUndo (oldPath newPath : Units) : Option UndoOp := if oldPath = newPath then none else some (.rename newPath oldPath)

def moveUndo (sources : List Units) (destDir : Units) (results : List BatchItemResult) : Option UndoOp :=
  let moved := (results.filter (·.ok)).map (·.path)
  let groups := sources.foldl (fun groups src =>
    if src ∉ moved ∨ parentDirOf src = destDir then groups
    else addTo groups (parentDirOf src) (joinRemotePath destDir (basenameOf src))) []
  if groups = [] then none else some (.move groups)

def undoGroups (system : System) (disk : Disk) (groups : List (Units × List Units)) : Disk :=
  groups.foldl (fun disk group => (move system group.1 disk (group.2.map (·,false))).1) disk

def System.Has : System → Path → Prop
  | .posix,.posix _ => True
  | .windows,.windows _ _ => True
  | _,_ => False

theorem names_text {system : System} {path : Path} (valid : path.Valid) (has : system.Has path) : system.namesOf path.text = path.names := by
  cases system with
  | posix =>
      cases path with
      | posix parts => exact filled_posix valid
      | windows drive parts => cases has
  | windows =>
      cases path with
      | posix parts => cases has
      | windows drive parts => exact filled_windows valid

theorem names_injective {system : System} {one two : Path} (left : system.Has one) (right : system.Has two) (same : one.names = two.names) : one = two := by
  cases system <;> cases one <;> cases two <;> simp_all [System.Has,Path.names]

theorem names_deep {system : System} {path : Path} (has : system.Has path) : system.depth ≤ path.names.length := by
  cases system <;> cases path <;> simp_all [System.Has,System.depth,Path.names]

theorem names_child {system : System} {path : Path} (has : system.Has path) (deep : system.depth < path.names.length) : ∃ folder name,path = Path.child folder name := by
  rcases path_cases path with root | child
  · cases system <;> cases path <;> simp_all [System.Has,System.depth,Path.names,Path.parts]
  · exact child

theorem child_has {system : System} {folder : Path} {name : Units} : system.Has (folder.child name) ↔ system.Has folder := by
  cases system <;> cases folder <;> exact Iff.rfl

theorem holds_same {system : System} {one two : Path} (left : system.Has one) (right : system.Has two) : one.Holds name ↔ two.Holds name := by
  cases system <;> cases one <;> cases two <;> simp_all [System.Has,Path.Holds]

structure Ready (system : System) (disk : Disk) (dest : Path) (sources : List (Path × Bool)) : Prop where
  closed : Closed disk
  old : ∀ path,disk path ≠ some .made
  folder : dest.Valid ∧ system.Has dest
  items : ∀ source ∈ sources,source.1.Valid ∧ system.Has source.1 ∧ disk source.1.names ≠ none

def asked (sources : List (Path × Bool)) : List (Units × Bool) := sources.map fun source => (source.1.text,source.2)

theorem move_paths (system : System) (destDir : Units) (disk : Disk) (paths : List (Units × Bool)) :
    (move system destDir disk paths).2.map BatchItemResult.path = paths.map Prod.fst := by
  induction paths generalizing disk with
  | nil => rfl
  | cons entry rest ih => simp [move,ih]

theorem moveOne_deep (moved : (moveOne depth disk destDir src refused).2 = true) : depth < src.length := by
  unfold moveOne at moved
  cases last : src.getLast? with
  | none => simp [last] at moved
  | some name =>
      by_contra short
      simp [last,Nat.not_lt.mp short] at moved

theorem move_deep (member : result ∈ (move system destDir disk paths).2) (moved : result.ok = true) : system.depth < (system.namesOf result.path).length := by
  induction paths generalizing disk with
  | nil => cases member
  | cons entry rest ih =>
      rcases List.mem_cons.mp member with rfl | later
      · exact moveOne_deep moved
      · exact ih later

theorem reached_run {disk base now : Disk} {dest : Path} {moved : List (List Units)} (folder : dest.Valid ∧ system.Has dest)
    (reached : Reached disk base now dest.names moved) (sources : List (Path × Bool))
    (items : ∀ source ∈ sources,source.1.Valid ∧ system.Has source.1 ∧ disk source.1.names ≠ none) :
    ∃ base moved',Reached disk base (move system dest.text now (asked sources)).1 dest.names moved' ∧
      ∀ src,src ∈ moved' ↔ src ∈ moved ∨
        ∃ result ∈ (move system dest.text now (asked sources)).2,result.ok = true ∧ system.namesOf result.path = src ∧ src.dropLast ≠ dest.names := by
  induction sources generalizing base now moved with
  | nil => exact ⟨base,moved,reached,by simp [asked,move]⟩
  | cons source rest ih =>
      obtain ⟨valid,has,held⟩ := items source List.mem_cons_self
      obtain ⟨base,next⟩ := reached.step system.depth held source.2
      obtain ⟨final,gone,ended,members⟩ := ih next fun other member => items other (List.mem_cons_of_mem source member)
      have one : move system dest.text now (asked (source::rest)) =
          let one := moveOne system.depth now dest.names source.1.names source.2
          let more := move system dest.text one.1 (asked rest)
          (more.1,⟨source.1.text,one.2⟩::more.2) := by
        simp only [asked,List.map_cons,move,names_text folder.1 folder.2,names_text valid has]
      refine ⟨final,gone,by rw [one]; exact ended,?_⟩
      intro src
      rw [members src,one]
      simp only [List.exists_mem_cons_iff,names_text valid has]
      split
      next taken =>
        have same : (_ ∧ source.1.names = src ∧ src.dropLast ≠ dest.names) ↔ src = source.1.names :=
          ⟨fun parts => parts.2.1.symm,fun equal => ⟨taken.1,equal.symm,equal ▸ taken.2⟩⟩
        rw [same,List.mem_cons,or_assoc,or_left_comm]
      next kept =>
        have none : ¬(_ ∧ source.1.names = src ∧ src.dropLast ≠ dest.names) := fun parts => kept ⟨parts.1,parts.2.1 ▸ parts.2.2⟩
        rw [or_iff_right none]

def okTexts (results : List BatchItemResult) : List Units := (results.filter (·.ok)).map (·.path)

def changed (dest : Path) (sources : List (Path × Bool)) (results : List BatchItemResult) : List Path :=
  (sources.map Prod.fst).filter fun path => ¬(path.text ∉ okTexts results ∨ parentDirOf path.text = dest.text)

def undoKey (path : Path) : Units := parentDirOf path.text
def undoValue (dest path : Path) : Units := joinRemotePath dest.text (basenameOf path.text)

def afterUndo (system : System) (dest : Path) (sources : List (Path × Bool)) (outcome : Disk × List BatchItemResult) : Disk :=
  match moveUndo (sources.map fun source => source.1.text) dest.text outcome.2 with
  | some (.move groups) => undoGroups system outcome.1 groups
  | _ => outcome.1

theorem afterUndo_eq (system : System) (dest : Path) (sources : List (Path × Bool)) (outcome : Disk × List BatchItemResult) :
    afterUndo system dest sources outcome =
      undoGroups system outcome.1 (gather undoKey (undoValue dest) (changed dest sources outcome.2)) := by
  have groups : (sources.map fun source => source.1.text).foldl (fun groups src =>
      if src ∉ okTexts outcome.2 ∨ parentDirOf src = dest.text then groups
      else addTo groups (parentDirOf src) (joinRemotePath dest.text (basenameOf src))) [] =
      gather undoKey (undoValue dest) (changed dest sources outcome.2) := by
    rw [gather,changed,List.foldl_filter,List.foldl_map,List.foldl_map]
    congr 1
    funext groups source
    simp only [undoKey,undoValue,decide_eq_true_eq,ite_not]
  simp only [afterUndo,moveUndo]
  rw [show (outcome.2.filter (·.ok)).map (·.path) = okTexts outcome.2 from rfl,groups]
  by_cases none : gather undoKey (undoValue dest) (changed dest sources outcome.2) = []
  · simp [none,undoGroups]
  · simp [none]

theorem move_foldl (system : System) (destDir : Units) (disk : Disk) (paths : List Units) :
    (move system destDir disk (paths.map (·,false))).1 =
      paths.foldl (fun disk path => (moveOne system.depth disk (system.namesOf destDir) (system.namesOf path) false).1) disk := by
  induction paths generalizing disk with
  | nil => rfl
  | cons path rest ih => exact ih _

theorem undo_foldl (system : System) (disk : Disk) (groups : List (Units × List Units)) :
    undoGroups system disk groups = (groups.flatMap fun group => group.2.map (group.1,·)).foldl
      (fun disk op => (moveOne system.depth disk (system.namesOf op.1) (system.namesOf op.2) false).1) disk := by
  induction groups generalizing disk with
  | nil => rfl
  | cons group rest ih =>
      rw [List.flatMap_cons,List.foldl_append,List.foldl_map,undoGroups,List.foldl_cons,move_foldl]
      exact ih _

theorem undo_back {system : System} {dest : Path} (folder : dest.Valid ∧ system.Has dest) (clear : dest.Plain) {items : List Path}
    (deep : ∀ path ∈ items,path.Valid ∧ system.Has path ∧ path.Plain ∧ system.depth < path.names.length) (disk : Disk) :
    undoGroups system disk (gather undoKey (undoValue dest) items) = ((regrouped undoKey items).map Path.names).foldl (back system.depth dest.names) disk := by
  rw [undo_foldl,gather_flat,List.foldl_map,List.foldl_map]
  apply List.foldl_ext
  intro disk path member
  obtain ⟨valid,has,plain,long⟩ := deep path (mem_regrouped.mp member)
  obtain ⟨upper,name,rfl⟩ := names_child has long
  have holds := child_valid.mp valid
  have inside := child_has.mp has
  have there : (dest.child name).Valid := child_valid.mpr ⟨folder.1,(holds_same inside folder.2).mp holds.2⟩
  simp only [undoKey,undoValue,parent_child valid plain,basename_child valid plain,join_child folder.1 clear]
  rw [names_text holds.1 inside,names_text there (child_has.mpr folder.2),back]
  simp [place]

theorem ordered_split (moved done rest : List (List Units)) : Ordered moved done rest ↔
    ∀ before src after,rest = before ++ src::after → ∀ other ∈ moved,other <+: src → other ≠ src → other ∈ done ∨ other ∈ before := by
  induction rest generalizing done with
  | nil => simp [Ordered]
  | cons first rest ih =>
      rw [Ordered,ih]
      constructor
      · rintro ⟨now,later⟩ before src after parted other member above proper
        rcases before with _ | ⟨head,before⟩
        · obtain ⟨rfl,rfl⟩ := List.cons.inj parted
          exact .inl (now other member above proper)
        · obtain ⟨rfl,tail⟩ := List.cons.inj parted
          rcases later before src after tail other member above proper with done | early
          · rcases List.mem_cons.mp done with rfl | done
            · exact .inr List.mem_cons_self
            · exact .inl done
          · exact .inr (List.mem_cons_of_mem first early)
      · intro split
        constructor
        · intro other member above proper
          simpa using split [] first rest rfl other member above proper
        · intro before src after parted other member above proper
          rcases split (first::before) src after (by rw [parted]; rfl) other member above proper with done | early
          · exact .inl (List.mem_cons_of_mem first done)
          · rcases List.mem_cons.mp early with rfl | early
            · exact .inl List.mem_cons_self
            · exact .inr early

def FoldersFirst (items : List Path) : Prop := ∀ lower ∈ items,∀ upper ∈ items,upper.names <+: lower.names → upper ≠ lower →
  rank undoKey items (undoKey upper) < rank undoKey items (undoKey lower)

theorem keys_differ {system : System} {items : List Path}
    (deep : ∀ path ∈ items,path.Valid ∧ system.Has path ∧ path.Plain ∧ system.depth < path.names.length)
    (one : lower ∈ items) (two : upper ∈ items) (above : upper.names <+: lower.names) (proper : upper ≠ lower) : undoKey upper ≠ undoKey lower := by
  obtain ⟨valid,has,plain,long⟩ := deep lower one
  obtain ⟨valid',has',plain',long'⟩ := deep upper two
  obtain ⟨folder,name,rfl⟩ := names_child has long
  obtain ⟨folder',name',rfl⟩ := names_child has' long'
  rw [undoKey,undoKey,parent_child valid plain,parent_child valid' plain']
  intro same
  have names : folder'.names = folder.names := by
    rw [← names_text (child_valid.mp valid').1 (child_has.mp has'),same,names_text (child_valid.mp valid).1 (child_has.mp has)]
  apply proper
  apply names_injective has' has
  apply above.eq_of_length
  simp [names]

theorem ordered_iff {system : System} {items : List Path} {moved : List (List Units)}
    (deep : ∀ path ∈ items,path.Valid ∧ system.Has path ∧ path.Plain ∧ system.depth < path.names.length)
    (same : ∀ src,src ∈ moved ↔ ∃ path ∈ items,path.names = src) :
    Ordered moved [] ((regrouped undoKey items).map Path.names) ↔ FoldersFirst items := by
  have ranked := regrouped_ranked undoKey items
  have regroup (path : Path) : path ∈ regrouped undoKey items ↔ path ∈ items := mem_regrouped
  rw [ordered_split]
  constructor
  · intro split lower one upper two above proper
    obtain ⟨before,after,parted⟩ := List.append_of_mem ((regroup lower).mpr one)
    have has := (deep lower one).2.1
    have has' := (deep upper two).2.1
    have early := split (before.map Path.names) lower.names (after.map Path.names) (by simp [parted]) upper.names ((same _).mpr ⟨upper,two,rfl⟩) above
      (fun equal => proper (names_injective has' has equal))
    rcases early with none | early
    · cases none
    · obtain ⟨path,member,equal⟩ := List.mem_map.mp early
      have inside : path ∈ items := (regroup path).mp (by rw [parted]; exact List.mem_append_left _ member)
      obtain rfl := names_injective (deep path inside).2.1 has' equal
      rw [parted,List.pairwise_append] at ranked
      apply Nat.lt_of_le_of_ne (ranked.2.2 path member lower List.mem_cons_self)
      intro level
      exact keys_differ deep one two above proper (rank_injective (List.mem_map_of_mem inside) level)
  · intro first before src after parted other member above proper
    obtain ⟨upper,two,rfl⟩ := (same other).mp member
    obtain ⟨front,rest,whole,rfl,tail⟩ := List.map_eq_append_iff.mp parted
    obtain ⟨lower,back,rfl,rfl,rfl⟩ := List.map_eq_cons_iff.mp tail
    have one : lower ∈ items := (regroup lower).mp (by rw [whole]; simp)
    have less := first lower one upper two above (fun equal => proper (equal ▸ rfl))
    have there : upper ∈ front ++ lower::back := whole ▸ (regroup upper).mpr two
    rcases List.mem_append.mp there with early | late
    · exact .inr (List.mem_map_of_mem early)
    · rcases List.mem_cons.mp late with rfl | late
      · exact absurd rfl proper
      · rw [whole,List.pairwise_append,List.pairwise_cons] at ranked
        exact absurd (ranked.2.1.1 upper late) (Nat.not_le.mpr less)

def PutBack (system : System) (disk : Disk) (dest : Path) (sources : List (Path × Bool)) : Prop :=
  let outcome := move system dest.text disk (asked sources)
  ∀ source ∈ sources,⟨source.1.text,true⟩ ∈ outcome.2 → afterUndo system dest sources outcome source.1.names = disk source.1.names

theorem mem_okTexts : text ∈ okTexts results ↔ ⟨text,true⟩ ∈ results := by
  rw [okTexts,List.mem_map]
  constructor
  · rintro ⟨result,member,rfl⟩
    obtain ⟨inside,good⟩ := List.mem_filter.mp member
    obtain ⟨path,ok⟩ := result
    cases (show ok = true from good)
    exact inside
  · intro member
    exact ⟨_,List.mem_filter.mpr ⟨member,rfl⟩,rfl⟩

def PlainMove (dest : Path) (sources : List (Path × Bool)) : Prop := dest.Plain ∧ ∀ source ∈ sources,source.1.Plain

section
variable {system : System} {disk : Disk} {dest : Path} {sources : List (Path × Bool)} (ready : Ready system disk dest sources) (plain : PlainMove dest sources)
include ready

theorem result_source (member : result ∈ (move system dest.text disk (asked sources)).2) (good : result.ok = true) :
    ∃ source ∈ sources,result.path = source.1.text ∧ system.depth < source.1.names.length := by
  have path := List.mem_map_of_mem (f := BatchItemResult.path) member
  rw [move_paths,asked,List.map_map] at path
  obtain ⟨source,inside,same⟩ := List.mem_map.mp path
  obtain ⟨valid,has,_⟩ := ready.items source inside
  have deep := move_deep member good
  rw [← same] at deep
  exact ⟨source,inside,same.symm,by rwa [← names_text valid has]⟩

theorem home_iff (valid : path.Valid) (has : system.Has path) (clear : path.Plain) (deep : system.depth < path.names.length) :
    parentDirOf path.text = dest.text ↔ path.names.dropLast = dest.names := by
  obtain ⟨folder,name,rfl⟩ := names_child has deep
  have whole := (child_valid.mp valid).1
  have inside := child_has.mp has
  rw [parent_child valid clear,child_names,List.dropLast_concat]
  constructor
  · intro same
    rw [← names_text whole inside,same,names_text ready.folder.1 ready.folder.2]
  · intro same
    rw [names_injective inside ready.folder.2 same]

include plain

theorem changed_deep (member : path ∈ changed dest sources (move system dest.text disk (asked sources)).2) :
    path.Valid ∧ system.Has path ∧ path.Plain ∧ system.depth < path.names.length := by
  obtain ⟨inside,moved⟩ := List.mem_filter.mp member
  obtain ⟨source,there,rfl⟩ := List.mem_map.mp inside
  obtain ⟨valid,has,_⟩ := ready.items source there
  have good : source.1.text ∈ okTexts (move system dest.text disk (asked sources)).2 := by
    by_contra bad
    exact of_decide_eq_true moved (.inl bad)
  have deep := move_deep (mem_okTexts.mp good) rfl
  rw [names_text valid has] at deep
  exact ⟨valid,has,plain.2 source there,deep⟩

theorem changed_iff (src : List Units) :
    (∃ path ∈ changed dest sources (move system dest.text disk (asked sources)).2,path.names = src) ↔
      ∃ result ∈ (move system dest.text disk (asked sources)).2,result.ok = true ∧ system.namesOf result.path = src ∧ src.dropLast ≠ dest.names := by
  constructor
  · rintro ⟨path,member,rfl⟩
    obtain ⟨valid,has,clear,deep⟩ := changed_deep ready plain member
    have moved := of_decide_eq_true (List.mem_filter.mp member).2
    rw [not_or,not_not] at moved
    exact ⟨_,mem_okTexts.mp moved.1,rfl,names_text valid has,fun same => moved.2 ((home_iff ready valid has clear deep).mpr same)⟩
  · rintro ⟨result,member,good,names,away⟩
    obtain ⟨source,inside,text,deep⟩ := result_source ready member good
    obtain ⟨valid,has,_⟩ := ready.items source inside
    rw [text,names_text valid has] at names
    subst names
    refine ⟨source.1,List.mem_filter.mpr ⟨List.mem_map_of_mem inside,decide_eq_true ?_⟩,rfl⟩
    rw [not_or,not_not]
    constructor
    · rw [mem_okTexts,← text]
      obtain ⟨path,ok⟩ := result
      cases (show ok = true from good)
      exact member
    · exact fun same => away ((home_iff ready valid has (plain.2 source inside) deep).mp same)

theorem put_back_iff : PutBack system disk dest sources ↔ FoldersFirst (changed dest sources (move system dest.text disk (asked sources)).2) := by
  have start : Reached disk disk disk dest.names [] := ⟨.inl rfl,by simp,⟨ready.closed,by simp,by simp,by simp,.nil,.nil⟩,by simp,rfl⟩
  obtain ⟨base,moved,reached,members⟩ := reached_run ready.folder start sources ready.items
  have facts := reached.facts
  have deep := names_deep ready.folder.2
  have same : ∀ src,src ∈ moved ↔ ∃ path ∈ changed dest sources (move system dest.text disk (asked sources)).2,path.names = src := by
    intro src
    rw [members,changed_iff ready plain]
    simp
  have kept : ∀ path,disk path ≠ none → base path = disk path := by
    intro path held
    rcases reached.start with rfl | made
    · rfl
    · exact (mkdirAll_parts made).2.2.1 path held
  have whole : ∀ source ∈ sources,base source.1.names = disk source.1.names := fun source inside => kept _ (ready.items source inside).2.2
  have order : ∀ src,src ∈ (regrouped undoKey (changed dest sources (move system dest.text disk (asked sources)).2)).map Path.names ↔ src ∈ moved := by
    intro src
    rw [same,List.mem_map]
    simp only [mem_regrouped]
  have old : ∀ src ∈ moved,base src ≠ some .made := by
    intro src member
    obtain ⟨path,inside,rfl⟩ := (same src).mp member
    obtain ⟨source,there,rfl⟩ := List.mem_map.mp (List.mem_filter.mp inside).1
    rw [whole source there]
    exact ready.old _
  have final : afterUndo system dest sources (move system dest.text disk (asked sources)) =
      ((regrouped undoKey (changed dest sources (move system dest.text disk (asked sources)).2)).map Path.names).foldl (back system.depth dest.names)
        (relocated (place dest.names) base (outstanding moved [])) := by
    have all : outstanding moved [] = moved := by simp [outstanding]
    rw [afterUndo_eq,undo_back ready.folder plain.1 (fun path => changed_deep ready plain),all,reached.state]
  have inside : ∀ src ∈ (regrouped undoKey (changed dest sources (move system dest.text disk (asked sources)).2)).map Path.names,src ∈ moved :=
    fun src => (order src).mp
  rw [← ordered_iff (fun path => changed_deep ready plain) same]
  constructor
  · intro restored
    apply facts.back_order deep old _ [] inside (by simp)
    rw [← final]
    intro src member
    obtain ⟨path,inside,rfl⟩ := (same src).mp member
    obtain ⟨listed,moves⟩ := List.mem_filter.mp inside
    obtain ⟨source,there,rfl⟩ := List.mem_map.mp listed
    have good := of_decide_eq_true moves
    rw [not_or,not_not,mem_okTexts] at good
    rw [whole source there]
    exact restored source there good.1
  · intro ordered source there _
    rw [final,facts.back_all deep _ [] inside (fun src member => .inr ((order src).mpr member)) ordered]
    exact whole source there

end

def listed (entries : List (List Units × Item)) : Disk := fun path => entries.lookup path

theorem listed_closed (entries : List (List Units × Item))
    (folders : entries.all (fun entry => entry.1.inits.all fun upper => upper = entry.1 || (listed entries upper).any Item.isFolder) = true) :
    Closed (listed entries) := by
  intro path rest solid held
  obtain ⟨item,found⟩ := Option.ne_none_iff_exists'.mp held
  have member : (path ++ rest,item) ∈ entries := by
    obtain ⟨before,after,parted,_⟩ := List.lookup_eq_some_iff.mp found
    simp [parted]
  have upper := List.all_eq_true.mp (List.all_eq_true.mp folders _ member) path ((List.mem_inits path _).mpr (List.prefix_append path rest))
  have proper : path ≠ path ++ rest := by simpa using solid
  simp only [proper,decide_false,Bool.false_or] at upper
  cases there : listed entries path with
  | none => simp [there] at upper
  | some item =>
      rw [there] at upper
      exact ⟨item,rfl,upper⟩

theorem listed_old (entries : List (List Units × Item)) (old : .made ∉ entries.map Prod.snd) (path : List Units) : listed entries path ≠ some .made := by
  intro found
  obtain ⟨before,after,parted,_⟩ := List.lookup_eq_some_iff.mp found
  exact old (by simp [parted])

def nested : List (List Units × Item) :=
  [([],.folder 0),([ascii "a"],.folder 1),([ascii "a",ascii "b"],.folder 2),([ascii "a",ascii "b",ascii "x"],.file 3),([ascii "d"],.folder 4)]

def innerFirst : List (Path × Bool) := [(.posix [ascii "a",ascii "b",ascii "x"],false),(.posix [ascii "a",ascii "b"],false)]

theorem nested_ready : Ready .posix (listed nested) (.posix [ascii "d"]) innerFirst where
  closed := listed_closed nested (by decide +kernel)
  old := listed_old nested (by decide)
  folder := ⟨⟨by decide,trivial⟩,trivial⟩
  items := by
    intro source member
    simp only [innerFirst,List.mem_cons,List.not_mem_nil,or_false] at member
    rcases member with rfl | rfl
    all_goals exact ⟨⟨by decide,trivial⟩,trivial,by decide⟩

end RemoteFileExplorer.MoveUndos
