import Mathlib.Data.List.Chain
import RemoteFileExplorer.RemotePaths

namespace RemoteFileExplorer.PathAlgebra
open CodeUnits RemotePaths

def startsDrive : Units → Bool
  | letter::mark::_ => isLetter letter && mark = colon
  | _ => false

def climb (sep : UInt16) (cur : Units) : List Units → List Units
  | [] => []
  | part::rest => (cur ++ sep::part)::climb sep (cur ++ sep::part) rest

def filled (sep : UInt16) (text : Units) : List Units := (text.splitOnP (· = sep)).filter (· ≠ [])

def turned (text : Units) : Units := text.map fun u => if u = slash then backslash else u

def buildPathStack (path : Units) : List Units :=
  if startsDrive path then
    match filled backslash (turned path) with
    | [] => []
    | drive::parts => (drive ++ [backslash])::climb backslash drive parts
  else [slash]::climb slash [] (filled slash path)

-- The web companion's request.
structure RenameBody where
  src : Units
  dst : Units

def renameBody (path newName : Units) : RenameBody :=
  let sep := sepOf path
  ⟨path,match beforeLast sep path with
    | none => sep::newName
    | some front => front ++ sep::newName⟩

-- The desktop's join.
def joinRemote (dir name : Units) : Units :=
  let sep := if backslash ∈ dir ∧ slash ∉ dir then backslash else slash
  dir.rdropWhile isSep ++ sep::name

structure Laws (path : Path) : Prop where
  whole : path.parts ≠ [] → joinRemotePath (parentDirOf path.text) (basenameOf path.text) = path.text
  sibling : ∀ name,path.Holds name → renameDestination path.text name = joinRemotePath (parentDirOf path.text) name
  top : (buildPathStack path.text).getLast? = some path.text
  stacked : (buildPathStack path.text).IsChain (fun upper lower => upper = parentDirOf lower)
  web : ∀ name,path.Holds name → (renameBody path.text name).dst = joinRemotePath (parentDirOf path.text) name
  desktop : ∀ name,path.Holds name → joinRemote path.text name = joinRemotePath path.text name

theorem lastIndex_none (absent : c ∉ text) : lastIndexOf c text = none := by
  induction text with
  | nil => rfl
  | cons u rest ih =>
      have other : u ≠ c := fun same => absent (same ▸ List.mem_cons_self)
      have later := ih (fun inside => absent (List.mem_cons_of_mem u inside))
      simp [lastIndexOf,later,other]

theorem lastIndex_append (front : Units) (absent : c ∉ name) : lastIndexOf c (front ++ c::name) = some front.length := by
  induction front with
  | nil => simp [lastIndexOf,lastIndex_none absent]
  | cons u rest ih => simp [lastIndexOf,ih]

theorem beforeLast_front (solid : front ≠ []) (absent : sep ∉ name) : beforeLast sep (front ++ sep::name) = some front := by
  have index := lastIndex_append front absent
  obtain ⟨u,rest,rfl⟩ := List.exists_cons_of_ne_nil solid
  rw [beforeLast,index]
  simp

theorem beforeLast_start (absent : sep ∉ name) : beforeLast sep (sep::name) = none := by
  have index := lastIndex_append [] absent
  rw [List.nil_append] at index
  rw [beforeLast,index]
  rfl

theorem basename_last (front : Units) (sep : isSep s = true) (free : ∀ u ∈ name,isSep u = false) (solid : name ≠ []) : basenameOf (front ++ s::name) = name := by
  rw [basenameOf,List.splitOnP_append_cons _ _ sep,List.splitOnP_eq_singleton free,List.filter_append]
  simp [solid]

theorem climb_snoc (sep : UInt16) (cur : Units) (parts : List Units) (part : Units) :
    climb sep cur (parts ++ [part]) = climb sep cur parts ++ [cur ++ lined sep (parts ++ [part])] := by
  induction parts generalizing cur with
  | nil => simp [climb]
  | cons first rest ih => simp [climb,ih]

theorem filled_lined (parts : List Units) (free : ∀ part ∈ parts,part ≠ [] ∧ sep ∉ part) : filled sep (lined sep parts) = parts := by
  induction parts using List.reverseRecOn with
  | nil => simp [filled,List.splitOnP_nil]
  | append_singleton init last ih =>
      have single : last.splitOnP (· = sep) = [last] := by
        apply List.splitOnP_eq_singleton
        intro u inside
        simp only [decide_eq_false_iff_not]
        rintro rfl
        exact (free last (by simp)).2 inside
      have before := ih (fun part member => free part (by simp [member]))
      rw [filled] at before ⊢
      rw [lined_append,lined_cons,lined_nil,List.append_nil,List.splitOnP_append_cons _ _ (by simp),single,List.filter_append,before]
      simp [(free last (by simp)).1]

theorem filled_end (sep : UInt16) (text : Units) : filled sep (text ++ [sep]) = filled sep text := by
  rw [filled,List.splitOnP_append_cons _ _ (by simp),List.splitOnP_nil,List.filter_append]
  simp [filled]

theorem before_front {folder : Path} (absent : folder.sep ∉ name) :
    beforeLast folder.sep (folder.front ++ folder.sep::name) = if folder.front = [] then none else some folder.front := by
  by_cases empty : folder.front = []
  · rw [if_pos empty,empty]
    exact beforeLast_start absent
  · rw [if_neg empty]
    exact beforeLast_front empty absent

theorem front_empty {folder : Path} : folder.front = [] ↔ folder = .posix [] := by
  cases folder with
  | posix parts => cases parts <;> simp [Path.front]
  | windows drive parts => simp [Path.front]

theorem front_drive {folder : Path} (valid : folder.Valid) : isDrive folder.front = true ↔ ∃ drive,folder = .windows drive [] := by
  cases folder with
  | posix parts =>
      have start : isDrive (lined slash parts) = false := by
        rcases parts with _ | ⟨name,rest⟩
        · rfl
        · simp only [lined_cons]
          cases name ++ lined slash rest with
          | nil => rfl
          | cons u more => cases more <;> simp [isDrive,isLetter,slash]
      simp [Path.front,start]
  | windows drive parts =>
      cases parts with
      | nil => simp [Path.front,isDrive,valid.2]
      | cons name rest => simp [Path.front,isDrive]

theorem parent_front {folder : Path} (valid : folder.Valid) (absent : folder.sep ∉ name) (sep : sepOf (folder.front ++ folder.sep::name) = folder.sep) :
    parentDirOf (folder.front ++ folder.sep::name) = folder.text := by
  simp only [parentDirOf,sep,before_front absent]
  by_cases empty : folder.front = []
  · obtain rfl := front_empty.mp empty
    rfl
  · rw [if_neg empty]
    by_cases drive : isDrive folder.front = true
    · obtain ⟨drive,rfl⟩ := (front_drive valid).mp drive
      simp only [drive,if_true]
      rfl
    · have deep : folder.parts ≠ [] := by
        intro root
        cases folder with
        | posix parts => exact empty (by simp [Path.front,show parts = [] from root])
        | windows letter parts => exact drive ((front_drive valid).mpr ⟨letter,by rw [show parts = [] from root]⟩)
      simp only [drive]
      exact (text_deep deep).symm

theorem front_single {folder : Path} (valid : folder.Valid) : folder.front ≠ [folder.sep] := by
  cases folder with
  | posix parts =>
      cases parts with
      | nil => simp [Path.front]
      | cons name rest =>
          have solid := (valid.1 name List.mem_cons_self).1
          simp [Path.front,solid]
  | windows drive parts => simp [Path.front]

theorem rename_front {folder : Path} (valid : folder.Valid) (absent : folder.sep ∉ name) (sep : sepOf (folder.front ++ folder.sep::name) = folder.sep)
    (newName : Units) : renameDestination (folder.front ++ folder.sep::name) newName = folder.front ++ folder.sep::newName := by
  simp only [renameDestination,sep,before_front absent]
  by_cases empty : folder.front = []
  · simp [empty]
  · simp [empty,front_single valid]

theorem body_front {folder : Path} (absent : folder.sep ∉ name) (sep : sepOf (folder.front ++ folder.sep::name) = folder.sep) (newName : Units) :
    (renameBody (folder.front ++ folder.sep::name) newName).dst = folder.front ++ folder.sep::newName := by
  simp only [renameBody,sep,before_front absent]
  by_cases empty : folder.front = []
  · simp [empty]
  · simp [empty]

theorem child_unsep {folder : Path} (valid : (folder.child name).Valid) (plain : (folder.child name).Plain) : folder.sep ∉ name := by
  obtain ⟨_,unslashed,unbacked⟩ := child_free valid plain
  cases folder with
  | posix parts => exact unslashed
  | windows drive parts => exact unbacked

theorem text_parts {path : Path} (valid : path.Valid) (plain : path.Plain) :
    ∃ (folder : Path) (name : Units),folder.Valid ∧ folder.Plain ∧ folder.sep ∉ name ∧ path.text = folder.front ++ folder.sep::name ∧
      sepOf (folder.front ++ folder.sep::name) = folder.sep := by
  have sep := plain_sep plain
  rcases path_cases path with root | ⟨folder,name,rfl⟩
  · rw [text_root root] at sep
    exact ⟨path,[],valid,plain,by simp,text_root root,sep⟩
  · rw [text_child,child_sep] at sep
    exact ⟨folder,name,(child_valid.mp valid).1,child_plain plain,child_unsep valid plain,text_child folder name,sep⟩

theorem parent_child {folder : Path} (valid : (folder.child name).Valid) (plain : (folder.child name).Plain) :
    parentDirOf (folder.child name).text = folder.text := by
  have sep := plain_sep plain
  rw [text_child,child_sep] at sep
  rw [text_child]
  exact parent_front (child_valid.mp valid).1 (child_unsep valid plain) sep

theorem basename_child {folder : Path} (valid : (folder.child name).Valid) (plain : (folder.child name).Plain) : basenameOf (folder.child name).text = name := by
  obtain ⟨solid,unslashed,unbacked⟩ := child_free valid plain
  rw [text_child]
  apply basename_last
  · cases folder <;> rfl
  · intro u inside
    simp only [isSep,Bool.or_eq_false_iff,decide_eq_false_iff_not]
    exact ⟨fun same => unslashed (same ▸ inside),fun same => unbacked (same ▸ inside)⟩
  · exact solid

theorem sibling_parent {path : Path} (valid : path.Valid) (plain : path.Plain) (newName : Units) :
    renameDestination path.text newName = joinRemotePath (parentDirOf path.text) newName ∧
    (renameBody path.text newName).dst = joinRemotePath (parentDirOf path.text) newName := by
  obtain ⟨folder,name,held,clear,absent,text,sep⟩ := text_parts valid plain
  rw [text,parent_front held absent sep,join_child held clear,text_child]
  exact ⟨rename_front held absent sep newName,body_front absent sep newName⟩

theorem trimmed_front {folder : Path} (valid : folder.Valid) (plain : folder.Plain) : folder.text.rdropWhile isSep = folder.front := by
  rcases path_cases folder with root | ⟨upper,name,rfl⟩
  · rw [text_root root]
    cases folder with
    | posix parts => simp [show parts = [] from root,Path.front,Path.sep,isSep]
    | windows drive parts =>
        have parted : (Path.windows drive parts).front = [drive] ++ [colon] := by simp [show parts = [] from root,Path.front]
        have unended : ([drive] ++ [colon]).rdropWhile isSep = [drive] ++ [colon] := List.rdropWhile_concat_neg isSep [drive] colon (by decide)
        rw [parted,List.rdropWhile_concat_pos isSep _ _ (by rfl),unended]
  · obtain ⟨solid,unslashed,unbacked⟩ := child_free valid plain
    have deep : (upper.child name).parts ≠ [] := by simp
    obtain ⟨front,u,rfl⟩ := List.eq_nil_or_concat' name |>.resolve_left solid
    have other : ¬isSep u = true := by
      simp only [isSep,Bool.or_eq_true,decide_eq_true_eq,not_or]
      exact ⟨fun same => unslashed (by simp [same]),fun same => unbacked (by simp [same])⟩
    rw [← text_deep deep,text_child,← List.cons_append,← List.append_assoc]
    exact List.rdropWhile_concat_neg isSep _ u other

theorem slash_other : slash ≠ backslash := by decide

theorem letter_other (letter : isLetter drive = true) : drive ≠ slash ∧ drive ≠ backslash := by
  constructor
  all_goals
    rintro rfl
    exact absurd letter (by decide)

theorem windows_unslashed (valid : (Path.windows drive parts).Valid) : slash ∉ (Path.windows drive parts).text := by
  intro inside
  simp only [Path.text,List.mem_cons,(letter_other valid.2).1.symm,false_or] at inside
  rcases inside with mark | inside
  · exact absurd mark (by decide)
  · split at inside
    · exact slash_other (List.mem_singleton.mp inside)
    · rcases lined_mem.mp inside with ⟨_,same⟩ | ⟨name,member,within⟩
      · exact slash_other same
      · exact (valid.1 name member).2.1 within

theorem desktop_sep {folder : Path} (valid : folder.Valid) (plain : folder.Plain) :
    (if backslash ∈ folder.text ∧ slash ∉ folder.text then backslash else slash) = folder.sep := by
  have sep := plain_sep plain
  cases folder with
  | posix parts =>
      apply if_neg
      intro both
      rw [sepOf,if_pos both.1] at sep
      exact slash_other sep.symm
  | windows drive parts =>
      apply if_pos
      constructor
      · by_contra absent
        rw [sepOf,if_neg absent] at sep
        exact slash_other sep
      · exact windows_unslashed valid

theorem join_desktop {folder : Path} (valid : folder.Valid) (plain : folder.Plain) (name : Units) :
    joinRemote folder.text name = joinRemotePath folder.text name := by
  simp only [joinRemote,desktop_sep valid plain,trimmed_front valid plain,join_child valid plain,text_child]

def stackOf (path : Path) : List Units := path.top.text::climb path.sep path.top.front path.parts

theorem stack_child (folder : Path) (name : Units) : stackOf (folder.child name) = stackOf folder ++ [(folder.child name).text] := by
  have text : folder.top.front ++ lined folder.sep (folder.parts ++ [name]) = (folder.child name).text := by
    cases folder <;> simp [Path.top,Path.front,Path.sep,Path.parts,Path.child,Path.text]
  simp only [stackOf,child_top,child_sep,child_parts,climb_snoc,text,List.cons_append]

theorem stack_root (root : path.parts = []) : stackOf path = [path.text] := by
  have same : path.top = path := by
    cases path <;> simp_all [Path.top,Path.parts]
  simp [stackOf,root,climb,same]

theorem stack_last (path : Path) : (stackOf path).getLast? = some path.text := by
  rcases path_cases path with root | ⟨folder,name,rfl⟩
  · simp [stack_root root]
  · simp [stack_child]

theorem filled_posix (valid : (Path.posix parts).Valid) : filled slash (Path.posix parts).text = parts := by
  by_cases root : parts = []
  · subst root
    rfl
  · rw [text_deep (by simpa [Path.parts] using root)]
    exact filled_lined parts fun part member => ⟨(valid.1 part member).1,(valid.1 part member).2.1⟩

theorem build_posix (valid : (Path.posix parts).Valid) : buildPathStack (Path.posix parts).text = stackOf (.posix parts) := by
  have undriven : startsDrive (Path.posix parts).text = false := by
    cases parts with
    | nil => rfl
    | cons name rest =>
        simp only [Path.text,reduceCtorEq,if_false,lined_cons]
        cases name ++ lined slash rest <;> simp [startsDrive,isLetter,slash]
  rw [buildPathStack,undriven,filled_posix valid]
  rfl

theorem filled_windows (valid : (Path.windows drive parts).Valid) : filled backslash (turned (Path.windows drive parts).text) = [drive,colon]::parts := by
  have kept : ∀ u ∈ (Path.windows drive parts).text,(if u = slash then backslash else u) = id u := by
    intro u inside
    have other : u ≠ slash := fun same => windows_unslashed valid (same ▸ inside)
    exact if_neg other
  have whole : filled backslash (lined backslash ([drive,colon]::parts)) = [drive,colon]::parts := by
    apply filled_lined
    intro part member
    rcases List.mem_cons.mp member with rfl | member
    · have other : backslash ≠ colon := by decide
      simp [(letter_other valid.2).2.symm,other]
    · exact ⟨(valid.1 part member).1,(valid.1 part member).2.2⟩
  rw [turned,List.map_congr_left kept,List.map_id]
  by_cases root : parts = []
  · subst root
    exact (filled_end backslash [drive,colon]).trans whole
  · rw [text_deep (by simpa [Path.parts] using root)]
    exact whole

theorem build_windows (valid : (Path.windows drive parts).Valid) : buildPathStack (Path.windows drive parts).text = stackOf (.windows drive parts) := by
  have driven : startsDrive (Path.windows drive parts).text = true := by
    simpa [Path.text,startsDrive] using valid.2
  rw [buildPathStack,driven,filled_windows valid]
  rfl

theorem build_stack (valid : path.Valid) : buildPathStack path.text = stackOf path := by
  cases path with
  | posix parts => exact build_posix valid
  | windows drive parts => exact build_windows valid

theorem stack_chain (valid : path.Valid) (plain : path.Plain) : (stackOf path).IsChain (fun upper lower => upper = parentDirOf lower) := by
  induction path using Path.grow with
  | root path root => simp [stack_root root]
  | child folder name ih =>
      rw [stack_child,List.isChain_append]
      refine ⟨ih (child_valid.mp valid).1 (child_plain plain),by simp,?_⟩
      intro upper last lower first
      rw [stack_last] at last
      cases last
      cases first
      exact (parent_child valid plain).symm

theorem plain_laws (valid : path.Valid) (plain : path.Plain) : Laws path where
  whole := by
    intro deep
    rcases path_cases path with root | ⟨folder,name,rfl⟩
    · exact absurd root deep
    · rw [parent_child valid plain,basename_child valid plain,join_child (child_valid.mp valid).1 (child_plain plain)]
  sibling name _ := (sibling_parent valid plain name).1
  top := by rw [build_stack valid,stack_last]
  stacked := by
    rw [build_stack valid]
    exact stack_chain valid plain
  web name _ := (sibling_parent valid plain name).2
  desktop name _ := join_desktop valid plain name

theorem last_split (inside : c ∈ text) : ∃ front back,text = front ++ c::back ∧ c ∉ back := by
  induction text with
  | nil => cases inside
  | cons u rest ih =>
      by_cases later : c ∈ rest
      · obtain ⟨front,back,rfl,absent⟩ := ih later
        exact ⟨u::front,back,rfl,absent⟩
      · rcases List.mem_cons.mp inside with rfl | again
        · exact ⟨[],rest,rfl,later⟩
        · exact absurd again later

theorem posix_start (parts : List Units) : (Path.posix parts).text.head? = some slash := by
  cases parts <;> simp [Path.text]

theorem parent_backslash (text : (Path.posix parts).text = front ++ backslash::back) (absent : backslash ∉ back) :
    parentDirOf (Path.posix parts).text = front := by
  have start := posix_start parts
  have sep : sepOf (Path.posix parts).text = backslash := if_pos (by simp [text])
  have solid : front ≠ [] := by
    rintro rfl
    rw [text] at start
    exact slash_other (Option.some.inj start).symm
  have undriven : isDrive front = false := by
    obtain ⟨u,rest,rfl⟩ := List.exists_cons_of_ne_nil solid
    rw [text] at start
    obtain rfl := Option.some.inj start
    rcases rest with _ | ⟨v,_ | ⟨w,more⟩⟩ <;> simp [isDrive,isLetter,slash]
  simp only [parentDirOf,sep]
  rw [text,beforeLast_front solid absent]
  simp [undriven]

theorem basename_free (path : Units) (inside : u ∈ basenameOf path) : isSep u = false := by
  rw [basenameOf,List.getLastD_eq_getLast?] at inside
  cases last : ((path.splitOnP isSep).filter (· ≠ [])).getLast? with
  | none =>
      rw [last] at inside
      cases inside
  | some part =>
      rw [last] at inside
      exact split_free (List.mem_of_mem_filter (List.mem_of_getLast? last)) u inside

theorem laws_plain (valid : path.Valid) (laws : Laws path) : path.Plain := by
  rcases path_cases path with root | ⟨folder,name,rfl⟩
  · cases path with
    | posix parts => simp [Path.Plain,show parts = [] from root]
    | windows drive parts => trivial
  · cases folder with
    | windows drive parts => trivial
    | posix parts =>
        intro part member inside
        have parent : (Path.posix parts).text = parentDirOf ((Path.posix parts).child name).text := by
          have stacked := laws.stacked
          rw [build_stack valid,stack_child,List.isChain_append] at stacked
          exact stacked.2.2 _ (stack_last _) _ rfl
        have whole := laws.whole (by simp)
        have within : backslash ∈ ((Path.posix parts).child name).text := by
          rw [text_deep (by simp)]
          exact lined_mem.mpr (.inr ⟨part,member,inside⟩)
        obtain ⟨front,back,text,absent⟩ := last_split within
        have guess : parentDirOf ((Path.posix parts).child name).text = front := parent_backslash text absent
        rw [guess] at parent whole
        subst parent
        by_cases root : parts = []
        · -- Below the root the name loses its backslash.
          subst root
          rw [text,joinRemotePath,posix_sep (by simp [Path.Plain]),if_pos (.inr rfl)] at whole
          have base : backslash ∈ basenameOf ((Path.posix []).text ++ backslash::back) := by
            rw [(List.cons.inj whole).2]
            exact List.mem_cons_self
          exact absurd (basename_free _ base) (by decide)
        · have below := text_child (.posix parts) name
          rw [← text_deep (show (Path.posix parts).parts ≠ [] from root),text] at below
          exact slash_other (List.cons.inj (List.append_cancel_left below)).1.symm

theorem laws_iff (valid : path.Valid) : Laws path ↔ path.Plain := ⟨laws_plain valid,plain_laws valid⟩

end RemoteFileExplorer.PathAlgebra
