import RemoteFileExplorer.CodeUnits

namespace RemoteFileExplorer.RemotePaths
open CodeUnits

def slash : UInt16 := 0x2f
def backslash : UInt16 := 0x5c
def colon : UInt16 := 0x3a
def dot : UInt16 := 0x2e

def isSep (u : UInt16) : Bool := u = slash || u = backslash

def isLetter (u : UInt16) : Bool := (0x41 ≤ u && u ≤ 0x5a) || (0x61 ≤ u && u ≤ 0x7a)

-- The separator a path is taken to use.
def sepOf (path : Units) : UInt16 := if backslash ∈ path then backslash else slash

def lastIndexOf (c : UInt16) : Units → Option Nat
  | [] => none
  | u::rest =>
    match lastIndexOf c rest with
    | some i => some (i + 1)
    | none => if u = c then some 0 else none

def beforeLast (sep : UInt16) (path : Units) : Option Units :=
  match lastIndexOf sep path with
  | some (i + 1) => some (path.take (i + 1))
  | _ => none

def basenameOf (path : Units) : Units := ((path.splitOnP isSep).filter (· ≠ [])).getLastD []

def renameDestination (oldPath newName : Units) : Units :=
  let sep := sepOf oldPath
  let parent := (beforeLast sep oldPath).getD [sep]
  if parent = [sep] then sep::newName else parent ++ sep::newName

def isDrive (text : Units) : Bool :=
  match text with
  | [letter,mark] => isLetter letter && mark = colon
  | _ => false

def parentDirOf (path : Units) : Units :=
  let sep := sepOf path
  match beforeLast sep path with
  | none => [sep]
  | some parent => if isDrive parent then parent ++ [sep] else parent

def joinRemotePath (dir name : Units) : Units :=
  let sep := sepOf dir
  if dir = [] ∨ dir = [sep] then sep::name else
  if dir.getLast? = some sep then dir ++ name else dir ++ sep::name

-- What an agent means by a path: the names from the root down, or from the
-- root of a drive.
inductive Path where
  | posix (parts : List Units)
  | windows (drive : UInt16) (parts : List Units)
  deriving DecidableEq,Repr

def lined (sep : UInt16) (parts : List Units) : Units := parts.flatMap (sep::·)

def Path.text : Path → Units
  | .posix parts => if parts = [] then [slash] else lined slash parts
  | .windows drive parts => drive::colon::(if parts = [] then [backslash] else lined backslash parts)

def Path.child : Path → Units → Path
  | .posix parts,name => .posix (parts ++ [name])
  | .windows drive parts,name => .windows drive (parts ++ [name])

def Path.sep : Path → UInt16
  | .posix _ => slash
  | .windows _ _ => backslash

def Path.front : Path → Units
  | .posix parts => lined slash parts
  | .windows drive parts => drive::colon::lined backslash parts

def Path.names : Path → List Units
  | .posix parts => parts
  | .windows drive parts => [drive,colon]::parts

def Path.parent : Path → Path
  | .posix parts => .posix parts.dropLast
  | .windows drive parts => .windows drive parts.dropLast

def Path.top : Path → Path
  | .posix _ => .posix []
  | .windows drive _ => .windows drive []

def Path.Holds : Path → Units → Prop
  | .posix _,name => name ≠ [] ∧ slash ∉ name ∧ 0 ∉ name
  | .windows _ _,name => name ≠ [] ∧ slash ∉ name ∧ backslash ∉ name

instance (path : Path) (name : Units) : Decidable (path.Holds name) :=
  match path with
  | .posix _ => inferInstanceAs (Decidable (name ≠ [] ∧ slash ∉ name ∧ 0 ∉ name))
  | .windows _ _ => inferInstanceAs (Decidable (name ≠ [] ∧ slash ∉ name ∧ backslash ∉ name))

def Path.parts : Path → List Units
  | .posix parts => parts
  | .windows _ parts => parts

def Path.Valid (path : Path) : Prop :=
  (∀ name ∈ path.parts,path.Holds name) ∧
    match path with
    | .posix _ => True
    | .windows drive _ => isLetter drive = true

-- The names of a POSIX path may hold the separator of the other system.
def Path.Plain : Path → Prop
  | .posix parts => ∀ name ∈ parts,backslash ∉ name
  | .windows _ _ => True

instance (path : Path) : Decidable path.Plain :=
  match path with
  | .posix parts => inferInstanceAs (Decidable (∀ name ∈ parts,backslash ∉ name))
  | .windows _ _ => .isTrue trivial

@[simp] theorem lined_nil (sep : UInt16) : lined sep [] = [] := rfl

@[simp] theorem lined_cons (sep : UInt16) (name : Units) (parts : List Units) : lined sep (name::parts) = sep::(name ++ lined sep parts) := rfl

@[simp] theorem lined_append (sep : UInt16) (parts more : List Units) : lined sep (parts ++ more) = lined sep parts ++ lined sep more := by
  simp [lined]

theorem lined_mem : u ∈ lined sep parts ↔ parts ≠ [] ∧ u = sep ∨ ∃ name ∈ parts,u ∈ name := by
  induction parts with
  | nil => simp
  | cons name parts ih =>
      simp only [lined_cons,List.mem_cons,List.mem_append,ih,ne_eq,reduceCtorEq,not_false_eq_true,true_and,exists_eq_or_imp]
      tauto

theorem lined_last (parts : List Units) (solid : name ≠ []) : (lined sep (parts ++ [name])).getLast? = name.getLast? := by
  rw [lined_append,lined_cons,lined_nil,List.append_nil,List.getLast?_append_of_ne_nil _ (by simp)]
  cases name with
  | nil => exact absurd rfl solid
  | cons u rest => rfl

theorem last_other {u : UInt16} {text : Units} (outside : u ∉ text) : text.getLast? ≠ some u :=
  fun last => outside (List.mem_of_getLast? last)

theorem child_text_posix (some : parts ≠ []) (name : Units) : ((Path.posix parts).child name).text = (Path.posix parts).text ++ slash::name := by
  simp [Path.child,Path.text,some]

theorem child_text_windows (some : parts ≠ []) (name : Units) :
    ((Path.windows drive parts).child name).text = (Path.windows drive parts).text ++ backslash::name := by
  simp [Path.child,Path.text,some]

theorem join_below (sep : sepOf dir = s) (solid : dir ≠ []) (deep : dir ≠ [s]) (unended : dir.getLast? ≠ some s) (name : Units) :
    joinRemotePath dir name = dir ++ s::name := by
  simp [joinRemotePath,sep,solid,deep,unended]

theorem posix_sep (plain : (Path.posix parts).Plain) : sepOf (Path.posix parts).text = slash := by
  apply if_neg
  simp only [Path.text]
  split
  · simp [slash,backslash]
  · rw [lined_mem]
    rintro (⟨_,same⟩ | ⟨name,member,inside⟩)
    · exact absurd same (by decide)
    · exact plain name member inside

theorem windows_sep (drive : UInt16) (parts : List Units) : sepOf (Path.windows drive parts).text = backslash := by
  apply if_pos
  simp only [Path.text]
  split
  · simp
  next some => simp [lined_mem,some]

theorem join_posix (valid : (Path.posix parts).Valid) (plain : (Path.posix parts).Plain) (name : Units) :
    joinRemotePath (Path.posix parts).text name = ((Path.posix parts).child name).text := by
  have sep := posix_sep plain
  rcases List.eq_nil_or_concat' parts with rfl | ⟨init,last,rfl⟩
  · simp only [joinRemotePath,sep]
    simp [Path.text,Path.child]
  · have solid := valid.1 last (by simp [Path.parts])
    rw [child_text_posix (by simp)]
    have text : (Path.posix (init ++ [last])).text = lined slash (init ++ [last]) := by simp [Path.text]
    rw [text] at sep ⊢
    apply join_below sep
    · simp
    · intro same
      have length := congrArg List.length same
      have long := List.length_pos_iff.mpr solid.1
      simp at length
      omega
    · rw [lined_last init solid.1]
      exact last_other solid.2.1

theorem join_windows (valid : (Path.windows drive parts).Valid) (name : Units) :
    joinRemotePath (Path.windows drive parts).text name = ((Path.windows drive parts).child name).text := by
  have sep := windows_sep drive parts
  rcases List.eq_nil_or_concat' parts with rfl | ⟨init,last,rfl⟩
  · simp only [joinRemotePath,sep]
    simp [Path.text,Path.child]
  · have solid := valid.1 last (by simp [Path.parts])
    rw [child_text_windows (by simp)]
    have text : (Path.windows drive (init ++ [last])).text = drive::colon::lined backslash (init ++ [last]) := by simp [Path.text]
    rw [text] at sep ⊢
    apply join_below sep
    · simp
    · simp
    · have lasts : (drive::colon::lined backslash (init ++ [last])).getLast? = (lined backslash (init ++ [last])).getLast? :=
        List.getLast?_append_of_ne_nil [drive,colon] (by simp)
      rw [lasts,lined_last init solid.1]
      exact last_other solid.2.2

theorem join_child {folder : Path} (valid : folder.Valid) (plain : folder.Plain) (name : Units) :
    joinRemotePath folder.text name = (folder.child name).text := by
  cases folder with
  | posix parts => exact join_posix valid plain name
  | windows drive parts => exact join_windows valid name

theorem join_plain (folder : Path) (joined : joinRemotePath folder.text name = (folder.child name).text) : folder.Plain := by
  cases folder with
  | windows drive parts => trivial
  | posix parts =>
      intro part member inside
      have some : parts ≠ [] := List.ne_nil_of_mem member
      have text : (Path.posix parts).text = lined slash parts := by simp [Path.text,some]
      have sep : sepOf (lined slash parts) = backslash := if_pos (lined_mem.mpr (.inr ⟨part,member,inside⟩))
      have head : (lined slash parts).head? = .some slash := by
        cases parts with
        | nil => exact absurd rfl some
        | cons name rest => rfl
      rw [child_text_posix some,text,joinRemotePath] at joined
      simp only [sep] at joined
      split at joined
      next short =>
        rcases short with none | single
        · rw [none] at head
          cases head
        · rw [single] at head
          exact absurd head (by decide)
      next =>
        split at joined
        · have long := congrArg List.length joined
          simp at long
        · have rest := List.append_cancel_left joined
          exact absurd (List.cons.inj rest).1 (by decide)

theorem text_root {path : Path} (root : path.parts = []) : path.text = path.front ++ [path.sep] := by
  cases path <;> simp_all [Path.parts,Path.text,Path.front,Path.sep]

theorem text_deep {path : Path} (deep : path.parts ≠ []) : path.text = path.front := by
  cases path <;> simp_all [Path.parts,Path.text,Path.front]

theorem text_child (folder : Path) (name : Units) : (folder.child name).text = folder.front ++ folder.sep::name := by
  cases folder <;> simp [Path.child,Path.text,Path.front,Path.sep]

theorem Path.grow {motive : Path → Prop} (root : ∀ path : Path,path.parts = [] → motive path)
    (child : ∀ (folder : Path) (name : Units),motive folder → motive (folder.child name)) (path : Path) : motive path := by
  cases path with
  | posix parts =>
      induction parts using List.reverseRecOn with
      | nil => exact root _ rfl
      | append_singleton init last ih => exact child (.posix init) last ih
  | windows drive parts =>
      induction parts using List.reverseRecOn with
      | nil => exact root _ rfl
      | append_singleton init last ih => exact child (.windows drive init) last ih

theorem path_cases (path : Path) : path.parts = [] ∨ ∃ folder name,path = Path.child folder name := by
  induction path using Path.grow with
  | root path root => exact .inl root
  | child folder name ih => exact .inr ⟨folder,name,rfl⟩

@[simp] theorem child_parts (folder : Path) (name : Units) : (folder.child name).parts = folder.parts ++ [name] := by
  cases folder <;> rfl

@[simp] theorem child_names (folder : Path) (name : Units) : (folder.child name).names = folder.names ++ [name] := by
  cases folder <;> rfl

@[simp] theorem child_parent (folder : Path) (name : Units) : (folder.child name).parent = folder := by
  cases folder <;> simp [Path.child,Path.parent]

@[simp] theorem child_holds (folder : Path) (name other : Units) : (folder.child name).Holds other ↔ folder.Holds other := by
  cases folder <;> rfl

@[simp] theorem child_top (folder : Path) (name : Units) : (folder.child name).top = folder.top := by
  cases folder <;> rfl

@[simp] theorem child_sep (folder : Path) (name : Units) : (folder.child name).sep = folder.sep := by
  cases folder <;> rfl

theorem child_valid {folder : Path} : (folder.child name).Valid ↔ folder.Valid ∧ folder.Holds name := by
  cases folder <;> simp [Path.Valid,Path.child,Path.parts,Path.Holds,or_imp,forall_and] <;> tauto

theorem child_plain {folder : Path} (plain : (folder.child name).Plain) : folder.Plain := by
  cases folder with
  | posix parts => exact fun part member => plain part (List.mem_append_left _ member)
  | windows drive parts => trivial

theorem child_free {folder : Path} (valid : (folder.child name).Valid) (plain : (folder.child name).Plain) :
    name ≠ [] ∧ slash ∉ name ∧ backslash ∉ name := by
  have held := (child_valid.mp valid).2
  cases folder with
  | posix parts => exact ⟨held.1,held.2.1,plain name (List.mem_append_right _ List.mem_cons_self)⟩
  | windows drive parts => exact held

theorem plain_sep {path : Path} (plain : path.Plain) : sepOf path.text = path.sep := by
  cases path with
  | posix parts => exact posix_sep plain
  | windows drive parts => exact windows_sep drive parts

end RemoteFileExplorer.RemotePaths
