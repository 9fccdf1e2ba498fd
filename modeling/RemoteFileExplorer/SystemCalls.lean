import RemoteFileExplorer.TreeEdits

namespace RemoteFileExplorer.SystemCalls
open FileTree Jail TreeEdits

variable {Data : Type}

-- Every link is followed, the last one as well.
def stat (disk : Disk Data) (links : Nat) (path : Path) : Option (Node Data) :=
  match walk disk.root links [] path with
  | .found place => nodeAt disk.root place
  | _ => none

def readFile (disk : Disk Data) (links : Nat) (path : Path) : Option Data :=
  match stat disk links path with
  | some (.file data) => some data
  | _ => none

-- The place of the directory entry that a path names; a link there is not followed.
def entryOf (disk : Disk Data) (links : Nat) (path : Path) : Option Path :=
  path.getLast?.bind fun last =>
    match walk disk.root links [] path.dropLast with
    | .found dir =>
      match nodeAt disk.root dir with
      | some (.dir _) => some (dir ++ [last])
      | _ => none
    | _ => none

-- A directory that is already there is as good as a new one.
def makeDir (disk : Disk Data) (links : Nat) (path : Path) : Option (Disk Data) :=
  (entryOf disk links path).bind fun place =>
    match nodeAt disk.root place with
    | none => some (edit (some (.dir [])) place disk)
    | some (.dir _) => some disk
    | some _ => none

def mkdirAllFrom (disk : Disk Data) (links : Nat) : List Name → Option (Disk Data)
  | [] => some disk
  | name::up =>
    match stat disk links (name::up).reverse with
    | some (.dir _) => some disk
    | some _ => none
    | none => (mkdirAllFrom disk links up).bind fun made => makeDir made links (name::up).reverse

def mkdirAll (disk : Disk Data) (links : Nat) (path : Path) : Option (Disk Data) := mkdirAllFrom disk links path.reverse

def writeFile (disk : Disk Data) (links : Nat) (path : Path) (data : Data) : Option (Disk Data) :=
  (landing disk.root links path).bind fun place =>
    match nodeAt disk.root place with
    | some (.dir _) => none
    | _ => some (edit (some (.file data)) place disk)

-- A directory goes only when it is empty. Nothing is reported.
def remove (disk : Disk Data) (links : Nat) (path : Path) : Disk Data :=
  match entryOf disk links path with
  | none => disk
  | some place =>
    match nodeAt disk.root place with
    | some (.dir (_::_)) => disk
    | _ => edit none place disk

section Entry
variable {disk : Disk Data} {links : Nat} {dir place : Path} {entries : Disk Data}

section
variable (walked : walk disk.root links [] dir = .found place) (stands : nodeAt disk.root place = some (.dir entries)) (name : Name)
include walked stands name

theorem entryOf_within : entryOf disk links (dir ++ [name]) = some (place ++ [name]) := by
  unfold entryOf
  simp only [List.getLast?_append,List.getLast?_singleton,Option.some_or,Option.bind_some,List.dropLast_concat]
  rw [walked]
  dsimp only
  rw [stands]

theorem lstat_within : lstat disk links (dir ++ [name]) = (nodeAt disk.root (place ++ [name])).elim (.error .notExist) .ok := by
  unfold lstat
  simp only [List.getLast?_append,List.getLast?_singleton,Option.some_or,List.dropLast_concat]
  rw [walked]
  dsimp only
  rw [stands]

end

theorem stat_within (walked : walk disk.root links [] dir = .found place) : stat disk links dir = nodeAt disk.root place := by
  unfold stat
  rw [walked]

section
variable (walked : walk disk.root links [] dir = .found place) (stands : nodeAt disk.root place = some (.dir entries))
include walked stands

theorem readFile_within (proper : Proper name) (stored : nodeAt disk.root (place ++ [name]) = some (.file data)) :
    readFile disk links (dir ++ [name]) = some data := by
  unfold readFile
  rw [stat_within ((walk_child walked stands proper).2 _ stored rfl),stored]

theorem writeFile_fresh (proper : Proper name) (free : nodeAt disk.root (place ++ [name]) = none) (data : Data) :
    writeFile disk links (dir ++ [name]) data = some (edit (some (.file data)) (place ++ [name]) disk) := by
  unfold writeFile landing
  rw [(walk_child walked stands proper).1 free,Option.bind_some,free]

theorem remove_file (name : Name) (stored : nodeAt disk.root (place ++ [name]) = some (.file data)) :
    remove disk links (dir ++ [name]) = edit none (place ++ [name]) disk := by
  unfold remove
  rw [entryOf_within walked stands]
  dsimp only
  rw [stored]

end

theorem mkdirAll_stands (stands : stat disk links path = some (.dir entries)) : mkdirAll disk links path = some disk := by
  unfold mkdirAll
  cases back : path.reverse with
  | nil => rfl
  | cons name up =>
    have whole : (name::up).reverse = path := by rw [← back,List.reverse_reverse]
    unfold mkdirAllFrom
    rw [whole,stands]

end Entry

theorem makeDir_grows (ran : makeDir disk links path = some made) : Grows disk made := by
  obtain ⟨place,_,ran⟩ := Option.bind_eq_some_iff.mp ran
  split at ran
  · rename_i free
    cases ran
    exact grows_edit free _
  · cases ran
    exact grows_refl disk
  · cases ran

theorem entryOf_parts (entered : entryOf disk links (dir ++ [name]) = some place) :
    ∃ real entries, walk disk.root links [] dir = .found real ∧ nodeAt disk.root real = some (.dir entries) ∧ place = real ++ [name] := by
  unfold entryOf at entered
  simp only [List.getLast?_append,List.getLast?_singleton,Option.some_or,Option.bind_some,List.dropLast_concat] at entered
  split at entered
  · rename_i real walked
    split at entered
    · rename_i entries stands
      cases entered
      exact ⟨real,entries,walked,stands,rfl⟩
    · cases entered
  · cases entered

theorem makeDir_stat (proper : Proper name) (ran : makeDir disk links (dir ++ [name]) = some made) :
    ∃ place entries, walk made.root links [] (dir ++ [name]) = .found place ∧ nodeAt made.root place = some (.dir entries) := by
  have grows := makeDir_grows ran
  obtain ⟨place,entered,ran⟩ := Option.bind_eq_some_iff.mp ran
  obtain ⟨real,entries,walked,stands,rfl⟩ := entryOf_parts entered
  have arrives := walk_grows grows walked
  obtain ⟨later,above⟩ := grows_dir grows stands
  split at ran
  · cases ran
    have stored := nodeAt_edit_at (some (.dir [])) stands name []
    rw [List.append_nil] at stored
    exact ⟨_,[],(walk_child arrives above proper).2 _ stored rfl,stored⟩
  · rename_i inner stored
    cases ran
    exact ⟨_,inner,(walk_child arrives above proper).2 _ stored rfl,stored⟩
  · cases ran

theorem mkdirAllFrom_grows (ran : mkdirAllFrom disk links rev = some made) : Grows disk made := by
  induction rev generalizing made with
  | nil =>
    cases ran
    exact grows_refl disk
  | cons name up ih =>
    unfold mkdirAllFrom at ran
    split at ran
    · cases ran
      exact grows_refl disk
    · cases ran
    · obtain ⟨middle,above,last⟩ := Option.bind_eq_some_iff.mp ran
      exact grows_trans (ih above) (makeDir_grows last)

theorem mkdirAll_grows (ran : mkdirAll disk links path = some made) : Grows disk made := mkdirAllFrom_grows ran

theorem mkdirAll_found (proper : Proper name) (ran : mkdirAll disk links (dir ++ [name]) = some made) :
    ∃ place entries, walk made.root links [] (dir ++ [name]) = .found place ∧ nodeAt made.root place = some (.dir entries) := by
  unfold mkdirAll at ran
  rw [List.reverse_append,List.reverse_singleton,List.singleton_append] at ran
  unfold mkdirAllFrom at ran
  rw [List.reverse_cons,List.reverse_reverse] at ran
  split at ran
  · rename_i entries stands
    cases ran
    unfold stat at stands
    split at stands
    · rename_i place walked
      exact ⟨place,entries,walked,stands⟩
    · cases stands
  · cases ran
  · obtain ⟨middle,_,last⟩ := Option.bind_eq_some_iff.mp ran
    exact makeDir_stat proper last

structure Opened (old new : Disk Data) (path : Path) : Prop where
  stands : ∃ entries, nodeAt new.root path = some (.dir entries)
  grows : Grows old new
  elsewhere : ∀ other, ¬ other <+: path → nodeAt new.root other = nodeAt old.root other

theorem opened_child (opened : Opened old new dir) (free : nodeAt old.root (dir ++ [name]) = none) :
    Opened old (edit (some (.dir [])) (dir ++ [name]) new) (dir ++ [name]) := by
  obtain ⟨⟨entries,stands⟩,grows,elsewhere⟩ := opened
  have missing : nodeAt new.root (dir ++ [name]) = none := by
    rw [elsewhere _ fun before => absurd before.length_le (by simp)]
    exact free
  refine ⟨⟨[],?_⟩,grows_trans grows (grows_edit missing _),?_⟩
  · have placed := nodeAt_edit_at (some (.dir [])) stands name []
    rwa [List.append_nil] at placed
  · intro other outside
    rcases place_cases (dir ++ [name]) other with ⟨rest,_,split⟩ | ⟨more,rfl⟩ | ⟨below,above⟩
    · exact absurd ⟨rest,split.symm⟩ outside
    · cases more with
      | nil => exact absurd (by simp) outside
      | cons step more =>
        rw [nodeAt_edit_at (some (.dir [])) stands name (step::more),nodeAt_below old.root free]
        rfl
    · rw [nodeAt_edit_apart _ below above]
      exact elsewhere other fun before => above (before.trans (List.prefix_append _ _))

theorem mkdirAll_roomy (links : Nat) (ordinary : Ordinary path) (roomy : Roomy disk path)
    (room : ∀ node, nodeAt disk.root path = some node → node.isDir = true) :
    ∃ made, mkdirAll disk links path = some made ∧ Opened disk made path := by
  have all : ∀ rev, rev.reverse <+: path → ∃ made, mkdirAllFrom disk links rev = some made ∧ Opened disk made rev.reverse := by
    intro rev
    induction rev with
    | nil => exact fun _ => ⟨disk,rfl,⟨disk,rfl⟩,grows_refl disk,fun _ _ => rfl⟩
    | cons name up ih =>
      intro before
      rw [List.reverse_cons] at before
      have shorter : up.reverse <+: path := (List.prefix_append _ _).trans before
      have proper : Ordinary (up.reverse ++ [name]) := fun part member => ordinary part (before.subset member)
      have wide := roomy_front roomy before
      have directory : ∀ node, nodeAt disk.root (up.reverse ++ [name]) = some node → node.isDir = true := by
        intro node stored
        by_cases whole : up.reverse ++ [name] = path
        · exact room node (whole ▸ stored)
        · exact roomy _ before whole node stored
      unfold mkdirAllFrom
      rw [List.reverse_cons]
      obtain ⟨arrives,misses⟩ := walk_roomy links proper wide
      cases stored : nodeAt disk.root (up.reverse ++ [name]) with
      | some node =>
        have dir := directory node stored
        cases node with
        | file data | link target => cases dir
        | dir entries =>
          rw [stat_within (arrives _ stored rfl),stored]
          exact ⟨disk,rfl,⟨entries,stored⟩,grows_refl disk,fun _ _ => rfl⟩
      | none =>
        obtain ⟨gone,rest,missing⟩ := misses stored
        have absent : stat disk links (up.reverse ++ [name]) = none := by
          unfold stat
          rw [missing]
        obtain ⟨made,ran,opened⟩ := ih shorter
        obtain ⟨entries,stands⟩ := opened.stands
        have above : Ordinary up.reverse := fun part member => ordinary part (shorter.subset member)
        have arrived := (walk_roomy links above (stored_roomy stands)).1 _ stands rfl
        have free : nodeAt made.root (up.reverse ++ [name]) = none := by
          rw [opened.elsewhere _ fun longer => absurd longer.length_le (by simp)]
          exact stored
        rw [absent]
        rw [ran,Option.bind_some]
        unfold makeDir
        rw [entryOf_within arrived stands,Option.bind_some,free]
        exact ⟨_,rfl,opened_child opened stored⟩
  have made := all path.reverse (by simp)
  rwa [List.reverse_reverse] at made

end RemoteFileExplorer.SystemCalls
