import RemoteFileExplorer.Jail

namespace RemoteFileExplorer.TreeEdits
open FileTree Jail

variable {Data : Type}

-- A directory in which one name stands for the given node, or for nothing.
def enter (entries : Disk Data) (name : Name) (new : Option (Node Data)) : Disk Data :=
  (new.map (name,·)).toList ++ entries.filter fun e => e.1 != name

def edit (new : Option (Node Data)) : Path → Disk Data → Disk Data
  | [],disk => disk
  | name::rest,disk =>
    if rest = [] then enter disk name new else
    match disk.root.child name with
    | some (.dir entries) => enter disk name (some (.dir (edit new rest entries)))
    | _ => disk

def inside (new : Option (Node Data)) (rest : Path) : Node Data → Node Data
  | .dir entries => .dir (edit new rest entries)
  | node => node

theorem child_enter_same (disk : Disk Data) (name : Name) (new : Option (Node Data)) : (enter disk name new).root.child name = new := by
  have removed : (disk.filter fun e => e.1 != name).find? (fun e => e.1 == name) = none := by
    rw [List.find?_eq_none]
    intro entry member
    simpa using (List.mem_filter.mp member).2
  unfold Disk.root Node.child enter
  cases new with
  | none => simp [removed]
  | some node => simp

theorem child_enter_other (differs : other ≠ name) (new : Option (Node Data)) :
    (enter disk name new).root.child other = disk.root.child other := by
  have kept : (disk.filter fun e => e.1 != name).find? (fun e => e.1 == other) = disk.find? (fun e => e.1 == other) := by
    rw [List.find?_filter]
    congr 1
    funext entry
    by_cases same : entry.1 = other
    · simp [same,differs]
    · simp [same]
  unfold Disk.root Node.child enter
  cases new with
  | none => simp [kept]
  | some node => simp [kept,differs.symm]

theorem nodeAt_leaf (plain : leaf.isDir = false) (step : Name) (rest : Path) : nodeAt leaf (step::rest) = none := by
  cases leaf with
  | dir entries => cases plain
  | file data => rfl
  | link target => rfl

theorem inside_leaf (plain : leaf.isDir = false) (new : Option (Node Data)) (rest : Path) : inside new rest leaf = leaf := by
  cases leaf with
  | dir entries => cases plain
  | file data => rfl
  | link target => rfl

theorem nodeAt_edit_above (new : Option (Node Data)) (disk : Disk Data) (front : Path) (strict : rest ≠ []) :
    nodeAt (edit new (front ++ rest) disk).root front = (nodeAt disk.root front).map (inside new rest) := by
  induction front generalizing disk with
  | nil => rfl
  | cons name front ih =>
    have more : front ++ rest ≠ [] := fun empty => strict (List.append_eq_nil_iff.mp empty).2
    rw [List.cons_append]
    unfold edit
    rw [if_neg more]
    have leaf : ∀ node, disk.root.child name = some node → node.isDir = false →
        nodeAt disk.root (name::front) = (nodeAt disk.root (name::front)).map (inside new rest) := by
      intro node child plain
      unfold nodeAt
      rw [child,Option.bind_some]
      cases front with
      | nil => simp [nodeAt,inside_leaf plain]
      | cons step front => simp [nodeAt_leaf plain]
    cases child : disk.root.child name with
    | none =>
      unfold nodeAt
      simp [child]
    | some node =>
      cases node with
      | file data | link target => exact leaf _ child rfl
      | dir entries =>
        unfold nodeAt
        rw [child_enter_same,child,Option.bind_some,Option.bind_some]
        exact ih entries

theorem nodeAt_edit_apart (new : Option (Node Data)) (below : ¬ path <+: other)
    (above : ¬ other <+: path) : nodeAt (edit new path disk).root other = nodeAt disk.root other := by
  induction path generalizing disk other with
  | nil => exact absurd List.nil_prefix below
  | cons name rest ih =>
    cases other with
    | nil => exact absurd List.nil_prefix above
    | cons step others =>
      by_cases same : step = name
      · subst same
        have more : rest ≠ [] := by
          rintro rfl
          exact below ⟨others,rfl⟩
        unfold edit
        rw [if_neg more]
        split
        · rename_i entries child
          unfold nodeAt
          rw [child_enter_same,child,Option.bind_some,Option.bind_some]
          refine ih ?_ ?_
          · exact fun inner => below (List.cons_prefix_cons.mpr ⟨rfl,inner⟩)
          · exact fun inner => above (List.cons_prefix_cons.mpr ⟨rfl,inner⟩)
        · rfl
      · unfold edit
        split
        · unfold nodeAt
          rw [child_enter_other same]
        · split
          · unfold nodeAt
            rw [child_enter_other same]
          · rfl

theorem nodeAt_snoc (tree : Node Data) (front : Path) (name : Name) : nodeAt tree (front ++ [name]) = (nodeAt tree front).bind (·.child name) := by
  rw [nodeAt_append]
  congr 1
  funext node
  unfold nodeAt
  cases node.child name with
  | none => rfl
  | some child => rfl

theorem nodeAt_edit_at (new : Option (Node Data)) (stands : nodeAt disk.root front = some (.dir entries))
    (name : Name) (more : Path) : nodeAt (edit new (front ++ [name]) disk).root (front ++ [name] ++ more) = new.bind (nodeAt · more) := by
  have placed : nodeAt (edit new (front ++ [name]) disk).root (front ++ [name]) = new := by
    rw [nodeAt_snoc,nodeAt_edit_above new disk front (List.cons_ne_nil name []),stands]
    exact child_enter_same entries name new
  rw [nodeAt_append,placed]

theorem nodeAt_cut (disk : Disk Data) (proper : path ≠ []) (more : Path) :
    nodeAt (edit none path disk).root (path ++ more) = none := by
  obtain ⟨front,name,rfl⟩ := (List.eq_nil_or_concat' path).resolve_left proper
  apply nodeAt_below
  rw [nodeAt_snoc,nodeAt_edit_above none disk front (List.cons_ne_nil name [])]
  cases stands : nodeAt disk.root front with
  | none => rfl
  | some node =>
    cases node with
    | file data => rfl
    | link target => rfl
    | dir entries => exact child_enter_same entries name none

inductive Kind where
  | file
  | dir
  | link (target : Written)
  deriving DecidableEq, Repr

def kind : Node Data → Kind
  | .file _ => .file
  | .dir _ => .dir
  | .link target => .link target

theorem inside_kind (new : Option (Node Data)) (rest : Path) (node : Node Data) : kind (inside new rest node) = kind node := by
  cases node <;> rfl

-- Whatever stood before still stands, as what it was.
def Grows (old new : Disk Data) : Prop := ∀ path node, nodeAt old.root path = some node → (nodeAt new.root path).map kind = some (kind node)

theorem grows_refl (disk : Disk Data) : Grows disk disk := by
  intro path node stored
  rw [stored]
  rfl

theorem grows_trans (one : Grows first second) (two : Grows second third) : Grows first third := by
  intro path node stored
  have next := one path node stored
  obtain ⟨middle,found,same⟩ := Option.map_eq_some_iff.mp next
  rw [← same]
  exact two path middle found

-- A path is at one with another, above it or below it, or apart from it.
theorem place_cases (path other : Path) :
    (∃ rest, rest ≠ [] ∧ path = other ++ rest) ∨ path <+: other ∨ (¬ path <+: other ∧ ¬ other <+: path) := by
  by_cases below : path <+: other
  · exact .inr (.inl below)
  · by_cases above : other <+: path
    · obtain ⟨rest,rfl⟩ := above
      refine .inl ⟨rest,?_,rfl⟩
      rintro rfl
      exact below (by simp)
    · exact .inr (.inr ⟨below,above⟩)

theorem grows_edit (free : nodeAt disk.root path = none) (new : Option (Node Data)) :
    Grows disk (edit new path disk) := by
  intro other node stored
  rcases place_cases path other with ⟨rest,strict,rfl⟩ | ⟨more,rfl⟩ | ⟨below,above⟩
  · rw [nodeAt_edit_above new disk other strict,stored,Option.map_some,Option.map_some,inside_kind]
  · rw [nodeAt_below disk.root free more] at stored
    cases stored
  · rw [nodeAt_edit_apart new below above,stored]
    rfl

theorem grows_dir (grows : Grows old new) (stands : nodeAt old.root path = some (.dir entries)) :
    ∃ later, nodeAt new.root path = some (.dir later) := by
  obtain ⟨node,stored,alike⟩ := Option.map_eq_some_iff.mp (grows path _ stands)
  cases node with
  | dir later => exact ⟨later,stored⟩
  | file data | link target => cases alike

theorem cut_kept (outside : ¬ place <+: path) (new : Option (Node Data)) :
    (nodeAt (edit new place disk).root path).map kind = (nodeAt disk.root path).map kind := by
  rcases place_cases place path with ⟨rest,strict,rfl⟩ | below | ⟨below,above⟩
  · rw [nodeAt_edit_above new disk path strict,Option.map_map]
    congr 1
    funext node
    exact inside_kind new rest node
  · exact absurd below outside
  · rw [nodeAt_edit_apart new below above]

theorem cut_stood (proper : place ≠ []) (stored : nodeAt (edit none place disk).root path = some node) :
    ¬ place <+: path ∧ (nodeAt disk.root path).map kind = some (kind node) := by
  have outside : ¬ place <+: path := by
    rintro ⟨more,rfl⟩
    rw [nodeAt_cut disk proper more] at stored
    cases stored
  refine ⟨outside,?_⟩
  rw [← cut_kept outside none,stored]
  rfl

theorem grows_cut (proper : place ≠ []) (grows : Grows old new) :
    Grows (edit none place old) (edit none place new) := by
  intro path node stored
  obtain ⟨outside,stood⟩ := cut_stood proper stored
  obtain ⟨before,found,alike⟩ := Option.map_eq_some_iff.mp stood
  rw [cut_kept outside none,grows path before found,alike]

theorem grows_back (disk : Disk Data) (proper : place ≠ []) : Grows (edit none place disk) disk :=
  fun _ _ stored => (cut_stood proper stored).2

theorem dir_kept (outside : ¬ place <+: path) (new : Option (Node Data))
    (stands : nodeAt disk.root path = some (.dir entries)) : ∃ later, nodeAt (edit new place disk).root path = some (.dir later) := by
  have same : (nodeAt (edit new place disk).root path).map kind = (nodeAt disk.root path).map kind := cut_kept outside new
  rw [stands] at same
  obtain ⟨node,stored,alike⟩ := Option.map_eq_some_iff.mp same
  cases node with
  | dir later => exact ⟨later,stored⟩
  | file data | link target => cases alike

def Meets (left right both : Disk Data) : Prop :=
  ∀ path one other, nodeAt left.root path = some one → nodeAt right.root path = some other →
    kind one = kind other ∧ (nodeAt both.root path).map kind = some (kind one)

theorem grows_meets (grows : Grows old new) : Meets old old new := by
  intro path one other left right
  rw [left] at right
  cases right
  exact ⟨rfl,grows path one left⟩

-- A walk that arrives in two trees passes only what stands in both, so it
-- arrives in a tree that holds as much, at the same place.
theorem walkWith_meets (meets : Meets left right both)
    (follows : ∀ place parts, followLeft place parts = .found found → followRight place parts = .found found →
      followBoth place parts = .found found)
    (one : walkWith left.root followLeft place parts = .found found) (two : walkWith right.root followRight place parts = .found found) :
    walkWith both.root followBoth place parts = .found found := by
  induction parts generalizing place with
  | nil => exact one
  | cons part rest ih =>
    unfold walkWith at one two ⊢
    by_cases plain : part = "" ∨ part = "."
    · rw [if_pos plain] at one two ⊢
      exact ih one two
    · rw [if_neg plain] at one two ⊢
      by_cases up : part = ".."
      · rw [if_pos up] at one two ⊢
        exact ih one two
      · rw [if_neg up] at one two ⊢
        cases first : nodeAt left.root (place ++ [part]) with
        | none =>
          rw [first] at one
          cases one
        | some node =>
          cases second : nodeAt right.root (place ++ [part]) with
          | none =>
            rw [second] at two
            cases two
          | some other =>
            rw [first] at one
            rw [second] at two
            obtain ⟨same,stands⟩ := meets _ _ _ first second
            obtain ⟨third,stored,alike⟩ := Option.map_eq_some_iff.mp stands
            rw [stored]
            cases node with
            | file data =>
              cases third with
              | file _ => exact one
              | dir _ | link _ => cases alike
            | dir entries =>
              cases other with
              | file _ | link _ => cases same
              | dir _ =>
                cases third with
                | file _ | link _ => cases alike
                | dir _ => exact ih one two
            | link target =>
              cases other with
              | file _ | dir _ => cases same
              | link _ =>
                cases third with
                | file _ | dir _ => cases alike
                | link _ =>
                  cases same
                  cases alike
                  exact follows _ _ one two

theorem walk_meets (meets : Meets left right both) (one : walk left.root links place parts = .found found)
    (two : walk right.root links place parts = .found found) : walk both.root links place parts = .found found := by
  induction links generalizing place parts with
  | zero => exact walkWith_meets meets (fun _ _ impossible => by cases impossible) one two
  | succ links ih => exact walkWith_meets meets (fun _ _ => ih) one two

theorem walk_grows (grows : Grows old new) (walked : walk old.root links place parts = .found found) :
    walk new.root links place parts = .found found := walk_meets (grows_meets grows) walked walked

theorem walkWith_child {disk : Disk Data} (ends : Walked → Prop)
    (follows : ∀ place parts, follow place parts = .found dir → ends (follow place (parts ++ [name])))
    (stands : nodeAt disk.root dir = some (.dir entries)) (last : ends (walkWith disk.root follow dir [name]))
    (walked : walkWith disk.root follow place parts = .found dir) : ends (walkWith disk.root follow place (parts ++ [name])) := by
  induction parts generalizing place with
  | nil =>
    cases walked
    exact last
  | cons part rest ih =>
    rw [List.cons_append]
    unfold walkWith at walked ⊢
    by_cases plain : part = "" ∨ part = "."
    · rw [if_pos plain] at walked ⊢
      exact ih walked
    · rw [if_neg plain] at walked ⊢
      by_cases up : part = ".."
      · rw [if_pos up] at walked ⊢
        exact ih walked
      · rw [if_neg up] at walked ⊢
        cases stored : nodeAt disk.root (place ++ [part]) with
        | none =>
          rw [stored] at walked
          cases walked
        | some node =>
          rw [stored] at walked
          cases node with
          | dir _ => exact ih walked
          | link target =>
            dsimp only at walked ⊢
            rw [← List.append_assoc]
            exact follows _ _ walked
          | file data =>
            dsimp only at walked
            split at walked
            · cases walked
              rw [stored] at stands
              cases stands
            · cases walked

theorem walk_child {disk : Disk Data} (walked : walk disk.root links place parts = .found dir)
    (stands : nodeAt disk.root dir = some (.dir entries)) (proper : Proper name) :
    (nodeAt disk.root (dir ++ [name]) = none → walk disk.root links place (parts ++ [name]) = .missing (dir ++ [name]) []) ∧
    (∀ node, nodeAt disk.root (dir ++ [name]) = some node → node.isLink = false →
      walk disk.root links place (parts ++ [name]) = .found (dir ++ [name])) := by
  obtain ⟨nonempty,dot,up⟩ := proper
  have gone : ∀ follow, nodeAt disk.root (dir ++ [name]) = none → walkWith disk.root follow dir [name] = .missing (dir ++ [name]) [] := by
    intro follow missing
    unfold walkWith
    rw [if_neg (by simp [nonempty,dot]),if_neg up,missing]
  have there : ∀ follow node, nodeAt disk.root (dir ++ [name]) = some node → node.isLink = false →
      walkWith disk.root follow dir [name] = .found (dir ++ [name]) := by
    intro follow node stored plain
    unfold walkWith
    rw [if_neg (by simp [nonempty,dot]),if_neg up,stored]
    cases node with
    | file data => rfl
    | dir entries => rfl
    | link target => cases plain
  induction links generalizing place parts with
  | zero =>
    exact ⟨fun missing => walkWith_child (· = _) (by simp) stands (gone _ missing) walked,
      fun node stored plain => walkWith_child (· = _) (by simp) stands (there _ node stored plain) walked⟩
  | succ links ih =>
    exact ⟨fun missing => walkWith_child (· = _) (fun _ _ onward => (ih onward).1 missing) stands (gone _ missing) walked,
      fun node stored plain => walkWith_child (· = _) (fun _ _ onward => (ih onward).2 node stored plain) stands (there _ node stored plain) walked⟩

-- Where a link stands there the walk goes on along it, with as many links as are left.
theorem walk_linked {disk : Disk Data} (walked : walk disk.root links place parts = .found dir)
    (stands : nodeAt disk.root dir = some (.dir entries)) (proper : Proper name) (stored : nodeAt disk.root (dir ++ [name]) = some (.link target)) :
    walk disk.root links place (parts ++ [name]) = .tooManyLinks ∨
    ∃ left, walk disk.root links place (parts ++ [name]) = walk disk.root left (if target.absolute then [] else dir) target.parts := by
  obtain ⟨nonempty,dot,up⟩ := proper
  have last : ∀ follow, walkWith disk.root follow dir [name] = follow (if target.absolute then [] else dir) target.parts := by
    intro follow
    unfold walkWith
    rw [if_neg (by simp [nonempty,dot]),if_neg up,stored]
    dsimp only
    rw [List.append_nil]
  let ends (outcome : Walked) : Prop :=
    outcome = .tooManyLinks ∨ ∃ left, outcome = walk disk.root left (if target.absolute then [] else dir) target.parts
  induction links generalizing place parts with
  | zero => exact walkWith_child ends (by simp) stands (by rw [last]; exact .inl rfl) walked
  | succ links ih => exact walkWith_child ends (fun _ _ onward => ih onward) stands (by rw [last]; exact .inr ⟨links,rfl⟩) walked

-- Whatever stands on the way to the path is a directory.
def Roomy (disk : Disk Data) (path : Path) : Prop :=
  ∀ front, front <+: path → front ≠ path → ∀ node, nodeAt disk.root front = some node → node.isDir = true

theorem stored_roomy (stored : nodeAt disk.root path = some node) : Roomy disk path := by
  rintro front ⟨rest,rfl⟩ strict above found
  rw [nodeAt_append,found,Option.bind_some] at stored
  cases rest with
  | nil => exact absurd (by simp) strict
  | cons step rest =>
    cases above with
    | dir entries => rfl
    | file data | link target => cases stored

theorem roomy_front (roomy : Roomy disk path) (shorter : front <+: path) : Roomy disk front := by
  intro other before strict
  refine roomy other (before.trans shorter) ?_
  rintro rfl
  exact strict (before.eq_of_length_le shorter.length_le)

-- A walk along such a path follows no link and ends at the path or before it.
theorem walkWith_roomy (follow : Path → List Name → Walked) (place : Path) (ordinary : Ordinary parts) (roomy : Roomy disk (place ++ parts)) :
    (∀ node, nodeAt disk.root (place ++ parts) = some node → node.isLink = false →
      walkWith disk.root follow place parts = .found (place ++ parts)) ∧
    (parts ≠ [] → nodeAt disk.root (place ++ parts) = none → ∃ gone rest, walkWith disk.root follow place parts = .missing gone rest) := by
  induction parts generalizing place with
  | nil => exact ⟨fun _ _ _ => by simp [walkWith],fun impossible => absurd rfl impossible⟩
  | cons part rest ih =>
    obtain ⟨nonempty,dot,up⟩ := ordinary part List.mem_cons_self
    have later : Ordinary rest := fun name member => ordinary name (List.mem_cons_of_mem _ member)
    have onward : place ++ part::rest = place ++ [part] ++ rest := by simp
    rw [onward] at roomy ⊢
    have inner := ih (place ++ [part]) later roomy
    unfold walkWith
    rw [if_neg (by simp [nonempty,dot]),if_neg up]
    cases rest with
    | nil =>
      simp only [List.append_nil] at inner ⊢
      constructor
      · intro node stored plain
        rw [stored]
        cases node with
        | file data => rfl
        | dir entries => exact inner.1 _ stored plain
        | link target => cases plain
      · intro _ gone
        rw [gone]
        exact ⟨_,_,rfl⟩
    | cons next rest =>
      have shorter : place ++ [part] <+: place ++ [part] ++ next::rest := List.prefix_append _ _
      have strict : place ++ [part] ≠ place ++ [part] ++ next::rest := by
        intro same
        have lengths := congrArg List.length same
        simp only [List.length_append,List.length_cons] at lengths
        omega
      cases stands : nodeAt disk.root (place ++ [part]) with
      | none =>
        constructor
        · intro node stored
          rw [nodeAt_below disk.root stands] at stored
          cases stored
        · exact fun _ _ => ⟨_,_,rfl⟩
      | some above =>
        have dir := roomy _ shorter strict above stands
        cases above with
        | file data | link target => cases dir
        | dir entries => exact ⟨inner.1,fun _ => inner.2 (List.cons_ne_nil next rest)⟩

theorem walk_roomy (links : Nat) (ordinary : Ordinary path) (roomy : Roomy disk path) :
    (∀ node, nodeAt disk.root path = some node → node.isLink = false → walk disk.root links [] path = .found path) ∧
    (nodeAt disk.root path = none → ∃ gone rest, walk disk.root links [] path = .missing gone rest) := by
  have straight : ∀ {follow : Path → List Name → Walked},
      (∀ node, nodeAt disk.root path = some node → node.isLink = false → walkWith disk.root follow [] path = .found path) ∧
      (nodeAt disk.root path = none → ∃ gone rest, walkWith disk.root follow [] path = .missing gone rest) := by
    intro follow
    have both := walkWith_roomy follow [] ordinary roomy
    refine ⟨both.1,fun gone => both.2 ?_ gone⟩
    rintro rfl
    cases gone
  cases links with
  | zero | succ links => exact straight

-- The path of a link that leads nowhere is no more found by where the link
-- really stands, however many links are followed.
theorem dangling_lost {disk : Disk Data} (ordinary : Ordinary path) (dangling : Dangling disk links path place)
    (found : walk disk.root more [] place = .found other) : False := by
  obtain ⟨dir,base,home,parent,target,rfl,rfl,_,resolved,link,missing⟩ := dangling
  have proper : Proper base := ordinary base (List.mem_append_right _ (List.mem_cons_self ..))
  have stands : ∃ entries, nodeAt disk.root home = some (.dir entries) := by
    rw [nodeAt_append] at link
    obtain ⟨above,stored,below⟩ := Option.bind_eq_some_iff.mp link
    cases above with
    | dir entries => exact ⟨entries,stored⟩
    | file data | link target => cases below
  obtain ⟨entries,stands⟩ := stands
  have own := (evalSymlinks_real resolved).1
  have straight := (walk_roomy more own (stored_roomy stands)).1 _ stands rfl
  have walked := evalSymlinks_walk.mp resolved
  unfold evalSymlinks at missing
  have few : walk disk.root maxLinksWalked [] (dir ++ [base]) ≠ .tooManyLinks := by
    intro many
    rw [many] at missing
    cases missing
  have differs : walk disk.root maxLinksWalked [] (dir ++ [base]) ≠ .found other := by
    intro same
    rw [same] at missing
    cases missing
  rcases walk_linked walked stands proper link with many | ⟨left,same⟩
  · exact few many
  · rcases walk_linked straight stands proper link with many | ⟨right,alike⟩
    · rw [many] at found
      cases found
    · have agree : walk disk.root left (if target.absolute then [] else home) target.parts = walk disk.root right (if target.absolute then [] else home) target.parts :=
        walk_agree (by rwa [← same]) (by rw [← alike,found]; exact nofun)
      rw [same,agree,← alike] at differs
      exact differs found

theorem lstat_roomy (links : Nat) (ordinary : Ordinary path) (roomy : Roomy disk path) :
    lstat disk links path = (nodeAt disk.root path).elim (.error .notExist) .ok := by
  rcases List.eq_nil_or_concat' path with rfl | ⟨dir,last,rfl⟩
  · rfl
  · have above : Ordinary dir := fun name member => ordinary name (List.mem_append_left _ member)
    have shorter : dir <+: dir ++ [last] := List.prefix_append _ _
    obtain ⟨arrives,misses⟩ := walk_roomy links above (roomy_front roomy shorter)
    unfold lstat
    simp only [List.getLast?_append,List.getLast?_singleton,Option.some_or,List.dropLast_concat]
    cases stands : nodeAt disk.root dir with
    | none =>
      obtain ⟨gone,rest,missing⟩ := misses stands
      rw [missing,nodeAt_below disk.root stands]
      rfl
    | some node =>
      have directory := roomy dir shorter (by simp) node stands
      cases node with
      | file data | link target => cases directory
      | dir entries =>
        rw [arrives _ stands rfl]
        dsimp only
        rw [stands]

theorem climb_roomy (links : Nat) (ordinary : Ordinary path) (roomy : Roomy disk path)
    (split : path = rev.reverse ++ suffix) (proper : rev ≠ []) : climb disk links path rev suffix = .ok path := by
  induction rev generalizing suffix with
  | nil => exact absurd rfl proper
  | cons base up ih =>
    have onward : path = up.reverse ++ base::suffix := by simp [split]
    have shorter : up.reverse <+: path := ⟨base::suffix,onward.symm⟩
    have above : Ordinary up.reverse := fun name member => ordinary name (by rw [onward]; exact List.mem_append_left _ member)
    have wide := roomy_front roomy shorter
    unfold climb
    rw [lstat_roomy links above wide]
    cases stands : nodeAt disk.root up.reverse with
    | none =>
      refine ih onward ?_
      rintro rfl
      cases stands
    | some node =>
      have strict : up.reverse ≠ path := by
        rw [onward]
        simp
      have directory := roomy up.reverse shorter strict node stands
      have plain : node.isLink = false := by
        cases node with
        | dir entries => rfl
        | file data | link target => cases directory
      have real : evalSymlinks disk up.reverse = .ok up.reverse :=
        evalSymlinks_walk.mpr ((walk_roomy maxLinksWalked above wide).1 node stands plain)
      dsimp only [Option.elim]
      rw [real]
      dsimp only [Except.map]
      rw [← onward,clean_same ordinary]

theorem resolveReal_free (links : Nat) (ordinary : Ordinary path) (roomy : Roomy disk path)
    (free : nodeAt disk.root path = none) : resolveReal disk links path = .ok path := by
  obtain ⟨gone,rest,missing⟩ := (walk_roomy maxLinksWalked ordinary roomy).2 free
  have absent : evalSymlinks disk path = .error .notExist := by
    unfold evalSymlinks
    rw [missing]
  have proper : path.reverse ≠ [] := by
    intro empty
    rw [List.reverse_eq_nil_iff.mp empty] at free
    cases free
  unfold resolveReal
  rw [absent]
  exact climb_roomy links ordinary roomy (by simp) proper

end RemoteFileExplorer.TreeEdits
