import RemoteFileExplorer.FileTree

namespace RemoteFileExplorer.Jail
open FileTree

variable {Data : Type}

-- A file system is what stands in its root directory.
abbrev Disk (Data : Type) := List (Name × Node Data)

def Disk.root (disk : Disk Data) : Node Data := .dir disk

inductive ResolveError where
  | forbidden
  | notAbsolute
  | notExist
  | notDirectory
  | tooManyLinks
  deriving DecidableEq, Repr

structure CleanPath where
  path : Path
  ordinary : Ordinary path

-- `links` is how many links the kernel follows in one lookup, and `protectedDirs`
-- the real paths registered with ProtectDir. An empty list of roots is no jail.
structure Ops where
  roots : List CleanPath
  denyAll : Bool
  protectedDirs : List Path
  links : Nat

def maxLinksWalked : Nat := 255

def evalSymlinks (disk : Disk Data) (parts : List Name) : Except ResolveError Path :=
  match walk disk.root maxLinksWalked [] parts with
  | .found place => .ok place
  | .missing _ _ => .error .notExist
  | .notDirectory => .error .notDirectory
  | .tooManyLinks => .error .tooManyLinks

-- The kernel follows links on the way to the last component, not at it.
def lstat (disk : Disk Data) (links : Nat) (path : Path) : Except ResolveError (Node Data) :=
  match path.getLast? with
  | none => .ok disk.root
  | some last =>
    match walk disk.root links [] path.dropLast with
    | .found dir =>
      match nodeAt disk.root dir with
      | some (.dir _) => (nodeAt disk.root (dir ++ [last])).elim (.error .notExist) .ok
      | _ => .error .notDirectory
    | .missing _ _ => .error .notExist
    | .notDirectory => .error .notDirectory
    | .tooManyLinks => .error .tooManyLinks

def isUnder (path root : Path) : Bool := root.isPrefixOf path

def lexicallyAllowed (disk : Disk Data) (path : Path) (roots : List CleanPath) : Bool :=
  roots.isEmpty || roots.any fun root => isUnder path root.path ||
    match evalSymlinks disk root.path with
    | .ok real => isUnder path real
    | .error _ => false

def isProtected (ops : Ops) (real : Path) : Bool := ops.protectedDirs.any (isUnder real)

-- From the parent of the path upwards to the first directory that exists. The
-- path is given backwards, with what was left behind.
def climb (disk : Disk Data) (links : Nat) (path : Path) : List Name → Path → Except ResolveError Path
  | [],_ => .ok path
  | base::up,suffix =>
    match lstat disk links up.reverse with
    | .ok _ => (evalSymlinks disk up.reverse).map fun real => clean (real ++ base::suffix)
    | .error .notExist => climb disk links path up (base::suffix)
    | .error e => .error e

def resolveReal (disk : Disk Data) (links : Nat) (path : Path) : Except ResolveError Path :=
  match evalSymlinks disk path with
  | .ok real => .ok real
  | .error .notExist => climb disk links path path.reverse []
  | .error e => .error e

def admits (ops : Ops) (real : Path) : Bool := !isProtected ops real && (ops.roots.isEmpty || ops.roots.any fun root => isUnder real root.path)

def resolve (disk : Disk Data) (ops : Ops) (request : Written) : Except ResolveError Path :=
  if ops.denyAll then .error .forbidden else
  if !request.absolute then .error .notAbsolute else
  let path := clean request.parts
  if !lexicallyAllowed disk path ops.roots then .error .forbidden else
  match resolveReal disk ops.links path with
  | .error e => .error e
  | .ok real => if admits ops real then .ok real else .error .forbidden

section Sound
variable {disk : Disk Data} {ops : Ops}

theorem base_real : Real disk.root [] := by
  refine ⟨by simp [Ordinary],?_⟩
  intro front before node stored
  rw [List.prefix_nil.mp before] at stored
  cases stored
  rfl

theorem evalSymlinks_walk : evalSymlinks disk parts = .ok real ↔ walk disk.root maxLinksWalked [] parts = .found real := by
  unfold evalSymlinks
  cases walk disk.root maxLinksWalked [] parts <;> simp

theorem evalSymlinks_real (resolved : evalSymlinks disk parts = .ok real) : Real disk.root real :=
  walk_real base_real base_real (evalSymlinks_walk.mp resolved)

theorem lstat_gone (missing : lstat disk links (dir ++ [name]) = .error .notExist) (resolved : evalSymlinks disk dir = .ok real) :
    nodeAt disk.root (real ++ [name]) = none := by
  have walked := evalSymlinks_walk.mp resolved
  unfold lstat at missing
  simp only [List.getLast?_append,List.getLast?_singleton,Option.some_or,List.dropLast_concat] at missing
  have agree : walk disk.root links [] dir ≠ .tooManyLinks → walk disk.root links [] dir = .found real := by
    intro enough
    rw [walk_agree enough (by rw [walked]; simp),walked]
  cases outcome : walk disk.root links [] dir with
  | tooManyLinks =>
    rw [outcome] at missing
    cases missing
  | notDirectory | missing =>
    rw [outcome] at agree
    cases agree (by simp)
  | found place =>
    rw [outcome] at agree missing
    cases agree (by simp)
    dsimp only at missing
    split at missing
    · cases below : nodeAt disk.root (real ++ [name]) with
      | none => rfl
      | some node =>
        rw [below] at missing
        cases missing
    · cases missing

-- The cleaned path names a link, itself in an existing directory, that leads
-- nowhere; `place` is where that link stands.
def Dangling (disk : Disk Data) (links : Nat) (path place : Path) : Prop :=
  ∃ dir base real parent target, path = dir ++ [base] ∧ place = real ++ [base] ∧ lstat disk links dir = .ok parent ∧
    evalSymlinks disk dir = .ok real ∧ nodeAt disk.root place = some (.link target) ∧ evalSymlinks disk path = .error .notExist

theorem real_below (real : Real disk.root place) (proper : Ordinary (base::suffix)) (gone : nodeAt disk.root (place ++ [base]) = none) :
    Real disk.root (place ++ base::suffix) := by
  refine ⟨?_,unlinked_below real.2 gone suffix⟩
  intro name member
  rcases List.mem_append.mp member with old | new
  · exact real.1 name old
  · exact proper name new

-- Above the last component only what Lstat did not find is left behind.
theorem climb_cases (whole : path = rev.reverse ++ suffix) (ordinary : Ordinary path)
    (left : suffix ≠ [] → lstat disk links rev.reverse = .error .notExist)
    (climbed : climb disk links path rev suffix = .ok place) :
    Real disk.root place ∨ (suffix = [] ∧ ∃ dir base real parent target, path = dir ++ [base] ∧ place = real ++ [base] ∧
      lstat disk links dir = .ok parent ∧ evalSymlinks disk dir = .ok real ∧ nodeAt disk.root place = some (.link target)) := by
  induction rev generalizing suffix with
  | nil =>
    cases suffix with
    | nil =>
      cases climbed
      rw [whole]
      exact .inl base_real
    | cons name rest => cases left (by simp)
  | cons base up ih =>
    have split : path = up.reverse ++ base::suffix := by simp [whole]
    unfold climb at climbed
    split at climbed
    · rename_i parent stands
      cases resolved : evalSymlinks disk up.reverse with
      | error e =>
        rw [resolved] at climbed
        cases climbed
      | ok real =>
        rw [resolved] at climbed
        have reality := evalSymlinks_real resolved
        have proper : Ordinary (base::suffix) := fun name member => ordinary name (by rw [split]; exact List.mem_append_right _ member)
        have ends : Ordinary (real ++ base::suffix) := by
          intro name member
          rcases List.mem_append.mp member with old | new
          · exact reality.1 name old
          · exact proper name new
        have same : place = real ++ base::suffix := by
          rw [← clean_same ends]
          cases climbed
          rfl
        rw [same]
        cases below : nodeAt disk.root (real ++ [base]) with
        | none => exact .inl (real_below reality proper below)
        | some node =>
          cases suffix with
          | nil =>
            cases node with
            | link target => exact .inr ⟨rfl,up.reverse,base,real,parent,target,split,rfl,stands,resolved,below⟩
            | file data | dir entries => exact .inl (real_snoc reality (proper base List.mem_cons_self) below rfl)
          | cons name rest =>
            have missing := left (by simp)
            rw [List.reverse_cons] at missing
            rw [lstat_gone missing resolved] at below
            cases below
    · rename_i missing
      rcases ih split (fun _ => missing) climbed with real | ⟨impossible,_⟩
      · exact .inl real
      · cases impossible
    · cases climbed

theorem resolveReal_cases (ordinary : Ordinary path) (resolved : resolveReal disk links path = .ok place) :
    Real disk.root place ∨ Dangling disk links path place := by
  unfold resolveReal at resolved
  split at resolved
  · rename_i real found
    cases resolved
    exact .inl (evalSymlinks_real found)
  · rename_i missing
    rcases climb_cases (by simp) ordinary (fun impossible => absurd rfl impossible) resolved with
      real | ⟨_,dir,base,real,parent,target,split,same,stands,found,link⟩
    · exact .inl real
    · exact .inr ⟨dir,base,real,parent,target,split,same,stands,found,link,missing⟩
  · cases resolved

theorem dangling_resolved (ordinary : Ordinary path) (dangling : Dangling disk links path place) :
    resolveReal disk links path = .ok place := by
  obtain ⟨dir,base,real,parent,target,rfl,rfl,stands,found,_,missing⟩ := dangling
  have ends : Ordinary (real ++ [base]) := by
    intro name member
    rcases List.mem_append.mp member with old | new
    · exact (evalSymlinks_real found).1 name old
    · exact ordinary name (List.mem_append_right _ new)
  unfold resolveReal
  rw [missing]
  simp only [List.reverse_append,List.reverse_cons,List.reverse_nil,List.nil_append,List.singleton_append]
  unfold climb
  rw [List.reverse_reverse,stands,found]
  exact congrArg Except.ok (clean_same ends)

def Safe (disk : Disk Data) (ops : Ops) (real : Path) : Prop :=
  (ops.roots = [] ∨ ∃ root ∈ ops.roots, root.path <+: real ∧ ∀ realRoot, evalSymlinks disk root.path = .ok realRoot → realRoot <+: real) ∧
  isProtected ops real = false ∧ Unlinked disk.root real ∧
  ∀ links place, landing disk.root links real = some place → place = real

theorem root_resolved {root : CleanPath} (inside : root.path <+: real) (unlinked : Unlinked disk.root real)
    (resolved : evalSymlinks disk root.path = .ok realRoot) : realRoot <+: real := by
  have walked := evalSymlinks_walk.mp resolved
  have lands : landing disk.root maxLinksWalked root.path = some realRoot := by
    unfold landing
    rw [walked]
  rw [landing_straight root.ordinary (unlinked_front unlinked inside) lands]
  exact inside

theorem admits_safe (admitted : admits ops place = true) (real : Real disk.root place) : Safe disk ops place := by
  unfold admits at admitted
  simp only [Bool.and_eq_true,Bool.not_eq_true',Bool.or_eq_true,List.isEmpty_iff,List.any_eq_true] at admitted
  obtain ⟨unprotected,inside⟩ := admitted
  refine ⟨?_,unprotected,real.2,fun links other lands => landing_straight real.1 real.2 lands⟩
  rcases inside with free | ⟨root,member,under⟩
  · exact .inl free
  · have within : root.path <+: place := List.isPrefixOf_iff_prefix.mp under
    exact .inr ⟨root,member,within,fun realRoot resolved => root_resolved within real.2 resolved⟩

theorem resolve_parts : resolve disk ops request = .ok place ↔ ops.denyAll = false ∧ request.absolute = true ∧
    lexicallyAllowed disk (clean request.parts) ops.roots = true ∧ resolveReal disk ops.links (clean request.parts) = .ok place ∧
    admits ops place = true := by
  unfold resolve
  dsimp only
  cases ops.denyAll with
  | true => simp
  | false =>
    cases request.absolute with
    | false => simp
    | true =>
      cases lexicallyAllowed disk (clean request.parts) ops.roots with
      | false => simp
      | true =>
        cases resolveReal disk ops.links (clean request.parts) with
        | error e => simp
        | ok real =>
          cases judged : admits ops real with
          | true =>
            simp only [Bool.false_eq_true,if_false,Bool.not_true,if_true,judged,Except.ok.injEq,true_and]
            exact ⟨fun same => ⟨same,same ▸ judged⟩,And.left⟩
          | false =>
            simp only [Bool.false_eq_true,if_false,Bool.not_true,judged,Except.ok.injEq,true_and,reduceCtorEq,false_iff]
            rintro ⟨rfl,admitted⟩
            rw [judged] at admitted
            cases admitted

theorem resolve_safe_iff (disk : Disk Data) (ops : Ops) (request : Written) :
    (∀ real, resolve disk ops request = .ok real → Safe disk ops real) ↔
    ¬ ∃ place, Dangling disk ops.links (clean request.parts) place ∧ ops.denyAll = false ∧ request.absolute = true ∧
      lexicallyAllowed disk (clean request.parts) ops.roots = true ∧ admits ops place = true := by
  have ordinary : Ordinary (clean request.parts) := clean_proper request.parts
  constructor
  · rintro safe ⟨place,dangling,jailed,absolute,allowed,admitted⟩
    have resolved := resolve_parts.mpr ⟨jailed,absolute,allowed,dangling_resolved ordinary dangling,admitted⟩
    obtain ⟨_,_,unlinked,_⟩ := safe place resolved
    obtain ⟨_,_,_,_,target,_,_,_,_,link,_⟩ := dangling
    cases unlinked place (List.prefix_refl place) _ link
  · intro apart real resolved
    obtain ⟨jailed,absolute,allowed,found,admitted⟩ := resolve_parts.mp resolved
    rcases resolveReal_cases ordinary found with reality | dangling
    · exact admits_safe admitted reality
    · exact absurd ⟨real,dangling,jailed,absolute,allowed,admitted⟩ apart

end Sound

def outwardLink : Disk Unit := [("jail",.dir [("out",.link ⟨true,["","etc","new"]⟩)]),("etc",.dir [])]

def jailOnly : Ops := ⟨[⟨["jail"],by simp [Ordinary,Proper]⟩],false,[],40⟩

theorem dangling_link_leaves_jail : ∃ real, resolve outwardLink jailOnly ⟨true,["","jail","out"]⟩ = .ok real ∧
    ¬ Safe outwardLink jailOnly real ∧ landing outwardLink.root 40 real = some ["etc","new"] := by
  refine ⟨["jail","out"],rfl,?_,rfl⟩
  rintro ⟨_,_,_,lands⟩
  have ends := lands 40 ["etc","new"] rfl
  simp at ends

end RemoteFileExplorer.Jail
