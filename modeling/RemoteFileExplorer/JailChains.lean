import RemoteFileExplorer.FileOps

namespace RemoteFileExplorer.JailChains
open FileTree Jail TreeEdits PercentCodes Trash FileOps

-- A cleaned path, absolute or not. A relative one may begin with double dots,
-- and without components it is the dot.
structure Root where
  absolute : Bool
  parts : Path
  deriving DecidableEq, Repr

def cleanFrom : Path → List Name → Path
  | place,[] => place
  | place,part::rest =>
    if part = "" ∨ part = "." then cleanFrom place rest else
    if part = ".." ∧ place ≠ [] ∧ place.getLast? ≠ some ".." then cleanFrom place.dropLast rest else cleanFrom (place ++ [part]) rest

def cleanPath (text : Bytes) : Root :=
  let written := request text
  if written.absolute then ⟨true,clean written.parts⟩ else ⟨false,cleanFrom [] written.parts⟩

inductive SettingsView where
  | static (readOnly : Bool) (roots : List Root)
  | jailed (base : SettingsView) (roots : List Root)
  | ro (base : SettingsView)

def SettingsView.isReadOnly : SettingsView → Bool
  | .static readOnly _ => readOnly
  | .jailed base _ => base.isReadOnly
  | .ro _ => true

def SettingsView.roots : SettingsView → List Root
  | .static _ roots => roots
  | .jailed _ roots => roots
  | .ro base => base.roots

structure Ops where
  settings : SettingsView
  denyAll : Bool

def new (allowedRoots : List Bytes) (readOnly : Bool) : Ops :=
  ⟨.static readOnly ((allowedRoots.map cleanPath).filter fun root => root ≠ ⟨false,[]⟩),false⟩

-- Nothing but the dot itself is under the dot.
def isUnder (path root : Root) : Bool :=
  path = root || (path.absolute == root.absolute && root ≠ ⟨false,[]⟩ && root.parts.isPrefixOf path.parts)

def Ops.readOnly (ops : Ops) : Ops := ⟨.ro ops.settings,ops.denyAll⟩

def Ops.jailed (ops : Ops) (extraRoot : Bytes) : Ops :=
  if extraRoot = [] then ops else
  let cleaned := cleanPath extraRoot
  if ops.settings.roots = [] then ⟨.jailed ops.settings [cleaned],false⟩ else
  if ops.settings.roots.any (isUnder cleaned) then ⟨.jailed ops.settings [cleaned],false⟩ else
  ⟨.jailed ops.settings [],true⟩

-- What a process resolves paths against. `relative` is what EvalSymlinks makes
-- of a relative path in the working directory.
structure World where
  disk : Files
  protectedDirs : List Path
  links : Nat
  relative : Path → Except ResolveError Root

def evalRoot (world : World) (root : Root) : Except ResolveError Root :=
  if root.absolute then (evalSymlinks world.disk root.parts).map fun real => ⟨true,real⟩ else world.relative root.parts

def lexicallyAllowed (world : World) (path : Path) (roots : List Root) : Bool :=
  roots.isEmpty || roots.any fun root => isUnder ⟨true,path⟩ root ||
    match evalRoot world root with
    | .ok real => isUnder ⟨true,path⟩ real
    | .error _ => false

def isProtected (protectedDirs : List Path) (real : Path) : Bool := protectedDirs.any (Jail.isUnder real)

def resolve (world : World) (ops : Ops) (text : Bytes) : Except ResolveError Path :=
  if ops.denyAll then .error .forbidden else
  if !(request text).absolute then .error .notAbsolute else
  let path := clean (request text).parts
  let roots := ops.settings.roots
  if !lexicallyAllowed world path roots then .error .forbidden else
  match resolveReal world.disk world.links path with
  | .error e => .error e
  | .ok real =>
    if isProtected world.protectedDirs real then .error .forbidden else
    if roots = [] then .ok real else
    if roots.any (isUnder ⟨true,real⟩) then .ok real else .error .forbidden

inductive Restriction where
  | jailed (extraRoot : Bytes)
  | readOnly

def Ops.restrict (ops : Ops) : Restriction → Ops
  | .jailed extraRoot => ops.jailed extraRoot
  | .readOnly => ops.readOnly

def derived (allowedRoots : List Bytes) (readOnly : Bool) (chain : List Restriction) : Ops := chain.foldl Ops.restrict (new allowedRoots readOnly)

section Roots
variable {path root other : Root}

theorem under_iff : isUnder path root = true ↔ path = root ∨ (path.absolute = root.absolute ∧ root ≠ ⟨false,[]⟩ ∧ root.parts <+: path.parts) := by
  simp [isUnder,List.isPrefixOf_iff_prefix,and_assoc]

theorem under_trans (inner : isUnder path root = true) (outer : isUnder root other = true) : isUnder path other = true := by
  rw [under_iff] at inner outer ⊢
  rcases inner with rfl | ⟨kind,_,below⟩
  · exact outer
  · rcases outer with rfl | ⟨same,wide,above⟩
    · exact .inr ⟨kind,‹_›,below⟩
    · exact .inr ⟨kind.trans same,wide,above.trans below⟩

theorem under_absolute : isUnder ⟨true,place⟩ root = true ↔ root.absolute = true ∧ root.parts <+: place := by
  rw [under_iff]
  constructor
  · rintro (rfl | ⟨kind,_,below⟩)
    · exact ⟨rfl,List.prefix_refl _⟩
    · exact ⟨kind.symm,below⟩
  · rintro ⟨absolute,below⟩
    refine .inr ⟨absolute.symm,?_,below⟩
    rintro rfl
    cases absolute

theorem cleanPath_ordinary {text : Bytes} (absolute : (cleanPath text).absolute = true) : Ordinary (cleanPath text).parts := by
  unfold cleanPath at absolute ⊢
  dsimp only at absolute ⊢
  split at absolute
  · rename_i rooted
    rw [if_pos rooted]
    exact clean_proper _
  · cases absolute

end Roots

section Narrowing
variable {world : World} {ops : Ops} {extraRoot text : Bytes} {place path : Path}

def admits (protectedDirs : List Path) (roots : List Root) (real : Path) : Prop :=
  isProtected protectedDirs real = false ∧ (roots = [] ∨ ∃ root ∈ roots, isUnder ⟨true,real⟩ root = true)

theorem resolve_parts : resolve world ops text = .ok place ↔ ops.denyAll = false ∧ (request text).absolute = true ∧
    lexicallyAllowed world (clean (request text).parts) ops.settings.roots = true ∧
    resolveReal world.disk world.links (clean (request text).parts) = .ok place ∧ admits world.protectedDirs ops.settings.roots place := by
  unfold resolve admits
  dsimp only
  cases ops.denyAll with
  | true => simp
  | false =>
    cases (request text).absolute with
    | false => simp
    | true =>
      cases lexicallyAllowed world (clean (request text).parts) ops.settings.roots with
      | false => simp
      | true =>
        cases resolveReal world.disk world.links (clean (request text).parts) with
        | error e => simp
        | ok real =>
          have judged : (if isProtected world.protectedDirs real then .error .forbidden else if ops.settings.roots = [] then .ok real else
              if ops.settings.roots.any (isUnder ⟨true,real⟩) then .ok real else .error .forbidden : Except ResolveError Path) = .ok place ↔
              real = place ∧ isProtected world.protectedDirs real = false ∧
                (ops.settings.roots = [] ∨ ∃ root ∈ ops.settings.roots, isUnder ⟨true,real⟩ root = true) := by
            cases isProtected world.protectedDirs real with
            | true => simp
            | false =>
              by_cases free : ops.settings.roots = []
              · simp [free]
              · rw [← List.any_eq_true]
                cases inside : ops.settings.roots.any (isUnder ⟨true,real⟩) <;> simp [free]
          simp only [Bool.false_eq_true,if_false,Bool.not_true,true_and,Except.ok.injEq]
          rw [judged]
          constructor
          all_goals
            rintro ⟨rfl,admitted⟩
            exact ⟨rfl,admitted⟩

-- A caller whose roots are all absolute, as the settings store them.
def callerOps (caller : Caller) : Ops := ⟨.static caller.readOnly (caller.roots.map fun root => ⟨true,root.path⟩),caller.denyAll⟩

theorem under_jail (path root : Path) : isUnder ⟨true,path⟩ ⟨true,root⟩ = Jail.isUnder path root := by
  rw [Bool.eq_iff_iff,under_absolute]
  exact ⟨fun both => List.isPrefixOf_iff_prefix.mpr both.2,fun inside => ⟨rfl,List.isPrefixOf_iff_prefix.mp inside⟩⟩

theorem dangling_missing (ordinary : Ordinary path) (dangling : Dangling disk links path place) (real : Path) :
    evalSymlinks disk place ≠ .ok real := fun resolved => dangling_lost ordinary dangling (evalSymlinks_walk.mp resolved)

theorem root_straight (ordinary : Ordinary root) (inside : root <+: place) (clean : Ordinary path)
    (found : resolveReal world.disk world.links path = .ok place) (resolved : evalSymlinks world.disk root = .ok real) : real = root := by
  have walked := evalSymlinks_walk.mp resolved
  have lands : landing world.disk.root maxLinksWalked root = some real := by
    unfold landing
    rw [walked]
  rcases resolveReal_cases clean found with reality | dangling
  · exact landing_straight ordinary (unlinked_front reality.2 inside) lands
  · by_cases whole : root = place
    · subst whole
      exact absurd resolved (dangling_missing clean dangling real)
    · obtain ⟨dir,base,home,parent,target,_,rfl,_,at_,_⟩ := dangling
      have shorter : root <+: home := (List.prefix_concat_iff.mp inside).resolve_left whole
      exact landing_straight ordinary (unlinked_front (evalSymlinks_real at_).2 shorter) lands

theorem jailed_narrows (open_ : ops.denyAll = false) (resolved : resolve world (ops.jailed extraRoot) text = .ok place) :
    resolve world ops text = .ok place := by
  unfold Ops.jailed at resolved
  split at resolved
  · exact resolved
  · dsimp only at resolved
    split at resolved
    · rename_i free
      obtain ⟨_,absolute,_,found,unprotected,_⟩ := resolve_parts.mp resolved
      refine resolve_parts.mpr ⟨open_,absolute,?_,found,unprotected,.inl free⟩
      rw [free]
      rfl
    · split at resolved
      · rename_i inside
        obtain ⟨root,member,above⟩ := List.any_eq_true.mp inside
        obtain ⟨_,absolute,lexical,found,unprotected,jailed⟩ := resolve_parts.mp resolved
        have under : isUnder ⟨true,place⟩ (cleanPath extraRoot) = true := by
          rcases jailed with none | ⟨one,only,below⟩
          · cases none
          · rwa [List.mem_singleton.mp only] at below
        obtain ⟨rooted,below⟩ := under_absolute.mp under
        have ordinary : Ordinary (clean (request text).parts) := clean_proper _
        have written : isUnder ⟨true,clean (request text).parts⟩ (cleanPath extraRoot) = true := by
          simp only [lexicallyAllowed,SettingsView.roots,List.isEmpty_cons,Bool.false_or,List.any_cons,List.any_nil,Bool.or_false,
            Bool.or_eq_true] at lexical
          rcases lexical with plain | real
          · exact plain
          · cases evaluated : evalRoot world (cleanPath extraRoot) with
            | error e =>
              rw [evaluated] at real
              cases real
            | ok other =>
              rw [evaluated] at real
              unfold evalRoot at evaluated
              rw [if_pos rooted] at evaluated
              cases resolvedRoot : evalSymlinks world.disk (cleanPath extraRoot).parts with
              | error e =>
                rw [resolvedRoot] at evaluated
                cases evaluated
              | ok home =>
                rw [resolvedRoot] at evaluated
                cases evaluated
                rw [root_straight (cleanPath_ordinary rooted) below ordinary found resolvedRoot] at real
                exact under_absolute.mpr ⟨rooted,(under_absolute.mp real).2⟩
        refine resolve_parts.mpr ⟨open_,absolute,?_,found,unprotected,.inr ⟨root,member,under_trans under above⟩⟩
        have reached := under_trans written above
        simp only [lexicallyAllowed,Bool.or_eq_true]
        right
        apply List.any_eq_true.mpr
        exact ⟨root,member,by rw [reached,Bool.true_or]⟩
      · obtain ⟨denied,_⟩ := resolve_parts.mp resolved
        cases denied

theorem empty_lstat (links : Nat) (ordinary : Ordinary path) (some_ : path ≠ []) : lstat ([] : Files) links path = .error .notExist := by
  obtain ⟨dir,name,rfl⟩ := (List.eq_nil_or_concat' path).resolve_left some_
  have proper : Ordinary dir := fun part member => ordinary part (List.mem_append_left _ member)
  have bare : ∀ front : Path, front ≠ [] → nodeAt (Disk.root ([] : Files)) front = none := by
    intro front more
    cases front with
    | nil => exact absurd rfl more
    | cons part rest => rfl
  have roomy : Roomy ([] : Files) dir := by
    intro front _ _ node stored
    cases front with
    | nil => cases stored; rfl
    | cons part rest => cases stored
  unfold lstat
  simp only [List.getLast?_append,List.getLast?_singleton,Option.some_or,List.dropLast_concat]
  cases dir with
  | nil =>
    have walked := (walk_roomy links proper roomy).1 _ rfl rfl
    rw [walked]
    rfl
  | cons part rest =>
    obtain ⟨gone,left,walked⟩ := (walk_roomy links proper roomy).2 (bare _ (List.cons_ne_nil _ _))
    rw [walked]

theorem empty_climb (links : Nat) (whole : Path) (rev : List Name) (suffix : Path) (some_ : rev ≠ []) (ordinary : Ordinary (rev.reverse ++ suffix)) :
    climb ([] : Files) links whole rev suffix = .ok (rev.reverse ++ suffix) := by
  induction rev generalizing suffix with
  | nil => exact absurd rfl some_
  | cons base up ih =>
    rw [List.reverse_cons,List.append_assoc] at ordinary ⊢
    unfold climb
    by_cases top : up = []
    · subst top
      exact congrArg Except.ok (clean_same ordinary)
    · have above : Ordinary up.reverse := fun part member => ordinary part (List.mem_append_left _ member)
      rw [empty_lstat links above (by simpa using top)]
      exact ih (base::suffix) top ordinary

theorem empty_resolved (links : Nat) (ordinary : Ordinary path) : resolveReal ([] : Files) links path = .ok path := by
  cases path with
  | nil => rfl
  | cons name rest =>
    have roomy : Roomy ([] : Files) (name::rest) := by
      intro front _ _ node stored
      cases front with
      | nil => cases stored; rfl
      | cons part rest => cases stored
    obtain ⟨gone,left,walked⟩ := (walk_roomy maxLinksWalked ordinary roomy).2 rfl
    have missing : evalSymlinks ([] : Files) (name::rest) = .error .notExist := by
      unfold evalSymlinks
      rw [walked]
    unfold resolveReal
    rw [missing]
    have climbed := empty_climb links (name::rest) (name::rest).reverse [] (by simp) (by simpa using ordinary)
    simpa using climbed

end Narrowing

section Chains
variable {ops : Ops} {extraRoot : Bytes}

theorem restrict_rootless (rootless : ops.denyAll = true → ops.settings.roots = []) (restriction : Restriction) :
    (ops.restrict restriction).denyAll = true → (ops.restrict restriction).settings.roots = [] := by
  intro denied
  cases restriction with
  | readOnly => exact rootless denied
  | jailed extraRoot =>
    simp only [Ops.restrict,Ops.jailed] at denied ⊢
    split at denied
    · rename_i empty
      rw [if_pos empty]
      exact rootless denied
    · rename_i some_
      rw [if_neg some_]
      split at denied
      · cases denied
      · rename_i roots
        rw [if_neg roots]
        split at denied
        · cases denied
        · rename_i outside
          rw [if_neg outside]
          rfl

theorem derived_rootless (allowedRoots : List Bytes) (readOnly : Bool) (chain : List Restriction) :
    (derived allowedRoots readOnly chain).denyAll = true → (derived allowedRoots readOnly chain).settings.roots = [] := by
  unfold derived
  have start : (new allowedRoots readOnly).denyAll = true → (new allowedRoots readOnly).settings.roots = [] := nofun
  generalize new allowedRoots readOnly = ops at start
  induction chain generalizing ops with
  | nil => exact start
  | cons restriction rest ih => exact ih (ops.restrict restriction) (restrict_rootless start restriction)

theorem restrict_readOnly (sealed : ops.settings.isReadOnly = true) (restriction : Restriction) : (ops.restrict restriction).settings.isReadOnly = true := by
  cases restriction with
  | readOnly => rfl
  | jailed extraRoot =>
    simp only [Ops.restrict,Ops.jailed]
    split
    · exact sealed
    · split
      · exact sealed
      · split <;> exact sealed

theorem restrict_all_readOnly (sealed : ops.settings.isReadOnly = true) (more : List Restriction) :
    (more.foldl Ops.restrict ops).settings.isReadOnly = true := by
  induction more generalizing ops with
  | nil => exact sealed
  | cons restriction rest ih => exact ih (restrict_readOnly sealed restriction)

theorem perform_readOnly (archives : Archives) (host : Host) (disk : Files) (sealed : caller.readOnly = true) (request : FileOps.Request) :
    perform archives host disk caller request = disk := by
  cases request with
  | createFolder path => simp [perform,createFolder,sealed]
  | writeContent path data base done => simp [perform,writeContent,sealed]
  | rename src dst fate => simp [perform,rename,sealed]
  | copy destDir duplicate overwrite transfers => simp [perform,copy,sealed]
  | move destDir duplicate overwrite transfers => simp [perform,move,sealed]
  | delete removals => simp [perform,delete,sealed]
  | compress sources dest done => simp [perform,compress,sealed]
  | extract archive dest reads => simp [perform,extract,sealed]
  | moveToTrash requests => simp [perform,Trash.moveToTrash,sealed]
  | restoreFromTrash items => simp [perform,Trash.restoreFromTrash,sealed]

end Chains

-- Whatever a further jail resolves was resolved before, to the same real path.
def Narrows (protectedDirs : List Path) (links : Nat) (ops : Ops) (extraRoot : Bytes) : Prop :=
  ∀ disk relative text place, resolve ⟨disk,protectedDirs,links,relative⟩ (ops.jailed extraRoot) text = .ok place →
    resolve ⟨disk,protectedDirs,links,relative⟩ ops text = .ok place

-- From a read-only Ops no chain leads to one whose operations change a disk.
def StaysReadOnly (ops : Ops) : Prop :=
  ops.settings.isReadOnly = true → ∀ (more : List Restriction) archives host disk caller request,
    caller.readOnly = (more.foldl Ops.restrict ops).settings.isReadOnly → perform archives host disk caller request = disk

theorem jailing_narrows_iff (allowedRoots : List Bytes) (readOnly : Bool) (chain : List Restriction) (extraRoot : Bytes) (protectedDirs : List Path) (links : Nat) :
    Narrows protectedDirs links (derived allowedRoots readOnly chain) extraRoot ∧ StaysReadOnly (derived allowedRoots readOnly chain) ↔
      ((derived allowedRoots readOnly chain).denyAll = true → extraRoot = [] ∨ (cleanPath extraRoot).absolute = false ∨
        isProtected protectedDirs (cleanPath extraRoot).parts = true) := by
  have rootless := derived_rootless allowedRoots readOnly chain
  generalize derived allowedRoots readOnly chain = ops at rootless
  constructor
  · rintro ⟨narrows,_⟩ denied
    by_contra wide
    simp only [not_or,Bool.not_eq_false,Bool.not_eq_true] at wide
    obtain ⟨some_,absolute,unprotected⟩ := wide
    have rooted : (request extraRoot).absolute = true ∧ clean (request extraRoot).parts = (cleanPath extraRoot).parts := by
      unfold cleanPath at absolute ⊢
      dsimp only at absolute ⊢
      split at absolute
      · rename_i rooted
        exact ⟨rooted,by rw [if_pos rooted]⟩
      · cases absolute
    have under : isUnder ⟨true,(cleanPath extraRoot).parts⟩ (cleanPath extraRoot) = true := under_absolute.mpr ⟨absolute,List.prefix_refl _⟩
    have jailed : ops.jailed extraRoot = ⟨.jailed ops.settings [cleanPath extraRoot],false⟩ := by
      unfold Ops.jailed
      rw [if_neg some_]
      dsimp only
      rw [if_pos (rootless denied)]
    have resolved : resolve ⟨[],protectedDirs,links,fun _ => .error .notExist⟩ (ops.jailed extraRoot) extraRoot = .ok (cleanPath extraRoot).parts := by
      rw [jailed]
      refine resolve_parts.mpr ⟨rfl,rooted.1,?_,?_,unprotected,.inr ⟨_,List.mem_cons_self ..,under⟩⟩
      · rw [rooted.2]
        simp only [lexicallyAllowed,SettingsView.roots,List.any_cons,under,Bool.true_or,Bool.or_true]
      · rw [rooted.2]
        exact empty_resolved links (cleanPath_ordinary absolute)
    obtain ⟨open_,_⟩ := resolve_parts.mp (narrows _ _ _ _ resolved)
    rw [denied] at open_
    cases open_
  · intro condition
    refine ⟨?_,?_⟩
    · intro disk relative text place resolved
      cases denied : ops.denyAll with
      | false => exact jailed_narrows denied resolved
      | true =>
        rcases condition denied with rfl | narrow
        · exact resolved
        · exfalso
          unfold Ops.jailed at resolved
          split at resolved
          · obtain ⟨open_,_⟩ := resolve_parts.mp resolved
            rw [denied] at open_
            cases open_
          · dsimp only at resolved
            rw [if_pos (rootless denied)] at resolved
            obtain ⟨_,_,_,_,unprotected,jailed⟩ := resolve_parts.mp resolved
            have under : isUnder ⟨true,place⟩ (cleanPath extraRoot) = true := by
              rcases jailed with none | ⟨one,only,below⟩
              · cases none
              · rwa [List.mem_singleton.mp only] at below
            obtain ⟨rooted,below⟩ := under_absolute.mp under
            rcases narrow with relative | covered
            · rw [relative] at rooted
              cases rooted
            · obtain ⟨dir,member,above⟩ := List.any_eq_true.mp covered
              have inside : isProtected protectedDirs place = true :=
                List.any_eq_true.mpr ⟨dir,member,List.isPrefixOf_iff_prefix.mpr ((List.isPrefixOf_iff_prefix.mp above).trans below)⟩
              rw [inside] at unprotected
              cases unprotected
    · intro sealed more archives host disk caller request same
      rw [restrict_all_readOnly sealed more] at same
      exact perform_readOnly archives host disk same request

theorem second_jail_widens : ¬ ∀ allowedRoots readOnly chain extraRoot protectedDirs links,
    Narrows protectedDirs links (derived allowedRoots readOnly chain) extraRoot ∧ StaysReadOnly (derived allowedRoots readOnly chain) := by
  intro always
  have narrows := (always [ascii "/a"] false [.jailed (ascii "/b")] (ascii "/c") [] 40).1
  have resolved : resolve ⟨[],[],40,fun _ => .error .notExist⟩ ((derived [ascii "/a"] false [.jailed (ascii "/b")]).jailed (ascii "/c")) (ascii "/c") = .ok ["c"] := by decide
  have before := narrows _ _ _ _ resolved
  have denied : resolve ⟨[],[],40,fun _ => .error .notExist⟩ (derived [ascii "/a"] false [.jailed (ascii "/b")]) (ascii "/c") = .error .forbidden := by decide
  rw [denied] at before
  cases before

end RemoteFileExplorer.JailChains
