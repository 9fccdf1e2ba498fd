import RemoteFileExplorer.FileOps
import RemoteFileExplorer.TreeCopies

namespace RemoteFileExplorer.Overwrites
open FileTree Jail TreeEdits PercentCodes Procedures FileCalls TreeCopies
open Trash hiding carry
open FileOps (BatchCode asideName SecurePath.child)

def removable (path : SecurePath) : Bool := path.root ≠ some path.full

-- Both sides below one root, and neither the root itself.
def movable (src dst : SecurePath) : Bool := src.root = dst.root && removable src && removable dst

inductive Shifted where
  | moved
  | failed
  | kept
  deriving DecidableEq, Repr

section Programs
variable {across : Path → Path → Bool} (narrow : Path → Bool) (depth : Nat)

def renameTo (src dst : SecurePath) : Task across Unit :=
  if movable src dst then do
    let reply ← rename src.full dst.full dst.root.isSome
    if reply = .moved then pure () else fail
  else fail

def removePath (path : SecurePath) : Task across Unit := if removable path then removeAll depth path.full else fail

def moveAside (dst aside : SecurePath) : Task across Unit := do
  (call .random : Task across Unit)
  renameTo dst aside

def restoreAside (dst : SecurePath) : Option SecurePath → Task across Unit
  | none => pure ()
  | some aside => do
    let _ ← (removePath depth dst).attempt
    let _ ← (renameTo aside dst).attempt
    pure ()

def discardAside : Option SecurePath → Task across Unit
  | none => pure ()
  | some aside => do
    let _ ← (removePath depth aside).attempt
    pure ()

-- The replaced destination is set aside. A look at the destination that fails
-- counts as nothing found.
def makeWay (src dst aside : SecurePath) (failure : BatchCode) (go : Option SecurePath → Task across (Option BatchCode)) :
    Task across (Option BatchCode) := do
  let found ← (lstat dst.full).attempt
  match found with
  | some (some _) =>
    if isUnder src.full dst.full then pure (some .CONFLICT) else
      let moved ← (moveAside dst aside).attempt
      match moved with
      | none => pure (some failure)
      | some _ => go (some aside)
  | _ => go none

def putCopy (src dst : SecurePath) (backup : Option SecurePath) : Task across (Option BatchCode) := do
  let copied ← (copySecureRecursive narrow depth src.full dst.full).attempt
  match copied with
  | none =>
    restoreAside depth dst backup
    pure (some .COPY_FAILED)
  | some _ =>
    discardAside depth backup
    pure none

def isFolder : Option (Option Item) → Bool
  | some (some .dir) => true
  | _ => false

-- The base of the root is the separator, which adds nothing to a path.
def target (src dstDir : SecurePath) : SecurePath := if src.full = [] then dstDir else SecurePath.child dstDir (baseName src.full)

def asidePath (dstDir : SecurePath) (hex : Name) : SecurePath := SecurePath.child dstDir (asideName hex)

-- Copy with overwrite and without duplicate, of one source. The paths are as
-- accessPair has resolved them, and `hex` are the random digits.
def copyOver (src dstDir : SecurePath) (hex : Name) : Task across (Option BatchCode) := do
  let dst := target src dstDir
  let info ← (lstat src.full).attempt
  if isFolder info && isUnder dstDir.full src.full then pure (some .CONFLICT) else
    if src.full = dst.full then pure none else
      makeWay src dst (asidePath dstDir hex) .COPY_FAILED (putCopy narrow depth src dst)

-- A copy that is complete stays, also when the source could not be removed.
def moveAcrossRootsSecure (src dst : SecurePath) : Task across Shifted :=
  if removable src && removable dst then do
    let reply ← (renameNoReplace src.full dst.full).attempt
    match reply with
    | some .moved => pure .moved
    | some .crossDevice =>
      let copied ← (copySecureRecursive narrow depth src.full dst.full).attempt
      match copied with
      | none =>
        let _ ← (removePath depth dst).attempt
        pure .failed
      | some _ =>
        let removed ← (removePath depth src).attempt
        match removed with
        | some _ => pure .moved
        | none =>
          let left ← (lstat src.full).attempt
          pure (if left = some none then .moved else .kept)
    | _ => pure .failed
  else pure .failed

def shift (src dst : SecurePath) : Task across Shifted := do
  let renamed ← (renameTo src dst).attempt
  match renamed with
  | some _ => pure .moved
  | none => if src.root = dst.root then pure .failed else moveAcrossRootsSecure narrow depth src dst

def putMove (src dstDir dst : SecurePath) (backup : Option SecurePath) : Task across (Option BatchCode) := do
  let made ← (mkdirAll dstDir.full).attempt
  match made with
  | none =>
    restoreAside depth dst backup
    pure (some .MOVE_FAILED)
  | some _ =>
    let shifted ← shift narrow depth src dst
    match shifted with
    | .moved =>
      discardAside depth backup
      pure none
    | .kept =>
      discardAside depth backup
      pure (some .MOVE_FAILED)
    | .failed =>
      restoreAside depth dst backup
      pure (some .MOVE_FAILED)

def moveOver (src dstDir : SecurePath) (hex : Name) : Task across (Option BatchCode) := do
  let dst := target src dstDir
  if src.full = dst.full then pure none else
    if isUnder dst.full src.full then pure (some .MOVE_FAILED) else
      makeWay src dst (asidePath dstDir hex) .MOVE_FAILED (putMove narrow depth src dstDir dst)

end Programs

def Stands (d after : Files) (before now : Path) : Prop := ∀ rest, look after (now ++ rest) = look d (before ++ rest)

structure Renamed (d after : Files) (src dst : Path) : Prop where
  arrived : Stands d after src dst
  left : ∀ rest, ¬ dst <+: src ++ rest → look after (src ++ rest) = none
  other : ∀ path, ¬ src <+: path → ¬ dst <+: path → look after path = look d path
  bare : src ≠ dst → ∀ rest, rest ≠ [] → look d (dst ++ rest) = none
  apart : src ≠ dst → ¬ src <+: dst

section Renaming
variable {across : Path → Path → Bool} {ok : Files → (store across).Action → Outcome → Prop} {d : Files}

theorem replaces_bare {jailed : Bool} {node : Node Bytes} {dst : Path} (allowed : replaces jailed node (nodeAt d.root dst) = true) {rest : Path} (strict : rest ≠ []) :
    look d (dst ++ rest) = none := by
  rw [look_none,nodeAt_append]
  cases stored : nodeAt d.root dst with
  | none => rfl
  | some there =>
    obtain ⟨name,rest,rfl⟩ := List.exists_cons_of_ne_nil strict
    cases there with
    | file data => rfl
    | link target => rfl
    | dir entries =>
      cases entries with
      | nil => rfl
      | cons entry entries =>
        rw [stored] at allowed
        cases allowed

theorem carry_cases (d : Files) (src front : Path) (name : Name) (different jailed : Bool) :
    (carry d src (front ++ [name]) different jailed).1 = d ∧ (carry d src (front ++ [name]) different jailed).2 ≠ .moved ∨
      (carry d src (front ++ [name]) different jailed).2 = .moved ∧ Renamed d (carry d src (front ++ [name]) different jailed).1 src (front ++ [name]) := by
  unfold carry
  cases stored : nodeAt d.root src with
  | none => exact .inl ⟨rfl,nofun⟩
  | some node =>
    dsimp only
    split
    · exact .inl ⟨rfl,nofun⟩
    · rename_i proper
      split
      · -- the same name: what was there is there
        rename_i same
        subst same
        split
        · refine .inr ⟨rfl,fun _ => rfl,?_,fun _ _ _ => rfl,fun differs => absurd rfl differs,fun differs => absurd rfl differs⟩
          intro rest apart
          exact absurd (List.prefix_append _ rest) apart
        · exact .inl ⟨rfl,nofun⟩
      · split
        · exact .inl ⟨rfl,nofun⟩
        · rename_i fits
          split
          · exact .inl ⟨rfl,nofun⟩
          · rename_i allowed
            split
            · exact .inl ⟨rfl,nofun⟩
            · right
              simp only [not_or,not_not,List.dropLast_concat] at fits proper
              obtain ⟨apart,parent⟩ := fits
              have parent_ : look (edit none src d) front = some .dir := by
                rw [look_edit_outside (fun below => apart (below.trans (List.prefix_append _ _)))]
                exact parent
              refine ⟨rfl,?_,?_,?_,?_,fun _ => apart⟩
              · intro rest
                rw [look_edit_at parent_,look,nodeAt_append,stored]
              · intro rest away
                rw [look_edit_outside away,look_none]
                exact nodeAt_cut d proper.1 rest
              · intro path one two
                rw [look_edit_outside two,look_edit_outside one]
              · intro _ rest strict
                exact replaces_bare (by simpa using allowed) strict

theorem renameTo_meets (src dst : SecurePath) (front : Path) (name : Name) (full : dst.full = front ++ [name]) :
    Meets ok (fun _ => True) (renameTo src dst : Task across Unit) d fun after result =>
      (after = d ∧ result = none) ∨ (movable src dst = true ∧ Renamed d after src.full dst.full ∧ result = some ()) := by
  unfold renameTo
  split
  · rename_i allowed
    refine meets_bind (meets_call (.inl ⟨rfl,rfl⟩) ?_)
    have judged : perform across (.rename src.full dst.full dst.root.isSome) d = carry d src.full dst.full (across src.full dst.full) dst.root.isSome := rfl
    rw [judged]
    rw [full]
    dsimp only [Option.elim]
    rcases carry_cases d src.full front name (across src.full (front ++ [name])) dst.root.isSome with ⟨stays,blocked⟩ | ⟨moved,renamed⟩
    · rw [if_neg blocked,stays]
      exact .inl ⟨rfl,rfl⟩
    · rw [if_pos moved]
      exact .inr ⟨allowed,renamed,rfl⟩
  · exact .inl ⟨rfl,rfl⟩

theorem removePath_outside (depth : Nat) (path : SecurePath) (d : Files) :
    Meets ok (fun _ => True) (removePath depth path : Task across Unit) d fun after _ => Outside path.full d after := by
  unfold removePath
  split
  · exact removeAll_outside depth path.full d
  · exact outside_refl _ d

end Renaming

inductive Kind where
  | copy
  | move
  deriving DecidableEq, Repr

def Settled (kind : Kind) (d after : Files) (src dst : Path) : Prop :=
  Stands d after src dst ∨ (Stands d after dst dst ∧ (kind = .move → Stands d after src src))

structure Site (d : Files) (src front dst aside : Path) : Prop where
  source : look d src ≠ none
  stood : look d dst ≠ none
  named : ∃ base, dst = front ++ [base]
  hidden : ∃ name, aside = front ++ [name]
  differs : dst ≠ aside
  clear : src ≠ aside

section Sites
variable {d now after : Files} {src front dst aside : Path}

theorem site_parent (site : Site d src front dst aside) : look d front = some .dir := by
  obtain ⟨base,rfl⟩ := site.named
  exact look_above site.stood (List.cons_ne_nil _ [])

theorem site_beside (site : Site d src front dst aside) (rest : Path) : ¬ dst <+: aside ++ rest ∧ ¬ aside <+: dst ++ rest := by
  have differs := site.differs
  obtain ⟨base,rfl⟩ := site.named
  obtain ⟨name,rfl⟩ := site.hidden
  have differs : base ≠ name := fun same => differs (by rw [same])
  rw [List.append_assoc,List.append_assoc]
  exact ⟨beside_apart differs front rest,beside_apart differs.symm front rest⟩

section
variable (site : Site d src front dst aside) (set : Renamed d now dst aside)
include site set

theorem source_clear (left : ¬ src <+: dst) (right : ¬ dst <+: src) (rest : Path) :
    ¬ dst <+: src ++ rest ∧ ¬ aside <+: src ++ rest := by
  have above : ¬ aside <+: src := by
    rintro ⟨more,whole⟩
    by_cases here : more = []
    · rw [here,List.append_nil] at whole
      exact site.clear whole.symm
    · exact site.source (whole ▸ set.bare site.differs more here)
  have below : ¬ src <+: aside := by
    obtain ⟨base,rfl⟩ := site.named
    obtain ⟨name,rfl⟩ := site.hidden
    intro inside
    rcases List.prefix_concat_iff.mp inside with rfl | within
    · exact above (List.prefix_refl _)
    · exact left (within.trans (List.prefix_append _ _))
  have one := folders_apart left right rest []
  have two := folders_apart below above rest []
  rw [List.append_nil] at one two
  exact ⟨one,two⟩

theorem source_set (left : ¬ src <+: dst) (right : ¬ dst <+: src) : Stands d now src src := by
  intro rest
  obtain ⟨one,two⟩ := source_clear site set left right rest
  exact set.other _ one two

theorem set_parent : look now front = some .dir := by
  have standing := site_parent site
  obtain ⟨base,rfl⟩ := site.named
  obtain ⟨name,rfl⟩ := site.hidden
  exact (set.other front (above_outside _ _) (above_outside _ _)).trans standing

theorem set_free : look now dst = none := by
  have gone := set.left [] (site_beside site []).2
  rwa [List.append_nil] at gone

end

-- What has arrived while the old destination was aside, and what the removal of
-- the old one leaves of it.
theorem arrived_kept {last : Files} (site : Site d src front dst aside) (set : Renamed d now dst aside) (left : ¬ src <+: dst) (right : ¬ dst <+: src)
    (arrived : Stands now after src dst) (discarded : Outside aside after last) : Stands d last src dst := by
  intro rest
  rw [discarded _ (site_beside site rest).2,arrived rest]
  exact source_set site set left right rest

end Sites

section Meeting
variable {across : Path → Path → Bool} {ok : Files → (store across).Action → Outcome → Prop} {d now after : Files} {src dst aside dstDir : SecurePath}
  {narrow : Path → Bool} {depth : Nat} {kind : Kind}

def Restores (across : Path → Path → Bool) (dst aside : Path) (d : Files) (c : Call) (outcome : Outcome) : Prop :=
  ∀ jailed, c = .rename aside dst jailed → outcome = .done ∧ (carry d aside dst (across aside dst) jailed).2 = .moved

def Seen (dst : Path) (d : Files) (c : Call) (outcome : Outcome) : Prop := c = .lstat dst → look d dst ≠ none → outcome = .done

instance (across : Path → Path → Bool) (dst aside : Path) (d : Files) (c : Call) (outcome : Outcome) : Decidable (Restores across dst aside d c outcome) :=
  inferInstanceAs (Decidable (∀ jailed, c = .rename aside dst jailed → outcome = .done ∧ (carry d aside dst (across aside dst) jailed).2 = .moved))

instance (dst : Path) (d : Files) (c : Call) (outcome : Outcome) : Decidable (Seen dst d c outcome) :=
  inferInstanceAs (Decidable (c = .lstat dst → look d dst ≠ none → outcome = .done))

theorem movable_back (allowed : movable dst aside = true) : movable aside dst = true := by
  simp only [movable,Bool.and_eq_true,decide_eq_true_eq] at allowed ⊢
  exact ⟨⟨allowed.1.1.symm,allowed.2⟩,allowed.1.2⟩

theorem restore_meets (site : Site d src.full front dst.full aside.full)
    (restores : ∀ d c outcome, ok d c outcome → Restores across dst.full aside.full d c outcome)
    (set : Renamed d now dst.full aside.full) (allowed : movable dst aside = true) (outside : Outside dst.full now after) :
    Meets ok (fun _ => True) (restoreAside depth dst (some aside) : Task across Unit) after fun last _ =>
      Stands d last dst.full dst.full ∧ ∀ path, ¬ dst.full <+: path → ¬ aside.full <+: path → look last path = look d path := by
  refine meets_bind (meets_attempt (meets_imp ?_ (removePath_outside depth dst after)))
  intro cleared result removed
  have apart := outside_trans outside removed
  refine meets_bind (meets_attempt ?_)
  have goes : renameTo aside dst = (do
      let reply ← rename aside.full dst.full dst.root.isSome
      if reply = .moved then pure () else fail : Task across Unit) := if_pos (movable_back allowed)
  rw [goes]
  refine meets_bind ⟨fun _ => trivial,?_,?_⟩
  · intro refused
    cases (restores cleared _ _ refused _ rfl).1
  · intro performed
    have moved := (restores cleared _ _ performed _ rfl).2
    obtain ⟨base,named⟩ := site.named
    have back : Renamed cleared (carry cleared aside.full dst.full (across aside.full dst.full) dst.root.isSome).1 aside.full dst.full := by
      rw [named] at moved ⊢
      rcases carry_cases cleared aside.full front base _ _ with ⟨_,blocked⟩ | ⟨_,renamed⟩
      · exact absurd moved blocked
      · exact renamed
    change Meets ok _ (if (carry cleared aside.full dst.full (across aside.full dst.full) dst.root.isSome).2 = .moved then pure () else fail)
      (carry cleared aside.full dst.full (across aside.full dst.full) dst.root.isSome).1 _
    rw [if_pos moved]
    refine ⟨?_,?_⟩
    · intro rest
      rw [back.arrived rest,apart _ (site_beside site rest).1]
      exact set.arrived rest
    · intro path one two
      rw [back.other path two one,apart path one]
      exact set.other path one two

theorem discard_meets (aside : SecurePath) (d : Files) :
    Meets ok (fun _ => True) (discardAside depth (some aside) : Task across Unit) d fun after _ => Outside aside.full d after :=
  meets_bind (meets_attempt (meets_imp (fun _ _ apart => apart) (removePath_outside depth aside d)))

theorem makeWay_meets {name : Name} (stood : look d dst.full ≠ none) (hidden : aside.full = front ++ [name])
    (seen : ∀ outcome, ok d (.lstat dst.full) outcome → Seen dst.full d (.lstat dst.full) outcome)
    {failure : BatchCode} {go : Option SecurePath → Task across (Option BatchCode)} {post : Files → Option (Option BatchCode) → Prop}
    (unchanged : ∀ result, post d result)
    (goes : ∀ now, Renamed d now dst.full aside.full → movable dst aside = true → ¬ dst.full <+: src.full → Meets ok (fun _ => True) (go (some aside)) now post) :
    Meets ok (fun _ => True) (makeWay src dst aside failure go) d post := by
  obtain ⟨it,found⟩ := Option.ne_none_iff_exists'.mp stood
  refine meets_bind (meets_attempt ⟨fun _ => trivial,?_,?_⟩)
  · intro refused
    cases seen _ refused rfl stood
  · intro _
    change Meets ok _ (match some (look d dst.full) with
      | some (some _) => _
      | _ => go none) d post
    rw [found]
    dsimp only
    split
    · exact unchanged _
    · rename_i apart
      refine meets_bind (meets_attempt (meets_bind (meets_call (unchanged _) ?_)))
      refine meets_imp ?_ (renameTo_meets dst aside front name hidden)
      rintro now result (⟨rfl,rfl⟩ | ⟨allowed,renamed,rfl⟩)
      · exact unchanged _
      · exact goes now renamed allowed fun below => apart (List.isPrefixOf_iff_prefix.mpr below)

theorem putCopy_meets (site : Site d src.full front dst.full aside.full)
    (restores : ∀ d c outcome, ok d c outcome → Restores across dst.full aside.full d c outcome)
    (set : Renamed d now dst.full aside.full) (allowed : movable dst aside = true) (clear : ¬ dst.full <+: src.full) :
    Meets ok (fun _ => True) (putCopy narrow depth src dst (some aside) : Task across (Option BatchCode)) now fun after _ => Settled .copy d after src.full dst.full := by
  obtain ⟨base,named⟩ := site.named
  have copied : Meets ok (fun _ => True) (copySecureRecursive narrow depth src.full (front ++ [base]) : Task across Unit) now _ :=
    copy_meets narrow depth now src.full front base (set_parent site set) (by rw [← named]; exact set_free site set)
  rw [← named] at copied
  refine meets_bind (meets_attempt (meets_imp ?_ copied))
  intro after result made
  cases result with
  | none =>
    refine meets_bind (meets_imp ?_ (restore_meets site restores set allowed made.outside))
    rintro last result ⟨back,_⟩
    cases result with
    | none | some _ => exact .inr ⟨back,nofun⟩
  | some _ =>
    refine meets_bind (meets_imp ?_ (discard_meets aside after))
    intro last result discarded
    have kept := arrived_kept site set (made.apart rfl) clear (made.same rfl) discarded
    cases result with
    | none | some _ => exact .inl kept

def Shifting (d : Files) (src dst : Path) (after : Files) : Option Shifted → Prop
  | none => False
  | some .failed => Outside dst d after
  | some _ => Stands d after src dst

theorem renameNoReplace_meets {base : Name} (free : look d (front ++ [base]) = none) :
    Meets ok (fun _ => True) (renameNoReplace src.full (front ++ [base]) : Task across Renaming) d fun after result =>
      (after = d ∧ result ≠ some .moved) ∨ (result = some .moved ∧ Renamed d after src.full (front ++ [base])) := by
  refine meets_call (.inl ⟨rfl,nofun⟩) ?_
  have judged : perform across (.renameNoReplace src.full (front ++ [base])) d = carry d src.full (front ++ [base]) (across src.full (front ++ [base])) true := by
    change (if (look d (front ++ [base])).isSome then (d,Renaming.blocked) else _) = _
    rw [free]
    rfl
  rw [judged]
  rcases carry_cases d src.full front base (across src.full (front ++ [base])) true with ⟨stays,blocked⟩ | ⟨moved,renamed⟩
  · exact .inl ⟨stays,fun same => blocked (Option.some.inj same)⟩
  · exact .inr ⟨congrArg some moved,renamed⟩

section
variable (parent : look d front = some .dir) (named : dst.full = front ++ [base]) (free : look d dst.full = none) (left : ¬ src.full <+: dst.full) (right : ¬ dst.full <+: src.full)
include parent named free left right

theorem moveAcross_meets :
    Meets ok (fun _ => True) (moveAcrossRootsSecure narrow depth src dst : Task across Shifted) d (Shifting d src.full dst.full) := by
  have nothing : Shifting d src.full dst.full d (some .failed) := outside_refl _ d
  unfold moveAcrossRootsSecure
  split
  · rw [named] at free
    have renamed : Meets ok (fun _ => True) (renameNoReplace src.full (front ++ [base]) : Task across Renaming) d _ := renameNoReplace_meets free
    rw [← named] at renamed free
    refine meets_bind (meets_attempt (meets_imp ?_ renamed))
    rintro after reply (⟨rfl,blocked⟩ | ⟨rfl,there⟩)
    · rcases reply with _ | _ | _ | _
      · exact nothing
      · exact absurd rfl blocked
      · exact nothing
      · rw [named] at free
        have copied : Meets ok (fun _ => True) (copySecureRecursive narrow depth src.full (front ++ [base]) : Task across Unit) after _ :=
          copy_meets narrow depth after src.full front base parent free
        rw [← named] at copied
        refine meets_bind (meets_attempt (meets_imp ?_ copied))
        intro made result copy
        cases result with
        | none =>
          refine meets_bind (meets_attempt (meets_imp ?_ (removePath_outside depth dst made)))
          intro last _ removed
          exact outside_trans copy.outside removed
        | some _ =>
          refine meets_bind (meets_attempt (meets_imp ?_ (removePath_outside depth src made)))
          intro last result removed
          have kept : Stands after last src.full dst.full := by
            intro rest
            have apart := folders_apart right left rest []
            rw [List.append_nil] at apart
            rw [removed _ apart]
            exact copy.same rfl rest
          cases result with
          | some _ => exact kept
          | none =>
            have either (seen : Option (Option Item)) : Shifting after src.full dst.full last (some (if seen = some none then .moved else .kept)) := by
              split
              · exact kept
              · exact kept
            exact meets_bind (meets_attempt (meets_call (either none) (either _)))
    · exact there.arrived
  · exact nothing

theorem shift_meets :
    Meets ok (fun _ => True) (shift narrow depth src dst : Task across Shifted) d (Shifting d src.full dst.full) := by
  refine meets_bind (meets_attempt (meets_imp ?_ (renameTo_meets src dst front base named)))
  rintro after result (⟨rfl,rfl⟩ | ⟨_,there,rfl⟩)
  · split
    · exact outside_refl _ after
    · exact moveAcross_meets parent named free left right
  · exact there.arrived

end

theorem putMove_meets (site : Site d src.full dstDir.full dst.full aside.full)
    (restores : ∀ d c outcome, ok d c outcome → Restores across dst.full aside.full d c outcome)
    (set : Renamed d now dst.full aside.full) (allowed : movable dst aside = true) (left : ¬ src.full <+: dst.full) (right : ¬ dst.full <+: src.full) :
    Meets ok (fun _ => True) (putMove narrow depth src dstDir dst (some aside) : Task across (Option BatchCode)) now fun after _ =>
      Settled .move d after src.full dst.full := by
  have restored {after : Files} (outside : Outside dst.full now after) :
      Meets ok (fun _ => True) (do
        restoreAside depth dst (some aside)
        pure (some .MOVE_FAILED) : Task across (Option BatchCode)) after fun last _ => Settled .move d last src.full dst.full := by
    refine meets_bind (meets_imp ?_ (restore_meets site restores set allowed outside))
    rintro last result ⟨back,other⟩
    have settled : Settled .move d last src.full dst.full := by
      refine .inr ⟨back,fun _ rest => ?_⟩
      obtain ⟨one,two⟩ := source_clear site set left right rest
      exact other _ one two
    cases result with
    | none | some _ => exact settled
  have discarded {after : Files} (code : Option BatchCode) (arrived : Stands now after src.full dst.full) :
      Meets ok (fun _ => True) (do
        discardAside depth (some aside)
        pure code : Task across (Option BatchCode)) after fun last _ => Settled .move d last src.full dst.full := by
    refine meets_bind (meets_imp ?_ (discard_meets aside after))
    intro last result gone
    have kept := arrived_kept site set left right arrived gone
    cases result with
    | none | some _ => exact .inl kept
  obtain ⟨base,named⟩ := site.named
  refine meets_bind (meets_attempt (meets_imp ?_ (mkdirAll_stands (set_parent site set))))
  rintro after result (⟨rfl,rfl⟩ | ⟨rfl,rfl⟩)
  · exact restored (outside_refl _ after)
  · refine meets_bind (meets_imp ?_ (shift_meets (set_parent site set) named (set_free site set) left right))
    intro middle result way
    rcases result with _ | _ | _ | _
    · cases way
    · exact discarded none way
    · exact restored way
    · exact discarded (some .MOVE_FAILED) way

theorem target_site {hex : Name} (source : look d src.full ≠ none) (stood : look d (target src dstDir).full ≠ none)
    (differs : (target src dstDir).full ≠ (asidePath dstDir hex).full) (proper : src.full ≠ []) :
    Site d src.full dstDir.full (target src dstDir).full (asidePath dstDir hex).full := by
  have named : (target src dstDir).full = dstDir.full ++ [baseName src.full] := by rw [target,if_neg proper]; rfl
  refine ⟨source,stood,⟨_,named⟩,⟨asideName hex,rfl⟩,differs,?_⟩
  intro same
  apply differs
  have last : baseName src.full = asideName hex := by
    rw [same]
    simp [baseName,asidePath,SecurePath.child]
  rw [named,last]
  rfl

theorem settled_unchanged (kind : Kind) (d : Files) (src dst : Path) : Settled kind d d src dst := .inr ⟨fun _ => rfl,fun _ _ => rfl⟩

theorem copyOver_meets {hex : Name} (source : look d src.full ≠ none) (stood : look d (target src dstDir).full ≠ none)
    (differs : (target src dstDir).full ≠ (asidePath dstDir hex).full)
    (restores : ∀ d c outcome, ok d c outcome → Restores across (target src dstDir).full (asidePath dstDir hex).full d c outcome)
    (seen : src.full ≠ (target src dstDir).full → ∀ d c outcome, ok d c outcome → Seen (target src dstDir).full d c outcome) :
    Meets ok (fun _ => True) (copyOver narrow depth src dstDir hex : Task across (Option BatchCode)) d fun after _ =>
      Settled .copy d after src.full (target src dstDir).full := by
  have unchanged := settled_unchanged .copy d src.full (target src dstDir).full
  have overwritten : Meets ok (fun _ => True) (if src.full = (target src dstDir).full then pure none else
      makeWay src (target src dstDir) (asidePath dstDir hex) .COPY_FAILED (putCopy narrow depth src (target src dstDir)) : Task across (Option BatchCode))
      d fun after _ => Settled .copy d after src.full (target src dstDir).full := by
    split
    · exact unchanged
    · rename_i other
      refine makeWay_meets stood rfl (fun outcome allowed => seen other d _ outcome allowed) (fun _ => unchanged) ?_
      intro now set allowed clear
      by_cases proper : src.full = []
      · -- the root is copied into a folder, which cannot be set aside in itself
        have same : (target src dstDir).full = dstDir.full := by rw [target,if_pos proper]
        refine absurd ?_ (set.apart differs)
        rw [same]
        exact List.prefix_append _ _
      · exact putCopy_meets (target_site source stood differs proper) restores set allowed clear
  refine meets_bind (meets_attempt (meets_call ?_ ?_))
  · exact overwritten
  · dsimp only [Option.elim]
    split
    · exact unchanged
    · exact overwritten

theorem moveOver_meets {hex : Name} (source : look d src.full ≠ none) (stood : look d (target src dstDir).full ≠ none)
    (differs : (target src dstDir).full ≠ (asidePath dstDir hex).full)
    (restores : ∀ d c outcome, ok d c outcome → Restores across (target src dstDir).full (asidePath dstDir hex).full d c outcome)
    (seen : src.full ≠ (target src dstDir).full → ∀ d c outcome, ok d c outcome → Seen (target src dstDir).full d c outcome) :
    Meets ok (fun _ => True) (moveOver narrow depth src dstDir hex : Task across (Option BatchCode)) d fun after _ =>
      Settled .move d after src.full (target src dstDir).full := by
  have unchanged := settled_unchanged .move d src.full (target src dstDir).full
  unfold moveOver
  dsimp only
  split
  · exact unchanged
  · rename_i other
    split
    · exact unchanged
    · rename_i contained
      have left : ¬ src.full <+: (target src dstDir).full := fun below => contained (List.isPrefixOf_iff_prefix.mpr below)
      have proper : src.full ≠ [] := by
        intro root
        rw [root] at left
        exact left List.nil_prefix
      refine makeWay_meets stood rfl (fun outcome allowed => seen other d _ outcome allowed) (fun _ => unchanged) ?_
      intro now set allowed clear
      exact putMove_meets (target_site source stood differs proper) restores set allowed left clear

end Meeting

def overwrite {across : Path → Path → Bool} (narrow : Path → Bool) (depth : Nat) : Kind → SecurePath → SecurePath → Name → Task across (Option BatchCode)
  | .copy,src,dstDir,hex => copyOver narrow depth src dstDir hex
  | .move,src,dstDir,hex => moveOver narrow depth src dstDir hex

-- Whatever calls fail, as long as none of the looks at the destination does and
-- the random name is another than the destination's.
theorem overwrite_settled (across : Path → Path → Bool) (narrow : Path → Bool) (depth : Nat) (kind : Kind) (src dstDir : SecurePath) (hex : Name) (d last : Files)
    (outcomes : List Outcome) (result : Option (Option BatchCode)) (source : look d src.full ≠ none) (stood : look d (target src dstDir).full ≠ none)
    (executed : execute (overwrite narrow depth kind src dstDir hex : Task across (Option BatchCode)) d outcomes = some (last,result))
    (restores : Along (Restores across (target src dstDir).full (asidePath dstDir hex).full)
      (overwrite narrow depth kind src dstDir hex : Task across (Option BatchCode)) d outcomes)
    (seen : src.full ≠ (target src dstDir).full →
      Along (Seen (target src dstDir).full) (overwrite narrow depth kind src dstDir hex : Task across (Option BatchCode)) d outcomes)
    (differs : (target src dstDir).full ≠ (asidePath dstDir hex).full) :
    Settled kind d last src.full (target src dstDir).full := by
  let ok : Files → Call → Outcome → Prop := fun d c outcome => Restores across (target src dstDir).full (asidePath dstDir hex).full d c outcome ∧
    (src.full ≠ (target src dstDir).full → Seen (target src dstDir).full d c outcome)
  have both : Along ok (overwrite narrow depth kind src dstDir hex : Task across (Option BatchCode)) d outcomes := by
    by_cases same : src.full = (target src dstDir).full
    · exact along_imp (fun d c outcome restores => ⟨restores,fun other => absurd same other⟩) restores
    · exact along_imp (fun d c outcome both => ⟨both.1,fun _ => both.2⟩) (along_and restores (seen same))
  have settles : Meets ok (fun _ => True) (overwrite narrow depth kind src dstDir hex : Task across (Option BatchCode)) d fun after _ =>
      Settled kind d after src.full (target src dstDir).full := by
    cases kind with
    | copy => exact copyOver_meets source stood differs (fun _ _ _ both => both.1) fun other _ _ _ both => both.2 other
    | move => exact moveOver_meets source stood differs (fun _ _ _ both => both.1) fun other _ _ _ both => both.2 other
  exact meets_execute (fun _ => True) settles both executed

def twoFolders : Files := [("s",.dir [("a",.file [1])]),("t",.dir [("a",.file [2,3])])]
def fileInOne : SecurePath := ⟨["s","a"],none⟩
def otherFolder : SecurePath := ⟨["t"],none⟩
def copying : Task (fun _ _ => false) (Option BatchCode) := overwrite (fun _ => false) 3 .copy fileInOne otherFolder "0"

def writeFails : List Outcome := [.done,.done,.done,.done,.done,.done,.done,.done,.done,.done,.refused,.done,.done]

theorem overwrite_brought_back : ∃ last, execute copying twoFolders writeFails = some (last,some (some .COPY_FAILED)) ∧
    Settled .copy twoFolders last fileInOne.full (target fileInOne otherFolder).full := by
  have executed : execute copying twoFolders writeFails = some ([("t",.dir [("a",.file [2,3])]),("s",.dir [("a",.file [1])])],some (some .COPY_FAILED)) := rfl
  refine ⟨_,executed,?_⟩
  exact overwrite_settled _ _ 3 .copy fileInOne otherFolder "0" twoFolders _ writeFails _ (by decide) (by decide) executed (by decide) (fun _ => by decide) (by decide)

def unseen : List Outcome := [.done,.refused,.done,.done,.done,.done,.done,.refused]

theorem overwrite_cut_short : ∃ last, execute copying twoFolders unseen = some (last,some (some .COPY_FAILED)) ∧
    Along (Restores (fun _ _ => false) (target fileInOne otherFolder).full (asidePath otherFolder "0").full) copying twoFolders unseen ∧
    ¬ Settled .copy twoFolders last fileInOne.full (target fileInOne otherFolder).full := by
  refine ⟨[("t",.dir [("a",.file [])]),("s",.dir [("a",.file [1])])],rfl,?_,?_⟩
  · decide
  · rintro (arrived | ⟨stayed,_⟩)
    · cases arrived []
    · cases stayed []

-- A move to a free place either brings all of the item there or leaves the item
-- where it was and all else alone.
theorem shift_settles {across : Path → Path → Bool} {src dst : SecurePath} (narrow : Path → Bool) (depth : Nat) (parent : look d front = some .dir)
    (named : dst.full = front ++ [base]) (free : look d dst.full = none) (left : ¬ src.full <+: dst.full) (right : ¬ dst.full <+: src.full)
    (executed : execute (shift narrow depth src dst : Task across Shifted) d outcomes = some (last,result)) : Shifting d src.full dst.full last result :=
  meets_execute (fun _ => True) (shift_meets parent named free left right) (along_always fun _ _ _ => trivial) executed

theorem other_root_settles : ∃ last, Shifting twoFolders ["s","a"] ["t","b"] last (some .moved) := by
  have executed : execute (shift (fun _ => false) 3 ⟨["s","a"],some ["s"]⟩ ⟨["t"] ++ ["b"],some ["t"]⟩ : Task (fun _ _ => true) Shifted) twoFolders
      (List.replicate 9 .done) = some (_,some .moved) := rfl
  exact ⟨_,shift_settles _ 3 rfl rfl rfl (by decide) (by decide) executed⟩

end RemoteFileExplorer.Overwrites
