import RemoteFileExplorer.FileCalls

namespace RemoteFileExplorer.TreeCopies
open FileTree Jail TreeEdits Procedures Trash FileCalls

structure Copied (src dst : Path) (d after : Files) (result : Option Unit) : Prop where
  outside : Outside dst d after
  apart : result = some () → ¬ src <+: dst
  same : result = some () → ∀ rest, look after (dst ++ rest) = look d (src ++ rest)

section Leaves
variable {d after : Files} {src front place : Path} {name : Name} {it : Item}

theorem copied_none (outside : Outside place d after) : Copied src place d after none := ⟨outside,nofun,nofun⟩

theorem names_mem (listed : names d place = some entries) : name ∈ entries ↔ look d (place ++ [name]) ≠ none := by
  unfold names at listed
  split at listed
  · rename_i stored stands
    cases listed
    rw [List.mem_dedup,Ne,look_none,nodeAt_snoc,stands]
    unfold Node.child Option.bind
    simp [List.find?_eq_none]
  · cases listed

theorem names_dir (listed : names d place = some entries) : look d place = some .dir ∧ entries.Nodup := by
  unfold names at listed
  split at listed
  · rename_i stored stands
    cases listed
    exact ⟨look_dir.mpr ⟨stored,stands⟩,List.nodup_dedup _⟩
  · cases listed

-- Nothing is above the new name but directories.
theorem leaf_apart (parent : look d front = some .dir) (free : look d (front ++ [name]) = none) (stands : look d src = some it) (leaf : it ≠ .dir) :
    ¬ src <+: front ++ [name] := by
  intro below
  rcases List.prefix_concat_iff.mp below with rfl | ⟨rest,rfl⟩
  · rw [free] at stands
    cases stands
  · by_cases here : rest = []
    · rw [here,List.append_nil,stands] at parent
      exact leaf (Option.some.inj parent)
    · rw [look_above (by rw [parent]; exact nofun) here] at stands
      exact leaf (Option.some.inj stands).symm

theorem leaf_same (stands : look d src = some it) (leaf : it ≠ .dir) (copy : look after place = some it) (rest : Path) :
    look after (place ++ rest) = look d (src ++ rest) := by
  by_cases here : rest = []
  · rw [here,List.append_nil,List.append_nil,stands,copy]
  · have plain : some it ≠ some Item.dir := fun same => leaf (Option.some.inj same)
    rw [look_leaf (by rwa [copy]) here,look_leaf (by rwa [stands]) here]

theorem leaf_copied (parent : look d front = some .dir) (free : look d (front ++ [name]) = none) (stands : look d src = some it) (leaf : it ≠ .dir)
    (outside : Outside (front ++ [name]) d after) (copy : result = some () → look after (front ++ [name]) = some it) :
    Copied src (front ++ [name]) d after result :=
  ⟨outside,fun _ => leaf_apart parent free stands leaf,fun done => leaf_same stands leaf (copy done)⟩

end Leaves

section Copies
variable {across : Path → Path → Bool} {ok : Files → (store across).Action → Outcome → Prop} {d : Files} {src front : Path} {name : Name}

section
variable (parent : look d front = some .dir) (free : look d (front ++ [name]) = none)
include parent free

theorem copyLink_meets (stands : look d src = some (.link target)) :
    Meets ok (fun _ => True) (copyLink src (front ++ [name]) : Task across Unit) d (Copied src (front ++ [name]) d) := by
  have nothing : Copied src (front ++ [name]) d d none := copied_none (outside_refl _ d)
  refine meets_bind (meets_call nothing ?_)
  refine meets_bind (orFail_meets (fun _ => nothing) ?_)
  intro read known
  have same : read = target := by
    have judged : (perform across (.readlink src) d).2 = some target := by
      rw [perform,stands]
    exact Option.some.inj (known.symm.trans judged)
  subst same
  rw [List.dropLast_concat]
  refine meets_bind (meets_imp ?_ (mkdirAll_stands parent))
  rintro after result (⟨rfl,rfl⟩ | ⟨rfl,rfl⟩)
  · exact nothing
  · have gone : perform across (.remove (front ++ [name])) after = (after,.notExist) := by
      simp only [perform,look_none.mp free]
    refine meets_bind (meets_call nothing ?_)
    rw [gone]
    refine meets_imp ?_ (symlink_meets parent free read)
    rintro last result (⟨rfl,rfl⟩ | ⟨rfl,rfl⟩)
    · exact nothing
    · exact leaf_copied parent free stands (by simp) (outside_edit _) fun _ => look_new parent _

theorem copyFile_meets (stands : look d src = some (.file data)) :
    Meets ok (fun _ => True) (copyFile src (front ++ [name]) : Task across Unit) d (Copied src (front ++ [name]) d) := by
  have nothing : Copied src (front ++ [name]) d d none := copied_none (outside_refl _ d)
  refine meets_bind (meets_call nothing ?_)
  refine meets_bind (orFail_meets (fun _ => nothing) ?_)
  intro read known
  have same : read = data := by
    have judged : (perform across (.opens src) d).2 = some (.file data) := by
      change (look d src).filter (fun item => !item.isLink) = some (.file data)
      rw [stands]
      rfl
    rw [judged] at known
    exact (Option.some.inj known).symm
  subst same
  rw [List.dropLast_concat]
  refine meets_bind (meets_imp ?_ (mkdirAll_stands parent))
  rintro after result (⟨rfl,rfl⟩ | ⟨rfl,rfl⟩)
  · exact nothing
  · refine meets_bind (meets_bind (meets_call nothing ?_))
    have none_ : (perform across (.lstat (front ++ [name])) after).2 = none := free
    rw [none_]
    refine meets_imp ?_ (create_meets parent free)
    rintro opened result (⟨rfl,rfl⟩ | ⟨rfl,rfl⟩)
    · exact nothing
    · refine meets_bind (meets_imp ?_ (writeAll_meets (look_new parent (.file [])) read))
      rintro written result ⟨outside,done⟩
      have all : Outside (front ++ [name]) after written := outside_trans (outside_edit _) outside
      cases result with
      | none => exact copied_none all
      | some _ =>
        refine meets_call (copied_none all) ?_
        exact leaf_copied parent free stands nofun all fun _ => done rfl

end

-- What the copies of some children of a folder leave. As long as neither folder
-- is in the other the source is what it was.
structure CopiedAll (src dst : Path) (entries : List Name) (d after : Files) (result : Option Unit) : Prop where
  outside : ∀ path, (∀ name ∈ entries, ¬ dst ++ [name] <+: path) → look after path = look d path
  apart : result = some () → ∀ name ∈ entries, ¬ src ++ [name] <+: dst ++ [name]
  same : result = some () → ¬ src <+: dst → ¬ dst <+: src → ∀ name ∈ entries, ∀ rest, look after (dst ++ name::rest) = look d (src ++ name::rest)

theorem beside_apart (differs : one ≠ other) (dst rest : Path) : ¬ dst ++ [one] <+: dst ++ other::rest := by
  intro below
  rw [List.prefix_append_right_inj] at below
  exact differs (List.cons_prefix_cons.mp below).1

theorem folders_apart (left : ¬ src <+: dst) (right : ¬ dst <+: src) (rest more : Path) : ¬ dst ++ more <+: src ++ rest := by
  intro below
  rcases List.prefix_or_prefix_of_prefix ((List.prefix_append dst more).trans below) (List.prefix_append src rest) with inside | inside
  · exact right inside
  · exact left inside

theorem copyAll_meets
    (one : ∀ (d : Files) (src front : Path) (name : Name), look d front = some .dir → look d (front ++ [name]) = none →
      Meets ok (fun _ => True) (copySecureRecursive narrow depth src (front ++ [name]) : Task across Unit) d (Copied src (front ++ [name]) d))
    (entries : List Name) (distinct : entries.Nodup) (d : Files) (folder : look d dst = some .dir) (free : ∀ name ∈ entries, look d (dst ++ [name]) = none) :
    Meets ok (fun _ => True) (each (fun name => copySecureRecursive narrow depth (src ++ [name]) (dst ++ [name])) entries : Task across Unit) d
      (CopiedAll src dst entries d) := by
  induction entries generalizing d with
  | nil => exact ⟨fun _ _ => rfl,nofun,nofun⟩
  | cons name rest ih =>
    obtain ⟨fresh,distinct⟩ := List.nodup_cons.mp distinct
    refine meets_bind (meets_imp ?_ (one d (src ++ [name]) dst name folder (free name (List.mem_cons_self ..))))
    intro middle result first
    cases result with
    | none => exact ⟨fun path apart => first.outside path (apart name (List.mem_cons_self ..)),nofun,nofun⟩
    | some _ =>
      have folder_ : look middle dst = some .dir := (first.outside dst (above_outside dst name)).trans folder
      have free_ : ∀ other ∈ rest, look middle (dst ++ [other]) = none := by
        intro other member
        have differs : name ≠ other := fun same => fresh (same ▸ member)
        rw [first.outside _ (beside_apart differs dst [])]
        exact free other (List.mem_cons_of_mem _ member)
      refine meets_imp ?_ (ih distinct middle folder_ free_)
      intro after result later
      refine ⟨?_,?_,?_⟩
      · intro path apart
        rw [later.outside path fun other member => apart other (List.mem_cons_of_mem _ member)]
        exact first.outside path (apart name (List.mem_cons_self ..))
      · intro done other member
        rcases List.mem_cons.mp member with rfl | tail
        · exact first.apart rfl
        · exact later.apart done other tail
      · intro done left right other member more
        rcases List.mem_cons.mp member with rfl | tail
        · have kept : look after (dst ++ other::more) = look middle (dst ++ other::more) := by
            apply later.outside
            intro third tail
            have differs : third ≠ other := by
              rintro rfl
              exact fresh tail
            exact beside_apart differs dst more
          have copy := first.same rfl more
          rw [List.append_assoc,List.append_assoc] at copy
          exact kept.trans copy
        · rw [later.same done left right other tail more]
          exact first.outside _ (folders_apart left right (other::more) [name])

theorem setMode_meets : Meets ok (fun _ => True) (setMode place : Task across Unit) d fun after _ => after = d :=
  meets_bind (meets_call rfl (meets_call rfl rfl))

-- The folder that was made is empty, and so all in it is the copies.
theorem folder_copied (parent : look d front = some .dir) (free : look d (front ++ [name]) = none) (stands : look d src = some .dir)
    (listed : names (edit (some (.dir [])) (front ++ [name]) d) src = some entries)
    (copies : CopiedAll src (front ++ [name]) entries (edit (some (.dir [])) (front ++ [name]) d) after result) : Copied src (front ++ [name]) d after result := by
  have away : ¬ front ++ [name] <+: src := by
    rintro ⟨rest,rfl⟩
    rw [look_below free rest] at stands
    cases stands
  have folder : look (edit (some (.dir [])) (front ++ [name]) d) (front ++ [name]) = some .dir := look_new parent _
  have outside : Outside (front ++ [name]) d after := by
    intro path apart
    rw [copies.outside path fun child _ below => apart ((List.prefix_append _ _).trans below)]
    exact look_edit_outside apart _
  have apart : result = some () → ¬ src <+: front ++ [name] := by
    rintro done ⟨rest,whole⟩
    cases rest with
    | nil =>
      rw [List.append_nil] at whole
      rw [whole,free] at stands
      cases stands
    | cons first rest =>
      -- The copy is below the source: so is the child of the source on the way to it.
      have split : src ++ [first] ++ rest = front ++ [name] := by simpa using whole
      have child : look (edit (some (.dir [])) (front ++ [name]) d) (src ++ [first]) ≠ none := by
        intro gone
        have below := look_below gone rest
        rw [split,folder] at below
        cases below
      apply copies.apart done first ((names_mem listed).mpr child)
      rw [← split,List.append_assoc (src ++ [first])]
      exact List.prefix_append _ _
  refine ⟨outside,apart,?_⟩
  intro done rest
  cases rest with
  | nil =>
    rw [List.append_nil,List.append_nil,stands,← folder]
    exact copies.outside _ fun child _ => above_outside _ child
  | cons child rest =>
    have still : look (edit (some (.dir [])) (front ++ [name]) d) (src ++ child::rest) = look d (src ++ child::rest) := by
      have clear := folders_apart (apart done) away (child::rest) []
      rw [List.append_nil] at clear
      exact look_edit_outside clear _
    by_cases known : child ∈ entries
    · rw [copies.same done (apart done) away child known rest,still]
    · have empty : look (edit (some (.dir [])) (front ++ [name]) d) (front ++ [name] ++ child::rest) = none := by
        rw [look_edit_at parent]
        rfl
      have missing : look (edit (some (.dir [])) (front ++ [name]) d) (src ++ [child]) = none := by
        by_contra some_
        exact known ((names_mem listed).mpr some_)
      have below := look_below missing rest
      rw [List.append_assoc] at below
      have untouched : look after (front ++ [name] ++ child::rest) = look (edit (some (.dir [])) (front ++ [name]) d) (front ++ [name] ++ child::rest) := by
        apply copies.outside
        intro other member
        have differs : other ≠ child := by
          rintro rfl
          exact known member
        exact beside_apart differs _ rest
      rw [untouched,empty,← still]
      exact below.symm

theorem copy_meets (narrow : Path → Bool) (depth : Nat) (d : Files) (src front : Path) (name : Name) (parent : look d front = some .dir)
    (free : look d (front ++ [name]) = none) :
    Meets ok (fun _ => True) (copySecureRecursive narrow depth src (front ++ [name]) : Task across Unit) d (Copied src (front ++ [name]) d) := by
  induction depth generalizing d src front name with
  | zero => exact copied_none (outside_refl _ d)
  | succ depth ih =>
    have nothing : Copied src (front ++ [name]) d d none := copied_none (outside_refl _ d)
    have made : Outside (front ++ [name]) d (edit (some (.dir [])) (front ++ [name]) d) := outside_edit _
    refine meets_bind (meets_call nothing ?_)
    have judged : perform across (.lstat src) d = (d,look d src) := rfl
    rw [judged]
    cases stands : look d src with
    | none => exact nothing
    | some it =>
      cases it with
      | link target => exact copyLink_meets parent free stands
      | file data => exact copyFile_meets parent free stands
      | dir =>
        refine meets_bind (meets_imp ?_ (mkdirAll_fresh parent free))
        rintro after result (⟨rfl,rfl⟩ | ⟨rfl,rfl⟩)
        · exact nothing
        · refine meets_bind (meets_call (copied_none made) ?_)
          refine meets_bind (meets_call (copied_none made) ?_)
          refine meets_bind (orFail_meets (fun _ => copied_none made) ?_)
          intro entries listed
          refine meets_bind (meets_call (copied_none made) ?_)
          have fresh : ∀ child ∈ entries, look (edit (some (.dir [])) (front ++ [name]) d) (front ++ [name] ++ [child]) = none := by
            intro child _
            rw [look_edit_at parent]
            rfl
          refine meets_bind (meets_imp ?_ (copyAll_meets ih entries (names_dir listed).2 _ (look_new parent _) fresh))
          intro last result copies
          have whole := folder_copied parent free stands listed copies
          cases result with
          | none => exact whole
          | some _ =>
            split
            · refine meets_imp ?_ setMode_meets
              rintro end_ result rfl
              exact ⟨whole.outside,fun _ => whole.apart rfl,fun _ => whole.same rfl⟩
            · exact whole

end Copies

-- Whatever calls of a copy fail, nothing changes outside of the new place, and a
-- copy that reports success is exact.
theorem copy_settles {across : Path → Path → Bool} (narrow : Path → Bool) (depth : Nat) (parent : look d front = some .dir) (free : look d (front ++ [name]) = none)
    (executed : execute (copySecureRecursive narrow depth src (front ++ [name]) : Task across Unit) d outcomes = some (last,result)) :
    Copied src (front ++ [name]) d last result :=
  meets_execute (fun _ => True) (copy_meets narrow depth d src front name parent free) (along_always fun _ _ _ => trivial) executed

def oneFolder : Files := [("s",.dir [("a",.file [1])])]

theorem folder_copy_settles : ∃ last, Copied ["s"] ["t"] oneFolder last (some ()) := by
  have executed : execute (copySecureRecursive (fun _ => false) 2 ["s"] ([] ++ ["t"]) : Task (fun _ _ => false) Unit) oneFolder
      (List.replicate 12 .done) = some (_,some ()) := rfl
  exact ⟨_,copy_settles _ 2 rfl rfl executed⟩

end RemoteFileExplorer.TreeCopies
