import RemoteFileExplorer.FolderSync

namespace RemoteFileExplorer.FolderSync
open Pages

section Folders
variable {folder : Folder} {item other : Item}

theorem Folder.same (left : item ∈ folder.items) (right : other ∈ folder.items) (names : item.name = other.name) : item = other :=
  List.inj_on_of_nodup_map folder.distinct left right names

theorem Folder.find_member (member : item ∈ folder.items) : folder.find item.name = some item := by
  unfold Folder.find
  cases found : folder.items.find? (fun other => other.name == item.name) with
  | none =>
    have all := List.find?_eq_none.mp found item member
    simp at all
  | some other =>
    have names : other.name = item.name := by simpa using List.find?_some found
    rw [folder.same (List.mem_of_find?_eq_some found) member names]

theorem Folder.put_member : other ∈ (folder.put item).items ↔ other = item ∨ (other ∈ folder.items ∧ other.name ≠ item.name) := by
  simp [Folder.put]

theorem Folder.remove_member : other ∈ (folder.remove name).items ↔ other ∈ folder.items ∧ other.name ≠ name := by
  simp [Folder.remove]

end Folders

theorem ms_mono (order : early ≤ late) : ms early ≤ ms late := Nat.div_le_div_right order

theorem needsSync_fresh {item : Item} {found : LocalInfo} :
    needsSync item.entry (some found) = false ↔ found.size = item.size ∧ ∀ time, found.modified = some time → ms item.stamp ≤ time := by
  simp only [needsSync,Item.entry,Option.getD_some]
  by_cases sizes : found.size = item.size
  · cases found.modified with
    | none | some time => simp [sizes]
  · simp [sizes]

structure Sound (s : State) : Prop where
  past : ∀ item ∈ s.remote.items, item.stamp ≤ s.now
  sizes : ∀ item ∈ s.remote.items, sized item = true
  copies : ∀ item ∈ s.remote.items, ∀ copy, s.copies item.name = some copy → told item copy = true

def Settled (s : State) (item : Item) : Prop :=
  ∃ copy, s.copies item.name = some copy ∧ needsSync item.entry (some copy.info) = false ∧ ∀ content, item.content = some content → copy.content = content

def Covered (s : State) (todo : List Entry) (failed : List String) : Prop :=
  ∀ item ∈ s.remote.items, item.isDir = false → isSafeName item.name = true → item.entry ∈ todo ∨ item.name ∈ failed ∨ Settled s item

def files (folder : Folder) : List Entry := ((listed Item.name folder.items).map Item.entry).filter (fun entry => !entry.isDir)

structure Working (s : State) (pass : Pass) (todo : List Entry) : Prop where
  distinct : (todo.map Entry.name).Nodup
  known : ∀ entry ∈ todo, ∃ item ∈ s.remote.items, item.isDir = false ∧ item.entry = entry
  seen : ∀ entry ∈ todo, pass.found entry.name = (s.copies entry.name).map Copy.info
  covered : Covered s todo pass.result.failed

def Progress (s : State) : Phase → Prop
  | .idle => True
  | .listing got cursor =>
    got ++ (after Item.name cursor (listed Item.name s.remote.items)).map Item.entry = (listed Item.name s.remote.items).map Item.entry
  | .listed found => found = files s.remote
  | .going pass => Working s pass pass.todo
  | .fetching pass entry steady => steady = true ∧ Working s pass (entry::pass.todo)
  | .staged pass entry content =>
    Working s pass (entry::pass.todo) ∧ ∃ item ∈ s.remote.items, item.isDir = false ∧ item.entry = entry ∧ item.content = some content
  | .ended result cancelled => cancelled = false → Covered s [] result.failed

structure Invariant (s : State) : Prop where
  sound : Sound s
  progress : s.calm = true → Progress s s.phase

section Files
variable {s next : State} {pass after : Pass} {entry : Entry} {rest : List Entry} {item : Item} {copy : Copy}

theorem files_member : entry ∈ files folder ↔ ∃ item ∈ folder.items, item.isDir = false ∧ item.entry = entry := by
  unfold files
  simp only [List.mem_filter,List.mem_map,mem_listed,Bool.not_eq_true']
  constructor
  · rintro ⟨⟨item,member,rfl⟩,file⟩
    exact ⟨item,member,file,rfl⟩
  · rintro ⟨item,member,file,rfl⟩
    exact ⟨⟨item,member,rfl⟩,file⟩

theorem files_distinct : ((files folder).map Entry.name).Nodup := by
  have ordered := listed_ordered Item.name folder.distinct
  have names : ((listed Item.name folder.items).map Item.entry).map Entry.name = (listed Item.name folder.items).map Item.name := by
    rw [List.map_map]
    rfl
  have all : (((listed Item.name folder.items).map Item.entry).map Entry.name).Nodup := by
    rw [names]
    exact List.pairwise_map.mpr (ordered.imp fun less => less.ne)
  exact all.sublist (List.filter_sublist.map _)

section
variable (sound : Sound s) (member : item ∈ s.remote.items) (file : item.isDir = false)
include sound member file

theorem fresh_settled (fresh : needsSync item.entry ((s.copies item.name).map Copy.info) = false) : Settled s item := by
  cases stored : s.copies item.name with
  | none => simp [stored,needsSync] at fresh
  | some copy =>
    rw [stored,Option.map_some] at fresh
    refine ⟨copy,stored,fresh,?_⟩
    intro content held
    have known := sound.copies item member copy stored
    obtain ⟨size,times⟩ := needsSync_fresh.mp fresh
    simp only [told,file,held,Bool.false_or,Option.all_some,Bool.or_eq_true,beq_iff_eq,bne_iff_ne] at known
    rcases known with (same | differs) | later
    · exact same.symm
    · exact absurd size differs
    · cases wrote : copy.written with
      | none => simp [wrote] at later
      | some time =>
        have order := times time wrote
        simp only [wrote,Option.any_some,decide_eq_true_eq] at later
        omega

theorem copied_settled (held : item.content = some content)
    (stored : next.copies item.name = some (s.copied content)) : Settled next item := by
  refine ⟨s.copied content,stored,?_,?_⟩
  · have size := sound.sizes item member
    simp only [sized,file,held,Bool.false_or,Option.all_some,beq_iff_eq] at size
    have order : ms item.stamp ≤ ms s.now := ms_mono (sound.past item member)
    apply needsSync_fresh.mpr
    refine ⟨size,?_⟩
    intro time wrote
    obtain ⟨_,⟨⟩⟩ := Option.ite_none_right_eq_some.mp wrote
    exact order
  · intro other known
    rw [held] at known
    cases known
    rfl

end

theorem settled_frame (settled : Settled s item) (same : next.copies item.name = s.copies item.name) : Settled next item := by
  obtain ⟨copy,stored,fresh,content⟩ := settled
  exact ⟨copy,same ▸ stored,fresh,content⟩

theorem work_done (working : Working s pass (entry::rest)) (folder : next.remote = s.remote)
    (others : ∀ name, name ≠ entry.name → next.copies name = s.copies name) (found : after.found = pass.found)
    (kept : ∀ name ∈ pass.result.failed, name ∈ after.result.failed)
    (done : ∀ item ∈ s.remote.items, item.isDir = false → item.entry = entry → isSafeName item.name = true → item.name ∈ after.result.failed ∨ Settled next item) :
    Working next after rest := by
  have apart := List.nodup_cons.mp working.distinct
  refine ⟨apart.2,?_,?_,?_⟩
  · rw [folder]
    exact fun other member => working.known other (List.mem_cons_of_mem _ member)
  · intro other member
    have names : other.name ≠ entry.name := fun same => apart.1 (same ▸ List.mem_map_of_mem member)
    rw [found,others other.name names]
    exact working.seen other (List.mem_cons_of_mem _ member)
  · intro item member file safe
    rw [folder] at member
    rcases working.covered item member file safe with waits | failed | settled
    · rcases List.mem_cons.mp waits with now | later
      · exact .inr (done item member file now safe)
      · exact .inl later
    · exact .inr (.inl (kept _ failed))
    · by_cases own : item.name = entry.name
      · obtain ⟨first,stored,firstFile,same⟩ := working.known entry (List.mem_cons_self ..)
        have : first = item := s.remote.same stored member (by rw [own,← same]; rfl)
        exact .inr (done item member file (this ▸ same) safe)
      · exact .inr (.inr (settled_frame settled (others _ own)))

theorem nextFile_progress (sound : Sound s) (working : Working s pass pass.todo) : Progress s (nextFile pass) := by
  unfold nextFile
  split
  · rename_i none
    intro _
    exact none ▸ working.covered
  · rename_i entry rest todo
    rw [todo] at working
    split
    · rename_i refused
      refine work_done working rfl (fun _ _ => rfl) ?_ ?_ ?_
      · rfl
      · exact fun _ failed => failed
      · rintro item _ _ rfl safe
        simp [Item.entry,safe] at refused
    · split
      · rename_i current
        refine work_done working rfl (fun _ _ => rfl) ?_ ?_ ?_
        · rfl
        · exact fun _ failed => failed
        · rintro item member file rfl _
          have seen : pass.found item.name = (s.copies item.name).map Copy.info := working.seen item.entry (List.mem_cons_self ..)
          change (!needsSync item.entry (pass.found item.name)) = true at current
          rw [seen] at current
          exact .inr (fresh_settled sound member file (by simpa using current))
      · exact ⟨rfl,working.distinct,working.known,working.seen,working.covered⟩

end Files

section Steps
variable {s next : State} {event : Event}

theorem sound_put (sound : Sound s) (possible : item.possible s.now = true) (size : sized item = true)
    (known : (s.copies item.name).all (told item) = true) (folder : next.remote = s.remote.put item)
    (clock : next.now = s.now) (copies : next.copies = s.copies) : Sound next := by
  have time : item.stamp ≤ s.now := by
    simp only [Item.possible,Bool.and_eq_true,decide_eq_true_eq] at possible
    exact possible.1
  refine ⟨?_,?_,?_⟩
  · intro other member
    rw [clock]
    rcases Folder.put_member.mp (folder ▸ member) with rfl | ⟨old,_⟩
    · exact time
    · exact sound.past other old
  · intro other member
    rcases Folder.put_member.mp (folder ▸ member) with rfl | ⟨old,_⟩
    · exact size
    · exact sound.sizes other old
  · intro other member copy stored
    rw [copies] at stored
    rcases Folder.put_member.mp (folder ▸ member) with rfl | ⟨old,_⟩
    · rw [stored] at known
      exact known
    · exact sound.copies other old copy stored

theorem sound_write (sound : Sound s) (known : ∀ item ∈ s.remote.items, item.name = name → ∀ copy, written = some copy → told item copy = true) :
    Sound (s.write name written) := by
  refine ⟨sound.past,sound.sizes,?_⟩
  intro item member copy stored
  simp only [State.write] at stored
  split at stored
  · rename_i own
    exact known item member own copy stored
  · exact sound.copies item member copy stored

theorem copied_told (known : (s.remote.find name).all (fun item => told item (s.copied content)) = true) :
    ∀ item ∈ s.remote.items, item.name = name → ∀ copy, some (s.copied content) = some copy → told item copy = true := by
  rintro item member rfl copy same
  cases same
  rw [Folder.find_member member] at known
  exact known

theorem step_sound (sound : Sound s) (meets : undisturbed s event = true) (stepped : step s event = some next) : Sound next := by
  cases event with
  | tick time =>
    cases stepped
    exact ⟨fun item member => Nat.le_add_right_of_le (sound.past item member),sound.sizes,sound.copies⟩
  | change item =>
    obtain ⟨possible,⟨⟩⟩ := Option.ite_none_right_eq_some.mp stepped
    simp only [undisturbed,Bool.and_eq_true] at meets
    exact sound_put sound possible meets.1 meets.2 rfl rfl rfl
  | drop name =>
    cases stepped
    refine ⟨?_,?_,?_⟩
    · exact fun item member => sound.past item (Folder.remove_member.mp member).1
    · exact fun item member => sound.sizes item (Folder.remove_member.mp member).1
    · exact fun item member => sound.copies item (Folder.remove_member.mp member).1
  | begin =>
    obtain ⟨_,⟨⟩⟩ := Option.ite_none_right_eq_some.mp stepped
    exact ⟨sound.past,sound.sizes,sound.copies⟩
  | page =>
    simp only [step] at stepped
    split at stepped
    · split at stepped <;> cases stepped <;> exact ⟨sound.past,sound.sizes,sound.copies⟩
    · cases stepped
  | listFails | list | next | fetchFails =>
    simp only [step] at stepped
    split at stepped
    · cases stepped
      exact ⟨sound.past,sound.sizes,sound.copies⟩
    · cases stepped
  | cancel | arrives =>
    simp only [step] at stepped
    split at stepped
    · obtain ⟨_,⟨⟩⟩ := Option.ite_none_left_eq_some.mp stepped
      exact ⟨sound.past,sound.sizes,sound.copies⟩
    · cases stepped
  | put =>
    simp only [step] at stepped
    split at stepped
    · rename_i pass entry content staged
      cases stepped
      simp only [undisturbed,staged] at meets
      have written := sound_write sound (copied_told meets)
      exact ⟨written.past,written.sizes,written.copies⟩
    · cases stepped
  | putFails message left =>
    simp only [step] at stepped
    split at stepped
    · rename_i pass entry content staged
      cases stepped
      have written : Sound (s.write entry.name (s.leftover entry.name content left)) := by
        cases left with
        | kept => exact sound_write sound (fun item member own copy stored => sound.copies item member copy (own ▸ stored))
        | removed =>
          apply sound_write sound
          intro _ _ _ copy none
          cases none
        | cut length =>
          simp only [undisturbed,staged] at meets
          exact sound_write sound (copied_told meets)
      exact ⟨written.past,written.sizes,written.copies⟩
    · cases stepped

theorem working_same {pass : Pass} (working : Working s pass todo) (folder : next.remote = s.remote) (copies : next.copies = s.copies) : Working next pass todo := by
  refine ⟨working.distinct,?_,?_,?_⟩
  · rw [folder]
    exact working.known
  · rw [copies]
    exact working.seen
  · intro item member file safe
    rcases working.covered item (folder ▸ member) file safe with waits | failed | settled
    · exact .inl waits
    · exact .inr (.inl failed)
    · exact .inr (.inr (settled_frame settled (by rw [copies])))

theorem progress_same (progress : Progress s phase) (folder : next.remote = s.remote) (copies : next.copies = s.copies) : Progress next phase := by
  cases phase with
  | idle => trivial
  | listing | listed =>
    simp only [Progress,folder] at progress ⊢
    exact progress
  | going => exact working_same progress folder copies
  | fetching => exact ⟨progress.1,working_same progress.2 folder copies⟩
  | staged =>
    refine ⟨working_same progress.1 folder copies,?_⟩
    rw [folder]
    exact progress.2
  | ended result cancelled =>
    intro whole item member file safe
    rcases progress whole item (folder ▸ member) file safe with waits | failed | settled
    · exact .inl waits
    · exact .inr (.inl failed)
    · exact .inr (.inr (settled_frame settled (by rw [copies])))

theorem listing_begins (s : State) : Progress s (.listing [] none) := by
  simp [Progress]

theorem page_progress {read : Page String Item} (progress : Progress s (.listing got cursor))
    (shown : Pages.page Item.name pageSize cursor s.remote.items = read) :
    got ++ read.items.map Item.entry ++ (remaining Item.name read.next s.remote.items).map Item.entry = (listed Item.name s.remote.items).map Item.entry := by
  have splits : read.items ++ remaining Item.name read.next s.remote.items = after Item.name cursor (listed Item.name s.remote.items) := by
    rw [← shown]
    exact page_splits Item.name (by decide) s.remote.distinct
  rw [List.append_assoc,← List.map_append,splits]
  exact progress

theorem pass_begins (s : State) : Working s ⟨fun name => (s.copies name).map Copy.info,files s.remote,⟨0,[],0,none⟩⟩ (files s.remote) := by
  refine ⟨files_distinct,?_,?_,?_⟩
  · exact fun entry member => files_member.mp member
  · exact fun _ _ => rfl
  · exact fun item member file _ => .inl (files_member.mpr ⟨item,member,file,rfl⟩)

theorem failed_done {pass : Pass} (working : Working s pass (entry::pass.todo)) (folder : next.remote = s.remote)
    (others : ∀ name, name ≠ entry.name → next.copies name = s.copies name) (message : String) :
    Progress next (.going {pass with result := pass.result.fail entry.name message}) := by
  refine work_done working folder others ?_ ?_ ?_
  · rfl
  · exact fun _ failed => List.mem_append_left _ failed
  · rintro item _ _ rfl _
    exact .inl (List.mem_append_right _ (List.mem_singleton.mpr rfl))

theorem write_others (s : State) (written : Option Copy) (name : String) (other : name ≠ own) : (s.write own written).copies name = s.copies name :=
  if_neg other

theorem step_progress (sound : Sound s) (progress : s.calm = true → Progress s s.phase) (stepped : step s event = some next)
    (calm : next.calm = true) : Progress next next.phase := by
  cases event with
  | tick time =>
    cases stepped
    exact progress_same (progress calm) rfl rfl
  | change item =>
    obtain ⟨_,⟨⟩⟩ := Option.ite_none_right_eq_some.mp stepped
    cases calm
  | drop name =>
    cases stepped
    cases calm
  | begin =>
    obtain ⟨_,⟨⟩⟩ := Option.ite_none_right_eq_some.mp stepped
    exact listing_begins _
  | page =>
    simp only [step] at stepped
    split at stepped
    · rename_i got cursor listing
      split at stepped
      · rename_i last more
        cases stepped
        have shown := page_progress (listing ▸ progress calm) rfl
        rw [more] at shown
        exact shown
      · rename_i done
        cases stepped
        have shown := page_progress (listing ▸ progress calm) rfl
        rw [done,remaining,Option.elim,List.map_nil,List.append_nil] at shown
        exact congrArg (List.filter _) shown
    · cases stepped
  | listFails =>
    simp only [step] at stepped
    split at stepped
    · cases stepped
      trivial
    · cases stepped
  | list =>
    simp only [step] at stepped
    split at stepped
    · rename_i found listed
      cases stepped
      have same : Progress s (.listed found) := listed ▸ progress calm
      rw [same]
      exact working_same (pass_begins s) rfl rfl
    · cases stepped
  | next =>
    simp only [step] at stepped
    split at stepped
    · rename_i pass going
      cases stepped
      have working : Progress s (.going pass) := going ▸ progress calm
      exact progress_same (nextFile_progress sound working) rfl rfl
    · cases stepped
  | cancel =>
    simp only [step] at stepped
    split at stepped
    · obtain ⟨_,⟨⟩⟩ := Option.ite_none_left_eq_some.mp stepped
      simp [Progress]
    · cases stepped
  | arrives content =>
    simp only [step] at stepped
    split at stepped
    · rename_i pass entry steady fetching
      obtain ⟨whole,⟨⟩⟩ := Option.ite_none_left_eq_some.mp stepped
      obtain ⟨same,working⟩ : Progress s (.fetching pass entry steady) := fetching ▸ progress calm
      obtain ⟨item,member,file,entered⟩ := working.known entry (List.mem_cons_self ..)
      have found : s.remote.find entry.name = some item := by
        rw [← entered]
        exact Folder.find_member member
      refine ⟨working_same working rfl rfl,item,member,file,entered,?_⟩
      simpa [same,found,file] using whole
    · cases stepped
  | fetchFails message =>
    simp only [step] at stepped
    split at stepped
    · rename_i pass entry steady fetching
      cases stepped
      have working : Progress s (.fetching pass entry steady) := fetching ▸ progress calm
      apply failed_done working.2
      · rfl
      · exact fun _ _ => rfl
    · cases stepped
  | put =>
    simp only [step] at stepped
    split at stepped
    · rename_i pass entry content staged
      cases stepped
      obtain ⟨working,item,member,file,entered,held⟩ : Progress s (.staged pass entry content) := staged ▸ progress calm
      refine work_done working rfl (write_others s _) ?_ ?_ ?_
      · rfl
      · exact fun _ failed => failed
      · rintro other stored otherFile same _
        have : other = item := s.remote.same stored member (congrArg Entry.name (same.trans entered.symm))
        subst this
        subst same
        exact .inr (copied_settled sound member file held (if_pos rfl))
    · cases stepped
  | putFails message left =>
    simp only [step] at stepped
    split at stepped
    · rename_i pass entry content staged
      cases stepped
      have working : Progress s (.staged pass entry content) := staged ▸ progress calm
      apply failed_done working.1
      · rfl
      · exact write_others s _
    · cases stepped

theorem step_invariant (inv : Invariant s) (meets : undisturbed s event = true) (stepped : step s event = some next) : Invariant next :=
  ⟨step_sound inv.sound meets stepped,fun calm => step_progress inv.sound inv.progress stepped calm⟩

end Steps

section Runs
variable {s next last : State} {event : Event} {events later : List Event} {result again : SyncResult}

def Event.edits : Event → Bool
  | .change _ | .drop _ => true
  | _ => false

def Nothing : Phase → Prop
  | .going pass => pass.result.downloaded = 0
  | .fetching _ _ _ | .staged _ _ _ => False
  | .ended result _ => result.downloaded = 0
  | _ => True

structure Resting (s : State) : Prop where
  inv : Invariant s
  calm : s.calm = true
  mirrored : Covered s [] []
  nothing : Nothing s.phase

theorem resting_next {pass : Pass} (resting : Resting s) (going : s.phase = .going pass) : Nothing (nextFile pass) := by
  have working : Progress s (.going pass) := going ▸ resting.inv.progress resting.calm
  have none : Nothing (.going pass) := going ▸ resting.nothing
  unfold nextFile
  split
  · exact none
  · rename_i entry rest todo
    split
    · exact none
    · rename_i safe
      split
      · exact none
      · rename_i old
        have waits : entry ∈ pass.todo := by simp [todo]
        obtain ⟨item,member,file,rfl⟩ := working.known entry waits
        rcases resting.mirrored item member file (by simpa [Item.entry] using safe) with none | none | settled
        · cases none
        · cases none
        · obtain ⟨copy,stored,fresh,_⟩ := settled
          have seen : pass.found item.name = (s.copies item.name).map Copy.info := working.seen item.entry waits
          simp [Item.entry,seen,stored] at old
          simp [Item.entry,old] at fresh

theorem resting_undisturbed (resting : Resting s) (quiet : event.edits = false) : undisturbed s event = true := by
  have nothing := resting.nothing
  cases event with
  | change => cases quiet
  | put =>
    simp only [undisturbed]
    split
    · rename_i staged
      rw [staged] at nothing
      cases nothing
    · rfl
  | putFails message left =>
    cases left with
    | kept | removed => rfl
    | cut length =>
      simp only [undisturbed]
      split
      · rename_i staged
        rw [staged] at nothing
        cases nothing
      · rfl
  | tick | drop | begin | page | listFails | list | next | cancel | arrives | fetchFails => rfl

theorem step_resting (resting : Resting s) (quiet : event.edits = false) (stepped : step s event = some next) : Resting next := by
  have inv := step_invariant resting.inv (resting_undisturbed resting quiet) stepped
  have nothing := resting.nothing
  cases event with
  | change | drop => cases quiet
  | tick =>
    cases stepped
    exact ⟨inv,resting.calm,resting.mirrored,nothing⟩
  | begin =>
    obtain ⟨_,⟨⟩⟩ := Option.ite_none_right_eq_some.mp stepped
    exact ⟨inv,rfl,resting.mirrored,trivial⟩
  | page =>
    simp only [step] at stepped
    split at stepped
    · split at stepped <;> cases stepped <;> exact ⟨inv,resting.calm,resting.mirrored,trivial⟩
    · cases stepped
  | listFails | list =>
    simp only [step] at stepped
    split at stepped
    · cases stepped
      exact ⟨inv,resting.calm,resting.mirrored,by trivial⟩
    · cases stepped
  | next =>
    simp only [step] at stepped
    split at stepped
    · rename_i pass going
      cases stepped
      exact ⟨inv,resting.calm,resting.mirrored,resting_next resting going⟩
    · cases stepped
  | cancel =>
    simp only [step] at stepped
    split at stepped
    · rename_i pass going
      obtain ⟨_,⟨⟩⟩ := Option.ite_none_left_eq_some.mp stepped
      exact ⟨inv,resting.calm,resting.mirrored,by rw [going] at nothing; exact nothing⟩
    · cases stepped
  | arrives | fetchFails | put | putFails =>
    simp only [step] at stepped
    split at stepped
    · rename_i busy
      rw [busy] at nothing
      cases nothing
    · cases stepped

def initial (now : Nat) (timed : Bool) (remote : Folder) (copies : String → Option Copy) : State := ⟨now,timed,remote,copies,.idle,false⟩

-- The folders before the first pass: nothing is dated in the future, and no
-- file in the local folder passes for a remote file that it is not.
def Matched (now : Nat) (remote : Folder) (copies : String → Option Copy) : Prop :=
  ∀ item ∈ remote.items, item.stamp ≤ now ∧ sized item = true ∧ ∀ copy, copies item.name = some copy → told item copy = true

theorem folder_sync_converges (matched : Matched now remote copies)
    (meets : Runs.Every step (fun s event => undisturbed s event = true) (initial now timed remote copies) events)
    (ran : Runs.run step (initial now timed remote copies) events = some s)
    (ended : s.phase = .ended result false) (calm : s.calm = true) (whole : result.failed = []) :
    (∀ item ∈ s.remote.items, item.isDir = false → isSafeName item.name = true → ∀ content, item.content = some content →
      ∃ copy, s.copies item.name = some copy ∧ copy.content = content) ∧
    ∀ later last again cancelled, (∀ event ∈ later, event.edits = false) → Runs.run step s (.begin::later) = some last →
      last.phase = .ended again cancelled → again.downloaded = 0 := by
  have begun : Invariant (initial now timed remote copies) := by
    refine ⟨⟨?_,?_,?_⟩,?_⟩
    · exact fun item member => (matched item member).1
    · exact fun item member => (matched item member).2.1
    · exact fun item member => (matched item member).2.2
    · exact fun _ => trivial
  have inv : Invariant s := Runs.run_preserves_when Invariant (fun s event next held ok stepped => step_invariant held ok stepped) begun meets ran
  have mirrored : Covered s [] [] := by
    have covered : Progress s (.ended result false) := ended ▸ inv.progress calm
    rw [← whole]
    exact covered rfl
  constructor
  · intro item member file safe content held
    rcases mirrored item member file safe with none | none | ⟨copy,stored,_,same⟩
    · cases none
    · cases none
    · exact ⟨copy,stored,same content held⟩
  · intro later last again cancelled quiet ranLater endedLater
    obtain ⟨next,stepped,tail⟩ := Runs.run_cons.mp ranLater
    have resting : Resting next := by
      have kept := step_invariant inv rfl stepped
      obtain ⟨_,⟨⟩⟩ := Option.ite_none_right_eq_some.mp stepped
      exact ⟨kept,rfl,mirrored,trivial⟩
    have unchanged : Runs.Every step (fun _ event => event.edits = false) next later :=
      Runs.every_all quiet
    have rests : Resting last :=
      Runs.run_preserves_when Resting (fun s event next held ok stepped => step_resting held ok stepped) resting unchanged tail
    have nothing := rests.nothing
    rw [endedLater] at nothing
    exact nothing

def note (content : Bytes) (stamp : Nat) : Item := ⟨"note.txt",false,false,3,stamp,some content⟩

def noteOnly (content : Bytes) (stamp : Nat) : Folder := ⟨[note content stamp],by simp⟩

def editedBetween : List Event :=
  [.begin,.page,.list,.next,.arrives [111,108,100],.put,.next,.tick 10000000000,.change (note [110,101,119] 10000000000),
    .begin,.page,.list,.next,.arrives [110,101,119],.put,.next]

theorem edit_between_passes_noticed : ∃ s, Runs.run step (initial 0 true (noteOnly [111,108,100] 0) (fun _ => none)) editedBetween = some s ∧
    (∀ item ∈ s.remote.items, item.isDir = false → isSafeName item.name = true → ∀ content, item.content = some content →
      ∃ copy, s.copies item.name = some copy ∧ copy.content = content) ∧
    ∀ later last again cancelled, (∀ event ∈ later, event.edits = false) → Runs.run step s (.begin::later) = some last →
      last.phase = .ended again cancelled → again.downloaded = 0 := by
  have matched : Matched 0 (noteOnly [111,108,100] 0) (fun _ => none) := by
    intro item member
    cases List.mem_singleton.mp member
    refine ⟨Nat.le_refl _,by decide,?_⟩
    intro copy stored
    cases stored
  have meets : Runs.Every step (fun s event => undisturbed s event = true) (initial 0 true (noteOnly [111,108,100] 0) (fun _ => none)) editedBetween := by
    decide
  exact ⟨_,rfl,folder_sync_converges matched meets rfl rfl rfl rfl⟩

theorem edit_before_write_missed : ∃ s, Runs.run step (initial 0 true (noteOnly [111,108,100] 0) (fun _ => none))
    [.begin,.page,.list,.next,.arrives [111,108,100],.tick 1000000000,.change (note [110,101,119] 1000000000),.tick 1000000000,.put,.next,
      .begin,.page,.list,.next,.next] = some s ∧
    s.phase = .ended ⟨0,[],0,none⟩ false ∧ s.calm = true ∧ s.remote.find "note.txt" = some (note [110,101,119] 1000000000) ∧
    s.copies "note.txt" = some ⟨[111,108,100],some 2000⟩ :=
  ⟨_,rfl,rfl,rfl,rfl,rfl⟩

end Runs

end RemoteFileExplorer.FolderSync
