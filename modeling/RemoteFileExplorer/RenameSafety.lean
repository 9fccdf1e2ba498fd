import RemoteFileExplorer.RenamePhases

namespace RemoteFileExplorer.BatchRenames
open PathTexts

variable {Item : Type} {folder : Folder} {host : Host Item} {screen shown : List Text} {renames : List Rename}

section Outcome
variable {refusal : Text} {r later : Request}

theorem zipIdx_ordered (renames : List Rename) : renames.zipIdx.Pairwise (fun a b => a.2 < b.2) := by
  have indices : (renames.zipIdx.map Prod.snd).Pairwise (· < ·) := by
    rw [List.zipIdx_map_snd]
    exact List.pairwise_lt_range'
  exact List.pairwise_map.mp indices

theorem zipIdx_nodup (renames : List Rename) : renames.zipIdx.Nodup :=
  (zipIdx_ordered renames).imp (fun less same => absurd (same ▸ less) (Nat.lt_irrefl _))

theorem going_moving : ∀ r ∈ goingAhead renames shown, moving renames r.1 = true :=
  fun _ member => (List.mem_filter.mp (settle_within member)).2

theorem going_team (given : Given folder host renames) : Team host (goingAhead renames shown) := by
  refine ⟨?_,?_⟩
  · intro r member
    exact given.items r.1 (List.fst_mem_of_mem_zipIdx (going_eligible given member).1)
  · intro a left b right same
    exact given.same (going_eligible given left).1 (going_eligible given right).1 same

def parkAll (refusal : Text) (host : Host Item) (renames : List Rename) (going done : List Request) : Batch Item :=
  done.foldl (park renames refusal going) ⟨host,[],[]⟩

theorem parkAll_parked (given : Given folder host renames) (split : renames.zipIdx = done ++ rest) :
    Parked host (goingAhead renames shown) done (parkAll refusal host renames (goingAhead renames shown) done) := by
  have apart : Team host (goingAhead renames shown) := going_team given
  have start : Parked host (goingAhead renames shown) [] (⟨host,[],[]⟩ : Batch Item) := by
    refine ⟨?_,List.Sublist.refl _,?_,rfl,?_⟩
    · apply stands_start apart
      intro r _
      exact if_neg List.not_mem_nil
    · exact fun _ none => (List.not_mem_nil none).elim
    · simp
  have distinct : ([] ++ done).Nodup := (split ▸ zipIdx_nodup renames : (done ++ rest).Nodup).sublist (by simp)
  exact (park_all refusal apart going_moving start distinct).1

-- At its own turn a request is parked unless its temporary name is taken then.
theorem parkAll_turn (given : Given folder host renames) (split : renames.zipIdx = done ++ r::rest) :
    r ∈ (parkAll refusal host renames (goingAhead renames shown) renames.zipIdx).pending ↔
      r ∈ goingAhead renames shown ∧ tmp r ∉ (parkAll refusal host renames (goingAhead renames shown) done).host.paths := by
  have apart : Team host (goingAhead renames shown) := going_team given
  have parked : Parked host (goingAhead renames shown) done (parkAll refusal host renames (goingAhead renames shown) done) := parkAll_parked given split
  have distinct : (done ++ r::rest).Nodup := split ▸ zipIdx_nodup renames
  have whole : done ++ r::rest = done ++ [r] ++ rest := by simp
  have later : r ∉ done := fun member => (List.nodup_append.mp distinct).2.2 r member r (List.mem_cons_self ..) rfl
  obtain ⟨stepped,turn⟩ : Parked host (goingAhead renames shown) (done ++ [r])
        (park renames refusal (goingAhead renames shown) (parkAll refusal host renames (goingAhead renames shown) done) r) ∧
      (r ∈ (park renames refusal (goingAhead renames shown) (parkAll refusal host renames (goingAhead renames shown) done) r).pending ↔
        r ∈ goingAhead renames shown ∧ tmp r ∉ (parkAll refusal host renames (goingAhead renames shown) done).host.paths) :=
    park_step apart going_moving parked later
  have kept := (park_all refusal apart going_moving stepped (whole ▸ distinct)).2 r (by simp)
  rw [← turn,← kept]
  rw [split]
  simp only [parkAll,List.foldl_append,List.foldl_cons]

theorem earlier_done (split : renames.zipIdx = done ++ r::rest) (member : x ∈ renames.zipIdx) (less : x.2 < r.2) : x ∈ done := by
  have ordered : (done ++ r::rest).Pairwise (fun a b => a.2 < b.2) := split ▸ zipIdx_ordered renames
  rw [split] at member
  rcases List.mem_append.mp member with early | late
  · exact early
  · rcases List.mem_cons.mp late with rfl | after
    · exact absurd less (Nat.lt_irrefl _)
    · have more := (List.pairwise_cons.mp (List.pairwise_append.mp ordered).2.1).1 x after
      omega

theorem done_earlier (split : renames.zipIdx = done ++ r::rest) (member : x ∈ done) : x.2 < r.2 := by
  have ordered : (done ++ r::rest).Pairwise (fun a b => a.2 < b.2) := split ▸ zipIdx_ordered renames
  exact (List.pairwise_append.mp ordered).2.2 x member r (List.mem_cons_self ..)

section
variable (given : Given folder host renames)
include given

theorem tmp_apart (left : a ∈ renames.zipIdx) (right : b ∈ renames.zipIdx) (same : tmp a = tmp b) : a = b := by
  have names : folder.place (tempName a.2 a.1.newName) = folder.place (tempName b.2 b.1.newName) := by
    rw [← given.dst (List.fst_mem_of_mem_zipIdx left),← given.dst (List.fst_mem_of_mem_zipIdx right)]
    exact same
  have index : a.2 = b.2 := tempName_index (place_injective names)
  have one := List.mem_zipIdx_iff_getElem?.mp left
  have two := List.mem_zipIdx_iff_getElem?.mp right
  rw [index,two] at one
  exact Prod.ext (Option.some.inj one).symm index

theorem all_parked (temps : ∀ r ∈ goingAhead renames shown, tmp r ∈ host.paths → ∃ earlier ∈ goingAhead renames shown, earlier.2 < r.2 ∧ earlier.1.path = tmp r)
    (member : r ∈ goingAhead renames shown) : r ∈ (parkAll refusal host renames (goingAhead renames shown) renames.zipIdx).pending := by
  -- By the index of the request: an earlier one that held the temporary name
  -- has been parked before.
  induction index : r.2 using Nat.strong_induction_on generalizing r with
  | h n ih =>
    have numbered := (going_eligible given member).1
    obtain ⟨done,rest,split⟩ := List.append_of_mem numbered
    have parked : Parked host (goingAhead renames shown) done (parkAll refusal host renames (goingAhead renames shown) done) := parkAll_parked given split
    refine (parkAll_turn given split).mpr ⟨member,?_⟩
    intro taken
    have still : ∀ x ∈ goingAhead renames shown, x.1.path = tmp r → x ∈ (parkAll refusal host renames (goingAhead renames shown) done).pending := by
      intro x going path
      obtain ⟨earlier,also,less,same⟩ := temps r member (path ▸ (going_team given).there x going)
      have equal : earlier = x := (going_team given).apart earlier also x going (same.trans path.symm)
      subst equal
      have early := earlier_done split (going_eligible given going).1 less
      have final := ih earlier.2 (index ▸ less) going rfl
      have distinct : (done ++ r::rest).Nodup := split ▸ zipIdx_nodup renames
      have kept := (park_all refusal (going_team given) going_moving parked distinct).2 earlier early
      apply kept.mp
      rw [split] at final
      rwa [parkAll,List.foldl_append] at final
    rcases (stands_taken (going_team given) parked.stands).mp taken with ⟨x,going,spot⟩ | ⟨there,none⟩
    · by_cases pending : x ∈ (parkAll refusal host renames (goingAhead renames shown) done).pending
      · rw [parkedAt,if_pos pending] at spot
        have equal := tmp_apart given (going_eligible given going).1 numbered spot
        have less := done_earlier split (parked.part.subset pending)
        rw [equal] at less
        exact Nat.lt_irrefl _ less
      · rw [parkedAt,if_neg pending] at spot
        exact pending (still x going spot)
    · obtain ⟨earlier,also,_,same⟩ := temps r member there
      exact none earlier also same

theorem parked_temps (member : r ∈ (parkAll refusal host renames (goingAhead renames shown) renames.zipIdx).pending)
    (going : r ∈ goingAhead renames shown) (there : tmp r ∈ host.paths) :
    ∃ earlier ∈ goingAhead renames shown, earlier.2 < r.2 ∧ earlier.1.path = tmp r := by
  obtain ⟨done,rest,split⟩ := List.append_of_mem (going_eligible given going).1
  have parked : Parked host (goingAhead renames shown) done (parkAll refusal host renames (goingAhead renames shown) done) := parkAll_parked given split
  have free := ((parkAll_turn given split).mp member).2
  rw [stands_taken (going_team given) parked.stands] at free
  by_contra none
  apply free
  by_cases held : ∃ x ∈ goingAhead renames shown, x.1.path = tmp r
  · obtain ⟨x,also,path⟩ := held
    refine .inl ⟨x,also,?_⟩
    rw [parkedAt,if_neg]
    · exact path
    · intro pending
      exact none ⟨x,also,done_earlier split (parked.part.subset pending),path⟩
  · exact .inr ⟨there,fun x also path => held ⟨x,also,path⟩⟩

end

theorem land_blocked (apart : Team host team)
    (stands : Stands host team (parkedAt pending) s.1) (within : ∀ r ∈ pending, r ∈ team)
    (ordered : pending.Pairwise (fun a b => a.2 < b.2)) (member : r ∈ pending) (behind : later ∈ pending) (less : r.2 < later.2) (wanted : r.1.dst = tmp later) :
    ∃ after, Stands host team after (pending.foldl (land refusal) s).1 ∧ (after r = r.1.path ∨ after r = tmp r) := by
  have distinct : pending.Nodup := ordered.imp (fun less same => absurd (same ▸ less) (Nat.lt_irrefl _))
  obtain ⟨front,back,split⟩ := List.append_of_mem member
  have here : ∀ x ∈ pending, parkedAt pending x = tmp x := fun x inside => if_pos inside
  rw [split] at ordered distinct behind
  have parts := List.nodup_append.mp distinct
  have order := List.pairwise_append.mp ordered
  have notFront : r ∉ front := fun inside => parts.2.2 r inside r (List.mem_cons_self ..) rfl
  have notBack : r ∉ back := (List.nodup_cons.mp parts.2.1).1
  have laterNotFront : later ∉ front := by
    intro inside
    have more := order.2.2 later inside r (List.mem_cons_self ..)
    omega
  have frontHere : ∀ x ∈ front, parkedAt pending x = tmp x := fun x inside => here x (split ▸ List.mem_append_left _ inside)
  obtain ⟨one,standsOne,keptOne⟩ : ∃ after, Stands host team after (front.foldl (land refusal) s).1 ∧ ∀ r ∉ front, after r = parkedAt pending r :=
    land_all apart stands (fun x inside => within x (split ▸ List.mem_append_left _ inside)) parts.1 frontHere
  have ownSpot : one r = tmp r := (keptOne r notFront).trans (here r member)
  have laterSpot : one later = tmp later := (keptOne later laterNotFront).trans (here later (split ▸ behind))
  have taken : r.1.dst ∈ (front.foldl (land refusal) s).1.paths :=
    (stands_taken apart standsOne).mpr (.inl ⟨later,within later (split ▸ behind),laterSpot.trans wanted.symm⟩)
  obtain ⟨next,bad,place,landed,either,standsTwo⟩ : ∃ next bad place, land refusal (front.foldl (land refusal) s) r = (next,(front.foldl (land refusal) s).2 ++ [bad]) ∧
      (place = r.1.path ∨ place = tmp r) ∧ Stands host team (Function.update one r place) next :=
    land_taken apart standsOne (within r member) ownSpot taken
  have backHere : ∀ x ∈ back, Function.update one r place x = tmp x := by
    intro x inside
    have other : x ≠ r := fun same => notBack (same ▸ inside)
    have notFrontX : x ∉ front := fun early => parts.2.2 x early x (List.mem_cons_of_mem _ inside) rfl
    rw [Function.update_of_ne other,keptOne x notFrontX]
    exact here x (split ▸ List.mem_append_right _ (List.mem_cons_of_mem _ inside))
  have standsNext : Stands host team (Function.update one r place) (next,(front.foldl (land refusal) s).2 ++ [bad]).1 := standsTwo
  obtain ⟨two,standsEnd,keptTwo⟩ : ∃ after, Stands host team after (back.foldl (land refusal) (next,(front.foldl (land refusal) s).2 ++ [bad])).1 ∧
      ∀ x ∉ back, after x = Function.update one r place x :=
    land_all apart standsNext (fun x inside => within x (split ▸ List.mem_append_right _ (List.mem_cons_of_mem _ inside))) (List.nodup_cons.mp parts.2.1).2 backHere
  refine ⟨two,?_,?_⟩
  · rw [split,List.foldl_append,List.foldl_cons,landed]
    exact standsEnd
  · have final := keptTwo r notBack
    rw [Function.update_self] at final
    rw [final]
    exact either

end Outcome

section Safety
variable {refusal : Text} {moved : Text → Text}

def shownPaths (host : Host Item) (screen : List Text) : List Text := screen ++ Pages.collect id 200 host.paths (host.paths.length + 1) none

abbrev chosen (host : Host Item) (screen : List Text) (renames : List Rename) : List Request := goingAhead renames (shownPaths host screen)

abbrev firstPhase (refusal : Text) (host : Host Item) (screen : List Text) (renames : List Rename) : Batch Item :=
  parkAll refusal host renames (chosen host screen renames) renames.zipIdx

theorem batchRename_phases (refusal : Text) (host : Host Item) (screen : List Text) (renames : List Rename) :
    batchRename refusal host screen renames =
      (firstPhase refusal host screen renames).pending.foldl (land refusal)
        ((firstPhase refusal host screen renames).host,
          (firstPhase refusal host screen renames).results) := rfl

section
variable (given : Given folder host renames)
include given

theorem whole_parked :
    Parked host (goingAhead renames shown) renames.zipIdx (parkAll refusal host renames (goingAhead renames shown) renames.zipIdx) :=
  parkAll_parked given (List.append_nil _).symm

theorem going_alone (left : a ∈ goingAhead renames shown) (right : b ∈ goingAhead renames shown)
    (same : a.1.dst = b.1.dst) : a = b := by
  have one := going_eligible given left
  have two := going_eligible given right
  have names : folder.requested a.1 = folder.requested b.1 := by
    rw [Folder.requested,← given.dst one.2.1,Folder.requested,← given.dst two.2.1]
    exact same
  have equal := two.2.2.2.2 a.1 one.2.1 one.2.2.1 names
  exact given.same one.1 two.1 (by rw [equal])

theorem going_own (member : r ∈ goingAhead renames shown) : r.1.dst ≠ tmp r := by
  intro same
  have inside := (going_eligible given member).2.1
  rw [Rename.dst,tmp,given.dst inside,given.dst inside] at same
  exact tempName_longer _ _ (place_injective same).symm

theorem batch_outcome (temps : ∀ r ∈ chosen host screen renames, tmp r ∈ host.paths →
      ∃ earlier ∈ chosen host screen renames, earlier.2 < r.2 ∧ earlier.1.path = tmp r)
    (targets : ∀ r ∈ chosen host screen renames, ∀ later ∈ chosen host screen renames, r.2 < later.2 → r.1.dst ≠ tmp later) :
    Stands host (chosen host screen renames) (fun r => r.1.dst) (batchRename refusal host screen renames).1 ∧
    (batchRename refusal host screen renames).2.length = renames.length ∧
    ∀ path, (∃ result ∈ (batchRename refusal host screen renames).2, result.ok = true ∧ result.path = path) ↔
      (∃ r ∈ renames.zipIdx, r.1.valid = true ∧ r.1.dst = r.1.path ∧ r.1.path = path) ∨ ∃ r ∈ chosen host screen renames, r.1.dst = path := by
  have apart : Team host (chosen host screen renames) := going_team given
  have parked : Parked host (chosen host screen renames) renames.zipIdx
      (firstPhase refusal host screen renames) := whole_parked given
  have everyone : ∀ r ∈ chosen host screen renames,
      r ∈ (firstPhase refusal host screen renames).pending :=
    fun r member => all_parked given temps member
  rw [batchRename_phases]
  generalize firstPhase refusal host screen renames = s at parked everyone
  have ordered : s.pending.Pairwise (fun a b => a.2 < b.2) := (zipIdx_ordered renames).sublist parked.part
  have ahead : s.pending.Pairwise (fun a b => a.1.dst ≠ tmp b) :=
    ordered.imp_of_mem (fun left right less => targets _ (parked.goes _ left) _ (parked.goes _ right) less)
  have vacant : ∀ r ∈ chosen host screen renames, r.1.dst ∈ host.paths →
      ∃ other ∈ chosen host screen renames, other.1.path = r.1.dst :=
    fun r member there => going_cleared member ((shown_member host).mpr (.inr there))
  have standsNow : Stands host (chosen host screen renames) (parkedAt s.pending) (s.host,s.results).1 := parked.stands
  obtain ⟨stands,results⟩ : Stands host (chosen host screen renames) (fun r => r.1.dst) (s.pending.foldl (land refusal) (s.host,s.results)).1 ∧
      (s.pending.foldl (land refusal) (s.host,s.results)).2 = s.results ++ s.pending.map (fun r => ⟨r.1.dst,true,none,none⟩) := by
    apply land_clear apart standsNow parked.goes ((zipIdx_nodup renames).sublist parked.part)
    · exact fun r member => if_pos member
    · exact fun r member outside => absurd (everyone r member) outside
    · exact vacant
    · exact fun a left b right same => going_alone given left right same
    · exact fun r member => going_own given member
    · exact ahead
  refine ⟨stands,?_,?_⟩
  · have lengths := parked.answers
    rw [List.length_zipIdx] at lengths
    rw [results,List.length_append,List.length_map]
    exact lengths
  · intro path
    rw [results,← parked.reported path]
    constructor
    · rintro ⟨result,member,ok,here⟩
      rcases List.mem_append.mp member with early | late
      · exact .inl ⟨result,early,ok,here⟩
      · obtain ⟨r,pending,rfl⟩ := List.mem_map.mp late
        exact .inr ⟨r,parked.goes r pending,here⟩
    · rintro (⟨result,member,ok,here⟩ | ⟨r,member,here⟩)
      · exact ⟨result,List.mem_append_left _ member,ok,here⟩
      · exact ⟨_,List.mem_append_right _ (List.mem_map_of_mem (everyone r member)),rfl,here⟩

end

theorem moved_placed (safe : Safe folder host renames after moved)
    (stands : Stands host team spot after.1) (there : path ∈ host.paths) : moved path = placed team spot path := by
  have same := safe.once.symm.trans stands
  obtain ⟨entry,member,rfl⟩ := List.mem_map.mp there
  exact congrArg Prod.fst (List.map_inj_left.mp same entry member)

theorem unclashing_safe (given : Given folder host renames) (clear : Unclashing folder host screen renames) :
    Safe folder host renames (batchRename refusal host screen renames) (placed (chosen host screen renames) (fun r => r.1.dst)) := by
  have apart : Team host (chosen host screen renames) := going_team given
  have goes : ∀ r, r ∈ chosen host screen renames ↔ r ∈ renames.zipIdx ∧ Goes folder host renames r.1 :=
    fun r => going_iff given (fun _ => shown_member host) clear.fresh
  have requested : ∀ r ∈ chosen host screen renames, r.1.dst = folder.requested r.1 :=
    fun r member => given.dst (going_eligible given member).2.1 _
  have temporary : ∀ r ∈ chosen host screen renames, tmp r = folder.temporary r :=
    fun r member => given.dst (going_eligible given member).2.1 _
  obtain ⟨stands,answers,reported⟩ : Stands host (chosen host screen renames) (fun r => r.1.dst) (batchRename refusal host screen renames).1 ∧
      (batchRename refusal host screen renames).2.length = renames.length ∧
      ∀ path, (∃ result ∈ (batchRename refusal host screen renames).2, result.ok = true ∧ result.path = path) ↔
        (∃ r ∈ renames.zipIdx, r.1.valid = true ∧ r.1.dst = r.1.path ∧ r.1.path = path) ∨ ∃ r ∈ chosen host screen renames, r.1.dst = path := by
    apply batch_outcome given
    · intro r member there
      obtain ⟨numbered,ahead⟩ := (goes r).mp member
      obtain ⟨earlier,also,less,earlierGoes,path⟩ := clear.temps r numbered ahead (temporary r member ▸ there)
      exact ⟨earlier,(goes earlier).mpr ⟨also,earlierGoes⟩,less,path.trans (temporary r member).symm⟩
    · intro r member later also less
      rw [requested r member,temporary later also]
      exact clear.targets r ((goes r).mp member).1 later ((goes later).mp also).1 ((goes r).mp member).2 ((goes later).mp also).2 less
  have stays : ∀ r ∈ renames.zipIdx, r ∉ chosen host screen renames →
      placed (chosen host screen renames) (fun r => r.1.dst) r.1.path = r.1.path := by
    intro r numbered outside
    apply placed_other
    intro other member same
    exact outside (given.same (going_eligible given member).1 numbered same ▸ member)
  refine ⟨stands,?_,?_,answers,?_⟩
  · intro r inside
    obtain ⟨i,numbered⟩ := numbered_member inside
    by_cases member : (r,i) ∈ chosen host screen renames
    · exact .inr ((placed_own apart member).trans (requested _ member))
    · exact .inl (stays _ numbered member)
  · intro path there
    rw [reported]
    constructor
    · rintro (⟨r,numbered,valid,same,here⟩ | ⟨r,member,here⟩)
      · have outside : r ∉ chosen host screen renames := fun member => (going_eligible given member).2.2.2.1 ((requested r member).symm.trans same)
        have inside := List.fst_mem_of_mem_zipIdx numbered
        have own : path = r.1.path := by
          apply stands_injective stands there (given.items r.1 inside)
          rw [stays r numbered outside]
          exact here.symm
        refine ⟨r.1,inside,own.symm,?_⟩
        rw [← here,← same]
        exact given.dst inside _
      · have own : path = r.1.path := by
          apply stands_injective stands there (apart.there r member)
          rw [placed_own apart member]
          exact here.symm
        refine ⟨r.1,(going_eligible given member).2.1,own.symm,?_⟩
        rw [← here]
        exact requested r member
    · rintro ⟨r,inside,rfl,here⟩
      obtain ⟨i,numbered⟩ := numbered_member inside
      by_cases member : (r,i) ∈ chosen host screen renames
      · exact .inr ⟨(r,i),member,(requested _ member).trans here.symm⟩
      · have home := stays _ numbered member
        have same : folder.requested r = r.path := here.symm.trans home
        exact .inl ⟨(r,i),numbered,clear.named r inside same,(given.dst inside _).trans same,home.symm⟩
  · rintro r ahead
    have inside : r ∈ renames := by
      obtain ⟨set,clears,member⟩ := ahead
      exact (clears r member).1.1
    obtain ⟨i,numbered⟩ := numbered_member inside
    have member : (r,i) ∈ chosen host screen renames := (goes _).mpr ⟨numbered,ahead⟩
    exact (placed_own apart member).trans (requested _ member)

theorem safe_unclashing (given : Given folder host renames) (safe : Safe folder host renames (batchRename refusal host screen renames) moved) :
    Unclashing folder host screen renames := by
  have apart : Team host (chosen host screen renames) := going_team given
  have parked : Parked host (chosen host screen renames) renames.zipIdx
      (firstPhase refusal host screen renames) := whole_parked given
  have distinct := (zipIdx_nodup renames).sublist parked.part
  have standsNow : Stands host (chosen host screen renames)
      (parkedAt (firstPhase refusal host screen renames).pending)
      ((firstPhase refusal host screen renames).host,
        (firstPhase refusal host screen renames).results).1 := parked.stands
  obtain ⟨after,stands,kept⟩ : ∃ after, Stands host (chosen host screen renames) after (batchRename refusal host screen renames).1 ∧
      ∀ r ∉ (firstPhase refusal host screen renames).pending,
        after r = parkedAt (firstPhase refusal host screen renames).pending r :=
    land_all apart standsNow parked.goes distinct (fun r member => if_pos member)
  have requested : ∀ r ∈ chosen host screen renames, r.1.dst = folder.requested r.1 :=
    fun r member => given.dst (going_eligible given member).2.1 _
  have temporary : ∀ r ∈ chosen host screen renames, tmp r = folder.temporary r :=
    fun r member => given.dst (going_eligible given member).2.1 _
  have stays : ∀ r ∈ renames.zipIdx, r ∉ chosen host screen renames → moved r.1.path = r.1.path := by
    intro r numbered outside
    rw [moved_placed safe stands (given.items r.1 (List.fst_mem_of_mem_zipIdx numbered))]
    apply placed_other
    intro other member same
    exact outside (given.same (going_eligible given member).1 numbered same ▸ member)
  have fresh : ∀ r, Eligible folder renames r → folder.requested r ∈ screen → folder.requested r ∈ host.paths := by
    intro r eligible onScreen
    by_contra free
    obtain ⟨i,numbered⟩ := numbered_member eligible.1
    have outside : (r,i) ∉ chosen host screen renames := by
      intro member
      have known : r.dst ∈ shownPaths host screen := (shown_member host).mpr (.inl ((requested _ member).symm ▸ onScreen))
      obtain ⟨other,also,path⟩ := going_cleared member known
      exact free (((path.trans (requested _ member)) ▸ apart.there other also))
    have ahead : Goes folder host renames r := by
      refine ⟨fun one => one = r,?_,rfl⟩
      rintro one rfl
      exact ⟨eligible,.inl free⟩
    exact eligible.2.2.1 ((safe.carried r ahead).symm.trans (stays _ numbered outside))
  have goes : ∀ r, r ∈ chosen host screen renames ↔ r ∈ renames.zipIdx ∧ Goes folder host renames r.1 :=
    fun r => going_iff given (fun _ => shown_member host) fresh
  have arrives : ∀ spot, Stands host (chosen host screen renames) spot (batchRename refusal host screen renames).1 →
      ∀ r ∈ chosen host screen renames, spot r = folder.requested r.1 := by
    intro spot placedNow r member
    have own : placed (chosen host screen renames) spot r.1.path = spot r := placed_own apart member
    rw [← own,← moved_placed safe placedNow (apart.there r member)]
    exact safe.carried r.1 ((goes r).mp member).2
  have pending : ∀ r ∈ chosen host screen renames,
      r ∈ (firstPhase refusal host screen renames).pending := by
    intro r member
    by_contra outside
    have home := kept r outside
    rw [parkedAt,if_neg outside,arrives after stands r member] at home
    exact (going_eligible given member).2.2.2.1 home
  have temps : ∀ r ∈ chosen host screen renames, tmp r ∈ host.paths →
      ∃ earlier ∈ chosen host screen renames, earlier.2 < r.2 ∧ earlier.1.path = tmp r :=
    fun r member there => parked_temps given (pending r member) member there
  have targets : ∀ r ∈ chosen host screen renames, ∀ later ∈ chosen host screen renames, r.2 < later.2 → r.1.dst ≠ tmp later := by
    intro r member later also less wanted
    obtain ⟨spot,placedNow,either⟩ : ∃ spot, Stands host (chosen host screen renames) spot (batchRename refusal host screen renames).1 ∧
        (spot r = r.1.path ∨ spot r = tmp r) :=
      land_blocked apart standsNow parked.goes ((zipIdx_ordered renames).sublist parked.part) (pending r member) (pending later also) less wanted
    have final := arrives spot placedNow r member
    rcases either with home | parkedThere
    · exact (going_eligible given member).2.2.2.1 (final.symm.trans home)
    · exact going_own given member ((requested r member).trans (final.symm.trans parkedThere))
  refine ⟨?_,fresh,?_,?_⟩
  · intro r inside same
    obtain ⟨i,numbered⟩ := numbered_member inside
    have outside : (r,i) ∉ chosen host screen renames := fun member => (going_eligible given member).2.2.2.1 same
    have home := stays _ numbered outside
    have there := given.items r inside
    obtain ⟨result,member,ok,here⟩ := (safe.reported r.path there).mpr ⟨r,inside,rfl,home.trans same.symm⟩
    rcases ((batch_outcome given temps targets).2.2 (moved r.path)).mp ⟨result,member,ok,here⟩ with ⟨x,xNumbered,valid,_,path⟩ | ⟨x,xMember,path⟩
    · have equal := given.same xNumbered numbered (path.trans home)
      rw [equal] at valid
      exact valid
    · have taken : x.1.dst ∈ host.paths := (path.trans home) ▸ there
      obtain ⟨other,also,vacates⟩ := going_cleared xMember ((shown_member host).mpr (.inr taken))
      have equal := given.same (going_eligible given also).1 numbered (vacates.trans (path.trans home))
      exact absurd (equal ▸ also) outside
  · intro r numbered ahead there
    have member := (goes r).mpr ⟨numbered,ahead⟩
    obtain ⟨earlier,also,less,path⟩ := temps r member ((temporary r member).symm ▸ there)
    exact ⟨earlier,((goes earlier).mp also).1,less,((goes earlier).mp also).2,path.trans (temporary r member)⟩
  · intro r numbered later laterNumbered ahead laterAhead less
    have member := (goes r).mpr ⟨numbered,ahead⟩
    have also := (goes later).mpr ⟨laterNumbered,laterAhead⟩
    rw [← requested r member,← temporary later also]
    exact targets r member later also less

theorem batch_rename_safe_iff (refusal : Text) (screen : List Text) (given : Given folder host renames) :
    (∃ moved, Safe folder host renames (batchRename refusal host screen renames) moved) ↔ Unclashing folder host screen renames := by
  constructor
  · rintro ⟨moved,safe⟩
    exact safe_unclashing given safe
  · exact fun clear => ⟨_,unclashing_safe given clear⟩

def rootFolder : Folder := ⟨[],'/',.inl rfl,by decide⟩

def swapped : Host Nat := ⟨[(['/','a'],1),(['/','b'],2)],by decide⟩

def swap : List Rename := [⟨['/','a'],['b']⟩,⟨['/','b'],['a']⟩]

theorem swap_carried_out : ∃ moved, Safe rootFolder swapped swap (batchRename [] swapped [] swap) moved := by
  have given : Given rootFolder swapped swap := by
    refine ⟨?_,by decide,by decide,.inr (by decide)⟩
    intro path there
    rcases List.mem_cons.mp there with rfl | more
    · exact ⟨['a'],rfl,by decide⟩
    · rcases List.mem_cons.mp more with rfl | none
      · exact ⟨['b'],rfl,by decide⟩
      · cases none
  refine (batch_rename_safe_iff [] [] given).mpr ⟨by decide,?_,?_,?_⟩
  · exact fun _ _ onScreen => (List.not_mem_nil onScreen).elim
  · intro r numbered _ there
    have free : ∀ r ∈ swap.zipIdx, rootFolder.temporary r ∉ swapped.paths := by decide
    exact absurd there (free r numbered)
  · intro r numbered later laterNumbered _ _ _
    have apart : ∀ r ∈ swap.zipIdx, ∀ later ∈ swap.zipIdx, rootFolder.requested r.1 ≠ rootFolder.temporary later := by decide
    exact apart r numbered later laterNumbered

def chained : Host Nat := ⟨[(['/','d'],1),(['/','c'],2),(['/','a'],3),('/'::tempName 2 ['b'],4)],by decide⟩

-- The temporary name of the last rename of a chain is taken: its item stays,
-- the first rename takes the name of the second, and the item of the second
-- can neither arrive nor go back.
theorem chain_stranded : ¬ ∃ moved, Safe rootFolder chained [⟨['/','d'],['c']⟩,⟨['/','c'],['a']⟩,⟨['/','a'],['b']⟩]
    (batchRename [] chained [] [⟨['/','d'],['c']⟩,⟨['/','c'],['a']⟩,⟨['/','a'],['b']⟩]) moved := by
  rintro ⟨moved,safe⟩
  have entries : (batchRename [] chained [] [⟨['/','d'],['c']⟩,⟨['/','c'],['a']⟩,⟨['/','a'],['b']⟩]).1.entries =
      [(['/','c'],1),('/'::tempName 1 ['a'],2),(['/','a'],3),('/'::tempName 2 ['b'],4)] := by decide
  have places := entries.symm.trans safe.once
  simp only [chained,List.map_cons,List.cons.injEq,Prod.mk.injEq] at places
  have stranded : moved ['/','c'] = '/'::tempName 1 ['a'] := places.2.1.1.symm
  rcases safe.places ⟨['/','c'],['a']⟩ (by decide) with home | arrived
  · exact absurd (stranded.symm.trans home) (by decide)
  · exact absurd (stranded.symm.trans arrived) (by decide)

end Safety

end RemoteFileExplorer.BatchRenames
