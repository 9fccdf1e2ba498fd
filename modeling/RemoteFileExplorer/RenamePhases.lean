import RemoteFileExplorer.RenameRequests

namespace RemoteFileExplorer.BatchRenames
open PathTexts

variable {Item : Type} {folder : Folder} {host : Host Item} {screen shown : List Text} {renames : List Rename}

section Places
variable {team : List Request} {spot : Request → Text} {now : Host Item} {r : Request}

def placed (team : List Request) (spot : Request → Text) (path : Text) : Text :=
  match team.find? (fun r => r.1.path == path) with
  | some r => spot r
  | none => path

structure Team (host : Host Item) (team : List Request) : Prop where
  there : ∀ r ∈ team, r.1.path ∈ host.paths
  apart : ∀ a ∈ team, ∀ b ∈ team, a.1.path = b.1.path → a = b

def Stands (host : Host Item) (team : List Request) (spot : Request → Text) (now : Host Item) : Prop :=
  now.entries = host.entries.map (fun entry => (placed team spot entry.1,entry.2))

theorem placed_own (apart : Team host team) (member : r ∈ team) : placed team spot r.1.path = spot r := by
  unfold placed
  cases found : team.find? (fun other => other.1.path == r.1.path) with
  | none =>
    have all := List.find?_eq_none.mp found r member
    simp at all
  | some other =>
    have same : other.1.path = r.1.path := by simpa using List.find?_some found
    rw [apart.apart other (List.mem_of_find?_eq_some found) r member same]

theorem placed_other (none : ∀ r ∈ team, r.1.path ≠ path) : placed team spot path = path := by
  unfold placed
  rw [List.find?_eq_none.mpr]
  intro r member
  simpa using none r member

theorem placed_cases (apart : Team host team) (spot : Request → Text) (path : Text) :
    (∃ r ∈ team, r.1.path = path ∧ placed team spot path = spot r) ∨ ((∀ r ∈ team, r.1.path ≠ path) ∧ placed team spot path = path) := by
  by_cases some : ∃ r ∈ team, r.1.path = path
  · obtain ⟨r,member,rfl⟩ := some
    exact .inl ⟨r,member,rfl,placed_own apart member⟩
  · have none : ∀ r ∈ team, r.1.path ≠ path := fun r member same => some ⟨r,member,same⟩
    exact .inr ⟨none,placed_other none⟩

theorem stands_start (apart : Team host team) (home : ∀ r ∈ team, spot r = r.1.path) : Stands host team spot host := by
  unfold Stands
  symm
  apply List.map_id''
  intro entry
  rcases placed_cases apart spot entry.1 with ⟨r,member,own,here⟩ | ⟨_,here⟩
  · rw [here,home r member,own]
  · rw [here]

theorem stands_paths (stands : Stands host team spot now) : now.paths = host.paths.map (placed team spot) := by
  unfold Host.paths
  rw [stands,List.map_map,List.map_map]
  rfl

theorem stands_taken (apart : Team host team) (stands : Stands host team spot now) :
    path ∈ now.paths ↔ (∃ r ∈ team, spot r = path) ∨ (path ∈ host.paths ∧ ∀ r ∈ team, r.1.path ≠ path) := by
  rw [stands_paths stands,List.mem_map]
  constructor
  · rintro ⟨old,there,rfl⟩
    rcases placed_cases apart spot old with ⟨r,member,_,here⟩ | ⟨none,here⟩
    · exact .inl ⟨r,member,here.symm⟩
    · rw [here]
      exact .inr ⟨there,none⟩
  · rintro (⟨r,member,rfl⟩ | ⟨there,none⟩)
    · exact ⟨r.1.path,apart.there r member,placed_own apart member⟩
    · exact ⟨path,there,placed_other none⟩

theorem stands_injective (stands : Stands host team spot now) (left : a ∈ host.paths) (right : b ∈ host.paths)
    (same : placed team spot a = placed team spot b) : a = b := by
  have distinct : (host.paths.map (placed team spot)).Nodup := stands_paths stands ▸ now.distinct
  exact List.inj_on_of_nodup_map distinct left right same

theorem rename_taken (taken : dst ∈ now.paths) : now.rename src dst = none := dif_pos taken

theorem rename_free (apart : Team host team) (stands : Stands host team spot now) (member : r ∈ team) (free : dst ∉ now.paths) :
    ∃ next, now.rename (spot r) dst = some next ∧ Stands host team (Function.update spot r dst) next := by
  refine ⟨_,dif_neg free,?_⟩
  unfold Stands
  simp only
  rw [stands,List.map_map]
  apply List.map_congr_left
  intro entry inside
  have there : entry.1 ∈ host.paths := List.mem_map_of_mem inside
  have own : placed team spot r.1.path = spot r := placed_own apart member
  simp only [Function.comp_apply,relabel]
  by_cases same : entry.1 = r.1.path
  · rw [if_pos (by rw [same,own]),same,placed_own apart member,Function.update_self]
  · have elsewhere : placed team spot entry.1 ≠ spot r := by
      intro equal
      exact same (stands_injective stands there (apart.there r member) (equal.trans own.symm))
    rw [if_neg elsewhere]
    rcases placed_cases apart spot entry.1 with ⟨x,inTeam,path,here⟩ | ⟨none,here⟩
    · have other : x ≠ r := fun equal => same (by rw [← path,equal])
      rw [here,← path,placed_own apart inTeam,Function.update_of_ne other]
    · rw [here,placed_other none]

end Places

section Parking
variable {going done rest : List Request} {r : Request} {s : Batch Item} {refusal : Text}

theorem moving_parts {r : Rename} : moving renames r = true ↔ r.valid = true ∧ r.dst ≠ r.path ∧ count renames r.dst ≤ 1 := by
  simp [moving,and_assoc]

theorem turnedDown_none (all : ∀ r ∈ going, moving renames r.1 = true) : turnedDown renames going r = none ↔ r ∈ going := by
  unfold turnedDown
  cases reason : invalidNameReason r.1.newName with
  | some text =>
    have unusable : r.1.valid = false := by simp [Rename.valid,reason]
    have absent : r ∉ going := by
      intro member
      have valid := (moving_parts.mp (all r member)).1
      rw [unusable] at valid
      cases valid
    simp [absent]
  | none =>
    have valid : r.1.valid = true := by simp [Rename.valid,reason]
    by_cases member : r ∈ going
    · obtain ⟨_,elsewhere,few⟩ := moving_parts.mp (all r member)
      simp [elsewhere,member,Nat.not_lt.mpr few]
    · simp only [member,not_false_eq_true,and_true,iff_false]
      by_cases same : r.1.dst = r.1.path
      · simp [same]
      · by_cases few : count renames r.1.dst ≤ 1
        · have moves : moving renames r.1 = true := moving_parts.mpr ⟨valid,same,few⟩
          simp [same,moves]
        · have many : 1 < count renames r.1.dst := by omega
          rw [if_neg same]
          split
          · simp
          · simp

theorem turnedDown_some (down : turnedDown renames going r = some result) :
    result.path = r.1.path ∧ (result.ok = true ↔ r.1.valid = true ∧ r.1.dst = r.1.path) := by
  unfold turnedDown at down
  cases reason : invalidNameReason r.1.newName with
  | some text =>
    rw [reason] at down
    cases down
    simp [Rename.valid,reason]
  | none =>
    have valid : r.1.valid = true := by simp [Rename.valid,reason]
    simp only [reason] at down
    split at down
    · rename_i same
      cases down
      simp [valid,same]
    · rename_i elsewhere
      split at down
      · cases down
        simp [elsewhere]
      · split at down
        · cases down
          simp [elsewhere]
        · cases down

local instance requests_lawful : LawfulBEq Request := inferInstance

def parkedAt (pending : List Request) (r : Request) : Text := if r ∈ pending then tmp r else r.1.path

theorem parkedAt_snoc (pending : List Request) (r : Request) : parkedAt (pending ++ [r]) = Function.update (parkedAt pending) r (tmp r) := by
  funext other
  by_cases same : other = r
  · simp [parkedAt,same]
  · simp [parkedAt,same]

structure Parked (host : Host Item) (going done : List Request) (s : Batch Item) : Prop where
  stands : Stands host going (parkedAt s.pending) s.host
  part : s.pending.Sublist done
  goes : ∀ r ∈ s.pending, r ∈ going
  answers : s.results.length + s.pending.length = done.length
  reported : ∀ path, (∃ result ∈ s.results, result.ok = true ∧ result.path = path) ↔ ∃ r ∈ done, r.1.valid = true ∧ r.1.dst = r.1.path ∧ r.1.path = path

theorem reported_snoc {results : List ItemResult} {result : ItemResult} (before : ∀ path, (∃ result ∈ results, result.ok = true ∧ result.path = path) ↔
      ∃ r ∈ done, r.1.valid = true ∧ r.1.dst = r.1.path ∧ r.1.path = path)
    (own : result.path = r.1.path) (ok : result.ok = true ↔ r.1.valid = true ∧ r.1.dst = r.1.path) (path : Text) :
    (∃ one ∈ results ++ [result], one.ok = true ∧ one.path = path) ↔ ∃ x ∈ done ++ [r], x.1.valid = true ∧ x.1.dst = x.1.path ∧ x.1.path = path := by
  constructor
  · rintro ⟨one,member,good,here⟩
    rcases List.mem_append.mp member with old | new
    · obtain ⟨x,inside,parts⟩ := (before path).mp ⟨one,old,good,here⟩
      exact ⟨x,List.mem_append_left _ inside,parts⟩
    · cases List.mem_singleton.mp new
      obtain ⟨valid,same⟩ := ok.mp good
      exact ⟨r,by simp,valid,same,own.symm.trans here⟩
  · rintro ⟨x,member,valid,same,here⟩
    rcases List.mem_append.mp member with old | new
    · obtain ⟨one,inside,parts⟩ := (before path).mpr ⟨x,old,valid,same,here⟩
      exact ⟨one,List.mem_append_left _ inside,parts⟩
    · cases List.mem_singleton.mp new
      exact ⟨result,by simp,ok.mpr ⟨valid,same⟩,own.trans here⟩

theorem park_step (apart : Team host going) (all : ∀ r ∈ going, moving renames r.1 = true) (parked : Parked host going done s) (later : r ∉ done) :
    Parked host going (done ++ [r]) (park renames refusal going s r) ∧
    (r ∈ (park renames refusal going s r).pending ↔ r ∈ going ∧ tmp r ∉ s.host.paths) := by
  have outside : r ∉ s.pending := fun member => later (parked.part.subset member)
  unfold park
  cases down : turnedDown renames going r with
  | some result =>
    have absent : r ∉ going := fun member => nomatch (down.symm.trans ((turnedDown_none all).mpr member))
    obtain ⟨own,ok⟩ := turnedDown_some down
    refine ⟨⟨parked.stands,parked.part.trans (List.sublist_append_left _ _),parked.goes,?_,reported_snoc parked.reported own ok⟩,?_⟩
    · have lengths := parked.answers
      simp only [List.length_append,List.length_singleton]
      omega
    · simp [outside,absent]
  | none =>
    have member : r ∈ going := (turnedDown_none all).mp down
    have elsewhere := (moving_parts.mp (all r member)).2.1
    have home : parkedAt s.pending r = r.1.path := if_neg outside
    by_cases taken : tmp r ∈ s.host.paths
    · simp only [rename_taken taken]
      refine ⟨⟨parked.stands,parked.part.trans (List.sublist_append_left _ _),parked.goes,?_,?_⟩,?_⟩
      · have lengths := parked.answers
        simp only [List.length_append,List.length_singleton]
        omega
      · exact reported_snoc parked.reported rfl (by simp [failed,elsewhere])
      · simp [outside,taken]
    · obtain ⟨next,renamed,stands⟩ := rename_free apart parked.stands member taken
      rw [home] at renamed
      simp only [renamed]
      refine ⟨⟨?_,?_,?_,?_,?_⟩,by simp [member,taken]⟩
      · rw [parkedAt_snoc]
        exact stands
      · exact parked.part.append (List.Sublist.refl [r])
      · intro x inside
        rcases List.mem_append.mp inside with old | new
        · exact parked.goes x old
        · exact List.mem_singleton.mp new ▸ member
      · have lengths := parked.answers
        simp only [List.length_append,List.length_singleton]
        omega
      · intro path
        rw [parked.reported path]
        constructor
        · rintro ⟨x,inside,parts⟩
          exact ⟨x,List.mem_append_left _ inside,parts⟩
        · rintro ⟨x,inside,valid,same,here⟩
          rcases List.mem_append.mp inside with old | new
          · exact ⟨x,old,valid,same,here⟩
          · cases List.mem_singleton.mp new
            exact absurd same elsewhere

theorem park_all (refusal : Text) (apart : Team host going) (all : ∀ r ∈ going, moving renames r.1 = true) (parked : Parked host going done s) (distinct : (done ++ rest).Nodup) :
    Parked host going (done ++ rest) (rest.foldl (park renames refusal going) s) ∧
    ∀ r ∈ done, r ∈ (rest.foldl (park renames refusal going) s).pending ↔ r ∈ s.pending := by
  induction rest generalizing done s with
  | nil =>
    rw [List.append_nil]
    exact ⟨parked,fun _ _ => Iff.rfl⟩
  | cons r rest ih =>
    have whole : done ++ r::rest = done ++ [r] ++ rest := by simp
    rw [whole] at distinct ⊢
    have later : r ∉ done := by
      intro member
      have apart := (List.nodup_append.mp (List.nodup_append.mp distinct).1).2.2
      exact apart r member r (List.mem_singleton.mpr rfl) rfl
    have stepped : Parked host going (done ++ [r]) (park renames refusal going s r) := (park_step apart all parked later).1
    obtain ⟨final,kept⟩ := ih stepped distinct
    refine ⟨final,?_⟩
    intro x inside
    rw [List.foldl_cons,kept x (List.mem_append_left _ inside)]
    have other : x ≠ r := fun same => later (same ▸ inside)
    unfold park
    split
    · rfl
    · split <;> simp [other]

end Parking

section Landing
variable {team todo rest : List Request} {r : Request} {spot : Request → Text} {s : Host Item × List ItemResult} {refusal : Text}

section
variable (apart : Team host team) (stands : Stands host team spot s.1) (member : r ∈ team) (here : spot r = tmp r)
include apart stands member here

theorem land_free (free : r.1.dst ∉ s.1.paths) :
    ∃ next, land refusal s r = (next,s.2 ++ [⟨r.1.dst,true,none,none⟩]) ∧ Stands host team (Function.update spot r r.1.dst) next := by
  obtain ⟨next,renamed,now⟩ := rename_free apart stands member free
  rw [here] at renamed
  exact ⟨next,by simp only [land,renamed],now⟩

theorem land_taken (taken : r.1.dst ∈ s.1.paths) :
    ∃ next bad place, land refusal s r = (next,s.2 ++ [bad]) ∧ (place = r.1.path ∨ place = tmp r) ∧ Stands host team (Function.update spot r place) next := by
  by_cases back : r.1.path ∈ s.1.paths
  · refine ⟨s.1,stranded refusal r,tmp r,?_,.inr rfl,?_⟩
    · simp only [land,rename_taken taken,rename_taken back]
    · rw [← here,Function.update_eq_self]
      exact stands
  · obtain ⟨next,renamed,now⟩ := rename_free apart stands member back
    rw [here] at renamed
    exact ⟨next,failed refusal r.1.path,r.1.path,by simp only [land,rename_taken taken,renamed],.inl rfl,now⟩

end

section
variable (apart : Team host team) (stands : Stands host team spot s.1) (within : ∀ r ∈ todo, r ∈ team) (distinct : todo.Nodup) (here : ∀ r ∈ todo, spot r = tmp r)
include apart stands within distinct here

theorem land_all :
    ∃ after, Stands host team after (todo.foldl (land refusal) s).1 ∧ ∀ r ∉ todo, after r = spot r := by
  induction todo generalizing spot s with
  | nil => exact ⟨spot,stands,fun _ _ => rfl⟩
  | cons r todo ih =>
    have own := here r (List.mem_cons_self ..)
    have member := within r (List.mem_cons_self ..)
    have apartRest := List.nodup_cons.mp distinct
    obtain ⟨place,now⟩ : ∃ place, Stands host team (Function.update spot r place) (land refusal s r).1 := by
      by_cases free : r.1.dst ∈ s.1.paths
      · obtain ⟨next,bad,place,landed,_,now⟩ := land_taken apart stands member own free
        exact ⟨place,by rw [landed]; exact now⟩
      · obtain ⟨next,landed,now⟩ := land_free apart stands member own free
        exact ⟨r.1.dst,by rw [landed]; exact now⟩
    have others : ∀ x ∈ todo, Function.update spot r place x = tmp x := by
      intro x inside
      have other : x ≠ r := fun same => apartRest.1 (same ▸ inside)
      rw [Function.update_of_ne other]
      exact here x (List.mem_cons_of_mem _ inside)
    obtain ⟨after,final,kept⟩ := ih now (fun x inside => within x (List.mem_cons_of_mem _ inside)) apartRest.2 others
    refine ⟨after,final,?_⟩
    intro x outside
    have other : x ≠ r := fun same => outside (same ▸ List.mem_cons_self ..)
    have later : x ∉ todo := fun inside => outside (List.mem_cons_of_mem _ inside)
    rw [kept x later,Function.update_of_ne other]

theorem land_clear (landed : ∀ r ∈ team, r ∉ todo → spot r = r.1.dst)
    (vacant : ∀ r ∈ team, r.1.dst ∈ host.paths → ∃ other ∈ team, other.1.path = r.1.dst)
    (alone : ∀ a ∈ team, ∀ b ∈ team, a.1.dst = b.1.dst → a = b)
    (own : ∀ r ∈ team, r.1.dst ≠ tmp r) (ahead : todo.Pairwise (fun a b => a.1.dst ≠ tmp b)) :
    Stands host team (fun r => r.1.dst) (todo.foldl (land refusal) s).1 ∧
    (todo.foldl (land refusal) s).2 = s.2 ++ todo.map (fun r => ⟨r.1.dst,true,none,none⟩) := by
  induction todo generalizing spot s with
  | nil =>
    refine ⟨?_,by simp⟩
    have same : s.1.entries = host.entries.map (fun entry => (placed team (fun r => r.1.dst) entry.1,entry.2)) := by
      rw [stands]
      apply List.map_congr_left
      intro entry _
      rcases placed_cases apart spot entry.1 with ⟨r,member,path,here⟩ | ⟨none,here⟩
      · rw [here,← path,placed_own apart member,landed r member (List.not_mem_nil)]
      · rw [here,placed_other none]
    exact same
  | cons r todo ih =>
    have here_r := here r (List.mem_cons_self ..)
    have member := within r (List.mem_cons_self ..)
    have apartRest := List.nodup_cons.mp distinct
    have order := List.pairwise_cons.mp ahead
    have free : r.1.dst ∉ s.1.paths := by
      intro taken
      rcases (stands_taken apart stands).mp taken with ⟨x,inTeam,there⟩ | ⟨stays,none⟩
      · by_cases waits : x ∈ r::todo
        · rw [here x waits] at there
          rcases List.mem_cons.mp waits with rfl | later
          · exact own x member there.symm
          · exact order.1 x later there.symm
        · rw [landed x inTeam waits] at there
          exact waits (alone x inTeam r member there ▸ List.mem_cons_self ..)
      · obtain ⟨other,inTeam,path⟩ := vacant r member stays
        exact none other inTeam path
    obtain ⟨next,landing,now⟩ : ∃ next, land refusal s r = (next,s.2 ++ [⟨r.1.dst,true,none,none⟩]) ∧ Stands host team (Function.update spot r r.1.dst) next :=
      land_free apart stands member here_r free
    have others : ∀ x ∈ todo, Function.update spot r r.1.dst x = tmp x := by
      intro x inside
      have other : x ≠ r := fun same => apartRest.1 (same ▸ inside)
      rw [Function.update_of_ne other]
      exact here x (List.mem_cons_of_mem _ inside)
    have landedNow : ∀ x ∈ team, x ∉ todo → Function.update spot r r.1.dst x = x.1.dst := by
      intro x inTeam outside
      by_cases same : x = r
      · rw [same,Function.update_self]
      · rw [Function.update_of_ne same]
        apply landed x inTeam
        intro inside
        rcases List.mem_cons.mp inside with first | later
        · exact same first
        · exact outside later
    have standsNow : Stands host team (Function.update spot r r.1.dst) (next,s.2 ++ [⟨r.1.dst,true,none,none⟩]).1 := now
    obtain ⟨final,results⟩ := ih standsNow (fun x inside => within x (List.mem_cons_of_mem _ inside)) apartRest.2 others landedNow order.2
    rw [List.foldl_cons,landing]
    refine ⟨final,?_⟩
    rw [results]
    simp

end

end Landing

end RemoteFileExplorer.BatchRenames
