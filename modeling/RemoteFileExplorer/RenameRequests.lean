import Mathlib.Data.List.Perm.Subperm
import RemoteFileExplorer.BatchRenames

namespace RemoteFileExplorer.BatchRenames
open PathTexts

variable {Item : Type} {folder : Folder} {host : Host Item} {screen shown : List Text} {renames : List Rename}

def Folder.requested (folder : Folder) (r : Rename) : Text := folder.place r.newName
def Folder.temporary (folder : Folder) (r : Request) : Text := folder.place (tempName r.2 r.1.newName)

-- The renames are of distinct items of the folder, and no path of a host with
-- forward slashes holds a backslash.
structure Given (folder : Folder) (host : Host Item) (renames : List Rename) : Prop where
  inside : ∀ path ∈ host.paths, ∃ name, path = folder.place name ∧ folder.sep ∉ name
  items : ∀ r ∈ renames, r.path ∈ host.paths
  distinct : (renames.map Rename.path).Nodup
  plain : folder.sep = '\\' ∨ ∀ r ∈ renames, '\\' ∉ r.path

-- A usable name that nobody else in the batch asks for and that is not the
-- item's own.
def Eligible (folder : Folder) (renames : List Rename) (r : Rename) : Prop :=
  r ∈ renames ∧ r.valid = true ∧ folder.requested r ≠ r.path ∧
    ∀ other ∈ renames, other.valid = true → folder.requested other = folder.requested r → other = r

-- A set of requests each of which finds its target free or vacated by another
-- of the set.
def Clears (folder : Folder) (host : Host Item) (renames : List Rename) (set : Rename → Prop) : Prop :=
  ∀ r, set r → Eligible folder renames r ∧ (folder.requested r ∉ host.paths ∨ ∃ other, set other ∧ other.path = folder.requested r)

def Goes (folder : Folder) (host : Host Item) (renames : List Rename) (r : Rename) : Prop :=
  ∃ set, Clears folder host renames set ∧ set r

structure Safe (folder : Folder) (host : Host Item) (renames : List Rename) (after : Host Item × List ItemResult) (moved : Text → Text) : Prop where
  once : after.1.entries = host.entries.map (fun entry => (moved entry.1,entry.2))
  places : ∀ r ∈ renames, moved r.path = r.path ∨ moved r.path = folder.requested r
  reported : ∀ path ∈ host.paths, (∃ result ∈ after.2, result.ok = true ∧ result.path = moved path) ↔
    ∃ r ∈ renames, r.path = path ∧ moved path = folder.requested r
  answers : after.2.length = renames.length
  carried : ∀ r, Goes folder host renames r → moved r.path = folder.requested r

structure Unclashing (folder : Folder) (host : Host Item) (screen : List Text) (renames : List Rename) : Prop where
  named : ∀ r ∈ renames, folder.requested r = r.path → r.valid = true
  fresh : ∀ r, Eligible folder renames r → folder.requested r ∈ screen → folder.requested r ∈ host.paths
  temps : ∀ r ∈ renames.zipIdx, Goes folder host renames r.1 → folder.temporary r ∈ host.paths →
    ∃ earlier ∈ renames.zipIdx, earlier.2 < r.2 ∧ Goes folder host renames earlier.1 ∧ earlier.1.path = folder.temporary r
  targets : ∀ r ∈ renames.zipIdx, ∀ later ∈ renames.zipIdx, Goes folder host renames r.1 → Goes folder host renames later.1 → r.2 < later.2 →
    folder.requested r.1 ≠ folder.temporary later

theorem place_injective (same : folder.place a = folder.place b) : a = b := by
  simpa [Folder.place] using same

theorem rdropWhile_stops (stops : p c = false) (runs : ∀ x ∈ back, p x = true) :
    (front ++ c::back).rdropWhile p = front ++ [c] := by
  have all : ∀ x ∈ back.reverse, p x = true := fun x member => runs x (List.mem_reverse.mp member)
  simp [List.rdropWhile,List.dropWhile_append_of_pos all,stops]

theorem renameDestination_place (plain : folder.sep = '\\' ∨ '\\' ∉ folder.place name) (single : folder.sep ∉ name) :
    renameDestination (folder.place name) newName = folder.place newName := by
  have within : folder.sep ∈ folder.place name := by simp [Folder.place]
  have sep : (if '\\' ∈ folder.place name then '\\' else '/') = folder.sep := by
    rcases plain with back | none
    · rw [back] at within ⊢
      rw [if_pos within]
    · rw [if_neg none]
      rcases folder.slash with slash | back
      · exact slash.symm
      · exact absurd (back ▸ within) none
  have front : (folder.place name).rdropWhile (· ≠ folder.sep) = folder.dir ++ [folder.sep] := by
    apply rdropWhile_stops
    · simp
    · intro x member
      have : x ≠ folder.sep := fun same => single (same ▸ member)
      simpa using this
  have parent : beforeLast folder.sep (folder.place name) = some folder.dir := by
    rw [beforeLast,if_pos within,front,List.dropLast_concat]
  unfold renameDestination
  rw [sep]
  simp only [parent]
  cases empty : folder.dir with
  | nil => simp [Folder.place,empty]
  | cons first rest =>
    have whole : first::rest ≠ [folder.sep] := empty ▸ folder.rooted
    simp [Folder.place,empty,whole]

theorem tempName_index (same : tempName i a = tempName j b) : i = j := by
  have tails : Nat.toDigits 10 i ++ '-'::a = Nat.toDigits 10 j ++ '-'::b := by
    rw [tempName,tempName,List.append_assoc,List.append_assoc] at same
    exact List.append_cancel_left same
  have digits : ∀ n rest, (Nat.toDigits 10 n ++ '-'::rest).takeWhile Char.isDigit = Nat.toDigits 10 n := by
    intro n rest
    have all : ∀ c ∈ Nat.toDigits 10 n, Char.isDigit c = true := fun c member => Nat.isDigit_of_mem_toDigits (by decide) (by decide) member
    rw [List.takeWhile_append_of_pos all]
    simp [Char.isDigit]
  have equal := congrArg (List.takeWhile Char.isDigit) tails
  rw [digits,digits] at equal
  calc
    i = Nat.ofDigitChars 10 (Nat.toDigits 10 i) 0 := Nat.ofDigitChars_ten_toDigits.symm
    _ = Nat.ofDigitChars 10 (Nat.toDigits 10 j) 0 := by rw [equal]
    _ = j := Nat.ofDigitChars_ten_toDigits

theorem tempName_longer (i : Nat) (name : Text) : tempName i name ≠ name := by
  intro same
  have lengths := congrArg List.length same
  rw [tempName,List.length_append,List.length_cons] at lengths
  omega

section
variable (given : Given folder host renames)
include given

theorem Given.dst (member : r ∈ renames) (newName : Text) :
    renameDestination r.path newName = folder.place newName := by
  obtain ⟨name,same,single⟩ := given.inside r.path (given.items r member)
  rw [same]
  apply renameDestination_place _ single
  rcases given.plain with back | none
  · exact .inl back
  · exact .inr (same ▸ none r member)

theorem Given.distinctRequests : (renames.zipIdx.map (fun r => r.1.path)).Nodup := by
  have same : renames.zipIdx.map (fun r => r.1.path) = renames.map Rename.path := by
    rw [← List.zipIdx_map_fst 0 renames,List.map_map,List.zipIdx_map_fst]
    rfl
  rw [same]
  exact given.distinct

theorem Given.same (left : a ∈ renames.zipIdx) (right : b ∈ renames.zipIdx) (paths : a.1.path = b.1.path) : a = b :=
  List.inj_on_of_nodup_map given.distinctRequests left right paths

end

theorem numbered_member (member : r ∈ renames) : ∃ i, (r,i) ∈ renames.zipIdx := by
  rw [← List.zipIdx_map_fst 0 renames] at member
  obtain ⟨request,numbered,rfl⟩ := List.mem_map.mp member
  exact ⟨request.2,numbered⟩

theorem count_alone (distinct : renames.Nodup) (member : r ∈ renames) (holds : p r = true) :
    renames.countP p ≤ 1 ↔ ∀ other ∈ renames, p other = true → other = r := by
  rw [List.countP_eq_length_filter]
  have within : r ∈ renames.filter p := List.mem_filter.mpr ⟨member,holds⟩
  have nodup : (renames.filter p).Nodup := distinct.filter _
  constructor
  · intro short other otherMember otherHolds
    have otherWithin : other ∈ renames.filter p := List.mem_filter.mpr ⟨otherMember,otherHolds⟩
    obtain ⟨single,whole⟩ : ∃ single, renames.filter p = [single] :=
      List.length_eq_one_iff.mp (Nat.le_antisymm short (List.length_pos_of_mem within))
    rw [whole,List.mem_singleton] at within otherWithin
    rw [within,otherWithin]
  · intro alone
    have sub : renames.filter p ⊆ [r] := by
      intro other otherWithin
      have parts := List.mem_filter.mp otherWithin
      exact List.mem_singleton.mpr (alone other parts.1 parts.2)
    exact (List.subperm_of_subset nodup sub).length_le

theorem moving_iff (given : Given folder host renames) (member : r ∈ renames) : moving renames r = true ↔ Eligible folder renames r := by
  have own : r.dst = folder.requested r := given.dst member _
  have nodup : renames.Nodup := List.Nodup.of_map _ given.distinct
  unfold moving Eligible
  simp only [Bool.and_eq_true,bne_iff_ne,decide_eq_true_eq,own,and_assoc]
  constructor
  · rintro ⟨valid,elsewhere,few⟩
    refine ⟨member,valid,elsewhere,?_⟩
    have alone := (count_alone nodup member (by simp [valid,own])).mp few
    intro other otherMember otherValid same
    apply alone other otherMember
    simp [otherValid,Rename.dst,given.dst otherMember,Folder.requested] at same ⊢
    exact same
  · rintro ⟨_,valid,elsewhere,alone⟩
    refine ⟨valid,elsewhere,(count_alone nodup member (by simp [valid,own])).mpr ?_⟩
    intro other otherMember both
    simp only [Bool.and_eq_true,beq_iff_eq] at both
    exact alone other otherMember both.1 ((given.dst otherMember _).symm.trans both.2)

theorem round_member :
    r ∈ round shown going ↔ r ∈ going ∧ (r.1.dst ∈ shown → ∃ other ∈ going, other.1.path = r.1.dst) := by
  unfold round
  rw [List.mem_filter]
  apply and_congr_right
  intro _
  simp only [Bool.not_eq_true',Bool.and_eq_false_iff,decide_eq_false_iff_not,Bool.not_eq_false',decide_eq_true_eq,List.mem_map]
  constructor
  · rintro (hidden | vacated) known
    · exact absurd known hidden
    · exact vacated
  · intro vacated
    by_cases known : r.1.dst ∈ shown
    · exact .inr (vacated known)
    · exact .inl known

theorem round_shorter (changed : round shown going ≠ going) : (round shown going).length < going.length := by
  apply lt_of_le_of_ne (List.length_filter_le _ _)
  intro same
  exact changed (List.filter_sublist.eq_of_length same)

theorem settle_within (member : r ∈ settle shown fuel going) : r ∈ going := by
  induction fuel generalizing going with
  | zero => exact member
  | succ fuel ih =>
    simp only [settle] at member
    split at member
    · exact member
    · exact (round_member.mp (ih member)).1

theorem settle_stable (enough : going.length ≤ fuel) : round shown (settle shown fuel going) = settle shown fuel going := by
  induction fuel generalizing going with
  | zero =>
    have none : going = [] := List.length_eq_zero_iff.mp (Nat.le_zero.mp enough)
    rw [settle,none]
    rfl
  | succ fuel ih =>
    simp only [settle]
    split
    · rename_i stable
      exact stable
    · rename_i changed
      have shorter := round_shorter changed
      exact ih (by omega)

theorem settle_keeps (set : Request → Prop) (within : ∀ r, set r → r ∈ going)
    (cleared : ∀ r, set r → r.1.dst ∈ shown → ∃ other, set other ∧ other.1.path = r.1.dst) (member : set r) : r ∈ settle shown fuel going := by
  induction fuel generalizing going with
  | zero => exact within r member
  | succ fuel ih =>
    have kept : ∀ r, set r → r ∈ round shown going := by
      intro one inside
      refine round_member.mpr ⟨within one inside,?_⟩
      intro known
      obtain ⟨other,also,vacates⟩ := cleared one inside known
      exact ⟨other,within other also,vacates⟩
    simp only [settle]
    split
    · exact within r member
    · exact ih kept

theorem shown_member (host : Host Item) : path ∈ screen ++ Pages.collect id 200 host.paths (host.paths.length + 1) none ↔ path ∈ screen ∨ path ∈ host.paths := by
  rw [List.mem_append,Pages.collect_mem id (by decide) (by rw [List.map_id]; exact host.distinct)]

theorem going_eligible (given : Given folder host renames) (member : r ∈ goingAhead renames shown) :
    r ∈ renames.zipIdx ∧ Eligible folder renames r.1 := by
  have parts := List.mem_filter.mp (settle_within member)
  exact ⟨parts.1,(moving_iff given (List.fst_mem_of_mem_zipIdx parts.1)).mp parts.2⟩

theorem going_cleared (member : r ∈ goingAhead renames shown) (known : r.1.dst ∈ shown) :
    ∃ other ∈ goingAhead renames shown, other.1.path = r.1.dst := by
  have short : (renames.zipIdx.filter (fun r => moving renames r.1)).length ≤ renames.length := by
    have bound := List.length_filter_le (fun r => moving renames r.1) renames.zipIdx
    rwa [List.length_zipIdx] at bound
  have stable : round shown (goingAhead renames shown) = goingAhead renames shown := settle_stable short
  rw [← stable] at member
  exact (round_member.mp member).2 known

theorem going_iff (given : Given folder host renames) (known : ∀ path, path ∈ shown ↔ path ∈ screen ∨ path ∈ host.paths)
    (fresh : ∀ r, Eligible folder renames r → folder.requested r ∈ screen → folder.requested r ∈ host.paths) :
    r ∈ goingAhead renames shown ↔ r ∈ renames.zipIdx ∧ Goes folder host renames r.1 := by
  constructor
  · intro member
    refine ⟨(going_eligible given member).1,fun one => ∃ i, (one,i) ∈ goingAhead renames shown,?_,r.2,member⟩
    rintro one ⟨i,inside⟩
    have parts := going_eligible given inside
    refine ⟨parts.2,?_⟩
    by_cases taken : folder.requested one ∈ host.paths
    · have own : one.dst = folder.requested one := given.dst parts.2.1 _
      obtain ⟨other,also,vacates⟩ := going_cleared inside ((known _).mpr (.inr (own ▸ taken)))
      exact .inr ⟨other.1,⟨other.2,also⟩,vacates.trans own⟩
    · exact .inl taken
  · rintro ⟨numbered,set,clears,inside⟩
    refine settle_keeps (fun one => one ∈ renames.zipIdx ∧ set one.1) ?_ ?_ ⟨numbered,inside⟩
    · rintro one ⟨oneNumbered,oneInside⟩
      have eligible := (clears one.1 oneInside).1
      exact List.mem_filter.mpr ⟨oneNumbered,(moving_iff given eligible.1).mpr eligible⟩
    · rintro one ⟨oneNumbered,oneInside⟩ shownTarget
      obtain ⟨eligible,cleared⟩ := clears one.1 oneInside
      have own : one.1.dst = folder.requested one.1 := given.dst eligible.1 _
      rw [own] at shownTarget ⊢
      have taken : folder.requested one.1 ∈ host.paths := by
        rcases (known _).mp shownTarget with onScreen | there
        · exact fresh one.1 eligible onScreen
        · exact there
      rcases cleared with free | ⟨other,also,vacates⟩
      · exact absurd taken free
      · obtain ⟨i,otherNumbered⟩ := numbered_member (clears other also).1.1
        exact ⟨(other,i),⟨otherNumbered,also⟩,vacates⟩

end RemoteFileExplorer.BatchRenames
