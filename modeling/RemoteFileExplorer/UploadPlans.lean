import RemoteFileExplorer.PickedNames
import Mathlib.Data.List.Nodup
import Mathlib.Data.List.Perm.Subperm

namespace RemoteFileExplorer.UploadPlans
open CodeUnits RemotePaths PickedNames

structure Picked where
  name : Units
  uri : Units
  deriving DecidableEq,Repr

structure UploadItem where
  source : Picked
  targetName : Units
  overwrite : Bool
  deriving DecidableEq,Repr

inductive Resolution where
  | keepBoth
  | overwrite
  | skip
  deriving DecidableEq,Repr

def decimal (n : Nat) : Units := (Nat.toDigits 10 n).map fun c => UInt16.ofNat c.toNat

-- The name before its extension, and the extension.
def stemOf (name : Units) : Units × Units :=
  match lastIndexOf dot name with
  | some i => if i > 0 ∧ i < name.length - 1 then (name.take i,name.drop i) else (name,[])
  | none => (name,[])

def numbered (name : Units) (n : Nat) : Units := (stemOf name).1 ++ ascii " (" ++ decimal n ++ ascii ")" ++ (stemOf name).2

local instance texts_lawful : LawfulBEq Units := inferInstance

def firstFree (existing : List Units) (name : Units) : Nat → Nat → Units
  | 0,n => numbered name n
  | tries + 1,n => if numbered name n ∈ existing then firstFree existing name tries (n + 1) else numbered name n

def dedupedName (name : Units) (existing : List Units) : Units :=
  if name ∉ existing then name else firstFree existing name existing.length 1

def collidingBasenames (folder : List Units) (sourcePaths : List Units) : List Units :=
  (sourcePaths.map basenameOf).filter (· ∈ folder)

def handed (colliding taken : List Units) (name : Units) : Units :=
  if name ∈ colliding ∨ name ∈ taken then dedupedName name taken else name

def planFrom (colliding : List Units) (resolution : Resolution) : List Units → List Picked → List UploadItem
  | _,[] => []
  | taken,source::rest =>
    let name := cleanUploadName source.name
    if name ∈ colliding ∧ resolution = .skip then planFrom colliding resolution taken rest else
    if name ∈ colliding ∧ resolution = .overwrite then ⟨source,name,true⟩::planFrom colliding resolution taken rest else
    let targetName := handed colliding taken name
    ⟨source,targetName,false⟩::planFrom colliding resolution (targetName::taken) rest

def planUploads (picked : List Picked) (colliding : List Units) (resolution : Resolution) : List UploadItem :=
  planFrom colliding resolution colliding picked

theorem decimal_digits (n : Nat) : (decimal n).map (fun u => Char.ofNat u.toNat) = Nat.toDigits 10 n := by
  rw [decimal,List.map_map]
  conv_rhs => rw [← List.map_id (Nat.toDigits 10 n)]
  apply List.map_congr_left
  intro c member
  have digit := Nat.isDigit_of_mem_toDigits (by decide) (by decide) member
  have small : c.toNat < 0x10000 := by
    simp only [Char.isDigit,Bool.and_eq_true,decide_eq_true_eq] at digit
    have bound := UInt32.le_iff_toNat_le.mp digit.2
    change c.toNat ≤ 57 at bound
    omega
  simp [unit_low small]

theorem decimal_injective (same : decimal m = decimal n) : m = n := by
  have digits := congrArg (List.map fun u => Char.ofNat u.toNat) same
  rw [decimal_digits,decimal_digits] at digits
  calc
    m = Nat.ofDigitChars 10 (Nat.toDigits 10 m) 0 := Nat.ofDigitChars_ten_toDigits.symm
    _ = Nat.ofDigitChars 10 (Nat.toDigits 10 n) 0 := by rw [digits]
    _ = n := Nat.ofDigitChars_ten_toDigits

theorem numbered_injective (same : numbered name m = numbered name n) : m = n := by
  have digits := List.append_cancel_right (List.append_cancel_right same)
  exact decimal_injective (List.append_cancel_left digits)

def First (existing : List Units) (name : Units) (start n : Nat) : Prop :=
  start ≤ n ∧ ∀ m, start ≤ m → m < n → numbered name m ∈ existing

theorem firstFree_first (existing : List Units) (name : Units) (tries start : Nat) :
    ∃ n, firstFree existing name tries start = numbered name n ∧ First existing name start n ∧
      (numbered name n ∉ existing ∨ n = start + tries) := by
  induction tries generalizing start with
  | zero => exact ⟨start,rfl,⟨Nat.le_refl _,fun m low high => by omega⟩,.inr rfl⟩
  | succ tries ih =>
      by_cases used : numbered name start ∈ existing
      · obtain ⟨n,found,⟨after,before⟩,ends⟩ := ih (start + 1)
        refine ⟨n,by rw [firstFree,if_pos used,found],⟨by omega,fun m low high => ?_⟩,ends.imp_right (by omega)⟩
        by_cases here : m = start
        · rwa [here]
        · exact before m (by omega) high
      · exact ⟨start,by rw [firstFree,if_neg used],⟨Nat.le_refl _,fun m low high => by omega⟩,.inl used⟩

theorem numbered_unbounded (existing : List Units) (name : Units) :
    ¬∀ m, 1 ≤ m → m ≤ existing.length + 1 → numbered name m ∈ existing := by
  intro all
  have distinct : ((List.range (existing.length + 1)).map fun i => numbered name (i + 1)).Nodup := by
    refine List.Nodup.map (fun i j same => ?_) List.nodup_range
    have := numbered_injective same
    omega
  have inside : ((List.range (existing.length + 1)).map fun i => numbered name (i + 1)) ⊆ existing := by
    intro found member
    obtain ⟨i,range,rfl⟩ := List.mem_map.mp member
    have small := List.mem_range.mp range
    exact all (i + 1) (by omega) (by omega)
  have bound := (List.subperm_of_subset distinct inside).length_le
  rw [List.length_map,List.length_range] at bound
  omega

theorem dedupedName_numbered (used : name ∈ existing) :
    ∃ n, dedupedName name existing = numbered name n ∧ First existing name 1 n ∧ numbered name n ∉ existing := by
  obtain ⟨n,found,first,ends⟩ := firstFree_first existing name existing.length 1
  refine ⟨n,by rw [dedupedName,if_neg (not_not.mpr used),found],first,?_⟩
  rcases ends with free | last
  · exact free
  · intro taken
    apply numbered_unbounded existing name
    intro m low high
    by_cases here : m = n
    · rwa [here]
    · exact first.2 m low (by omega)

theorem dedupedName_free (name : Units) (existing : List Units) : dedupedName name existing ∉ existing := by
  by_cases used : name ∈ existing
  · obtain ⟨n,found,_,free⟩ := dedupedName_numbered used
    rwa [found]
  · rw [dedupedName,if_pos used]
    exact used

section Plan

variable {colliding : List Units} {resolution : Resolution}

theorem handed_free (taken : List Units) (name : Units) : handed colliding taken name ∉ taken := by
  unfold handed
  split
  · exact dedupedName_free name taken
  next free => exact fun member => free (.inr member)

theorem planFrom_cons (colliding : List Units) (resolution : Resolution) (taken : List Units) (source : Picked) (rest : List Picked) :
    (cleanUploadName source.name ∈ colliding ∧ resolution = .skip ∧
        planFrom colliding resolution taken (source::rest) = planFrom colliding resolution taken rest) ∨
      (cleanUploadName source.name ∈ colliding ∧ resolution = .overwrite ∧
        planFrom colliding resolution taken (source::rest) =
          ⟨source,cleanUploadName source.name,true⟩::planFrom colliding resolution taken rest) ∨
      ((cleanUploadName source.name ∈ colliding → resolution = .keepBoth) ∧
        planFrom colliding resolution taken (source::rest) =
          ⟨source,handed colliding taken (cleanUploadName source.name),false⟩::
            planFrom colliding resolution (handed colliding taken (cleanUploadName source.name)::taken) rest) := by
  by_cases exists_ : cleanUploadName source.name ∈ colliding
  · cases resolution with
    | keepBoth => exact .inr (.inr ⟨fun _ => rfl,by simp [planFrom]⟩)
    | overwrite => exact .inr (.inl ⟨exists_,rfl,by simp [planFrom,exists_]⟩)
    | skip => exact .inl ⟨exists_,rfl,by simp [planFrom,exists_]⟩
  · exact .inr (.inr ⟨fun member => absurd member exists_,by simp [planFrom,exists_]⟩)

theorem planned_sources (taken : List Units) (picked : List Picked) :
    (planFrom colliding resolution taken picked).map UploadItem.source =
      picked.filter (fun source => ¬(cleanUploadName source.name ∈ colliding ∧ resolution = .skip)) := by
  induction picked generalizing taken with
  | nil => rfl
  | cons source rest ih =>
      rcases planFrom_cons colliding resolution taken source rest with ⟨member,skips,same⟩ | ⟨member,replacing,same⟩ | ⟨keeps,same⟩
      · rw [same,ih,List.filter_cons_of_neg (by simp [member,skips])]
      · rw [same,List.map_cons,ih,List.filter_cons_of_pos (by simp [replacing])]
      · have kept : ¬(cleanUploadName source.name ∈ colliding ∧ resolution = .skip) := fun ⟨member,skips⟩ => by
          have both := keeps member
          rw [skips] at both
          cases both
        rw [same,List.map_cons,ih,List.filter_cons_of_pos (by simpa only [decide_eq_true_eq] using kept)]

theorem planned_names (inside : ∀ name ∈ colliding,name ∈ taken) (member : item ∈ planFrom colliding resolution taken picked) :
    if item.overwrite then resolution = .overwrite ∧ item.targetName ∈ colliding ∧
      item.targetName ∈ picked.map (cleanUploadName ∘ Picked.name) else item.targetName ∉ taken := by
  induction picked generalizing taken with
  | nil => cases member
  | cons source rest ih =>
      have later : ∀ names, (∀ name ∈ colliding,name ∈ names) → taken ⊆ names → item ∈ planFrom colliding resolution names rest →
          if item.overwrite then resolution = .overwrite ∧ item.targetName ∈ colliding ∧
            item.targetName ∈ (source::rest).map (cleanUploadName ∘ Picked.name) else item.targetName ∉ taken := by
        intro names covered grown found
        have known := ih covered found
        split at known
        next replacing => rw [if_pos replacing]; exact ⟨known.1,known.2.1,List.mem_cons_of_mem _ known.2.2⟩
        next new => rw [if_neg new]; exact fun old => known (grown old)
      rcases planFrom_cons colliding resolution taken source rest with ⟨_,_,same⟩ | ⟨exists_,replacing,same⟩ | ⟨_,same⟩
      · rw [same] at member
        exact later taken inside (List.Subset.refl _) member
      · rw [same] at member
        rcases List.mem_cons.mp member with rfl | found
        · exact ⟨replacing,exists_,List.mem_cons_self⟩
        · exact later taken inside (List.Subset.refl _) found
      · rw [same] at member
        rcases List.mem_cons.mp member with rfl | found
        · exact handed_free taken _
        · exact later _ (fun name known => List.mem_cons_of_mem _ (inside name known)) (List.subset_cons_self _ _) found

theorem overwritten_planned (member : name ∈ picked.map (cleanUploadName ∘ Picked.name)) (exists_ : name ∈ colliding)
    (replacing : resolution = .overwrite) : name ∈ (planFrom colliding resolution taken picked).map UploadItem.targetName := by
  induction picked generalizing taken with
  | nil => cases member
  | cons source rest ih =>
      rw [List.map_cons,List.mem_cons,Function.comp_apply] at member
      rcases planFrom_cons colliding resolution taken source rest with ⟨_,skips,_⟩ | ⟨_,_,same⟩ | ⟨keeps,same⟩
      · rw [replacing] at skips
        cases skips
      · rw [same,List.map_cons,List.mem_cons]
        exact member.imp_right ih
      · have later : name ∈ rest.map (cleanUploadName ∘ Picked.name) := by
          refine member.resolve_left fun first => ?_
          have both := keeps (first ▸ exists_)
          rw [replacing] at both
          cases both
        rw [same,List.map_cons]
        exact List.mem_cons_of_mem _ (ih later)

-- Two files are given one name just when one of the folder's names is
-- overwritten twice.
theorem planned_distinct (inside : ∀ name ∈ colliding,name ∈ taken) :
    ((planFrom colliding resolution taken picked).map UploadItem.targetName).Nodup ↔
      (resolution = .overwrite → ((picked.map (cleanUploadName ∘ Picked.name)).filter (· ∈ colliding)).Nodup) := by
  induction picked generalizing taken with
  | nil => simp [planFrom]
  | cons source rest ih =>
      rcases planFrom_cons colliding resolution taken source rest with ⟨_,skips,same⟩ | ⟨exists_,replacing,same⟩ | ⟨keeps,same⟩
      · rw [same,ih inside]
        simp [skips]
      · have again : cleanUploadName source.name ∈ (planFrom colliding resolution taken rest).map UploadItem.targetName ↔
            cleanUploadName source.name ∈ rest.map (cleanUploadName ∘ Picked.name) := by
          constructor
          · intro member
            obtain ⟨item,found,target⟩ := List.mem_map.mp member
            have known := planned_names inside found
            rw [target] at known
            split at known
            · exact known.2.2
            · exact absurd (inside _ exists_) known
          · exact fun member => overwritten_planned member exists_ replacing
        rw [same,List.map_cons,List.nodup_cons,ih inside,again]
        simp [replacing,exists_]
      · have covered : ∀ name ∈ colliding,name ∈ handed colliding taken (cleanUploadName source.name)::taken :=
          fun name known => List.mem_cons_of_mem _ (inside name known)
        have alone : handed colliding taken (cleanUploadName source.name) ∉
            (planFrom colliding resolution (handed colliding taken (cleanUploadName source.name)::taken) rest).map UploadItem.targetName := by
          intro member
          obtain ⟨item,found,target⟩ := List.mem_map.mp member
          have known := planned_names covered found
          rw [target] at known
          split at known
          · exact handed_free taken _ (inside _ known.2.1)
          · exact known List.mem_cons_self
        rw [same,List.map_cons,List.nodup_cons,ih covered]
        have apart : resolution = .overwrite → cleanUploadName source.name ∉ colliding := by
          intro replacing member
          have both := keeps member
          rw [replacing] at both
          cases both
        constructor
        · rintro ⟨_,once⟩ replacing
          rw [List.map_cons,List.filter_cons_of_neg (by simpa using apart replacing)]
          exact once replacing
        · intro once
          refine ⟨alone,fun replacing => ?_⟩
          have whole := once replacing
          rwa [List.map_cons,List.filter_cons_of_neg (by simpa using apart replacing)] at whole

-- Before a name of the folder that is not taken, there is a free number.
def Spaced (folder taken : List Units) (name : Units) : Prop :=
  ∀ n, 1 ≤ n → numbered name n ∈ folder → numbered name n ∉ taken → ∃ m, 1 ≤ m ∧ m < n ∧ numbered name m ∉ taken

-- Whenever a file needs a number, the numbers tried meet no other name of
-- the folder.
def Clear (folder colliding : List Units) (resolution : Resolution) : List Units → List Picked → Prop
  | _,[] => True
  | taken,source::rest =>
    let name := cleanUploadName source.name
    if name ∈ colliding ∧ resolution ≠ .keepBoth then Clear folder colliding resolution taken rest else
    (name ∈ taken → Spaced folder taken name) ∧ Clear folder colliding resolution (handed colliding taken name::taken) rest

theorem handed_fresh (inside : ∀ name ∈ colliding,name ∈ taken) (known : name ∈ folder → name ∈ colliding) :
    handed colliding taken name ∉ folder ↔ (name ∈ taken → Spaced folder taken name) := by
  by_cases used : name ∈ taken
  · obtain ⟨n,found,first,free⟩ := dedupedName_numbered used
    rw [handed,if_pos (.inr used),found]
    constructor
    · intro fresh _ k low present outside
      have later : ¬k < n := fun early => outside (first.2 k low early)
      have other : k ≠ n := by
        rintro rfl
        exact fresh present
      exact ⟨n,first.1,by omega,free⟩
    · intro spaced present
      obtain ⟨m,low,early,open_⟩ := spaced used n first.1 present free
      exact open_ (first.2 m low early)
  · have outside : name ∉ colliding := fun member => used (inside name member)
    rw [handed,if_neg (by simp [used,outside])]
    exact ⟨fun _ member => absurd member used,fun _ present => outside (known present)⟩

theorem planned_fresh (inside : ∀ name ∈ colliding,name ∈ taken)
    (known : ∀ source ∈ picked,cleanUploadName source.name ∈ folder → cleanUploadName source.name ∈ colliding) :
    (∀ item ∈ planFrom colliding resolution taken picked,item.overwrite = false → item.targetName ∉ folder) ↔
      Clear folder colliding resolution taken picked := by
  induction picked generalizing taken with
  | nil => simp [planFrom,Clear]
  | cons source rest ih =>
      have rests : ∀ other ∈ rest,cleanUploadName other.name ∈ folder → cleanUploadName other.name ∈ colliding :=
        fun other member => known other (List.mem_cons_of_mem _ member)
      rcases planFrom_cons colliding resolution taken source rest with ⟨exists_,skips,same⟩ | ⟨exists_,replacing,same⟩ | ⟨keeps,same⟩
      · rw [same,ih inside rests,Clear,if_pos ⟨exists_,by simp [skips]⟩]
      · rw [same,Clear,if_pos ⟨exists_,by simp [replacing]⟩,← ih inside rests]
        simp
      · have covered : ∀ name ∈ colliding,name ∈ handed colliding taken (cleanUploadName source.name)::taken :=
          fun name member => List.mem_cons_of_mem _ (inside name member)
        have kept : ¬(cleanUploadName source.name ∈ colliding ∧ resolution ≠ .keepBoth) := fun ⟨member,other⟩ => other (keeps member)
        rw [same,Clear,if_neg kept,← ih covered rests,← handed_fresh inside (known source List.mem_cons_self)]
        simp

end Plan

def cleaned (picked : List Picked) : List Units := picked.map (cleanUploadName ∘ Picked.name)

def plan (folder : List Units) (picked : List Picked) (resolution : Resolution) : List UploadItem :=
  planUploads picked (collidingBasenames folder (cleaned picked)) resolution

structure Safe (folder : List Units) (picked : List Picked) (resolution : Resolution) : Prop where
  distinct : ((plan folder picked resolution).map UploadItem.targetName).Nodup
  fresh : ∀ item ∈ plan folder picked resolution,item.overwrite = false → item.targetName ∉ folder
  present : ∀ item ∈ plan folder picked resolution,item.overwrite = true → item.targetName ∈ folder
  planned : (plan folder picked resolution).map UploadItem.source =
    picked.filter (fun source => ¬(cleanUploadName source.name ∈ folder ∧ resolution = .skip))

theorem basename_single (free : ∀ u ∈ name,isSep u = false) (solid : name ≠ []) : basenameOf name = name := by
  rw [basenameOf,List.splitOnP_eq_singleton free]
  simp [solid]

theorem colliding_cleaned (folder : List Units) (picked : List Picked) :
    collidingBasenames folder (cleaned picked) = (cleaned picked).filter (· ∈ folder) := by
  have same : (cleaned picked).map basenameOf = cleaned picked := by
    rw [cleaned,List.map_map]
    apply List.map_congr_left
    intro source _
    exact basename_single (fun u inside => clean_seps _ inside) (clean_solid _)
  rw [collidingBasenames,same]

theorem colliding_iff (member : source ∈ picked) (folder : List Units) :
    cleanUploadName source.name ∈ collidingBasenames folder (cleaned picked) ↔ cleanUploadName source.name ∈ folder := by
  have listed : cleanUploadName source.name ∈ cleaned picked := List.mem_map.mpr ⟨source,member,rfl⟩
  rw [colliding_cleaned,List.mem_filter]
  simp [listed]

section
variable (folder : List Units) (picked : List Picked)
include folder picked

theorem colliding_once :
    (cleaned picked).filter (· ∈ collidingBasenames folder (cleaned picked)) = (cleaned picked).filter (· ∈ folder) := by
  apply List.filter_congr
  intro name member
  obtain ⟨source,found,rfl⟩ := List.mem_map.mp member
  simpa using colliding_iff found folder

theorem plan_clear_iff (resolution : Resolution) :
    (∀ item ∈ plan folder picked resolution,item.overwrite = false → item.targetName ∉ folder) ↔
      Clear folder (collidingBasenames folder (cleaned picked)) resolution (collidingBasenames folder (cleaned picked)) picked :=
  planned_fresh (fun _ => id) fun _ member => (colliding_iff member folder).mpr

theorem plan_once_iff (resolution : Resolution) :
    ((plan folder picked resolution).map UploadItem.targetName).Nodup ↔
      (resolution = .overwrite → ((cleaned picked).filter (· ∈ folder)).Nodup) := by
  rw [← colliding_once folder picked]
  exact planned_distinct fun _ => id

end

theorem plan_safe
    (once : resolution = .overwrite → ((cleaned picked).filter (· ∈ folder)).Nodup)
    (clear : Clear folder (collidingBasenames folder (cleaned picked)) resolution (collidingBasenames folder (cleaned picked)) picked) :
    Safe folder picked resolution := by
  refine ⟨(plan_once_iff folder picked resolution).mpr once,(plan_clear_iff folder picked resolution).mpr clear,?_,?_⟩
  · intro item member replacing
    have names := planned_names (fun _ => id) member
    rw [if_pos replacing,colliding_cleaned,List.mem_filter] at names
    simpa using names.2.1.2
  · rw [plan,planUploads,planned_sources]
    apply List.filter_congr
    intro source member
    simp only [colliding_iff member folder]

theorem plan_safe_iff (folder : List Units) (picked : List Picked) (resolution : Resolution) :
    Safe folder picked resolution ↔ (resolution = .overwrite → ((cleaned picked).filter (· ∈ folder)).Nodup) ∧
      Clear folder (collidingBasenames folder (cleaned picked)) resolution (collidingBasenames folder (cleaned picked)) picked := by
  constructor
  · intro safe
    exact ⟨(plan_once_iff folder picked resolution).mp safe.distinct,(plan_clear_iff folder picked resolution).mp safe.fresh⟩
  · rintro ⟨once,clear⟩
    exact plan_safe once clear

-- Numbered names that are already there are in the way only when they were
-- not picked themselves.
theorem clear_sparse
    (inside : ∀ name ∈ colliding,name ∈ taken)
    (sparse : ∀ source ∈ picked,∀ n, numbered (cleanUploadName source.name) n ∈ folder → numbered (cleanUploadName source.name) n ∈ colliding) :
    Clear folder colliding resolution taken picked := by
  induction picked generalizing taken with
  | nil => trivial
  | cons source rest ih =>
      have rests := fun other member => sparse other (List.mem_cons_of_mem source member)
      rw [Clear]
      split
      · exact ih inside rests
      · refine ⟨fun _ n _ present free => ?_,ih (fun name member => List.mem_cons_of_mem _ (inside name member)) rests⟩
        exact absurd (inside _ (sparse source List.mem_cons_self n present)) free

theorem plan_safe_sparse
    (once : resolution = .overwrite → ((cleaned picked).filter (· ∈ folder)).Nodup)
    (sparse : ∀ source ∈ picked,∀ n, numbered (cleanUploadName source.name) n ∈ folder →
      numbered (cleanUploadName source.name) n ∈ cleaned picked) : Safe folder picked resolution := by
  apply plan_safe once
  apply clear_sparse fun _ => id
  intro source member n present
  rw [colliding_cleaned,List.mem_filter]
  exact ⟨sparse source member n present,by simpa using present⟩

theorem numbered_sibling : ¬Safe [ascii "a.txt",ascii "a (1).txt"] [⟨ascii "a.txt",[]⟩] .keepBoth := by
  intro safe
  exact safe.fresh ⟨⟨ascii "a.txt",[]⟩,ascii "a (1).txt",false⟩ (by decide) rfl (by decide)

end RemoteFileExplorer.UploadPlans
