import Mathlib.Data.List.TakeWhile
import RemoteFileExplorer.Trash

namespace RemoteFileExplorer.TrashNames
open FileTree PercentCodes TrashInfo Trash

-- What the file system allows in a name: any byte but the slash.
def ByteName (name : Name) : Prop := ∀ c ∈ name.toList, c.toNat < 256 ∧ c ≠ '/'

def Named (path : Path) : Prop := ∀ name ∈ path, ByteName name

theorem byte_code {c : Char} (small : c.toNat < 256) : (UInt8.ofNat c.toNat).toNat = c.toNat := by
  exact Nat.mod_eq_of_lt small

theorem nameOf_nameBytes (byte : ByteName name) : nameOf (nameBytes name) = name := by
  have same : name.toList.map (fun c => Char.ofNat (UInt8.ofNat c.toNat).toNat) = name.toList := by
    conv => rhs; rw [← List.map_id name.toList]
    apply List.map_congr_left
    intro c member
    rw [byte_code (byte c member).1,Char.ofNat_toNat]
    rfl
  unfold nameOf nameBytes ascii
  rw [List.map_map]
  exact (congrArg String.ofList same).trans String.ofList_toList

theorem slash_unnamed (byte : ByteName name) : slash ∉ nameBytes name := by
  intro member
  obtain ⟨c,inside,code⟩ := List.mem_map.mp member
  obtain ⟨small,other⟩ := byte c inside
  apply other
  have number : c.toNat = '/'.toNat := by
    rw [← byte_code small,code]
    rfl
  exact Char.toNat_inj.mp number

theorem text_absolute (path : Path) : isAbs (text path) = true := by
  unfold text
  cases path with
  | nil => rfl
  | cons name rest =>
    simp [isAbs]

theorem request_text (ordinary : Ordinary path) (named : Named path) :
    (request (text path)).absolute = true ∧ clean (request (text path)).parts = path := by
  refine ⟨text_absolute path,?_⟩
  unfold request text
  cases path with
  | nil => rfl
  | cons name rest =>
    rw [if_neg (List.cons_ne_nil name rest)]
    have split : ([slash].intercalate ([]::(name::rest).map nameBytes)).splitOn slash = []::(name::rest).map nameBytes := by
      refine List.splitOn_intercalate slash ?_ (List.cons_ne_nil _ _)
      intro segment member
      rcases List.mem_cons.mp member with rfl | member
      · simp
      · obtain ⟨part,known,rfl⟩ := List.mem_map.mp member
        exact slash_unnamed (named part known)
    have back : ((name::rest).map nameBytes).map nameOf = name::rest := by
      rw [List.map_map]
      conv => rhs; rw [← List.map_id (name::rest)]
      apply List.map_congr_left
      intro part known
      exact nameOf_nameBytes (named part known)
    dsimp only
    rw [split,List.map_cons,back]
    exact clean_same ordinary

def candidateAt (base : Name) (k : Nat) : Name := if k = 0 then base else numbered base k

theorem candidateAt_succ (base : Name) (i : Nat) : candidateAt base (i + 1) = numbered base (i + 1) := if_neg (Nat.succ_ne_zero i)

theorem uniqueFrom_candidate (taken : Name → Bool) (base : Name) (left i : Nat) :
    ∃ k, uniqueFrom taken base left (i + 1) (candidateAt base i) = candidateAt base k := by
  induction left generalizing i with
  | zero => exact ⟨i,rfl⟩
  | succ left ih =>
    unfold uniqueFrom
    split
    · exact ih (i + 1)
    · exact ⟨i,rfl⟩

theorem uniqueFrom_free {taken : Name → Bool} (late : i ≤ k) (early : k ≤ i + left)
    (free : taken (candidateAt base k) = false) : taken (uniqueFrom taken base left (i + 1) (candidateAt base i)) = false := by
  induction left generalizing i with
  | zero =>
    have same : k = i := by omega
    rw [same] at free
    exact free
  | succ left ih =>
    unfold uniqueFrom
    split
    · rename_i used
      refine ih ?_ (by omega)
      rcases Nat.eq_or_lt_of_le late with rfl | later
      · rw [used] at free
        cases free
      · exact later
    · rename_i unused
      exact Bool.eq_false_iff.mpr unused

theorem uniqueTrashName_candidate (disk : Files) (host : Host) (base : Name) : ∃ k, uniqueTrashName disk host base = candidateAt base k :=
  uniqueFrom_candidate (taken disk host) base (maxAutoRename - 1) 0

theorem uniqueTrashName_free {disk : Files} (room : ∃ k, k < maxAutoRename ∧ taken disk host (candidateAt base k) = false) :
    taken disk host (uniqueTrashName disk host base) = false := by
  obtain ⟨k,bound,free⟩ := room
  exact uniqueFrom_free (Nat.zero_le k) (by unfold maxAutoRename at *; omega) free

theorem uniqueTrashName_exhausted (used : ∀ k, k < maxAutoRename → taken disk host (candidateAt base k) = true) :
    taken disk host (uniqueTrashName disk host base) = true := by
  have all : ∀ left i, i + left < maxAutoRename → taken disk host (uniqueFrom (taken disk host) base left (i + 1) (candidateAt base i)) = true := by
    intro left
    induction left with
    | zero => exact fun i bound => used i bound
    | succ left ih =>
      intro i bound
      unfold uniqueFrom
      rw [if_pos (used i (by omega)),← candidateAt_succ]
      exact ih (i + 1) (by omega)
  exact all (maxAutoRename - 1) 0 (by decide)

theorem ext_subset (base : List Char) : ∀ c ∈ ext base, c ∈ base := by
  intro c member
  unfold ext at member
  dsimp only at member
  split at member
  · cases member
  · rename_i short
    rcases List.mem_cons.mp member with rfl | inside
    · by_contra without
      apply short
      have whole : base.reverse.takeWhile (· != '.') = base.reverse := by
        rw [List.takeWhile_eq_self_iff]
        intro other known
        have differs : other ≠ '.' := by
          rintro rfl
          exact without (List.mem_reverse.mp known)
        simpa using differs
      rw [whole,List.length_reverse]
    · have before := (List.takeWhile_prefix _).subset (List.mem_reverse.mp inside)
      exact List.mem_reverse.mp before

theorem candidateAt_chars (base : Name) (k : Nat) : ∀ c ∈ (candidateAt base k).toList, c ∈ base.toList ∨ c = '_' ∨ c.isDigit = true := by
  intro c member
  unfold candidateAt at member
  split at member
  · exact .inl member
  · unfold numbered at member
    rw [String.toList_ofList] at member
    rcases List.mem_append.mp member with front | tail
    · rcases List.mem_append.mp front with first | middle
      · exact .inl (List.mem_of_mem_take first)
      · rcases List.mem_cons.mp middle with under | digit
        · exact .inr (.inl under)
        · exact .inr (.inr (Nat.isDigit_of_mem_toDigits (by decide) (by decide) digit))
    · exact .inl (ext_subset _ c tail)

theorem candidateAt_proper (proper : Proper base) (k : Nat) : Proper (candidateAt base k) := by
  unfold candidateAt
  split
  · exact proper
  · have under : '_' ∈ (numbered base k).toList := by
      unfold numbered
      simp
    refine ⟨?_,?_,?_⟩ <;>
    · intro same
      rw [same] at under
      revert under
      decide

theorem candidateAt_valid (proper : Proper base) (byte : ByteName base) (plain : '\\' ∉ base.toList) (k : Nat) :
    validTrashID (candidateAt base k) = true := by
  obtain ⟨nonempty,dot,up⟩ := candidateAt_proper proper k
  have absent : ∀ c, c ∉ base.toList → c ≠ '_' → c.isDigit = false → c ∉ (candidateAt base k).toList := by
    intro c outside other letter member
    rcases candidateAt_chars base k c member with known | under | digit
    · exact outside known
    · exact other under
    · rw [letter] at digit
      cases digit
  have forward : '/' ∉ (candidateAt base k).toList := absent '/' (fun member => (byte '/' member).2 rfl) (by decide) rfl
  have backward : '\\' ∉ (candidateAt base k).toList := absent '\\' plain (by decide) rfl
  simp [validTrashID,nonempty,dot,up,forward,backward]

end RemoteFileExplorer.TrashNames
