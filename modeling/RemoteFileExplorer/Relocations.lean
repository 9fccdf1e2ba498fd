import Mathlib.Data.List.Basic
import Mathlib.Data.List.Infix
import Mathlib.Data.List.Pairwise

namespace RemoteFileExplorer.Relocations

-- A tree as the items at its paths.
abbrev Tree (Name Item : Type) := List Name → Option Item

variable {Name Item : Type}

def Apart (one two : List Name) : Prop := ¬one <+: two ∧ ¬two <+: one

theorem Apart.symm (apart : Apart one two) : Apart two one := ⟨apart.2,apart.1⟩

theorem Apart.outside {one two path : List Name} (apart : Apart one two) (below : one <+: path) : ¬two <+: path := by
  intro other
  rcases List.prefix_or_prefix_of_prefix below other with first | second
  · exact apart.1 first
  · exact apart.2 second

variable [DecidableEq Name]

def relocate (tree : Tree Name Item) (src dst : List Name) : Tree Name Item := fun path =>
  if dst <+: path then tree (src ++ path.drop dst.length) else if src <+: path then none else tree path

theorem relocate_put (tree : Tree Name Item) (src dst rest : List Name) : relocate tree src dst (dst ++ rest) = tree (src ++ rest) := by
  simp [relocate]

theorem relocate_gone {tree : Tree Name Item} {src dst path : List Name} (away : ¬dst <+: path) (below : src <+: path) : relocate tree src dst path = none := by
  simp [relocate,away,below]

theorem relocate_other {tree : Tree Name Item} {src dst path : List Name} (away : ¬dst <+: path) (outside : ¬src <+: path) :
    relocate tree src dst path = tree path := by
  simp [relocate,away,outside]

theorem relocate_comm (tree : Tree Name Item) {a a' b b' : List Name} (sources : Apart a b) (left : Apart a' b) (right : Apart a b') (places : Apart a' b') :
    relocate (relocate tree a a') b b' = relocate (relocate tree b b') a a' := by
  funext path
  by_cases second : b' <+: path
  · obtain ⟨rest,rfl⟩ := second
    have below : b' <+: b' ++ rest := List.prefix_append b' rest
    have source : b <+: b ++ rest := List.prefix_append b rest
    rw [relocate_put,relocate_other (left.symm.outside source) (sources.symm.outside source)]
    rw [relocate_other (places.symm.outside below) (right.symm.outside below),relocate_put]
  · by_cases first : a' <+: path
    · obtain ⟨rest,rfl⟩ := first
      have below : a' <+: a' ++ rest := List.prefix_append a' rest
      have source : a <+: a ++ rest := List.prefix_append a rest
      rw [relocate_other second (left.outside below),relocate_put]
      rw [relocate_put,relocate_other (right.outside source) (sources.outside source)]
    · by_cases under : a <+: path
      · rw [relocate_gone first under,relocate_other second (sources.outside under),relocate_gone first under]
      · rw [relocate_other first under]
        by_cases beneath : b <+: path
        · rw [relocate_gone second beneath,relocate_gone second beneath]
        · rw [relocate_other second beneath,relocate_other second beneath,relocate_other first under]

theorem relocate_back {tree : Tree Name Item} (empty : ∀ rest,tree (dst ++ rest) = none) :
    relocate (relocate tree src dst) dst src = tree := by
  funext path
  by_cases back : src <+: path
  · obtain ⟨rest,rfl⟩ := back
    rw [relocate_put,relocate_put]
  · by_cases below : dst <+: path
    · rw [relocate_gone back below]
      obtain ⟨rest,rfl⟩ := below
      exact (empty rest).symm
    · rw [relocate_other back below,relocate_other below back]

-- Relocations one after another, the last of them first in the list.
def relocated (place : List Name → List Name) (tree : Tree Name Item) : List (List Name) → Tree Name Item
  | [] => tree
  | src::earlier => relocate (relocated place tree earlier) src (place src)

variable {place : List Name → List Name} {tree : Tree Name Item} {moved later earlier : List (List Name)} {src path : List Name}

theorem relocated_other (outside : ∀ src ∈ moved,¬place src <+: path ∧ ¬src <+: path) : relocated place tree moved path = tree path := by
  induction moved with
  | nil => rfl
  | cons src earlier ih =>
      obtain ⟨away,atop⟩ := outside src List.mem_cons_self
      rw [relocated,relocate_other away atop]
      exact ih fun other member => outside other (List.mem_cons_of_mem src member)

theorem relocated_gone (member : src ∈ moved) (below : src <+: path) (away : ∀ other ∈ moved,¬place other <+: path) : relocated place tree moved path = none := by
  induction moved with
  | nil => cases member
  | cons first earlier ih =>
      have aside := away first List.mem_cons_self
      by_cases under : first <+: path
      · exact relocate_gone aside under
      · rw [relocated,relocate_other aside under]
        rcases List.mem_cons.mp member with rfl | member
        · exact absurd below under
        · exact ih member fun other inside => away other (List.mem_cons_of_mem first inside)

def Free (place : List Name → List Name) (one two : List Name) : Prop :=
  Apart one two ∧ Apart (place one) two ∧ Apart one (place two) ∧ Apart (place one) (place two)

theorem relocated_pull (free : ∀ other ∈ later,Free place src other) :
    relocated place tree (later ++ src::earlier) = relocated place tree (src::(later ++ earlier)) := by
  induction later with
  | nil => rfl
  | cons other later ih =>
      obtain ⟨sources,left,right,places⟩ := free other List.mem_cons_self
      have pulled := ih fun one member => free one (List.mem_cons_of_mem other member)
      rw [List.cons_append,relocated,pulled,relocated,relocate_comm _ sources left right places]
      rfl

end RemoteFileExplorer.Relocations
