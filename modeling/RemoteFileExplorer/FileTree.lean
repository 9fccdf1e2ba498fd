import Mathlib.Data.List.Infix
import Mathlib.Tactic.Linarith

namespace RemoteFileExplorer.FileTree

abbrev Name := String

abbrev Path := List Name

-- A path as it is written: split at slashes, nothing removed.
structure Written where
  absolute : Bool
  parts : List Name
  deriving DecidableEq, Repr

inductive Node (Data : Type) where
  | file (data : Data)
  | dir (entries : List (Name × Node Data))
  | link (target : Written)

variable {Data : Type}

def Node.child : Node Data → Name → Option (Node Data)
  | .dir entries,name => (entries.find? (fun e => e.1 == name)).map Prod.snd
  | _,_ => none

def nodeAt (root : Node Data) : Path → Option (Node Data)
  | [] => some root
  | name::rest => (root.child name).bind (nodeAt · rest)

def Node.isLink : Node Data → Bool
  | .link _ => true
  | _ => false

def Node.isDir : Node Data → Bool
  | .dir _ => true
  | _ => false

theorem nodeAt_append (root : Node Data) (front back : Path) :
    nodeAt root (front ++ back) = (nodeAt root front).bind (nodeAt · back) := by
  induction front generalizing root with
  | nil => rfl
  | cons name rest ih =>
    simp only [List.cons_append,nodeAt]
    cases root.child name with
    | none => rfl
    | some node => exact ih node

theorem nodeAt_below (root : Node Data) (gone : nodeAt root front = none) (back : Path) : nodeAt root (front ++ back) = none := by
  rw [nodeAt_append,gone]
  rfl

def Proper (name : Name) : Prop := name ≠ "" ∧ name ≠ "." ∧ name ≠ ".."

instance : DecidablePred Proper := fun name => inferInstanceAs (Decidable (name ≠ "" ∧ name ≠ "." ∧ name ≠ ".."))

-- Lexical cleaning of an absolute path: a double dot removes what stands
-- before it, and nothing at the root.
def cleanOnto : Path → List Name → Path
  | place,[] => place
  | place,part::rest =>
    if part = "" ∨ part = "." then cleanOnto place rest else
    if part = ".." then cleanOnto place.dropLast rest else cleanOnto (place ++ [part]) rest

def clean (parts : List Name) : Path := cleanOnto [] parts

theorem cleanOnto_proper (proper : ∀ name ∈ place, Proper name) (parts : List Name) :
    ∀ name ∈ cleanOnto place parts, Proper name := by
  induction parts generalizing place with
  | nil => exact proper
  | cons part rest ih =>
    unfold cleanOnto
    split
    · exact ih proper
    · split
      · exact ih fun name member => proper name (List.dropLast_subset place member)
      · rename_i plain up
        refine ih fun name member => ?_
        rcases List.mem_append.mp member with old | new
        · exact proper name old
        · rw [List.mem_singleton.mp new]
          exact ⟨fun empty => plain (.inl empty),fun dot => plain (.inr dot),up⟩

theorem clean_proper (parts : List Name) : ∀ name ∈ clean parts, Proper name :=
  cleanOnto_proper (by simp) parts

theorem cleanOnto_same (place : Path) (proper : ∀ name ∈ parts, Proper name) :
    cleanOnto place parts = place ++ parts := by
  induction parts generalizing place with
  | nil => simp [cleanOnto]
  | cons part rest ih =>
    obtain ⟨nonempty,dot,up⟩ := proper part List.mem_cons_self
    unfold cleanOnto
    rw [if_neg (by simp [nonempty,dot]),if_neg up,ih _ fun name member => proper name (List.mem_cons_of_mem _ member)]
    simp

theorem clean_same (proper : ∀ name ∈ path, Proper name) : clean path = path := cleanOnto_same [] proper

-- Where a walk along written components ends.
inductive Walked where
  | found (place : Path)
  | missing (place : Path) (rest : List Name)
  | notDirectory
  | tooManyLinks
  deriving DecidableEq, Repr

section Walk
variable (tree : Node Data)

-- `follow` continues at a link with the target in front of what is left.
def walkWith (follow : Path → List Name → Walked) : Path → List Name → Walked
  | place,[] => .found place
  | place,part::rest =>
    if part = "" ∨ part = "." then walkWith follow place rest else
    if part = ".." then walkWith follow place.dropLast rest else
    match nodeAt tree (place ++ [part]) with
    | none => .missing (place ++ [part]) rest
    | some (.link target) => follow (if target.absolute then [] else place) (target.parts ++ rest)
    | some (.file _) => if rest = [] then .found (place ++ [part]) else .notDirectory
    | some (.dir _) => walkWith follow (place ++ [part]) rest

def walk : Nat → Path → List Name → Walked
  | 0 => walkWith tree (fun _ _ => .tooManyLinks)
  | links + 1 => walkWith tree (walk links)

def Unlinked (path : Path) : Prop := ∀ front, front <+: path → ∀ node, nodeAt tree front = some node → node.isLink = false

def Ordinary (path : Path) : Prop := ∀ name ∈ path, Proper name

theorem t_ordinary : Ordinary ["t"] := by simp [Ordinary,Proper]

variable {tree}

theorem unlinked_front (unlinked : Unlinked tree path) (shorter : front <+: path) : Unlinked tree front :=
  fun other before => unlinked other (before.trans shorter)

theorem unlinked_snoc (unlinked : Unlinked tree place) (last : ∀ node, nodeAt tree (place ++ [part]) = some node → node.isLink = false) :
    Unlinked tree (place ++ [part]) := by
  intro front before
  rcases List.prefix_concat_iff.mp before with rfl | shorter
  · exact last
  · exact unlinked front shorter

theorem unlinked_below (unlinked : Unlinked tree place) (gone : nodeAt tree (place ++ [part]) = none) (rest : Path) :
    Unlinked tree (place ++ part::rest) := by
  intro front before node stored
  have whole : place ++ [part] <+: place ++ part::rest := ⟨rest,by simp⟩
  rcases List.prefix_or_prefix_of_prefix before whole with shorter | ⟨more,rfl⟩
  · rcases List.prefix_concat_iff.mp shorter with rfl | inside
    · rw [gone] at stored
      cases stored
    · exact unlinked front inside node stored
  · rw [nodeAt_below tree gone more] at stored
    cases stored

-- A place a walk may stand at: reached by ordinary names and free of links.
def Real (tree : Node Data) (place : Path) : Prop := Ordinary place ∧ Unlinked tree place

theorem real_dropLast (real : Real tree place) : Real tree place.dropLast :=
  ⟨fun name member => real.1 name (List.dropLast_subset place member),unlinked_front real.2 (List.dropLast_prefix place)⟩

theorem real_snoc (real : Real tree place) (proper : Proper part) (stored : nodeAt tree (place ++ [part]) = some node)
    (plain : node.isLink = false) : Real tree (place ++ [part]) := by
  refine ⟨?_,unlinked_snoc real.2 fun other same => ?_⟩
  · intro name member
    rcases List.mem_append.mp member with old | new
    · exact real.1 name old
    · rw [List.mem_singleton.mp new]
      exact proper
  · rw [stored] at same
    cases same
    exact plain

theorem walkWith_real
    (follows : ∀ place parts found, Real tree place → follow place parts = .found found → Real tree found)
    (base : Real tree []) (real : Real tree place) (walked : walkWith tree follow place parts = .found found) : Real tree found := by
  induction parts generalizing place with
  | nil =>
    cases walked
    exact real
  | cons part rest ih =>
    unfold walkWith at walked
    split at walked
    · exact ih real walked
    · rename_i plain
      split at walked
      · exact ih (real_dropLast real) walked
      · rename_i up
        have proper : Proper part := ⟨fun empty => plain (.inl empty),fun dot => plain (.inr dot),up⟩
        split at walked
        · cases walked
        · refine follows _ _ _ ?_ walked
          split
          · exact base
          · exact real
        · rename_i data stored
          split at walked
          · cases walked
            exact real_snoc real proper stored rfl
          · cases walked
        · rename_i entries stored
          exact ih (real_snoc real proper stored rfl) walked

theorem walk_real (base : Real tree []) (real : Real tree place) (walked : walk tree links place parts = .found found) :
    Real tree found := by
  induction links generalizing place parts found with
  | zero => exact walkWith_real (fun _ _ _ _ impossible => by cases impossible) base real walked
  | succ links ih => exact walkWith_real (fun _ _ _ stands followed => ih stands followed) base real walked

theorem walkWith_more
    (agree : ∀ place parts, less place parts ≠ .tooManyLinks → more place parts = less place parts)
    (enough : walkWith tree less place parts ≠ .tooManyLinks) : walkWith tree more place parts = walkWith tree less place parts := by
  induction parts generalizing place with
  | nil => rfl
  | cons part rest ih =>
    unfold walkWith at enough ⊢
    by_cases plain : part = "" ∨ part = "."
    · rw [if_pos plain] at enough ⊢
      rw [if_pos plain]
      exact ih enough
    · rw [if_neg plain] at enough ⊢
      rw [if_neg plain]
      by_cases up : part = ".."
      · rw [if_pos up] at enough ⊢
        rw [if_pos up]
        exact ih enough
      · rw [if_neg up] at enough ⊢
        rw [if_neg up]
        cases stored : nodeAt tree (place ++ [part]) with
        | none => rfl
        | some node =>
          rw [stored] at enough
          cases node with
          | file data => rfl
          | dir entries => exact ih enough
          | link target => exact agree _ _ enough

theorem walk_more (enough : walk tree links place parts ≠ .tooManyLinks) (more : Nat) :
    walk tree (links + more) place parts = walk tree links place parts := by
  induction links generalizing place parts with
  | zero =>
    cases more with
    | zero => rfl
    | succ more =>
      exact walkWith_more (fun _ _ impossible => absurd rfl impossible) enough
  | succ links ih =>
    rw [Nat.succ_add]
    exact walkWith_more (fun place parts fine => ih fine) enough

theorem walk_agree (left : walk tree links place parts ≠ .tooManyLinks) (right : walk tree others place parts ≠ .tooManyLinks) :
    walk tree links place parts = walk tree others place parts := by
  rcases Nat.le_total links others with fewer | fewer
  · obtain ⟨more,rfl⟩ := Nat.exists_eq_add_of_le fewer
    exact (walk_more left more).symm
  · obtain ⟨more,rfl⟩ := Nat.exists_eq_add_of_le fewer
    exact walk_more right more

def landing (tree : Node Data) (links : Nat) (path : Path) : Option Path :=
  match walk tree links [] path with
  | .found place => some place
  | .missing place [] => some place
  | _ => none

theorem walkWith_straight (ordinary : Ordinary parts) (unlinked : Unlinked tree (place ++ parts)) :
    walkWith tree follow place parts = .found (place ++ parts) ∨ walkWith tree follow place parts = .notDirectory ∨
      ∃ gone rest, walkWith tree follow place parts = .missing gone rest ∧ gone ++ rest = place ++ parts := by
  induction parts generalizing place with
  | nil => simp [walkWith]
  | cons part rest ih =>
    obtain ⟨nonempty,dot,up⟩ := ordinary part List.mem_cons_self
    have later : Ordinary rest := fun name member => ordinary name (List.mem_cons_of_mem _ member)
    have onward : place ++ part::rest = place ++ [part] ++ rest := by simp
    unfold walkWith
    rw [if_neg (by simp [nonempty,dot]),if_neg up]
    split
    · exact .inr (.inr ⟨_,_,rfl,onward.symm⟩)
    · rename_i target stored
      have plain := unlinked (place ++ [part]) ⟨rest,onward.symm⟩ _ stored
      cases plain
    · split
      · rename_i last
        rw [last]
        exact .inl rfl
      · exact .inr (.inl rfl)
    · rw [onward]
      exact ih later (by rwa [onward] at unlinked)

-- A path without links is where the system calls on it end.
theorem landing_straight (ordinary : Ordinary path) (unlinked : Unlinked tree path) (lands : landing tree links path = some place) :
    place = path := by
  have straight : walk tree links [] path = .found path ∨ walk tree links [] path = .notDirectory ∨
      ∃ gone rest, walk tree links [] path = .missing gone rest ∧ gone ++ rest = path := by
    cases links with
    | zero | succ links => exact walkWith_straight ordinary unlinked
  unfold landing at lands
  rcases straight with found | stuck | ⟨gone,rest,missing,split⟩
  · rw [found] at lands
    exact (Option.some.inj lands).symm
  · rw [stuck] at lands
    cases lands
  · rw [missing] at lands
    cases rest with
    | nil =>
      cases lands
      simpa using split
    | cons name rest => cases lands

end Walk

end RemoteFileExplorer.FileTree
