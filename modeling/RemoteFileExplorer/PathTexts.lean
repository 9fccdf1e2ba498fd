import Mathlib.Data.List.DropRight
import Mathlib.Tactic.Linarith

namespace RemoteFileExplorer.PathTexts

abbrev Text := List Char

-- unicode.IsSpace.
def isSpace (c : Char) : Bool :=
  c ∈ ['\t','\n','\x0b','\x0c','\r',' '] || c.toNat ∈ [0x85,0xa0,0x1680,0x2028,0x2029,0x202f,0x205f,0x3000] ||
    (0x2000 ≤ c.toNat && c.toNat ≤ 0x200a)

def trimSpace (text : Text) : Text := (text.dropWhile isSpace).rdropWhile isSpace

def isAbs (text : Text) : Bool := text.head? == some '/'

def cleanOnto (rooted : Bool) : List Text → List Text → List Text
  | place,[] => place
  | place,part::rest =>
    if part = [] ∨ part = ['.'] then cleanOnto rooted place rest else
    if part = ['.','.'] then
      if place ≠ [] ∧ place.getLast? ≠ some ['.','.'] then cleanOnto rooted place.dropLast rest else
      if rooted then cleanOnto rooted place rest else cleanOnto rooted (place ++ [part]) rest
    else cleanOnto rooted (place ++ [part]) rest

def slashed (parts : List Text) : Text := ['/'].intercalate parts

def clean (text : Text) : Text :=
  if isAbs text then '/'::slashed (cleanOnto true [] (text.splitOn '/')) else
  match cleanOnto false [] (text.splitOn '/') with
  | [] => ['.']
  | parts => slashed parts

-- filepath.Abs. Without a known working directory the path stays as it is.
def absolute (cwd : Option Text) (text : Text) : Text :=
  if isAbs text then clean text else
  match cwd with
  | none => text
  | some dir => clean (dir ++ '/'::text)

theorem trimSpace_part (text : Text) : trimSpace text <:+: text :=
  (List.rdropWhile_prefix _ _).isInfix.trans (List.dropWhile_suffix _).isInfix

theorem trimSpace_full (long : text.length ≤ (trimSpace text).length) : trimSpace text = text :=
  (trimSpace_part text).eq_of_length_le long

theorem cleanOnto_mem {rooted : Bool} {place parts : List Text} (member : part ∈ cleanOnto rooted place parts) :
    part ∈ place ∨ part ∈ parts ∧ part ≠ [] := by
  induction parts generalizing place with
  | nil => exact .inl member
  | cons first rest ih =>
    have under : ∀ under, (∀ name ∈ under, name ∈ place) → part ∈ cleanOnto rooted under rest → part ∈ place ∨ part ∈ first::rest ∧ part ≠ [] := by
      intro under within later
      rcases ih later with old | written
      · exact .inl (within part old)
      · exact .inr ⟨List.mem_cons_of_mem _ written.1,written.2⟩
    unfold cleanOnto at member
    split at member
    · exact under place (fun _ same => same) member
    · rename_i named
      have onto : part ∈ cleanOnto rooted (place ++ [first]) rest → part ∈ place ∨ part ∈ first::rest ∧ part ≠ [] := by
        intro later
        rcases ih later with old | written
        · rcases List.mem_append.mp old with before | here
          · exact .inl before
          · rw [List.mem_singleton.mp here]
            exact .inr ⟨List.mem_cons_self,fun empty => named (.inl empty)⟩
        · exact .inr ⟨List.mem_cons_of_mem _ written.1,written.2⟩
      split at member
      · split at member
        · exact under place.dropLast (fun _ kept => List.dropLast_subset _ kept) member
        · split at member
          · exact under place (fun _ same => same) member
          · exact onto member
      · exact onto member

def Proper (part : Text) : Prop := part ≠ [] ∧ part ≠ ['.'] ∧ part ≠ ['.','.'] ∧ '/' ∉ part

theorem cleanOnto_proper {place parts : List Text} (proper : ∀ part ∈ place, Proper part) (plain : ∀ part ∈ parts, '/' ∉ part) :
    ∀ part ∈ cleanOnto true place parts, Proper part := by
  induction parts generalizing place with
  | nil => exact proper
  | cons first rest ih =>
    have others : ∀ part ∈ rest, '/' ∉ part := fun part member => plain part (List.mem_cons_of_mem _ member)
    unfold cleanOnto
    split
    · exact ih proper others
    · rename_i named
      split
      · split
        · exact ih (fun part member => proper part (List.dropLast_subset _ member)) others
        · exact ih proper others
      · rename_i single
        apply ih _ others
        intro part member
        rcases List.mem_append.mp member with old | new
        · exact proper part old
        · rw [List.mem_singleton.mp new]
          exact ⟨fun empty => named (.inl empty),fun dot => named (.inr dot),single,plain first List.mem_cons_self⟩

theorem cleanOnto_same (proper : ∀ part ∈ parts, Proper part) : cleanOnto true place parts = place ++ parts := by
  induction parts generalizing place with
  | nil => simp [cleanOnto]
  | cons first rest ih =>
    obtain ⟨named,single,double,_⟩ := proper first List.mem_cons_self
    unfold cleanOnto
    rw [if_neg (by simp [named,single]),if_neg double,ih (fun part member => proper part (List.mem_cons_of_mem _ member))]
    simp

theorem split_plain {mark : Char} {text part : Text} (member : part ∈ text.splitOn mark) : mark ∉ part := by
  induction text generalizing part with
  | nil => simp_all
  | cons c rest ih =>
    rw [List.splitOn_cons_eq_if_modifyHead] at member
    split at member
    · rcases List.mem_cons.mp member with rfl | later
      · simp
      · exact ih later
    · rename_i other
      cases parts : rest.splitOn mark with
      | nil => simp [parts] at member
      | cons first more =>
        rw [parts,List.modifyHead_cons] at member
        rcases List.mem_cons.mp member with rfl | later
        · intro slash
          rcases List.mem_cons.mp slash with rfl | inner
          · simp at other
          · exact ih (by rw [parts]; exact List.mem_cons_self) inner
        · exact ih (by rw [parts]; exact List.mem_cons_of_mem _ later)

theorem clean_rooted {text : Text} (rooted : isAbs text = true) :
    ∃ parts, (∀ part ∈ parts, Proper part) ∧ clean text = '/'::slashed parts := by
  refine ⟨cleanOnto true [] (text.splitOn '/'),?_,by simp [clean,rooted]⟩
  apply cleanOnto_proper (by simp)
  intro part member
  exact split_plain member

theorem clean_isAbs (rooted : isAbs text = true) : isAbs (clean text) = true := by
  obtain ⟨parts,_,cleaned⟩ := clean_rooted rooted
  rw [cleaned]
  rfl

theorem isAbs_clean {text : Text} (rooted : isAbs (clean text) = true) : isAbs text = true := by
  by_cases abs : isAbs text = true
  · exact abs
  · exfalso
    rw [clean.eq_def,if_neg abs] at rooted
    cases parts : cleanOnto false [] (text.splitOn '/') with
    | nil => simp [parts,isAbs] at rooted
    | cons first rest =>
      rw [parts] at rooted
      have member : first ∈ cleanOnto false [] (text.splitOn '/') := by rw [parts]; exact List.mem_cons_self
      rcases cleanOnto_mem member with old | ⟨written,named⟩
      · cases old
      · have plain := split_plain written
        cases first with
        | nil => exact named rfl
        | cons c more =>
          have other : c ≠ '/' := fun slash => plain (by rw [slash]; exact List.mem_cons_self)
          cases rest <;> simp [isAbs,slashed,other] at rooted

theorem split_slashed (proper : ∀ part ∈ parts, Proper part) (some : parts ≠ []) :
    ('/'::slashed parts).splitOn '/' = []::parts := by
  rw [List.splitOn_cons_eq_if_modifyHead,if_pos (by simp),slashed,
    List.splitOn_intercalate '/' (fun part member => (proper part member).2.2.2) some]

theorem clean_clean (rooted : isAbs text = true) : clean (clean text) = clean text := by
  obtain ⟨parts,proper,cleaned⟩ := clean_rooted rooted
  rw [cleaned]
  have abs : isAbs ('/'::slashed parts) = true := rfl
  rw [clean,if_pos abs]
  cases parts with
  | nil => rfl
  | cons first rest =>
    rw [split_slashed proper (by simp),cleanOnto,if_pos (.inl rfl),cleanOnto_same proper,List.nil_append]

theorem clean_again (rooted : isAbs (clean text) = true) : clean (clean text) = clean text :=
  clean_clean (isAbs_clean rooted)

def weight (parts : List Text) : Nat := (parts.map (fun part => part.length + 1)).sum

theorem cleanOnto_weight (rooted : Bool) (place parts : List Text) : weight (cleanOnto rooted place parts) ≤ weight place + weight parts := by
  induction parts generalizing place with
  | nil => simp [cleanOnto,weight]
  | cons first rest ih =>
    have onto := ih (place ++ [first])
    have here := ih place
    have under := ih place.dropLast
    have shorter : weight place.dropLast ≤ weight place := by
      rcases List.eq_nil_or_concat place with rfl | ⟨front,last,rfl⟩
      · exact Nat.le_refl _
      · simp [weight]
    have joined : weight (place ++ [first]) = weight place + (first.length + 1) := by simp [weight]
    have whole : weight (first::rest) = first.length + 1 + weight rest := by simp [weight]
    unfold cleanOnto
    split
    · omega
    · split
      · split
        · omega
        · split <;> omega
      · omega

theorem slashed_length (parts : List Text) : (slashed parts).length = weight parts - 1 := by
  induction parts with
  | nil => rfl
  | cons first rest ih =>
    cases rest with
    | nil => simp [slashed,weight]
    | cons second more =>
      have others : 1 ≤ weight (second::more) := by
        simp only [weight,List.map_cons,List.sum_cons]
        omega
      have whole : weight (first::second::more) = first.length + 1 + weight (second::more) := by simp [weight]
      rw [slashed,List.intercalate_cons_cons]
      simp only [List.length_append,List.length_singleton]
      rw [← slashed,ih,whole]
      omega

theorem clean_length (rooted : isAbs text = true) : (clean text).length ≤ text.length := by
  cases text with
  | nil => cases rooted
  | cons c rest =>
    obtain rfl : c = '/' := by simpa [isAbs] using rooted
    rw [clean,if_pos rooted,List.splitOn_cons_eq_if_modifyHead,if_pos (by simp),cleanOnto,if_pos (.inl rfl)]
    have bound := cleanOnto_weight true [] (rest.splitOn '/')
    have split : rest.length = weight (rest.splitOn '/') - 1 := by rw [← slashed_length,slashed,List.intercalate_splitOn]
    have empty : weight [] = 0 := rfl
    rw [List.length_cons,List.length_cons,slashed_length]
    omega

-- Cleaning writes no character of its own but the slash and the dot.
theorem slashed_mem (member : c ∈ slashed parts) : c = '/' ∨ ∃ part ∈ parts, c ∈ part := by
  induction parts with
  | nil => cases member
  | cons first rest ih =>
    cases rest with
    | nil => exact .inr ⟨first,by simp,by simpa [slashed] using member⟩
    | cons second more =>
      rw [slashed,List.intercalate_cons_cons] at member
      simp only [List.mem_append,List.mem_singleton] at member
      rcases member with (here | slash) | later
      · exact .inr ⟨first,by simp,here⟩
      · exact .inl slash
      · rcases ih later with slash | ⟨part,within,inner⟩
        · exact .inl slash
        · exact .inr ⟨part,List.mem_cons_of_mem _ within,inner⟩

theorem mem_slashed (member : part ∈ parts) (inner : c ∈ part) : c ∈ slashed parts := by
  induction parts with
  | nil => cases member
  | cons first rest ih =>
    cases rest with
    | nil =>
      rw [List.mem_singleton.mp member] at inner
      simpa [slashed] using inner
    | cons second more =>
      rw [slashed,List.intercalate_cons_cons]
      rcases List.mem_cons.mp member with rfl | later
      · exact List.mem_append_left _ (List.mem_append_left _ inner)
      · exact List.mem_append_right _ (ih later)

theorem split_mem {text part : Text} (member : part ∈ text.splitOn '/') (inner : c ∈ part) : c ∈ text := by
  have whole : slashed (text.splitOn '/') = text := List.intercalate_splitOn '/'
  rw [← whole]
  exact mem_slashed member inner

theorem cleaned_mem {rooted : Bool} {text : Text} (member : c ∈ slashed (cleanOnto rooted [] (text.splitOn '/'))) : c = '/' ∨ c ∈ text := by
  rcases slashed_mem member with slash | ⟨part,within,inner⟩
  · exact .inl slash
  · rcases cleanOnto_mem within with old | written
    · cases old
    · exact .inr (split_mem written.1 inner)

theorem clean_mem {text : Text} (member : c ∈ clean text) : c = '/' ∨ c = '.' ∨ c ∈ text := by
  unfold clean at member
  split at member
  · rcases List.mem_cons.mp member with slash | later
    · exact .inl slash
    · rcases cleaned_mem later with slash | old
      · exact .inl slash
      · exact .inr (.inr old)
  · cases parts : cleanOnto false [] (text.splitOn '/') with
    | nil =>
      rw [parts] at member
      exact .inr (.inl (List.mem_singleton.mp member))
    | cons first rest =>
      rw [parts] at member
      have later : c ∈ slashed (cleanOnto false [] (text.splitOn '/')) := by rw [parts]; exact member
      rcases cleaned_mem later with slash | old
      · exact .inl slash
      · exact .inr (.inr old)

end RemoteFileExplorer.PathTexts
