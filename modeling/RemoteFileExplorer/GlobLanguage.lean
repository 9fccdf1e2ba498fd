import Mathlib.Data.List.Basic

namespace RemoteFileExplorer.GlobLanguage

inductive Term where
  | star
  | any
  | lit (c : Char)
  | cls (negated : Bool) (ranges : List (Char × Char))
  deriving DecidableEq, Repr

def rangeChar : List Char → Option (Char × List Char)
  | [] => none
  | c::rest =>
    if c = '-' ∨ c = ']' then none
    else if c = '\\' then (match rest with | [] => none | d::later => some (d,later))
    else some (c,rest)

def range (text : List Char) : Option ((Char × Char) × List Char) :=
  (rangeChar text).bind fun low =>
    match low.2 with
    | [] => some ((low.1,low.1),[])
    | c::later => if c = '-' then (rangeChar later).map fun high => ((low.1,high.1),high.2) else some ((low.1,low.1),c::later)

theorem rangeChar_shorter (parsed : rangeChar text = some (c,rest)) : rest.length < text.length := by
  unfold rangeChar at parsed
  split at parsed
  · cases parsed
  · split at parsed
    · cases parsed
    · split at parsed
      · split at parsed
        · cases parsed
        · cases parsed
          simp only [List.length_cons]
          omega
      · cases parsed
        simp

theorem range_shorter (parsed : range text = some (r,rest)) : rest.length < text.length := by
  obtain ⟨⟨low,left⟩,first,more⟩ := Option.bind_eq_some_iff.mp parsed
  have shorter := rangeChar_shorter first
  dsimp only at more
  split at more
  · cases more
    simpa using Nat.lt_of_le_of_lt (Nat.zero_le _) shorter
  · rename_i c later
    split at more
    · obtain ⟨⟨high,others⟩,second,same⟩ := Option.map_eq_some_iff.mp more
      cases same
      have less : others.length < later.length := rangeChar_shorter second
      rw [List.length_cons] at shorter
      exact Nat.lt_trans less (by omega)
    · cases more
      exact shorter

-- The ranges of a class up to its closing bracket; there is at least one.
def ranges (text : List Char) : Option (List (Char × Char) × List Char) :=
  match _parsed : range text with
  | none => none
  | some (r,rest) =>
    if rest.head? = some ']' then some ([r],rest.tail)
    else (ranges rest).map fun more => (r::more.1,more.2)
termination_by text.length
decreasing_by exact range_shorter _parsed

theorem ranges_eq (text : List Char) : ranges text = (range text).bind fun first =>
    if first.2.head? = some ']' then some ([first.1],first.2.tail) else (ranges first.2).map fun more => (first.1::more.1,more.2) := by
  conv_lhs => rw [ranges]
  cases range text with
  | none => rfl
  | some first => rfl

theorem ranges_shorter (parsed : ranges text = some (rs,rest)) : rest.length < text.length := by
  induction text using ranges.induct generalizing rs rest with
  | case1 text failed =>
    rw [ranges_eq,failed] at parsed
    cases parsed
  | case2 text r later first closed =>
    rw [ranges_eq,first,Option.bind_some,if_pos closed] at parsed
    cases parsed
    have shorter := range_shorter first
    dsimp only
    rw [List.length_tail]
    omega
  | case3 text r later first opened ih =>
    rw [ranges_eq,first,Option.bind_some,if_neg opened] at parsed
    obtain ⟨⟨more,others⟩,second,same⟩ := Option.map_eq_some_iff.mp parsed
    cases same
    exact Nat.lt_trans (ih second) (range_shorter first)

def isNegated (text : List Char) : Bool := text.head? == some '^'
def classBody (text : List Char) : List Char := if isNegated text then text.tail else text

theorem classBody_length (text : List Char) : (classBody text).length ≤ text.length := by
  unfold classBody
  split
  · rw [List.length_tail]
    omega
  · exact Nat.le_refl _

-- The syntax of a pattern as the library documents it; none is malformed.
def parse (text : List Char) : Option (List Term) :=
  match text with
  | [] => some []
  | c::rest =>
    if c = '*' then (parse rest).map (.star::·)
    else if c = '?' then (parse rest).map (.any::·)
    else if c = '\\' then
      match rest with
      | [] => none
      | d::later => (parse later).map (.lit d::·)
    else if c = '[' then
      match _parsed : ranges (classBody rest) with
      | none => none
      | some (rs,later) => (parse later).map (.cls (isNegated rest) rs::·)
    else (parse rest).map (.lit c::·)
termination_by text.length
decreasing_by
  all_goals simp only [List.length_cons]
  all_goals try omega
  have shorter := ranges_shorter _parsed
  have body := classBody_length rest
  omega

theorem parse_eq (c : Char) (rest : List Char) : parse (c::rest) =
    if c = '*' then (parse rest).map (.star::·)
    else if c = '?' then (parse rest).map (.any::·)
    else if c = '\\' then (match rest with | [] => none | d::later => (parse later).map (.lit d::·))
    else if c = '[' then (ranges (classBody rest)).bind fun body => (parse body.2).map (.cls (isNegated rest) body.1::·)
    else (parse rest).map (.lit c::·) := by
  conv_lhs => rw [parse.eq_def]
  dsimp only
  split
  · rfl
  · split
    · rfl
    · split
      · rfl
      · split
        · cases ranges (classBody rest) with
          | none | some body => rfl
        · rfl

section Equations
variable {c : Char} {rest : List Char}

theorem parse_nil : parse [] = some [] := by rw [parse]

theorem parse_star : parse ('*'::rest) = (parse rest).map (.star::·) := by rw [parse_eq,if_pos rfl]

theorem parse_any : parse ('?'::rest) = (parse rest).map (.any::·) := by rw [parse_eq,if_neg (by decide),if_pos rfl]

theorem parse_cut : parse ['\\'] = none := by rw [parse_eq,if_neg (by decide),if_neg (by decide),if_pos rfl]

theorem parse_escape : parse ('\\'::c::rest) = (parse rest).map (.lit c::·) := by
  rw [parse_eq,if_neg (by decide),if_neg (by decide),if_pos rfl]

theorem parse_class : parse ('['::rest) = (ranges (classBody rest)).bind fun body => (parse body.2).map (.cls (isNegated rest) body.1::·) := by
  rw [parse_eq,if_neg (by decide),if_neg (by decide),if_neg (by decide),if_pos rfl]

theorem parse_lit (star : c ≠ '*') (any : c ≠ '?') (escape : c ≠ '\\') (open_ : c ≠ '[') : parse (c::rest) = (parse rest).map (.lit c::·) := by
  rw [parse_eq,if_neg star,if_neg any,if_neg escape,if_neg open_]

end Equations

def inClass (negated : Bool) (rs : List (Char × Char)) (rune : Nat) : Bool :=
  (rs.any fun r => decide (r.1.toNat ≤ rune) && decide (rune ≤ r.2.toNat)) != negated

-- The language of a pattern: nothing but a slash in the pattern matches one.
def Matches : List Term → List Char → Prop
  | [],name => name = []
  | .star::rest,name => ∃ front back, name = front ++ back ∧ '/' ∉ front ∧ Matches rest back
  | .any::rest,name => ∃ c back, name = c::back ∧ c ≠ '/' ∧ Matches rest back
  | .lit c::rest,name => ∃ back, name = c::back ∧ Matches rest back
  | .cls negated rs::rest,name => ∃ c back, name = c::back ∧ c ≠ '/' ∧ inClass negated rs c.toNat = true ∧ Matches rest back

theorem star_longer (free : '/' ∉ front) (starred : Matches (.star::rest) name) :
    Matches (.star::rest) (front ++ name) := by
  obtain ⟨first,back,rfl,free_too,tail⟩ := starred
  refine ⟨front ++ first,back,by rw [List.append_assoc],?_,tail⟩
  intro mem
  rcases List.mem_append.mp mem with one | other
  · exact free one
  · exact free_too other

end RemoteFileExplorer.GlobLanguage
