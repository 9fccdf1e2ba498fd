import RemoteFileExplorer.SearchFilters
import RemoteFileExplorer.GlobMatches
import RemoteFileExplorer.PathTexts
import Mathlib

namespace RemoteFileExplorer.NameFilters
open SearchFilters GlobLanguage GlobMatches PathTexts

section Casing

-- What the two standard libraries know of letters: unicode.ToLower,
-- char::to_lowercase, and the properties by which a sigma is found at the end of
-- a word. The letters of a lowered text stay as they are.
structure Tables where
  toLower : Char → Char
  toLowercase : Char → List Char
  cased : Char → Bool
  caseIgnorable : Char → Bool
  agent_ascii : ∀ c, c.toNat < 128 → toLower c = c.toLower
  sidecar_ascii : ∀ c, c.toNat < 128 → toLowercase c = [c.toLower]
  capital_sigma : toLower 'Σ' = 'σ'
  some_letter : ∀ c, toLowercase c ≠ []
  settled : ∀ c, ∀ d ∈ toLowercase c, d ≠ 'Σ' ∧ toLower d = d ∧ toLowercase d = [d]
  small_sigma : ∀ d ∈ ['σ','ς'], d ≠ 'Σ' ∧ toLower d = d ∧ toLowercase d = [d]

variable (t : Tables)

def Tables.caseIgnorableThenCased (text : List Char) : Bool :=
  match text.dropWhile t.caseIgnorable with
  | [] => false
  | c::_ => t.cased c

-- `before` is read from its end.
def Tables.isWordFinal (before after : List Char) : Bool := t.caseIgnorableThenCased before && !t.caseIgnorableThenCased after

def Tables.mapUppercaseSigma (before after : List Char) : Char := if t.isWordFinal before after then 'ς' else 'σ'

-- `str::to_lowercase`, with what was read so far.
def Tables.strLowercase : List Char → List Char → List Char
  | _,[] => []
  | before,c::rest => (if c = 'Σ' then [t.mapUppercaseSigma before rest] else t.toLowercase c) ++ strLowercase (c::before) rest

def Tables.casing : Casing := ⟨fun s => String.ofList (s.toList.map t.toLower),fun s => String.ofList (t.strLowercase [] s.toList)⟩

-- Both libraries lower every letter of the text alike, and no capital sigma ends
-- a word of it.
def Tables.AlikeAfter : List Char → List Char → Prop
  | _,[] => True
  | before,c::rest => (if c = 'Σ' then t.isWordFinal before rest = false else t.toLowercase c = [t.toLower c]) ∧ AlikeAfter (c::before) rest

def Tables.Alike (text : List Char) : Prop := t.AlikeAfter [] text

variable {t}

theorem strLowercase_cons (before rest : List Char) (c : Char) : t.strLowercase before (c::rest) =
    (if c = 'Σ' then [t.mapUppercaseSigma before rest] else t.toLowercase c) ++ t.strLowercase (c::before) rest := rfl

theorem alikeAfter_cons (before rest : List Char) (c : Char) : t.AlikeAfter before (c::rest) =
    ((if c = 'Σ' then t.isWordFinal before rest = false else t.toLowercase c = [t.toLower c]) ∧ t.AlikeAfter (c::before) rest) := rfl

theorem lowered_letters (before text : List Char) : ∀ d ∈ t.strLowercase before text, d ≠ 'Σ' ∧ t.toLower d = d ∧ t.toLowercase d = [d] := by
  induction text generalizing before with
  | nil => exact nofun
  | cons c rest ih =>
    intro d member
    rw [strLowercase_cons,List.mem_append] at member
    rcases member with here | later
    · split at here
      · rw [List.mem_singleton] at here
        subst here
        refine t.small_sigma _ ?_
        unfold Tables.mapUppercaseSigma
        split <;> decide
      · exact t.settled c d here
    · exact ih _ d later

theorem strLowercase_longer (before text : List Char) : text.length ≤ (t.strLowercase before text).length := by
  induction text generalizing before with
  | nil => exact Nat.zero_le _
  | cons c rest ih =>
    have more := ih (c::before)
    rw [strLowercase_cons,List.length_append,List.length_cons]
    split
    · rw [List.length_singleton]
      omega
    · have some_ := List.length_pos_of_ne_nil (t.some_letter c)
      omega

theorem strLowercase_settled (still : ∀ c ∈ text, t.toLowercase c = [c]) (before : List Char) : t.strLowercase before text = text := by
  induction text generalizing before with
  | nil => rfl
  | cons c rest ih =>
    have same := still c (List.mem_cons_self ..)
    have plain : c ≠ 'Σ' := (t.settled c c (by rw [same]; exact List.mem_singleton_self c)).1
    rw [strLowercase_cons,if_neg plain,same,ih fun d member => still d (List.mem_cons_of_mem _ member)]
    rfl

theorem lowered_alike (before text : List Char) : t.strLowercase before text = text.map t.toLower ↔ t.AlikeAfter before text := by
  induction text generalizing before with
  | nil => exact ⟨fun _ => trivial,fun _ => rfl⟩
  | cons c rest ih =>
    rw [strLowercase_cons,alikeAfter_cons,List.map_cons,← ih]
    -- No letter is lowered to nothing, so the first ones have to agree.
    have first {piece : List Char} (some_ : piece ≠ []) : piece ++ t.strLowercase (c::before) rest = t.toLower c::rest.map t.toLower ↔
        piece = [t.toLower c] ∧ t.strLowercase (c::before) rest = rest.map t.toLower := by
      obtain ⟨d,others,rfl⟩ := List.exists_cons_of_ne_nil some_
      rw [List.cons_append,List.cons.injEq,List.cons.injEq]
      refine ⟨?_,?_⟩
      · rintro ⟨same,tail⟩
        have long := congrArg List.length tail
        have longer := @strLowercase_longer t (c::before) rest
        rw [List.length_append,List.length_map] at long
        have none_ : others = [] := List.length_eq_zero_iff.mp (by omega)
        subst none_
        exact ⟨⟨same,rfl⟩,tail⟩
      · rintro ⟨⟨same,none_⟩,tail⟩
        subst none_
        exact ⟨same,tail⟩
    split
    · rename_i sigma
      rw [first (List.cons_ne_nil _ _),sigma,t.capital_sigma]
      unfold Tables.mapUppercaseSigma
      cases t.isWordFinal before rest <;> simp
    · exact first (t.some_letter c)

theorem strLowercase_ascii (ascii : ∀ c ∈ text, c.toNat < 128) (before : List Char) :
    t.strLowercase before text = text.map Char.toLower := by
  induction text generalizing before with
  | nil => rfl
  | cons c rest ih =>
    have small := ascii c (List.mem_cons_self ..)
    have plain : c ≠ 'Σ' := by
      rintro rfl
      exact absurd small (by decide)
    rw [strLowercase_cons,if_neg plain,t.sidecar_ascii c small,ih fun d member => ascii d (List.mem_cons_of_mem _ member)]
    rfl

end Casing

section Queries

def isGlobPattern (q : Text) : Bool := q.any fun c => c = '*' ∨ c = '?'

structure Refusal where
  code : String
  message : String
  deriving DecidableEq, Repr

def noFilters : Filters := ⟨"","",none,none,none,none,none,none⟩

def applyQueryParam (casing : Casing) (f : Filters) (rawQ : Text) : Except Refusal Filters :=
  let lower := casing.toLower (String.ofList rawQ)
  if isGlobPattern rawQ then
    match Glob.matches_ lower "" with
    | .error _ => .error ⟨"BAD_REQUEST","invalid glob pattern in q"⟩
    | .ok _ => .ok {f with glob := lower}
  else .ok {f with needle := lower}

def parseQuery (casing : Casing) (query : Text) : Except Refusal Filters :=
  let q := trimSpace query
  if q = [] then .error ⟨"BAD_REQUEST","q query param required"⟩ else applyQueryParam casing noFilters q

def compiledMatchName (casing : Casing) (f : Filters) (name : String) : Bool :=
  if (name.toList.all fun c => !c.isUpper) && isAscii name then matchLower f name else matchLower f (casing.toLowercase name)

def compiled (casing : Casing) (f : Filters) : Filters := compile casing (toWireFilters f)

-- Both ways the sidecar matches a name agree with the walk.
def SameName (casing : Casing) (f : Filters) (name : String) : Prop :=
  compiledMatchName casing (compiled casing f) name = matchName casing f name ∧ matchNameFast casing (compiled casing f) name = matchName casing f name

-- The sidecar's lowering leaves the lowered search text alone.
def Settled (t : Tables) (f : Filters) : Prop := ∀ c ∈ f.glob.toList ++ f.needle.toList, t.toLowercase c = [c]

variable {t : Tables} {f : Filters}

theorem matchLower_eq (glob : f.glob = g.glob) (needle : f.needle = g.needle) (lower : String) : matchLower f lower = matchLower g lower := by
  unfold matchLower
  rw [glob,needle]

theorem casing_settled (still : ∀ c ∈ text.toList, t.toLowercase c = [c]) : t.casing.toLowercase text = text := by
  change String.ofList (t.strLowercase [] text.toList) = text
  rw [strLowercase_settled still,String.ofList_toList]

theorem casing_ascii (ascii : isAscii name = true) : t.casing.toLowercase name = lowerAscii name := by
  unfold isAscii at ascii
  rw [List.all_eq_true] at ascii
  change String.ofList (t.strLowercase [] name.toList) = String.ofList (name.toList.map Char.toLower)
  rw [strLowercase_ascii fun c member => of_decide_eq_true (ascii c member)]

theorem match_lowered (f : Filters) (name : String) : compiledMatchName t.casing f name = matchLower f (t.casing.toLowercase name) := by
  unfold compiledMatchName
  split
  · rename_i plain
    rw [Bool.and_eq_true,List.all_eq_true] at plain
    have same : lowerAscii name = name := by
      unfold lowerAscii
      have each : name.toList.map Char.toLower = name.toList.map id := List.map_congr_left fun c member => Char.toLower_eq_of_not_isUpper (by simpa using plain.1 c member)
      rw [each,List.map_id,String.ofList_toList]
    rw [casing_ascii plain.2,same]
  · rfl

theorem begins_folded [BEq β] [LawfulBEq β] (fold : α → β) (text : List α) (needle : List β) : needle.isPrefixOf (text.map fold) =
    (decide (needle.length ≤ text.length) && (text.zip needle).all fun pair => fold pair.1 == pair.2) := by
  induction needle generalizing text with
  | nil => simp
  | cons d rest ih =>
    cases text with
    | nil => simp
    | cons c later =>
      rw [List.map_cons,List.isPrefixOf,ih later,List.zip_cons_cons,List.all_cons,List.length_cons,List.length_cons,@Bool.beq_comm _ _ _ d]
      cases fold c == d <;> simp

theorem contains_ascii (haystack needle : List Char) : containsIgnoreAsciiCase haystack needle = infixOf needle (haystack.map Char.toLower) := by
  unfold containsIgnoreAsciiCase infixOf
  cases needle with
  | nil =>
    symm
    rw [List.any_eq_true]
    exact ⟨_,(List.mem_tails ..).mpr List.suffix_rfl,List.isPrefixOf_nil_left⟩
  | cons first rest =>
    dsimp only
    induction haystack with
    | nil => rfl
    | cons h later ih =>
      rw [List.tails_cons,List.any_cons,ih,List.map_cons,List.tails_cons,List.any_cons,← List.map_cons,begins_folded,List.zip_cons_cons,List.all_cons,
        List.length_cons,List.length_cons]
      simp only [Nat.add_le_add_iff_right,Bool.and_assoc]

theorem fast_lowered (f : Filters) (name : String) : matchNameFast t.casing f name = matchLower f (t.casing.toLowercase name) := by
  unfold matchNameFast
  cases ascii : isAscii name with
  | false => rfl
  | true =>
    rw [casing_ascii ascii]
    simp only [Bool.not_true,Bool.false_eq_true,if_false]
    split
    · rename_i bare
      rw [Bool.and_eq_true,decide_eq_true_eq] at bare
      unfold matchLower lowerAscii
      rw [contains_ascii,if_neg (fun some_ => some_ bare.1),String.toList_ofList]
    · rfl

theorem same_lowered (alike : t.Alike name.toList) : t.casing.toLowercase name = t.casing.toLower name :=
  congrArg String.ofList ((lowered_alike [] name.toList).mpr alike)

theorem same_settled (settled : Settled t f) (lower : String) : matchLower (compiled t.casing f) lower = matchLower f lower := by
  refine matchLower_eq ?_ ?_ lower
  · exact casing_settled fun c member => settled c (List.mem_append_left _ member)
  · exact casing_settled fun c member => settled c (List.mem_append_right _ member)

def exactly (text : List Char) : List Char := text.flatMap (fun c => ['\\',c]) ++ ['*']

theorem parse_exactly (text : List Char) : parse (exactly text) = some (text.map Term.lit ++ [.star]) := by
  induction text with
  | nil =>
    change parse ['*'] = _
    rw [parse_star,parse_nil]
    rfl
  | cons c rest ih =>
    change parse ('\\'::c::exactly rest) = _
    rw [parse_escape,ih]
    rfl

theorem matches_exactly (held : Matches (text.map Term.lit ++ [.star]) name) : text <+: name := by
  induction text generalizing name with
  | nil => exact List.nil_prefix
  | cons c rest ih =>
    obtain ⟨back,rfl,more⟩ := held
    exact (List.prefix_cons_inj c).mpr (ih more)

theorem exactly_matches (text : List Char) : Matches (text.map Term.lit ++ [.star]) text := by
  induction text with
  | nil => exact ⟨[],[],rfl,List.not_mem_nil,rfl⟩
  | cons c rest ih => exact ⟨rest,rfl,ih⟩

theorem plain_exactly (text name : List Char) : Plain (text.map Term.lit ++ [.star]) name := by
  refine ⟨Or.inr fun negated rs member => ?_,Or.inr ?_⟩
  · simp at member
  · induction text with
    | nil => exact ⟨rfl,trivial⟩
    | cons c rest ih => exact ih

theorem exactly_all {held : Char → Prop} {text : List Char} (back : held '\\') (star : held '*') (all : ∀ c ∈ text, held c) : ∀ c ∈ exactly text, held c := by
  intro c member
  rcases List.mem_append.mp member with inside | last
  · obtain ⟨d,listed,pair⟩ := List.mem_flatMap.mp inside
    simp only [List.mem_cons,List.not_mem_nil,or_false] at pair
    rcases pair with rfl | rfl
    · exact back
    · exact all c listed
  · rw [List.mem_singleton] at last
    exact last ▸ star

theorem exactly_trimmed (text : List Char) : trimSpace (exactly text) = exactly text := by
  have front : (exactly text).dropWhile isSpace = exactly text := by
    cases text with
    | nil => rfl
    | cons c rest => exact List.dropWhile_cons_of_neg (by decide)
  unfold trimSpace
  rw [front]
  exact List.rdropWhile_concat_neg isSpace _ _ (by decide)

theorem parse_own {name : String} {text : List Char} (lowered : text = t.strLowercase [] name.toList) :
    parseQuery t.casing (exactly text) = .ok {noFilters with glob := String.ofList (exactly text)} ∧
      Settled t {noFilters with glob := String.ofList (exactly text)} := by
  have letters : ∀ c ∈ text, c ≠ 'Σ' ∧ t.toLower c = c ∧ t.toLowercase c = [c] := lowered ▸ lowered_letters [] name.toList
  have still : ∀ c ∈ exactly text, t.toLower c = c :=
    exactly_all (t.agent_ascii _ (by decide)) (t.agent_ascii _ (by decide)) fun c member => (letters c member).2.1
  have same : t.casing.toLower (String.ofList (exactly text)) = String.ofList (exactly text) := by
    change String.ofList ((String.ofList (exactly text)).toList.map t.toLower) = _
    rw [String.toList_ofList,List.map_congr_left still,List.map_id']
  have glob : isGlobPattern (exactly text) = true := by
    unfold isGlobPattern
    rw [List.any_eq_true]
    exact ⟨'*',List.mem_append_right _ (List.mem_singleton_self _),by decide⟩
  have formed := matches_ends (String.ofList (exactly text)) ""
  rw [String.toList_ofList,parse_exactly,if_neg (Option.some_ne_none _)] at formed
  obtain ⟨answer,ends⟩ := formed
  refine ⟨?_,?_⟩
  · unfold parseQuery applyQueryParam
    rw [exactly_trimmed,if_neg (by simp [exactly]),if_pos glob,same,ends]
  · intro c member
    have inside : c ∈ exactly text := by simpa [noFilters] using member
    exact @exactly_all (fun c => t.toLowercase c = [c]) text (t.sidecar_ascii _ (by decide)) (t.sidecar_ascii _ (by decide))
      (fun c member => (letters c member).2.2) c inside

theorem own_accepts (text : List Char) (lower : String) :
    matchLower {noFilters with glob := String.ofList (exactly text)} lower = true ↔ text <+: lower.toList ∧ Matches (text.map Term.lit ++ [.star]) lower.toList := by
  have parsed : parse (String.ofList (exactly text)).toList = some (text.map Term.lit ++ [.star]) := by rw [String.toList_ofList,parse_exactly]
  have some_ : String.ofList (exactly text) ≠ "" := by
    intro none_
    have letters := congrArg String.toList none_
    simp [exactly] at letters
  have accepts : matchLower {noFilters with glob := String.ofList (exactly text)} lower = true ↔ Glob.matches_ (String.ofList (exactly text)) lower = .ok true := by
    unfold matchLower
    rw [if_pos some_]
    cases Glob.matches_ (String.ofList (exactly text)) lower <;> simp
  rw [accepts,matches_plain parsed (plain_exactly text lower.toList)]
  exact ⟨fun held => ⟨matches_exactly held,held⟩,And.right⟩

-- For a name, both filters agree on every search whose text both libraries have
-- lowered for good exactly when they lower the name alike.
theorem name_filters_agree_iff (t : Tables) (name : String) :
    (∀ query f, parseQuery t.casing query = .ok f → Settled t f → SameName t.casing f name) ↔ t.Alike name.toList := by
  refine ⟨?_,?_⟩
  · intro agree
    obtain ⟨parsed,settled⟩ := @parse_own t name _ rfl
    have both := (agree _ _ parsed settled).1
    rw [match_lowered,same_settled settled] at both
    have accepted : matchLower _ (t.casing.toLowercase name) = true := (own_accepts _ _).mpr (by
      change _ <+: (String.ofList (t.strLowercase [] name.toList)).toList ∧ Matches _ (String.ofList (t.strLowercase [] name.toList)).toList
      rw [String.toList_ofList]
      exact ⟨List.prefix_refl _,exactly_matches _⟩)
    rw [both] at accepted
    have front : t.strLowercase [] name.toList <+: (String.ofList (name.toList.map t.toLower)).toList := ((own_accepts _ _).mp accepted).1
    rw [String.toList_ofList] at front
    refine (lowered_alike [] name.toList).mp (front.eq_of_length_le ?_)
    rw [List.length_map]
    exact strLowercase_longer [] name.toList
  · intro alike query f _ settled
    unfold SameName
    rw [match_lowered,fast_lowered,same_settled settled,same_lowered alike]
    exact ⟨rfl,rfl⟩

theorem lower_outside {c d : Char} (outside : d.isLower = false) (other : c ≠ d) : c.toLower ≠ d := by
  intro same
  cases upper : c.isUpper with
  | false =>
    rw [Char.toLower_eq_of_not_isUpper (by simp [upper])] at same
    exact other same
  | true =>
    have low := Char.isLower_toLower_eq_isAlpha c
    rw [same,outside] at low
    simp [Char.isAlpha,upper] at low

def someLetters : Tables where
  toLower c := if c = 'Σ' then 'σ' else if c = 'İ' then 'i' else c.toLower
  toLowercase c := if c = 'Σ' then ['σ'] else if c = 'İ' then ['i','\u0307'] else [c.toLower]
  cased c := c.isAlpha || ['Σ','σ','ς','İ'].contains c
  caseIgnorable c := ['.',':','^','\u0307'].contains c
  agent_ascii c small := by
    have sigma : c ≠ 'Σ' := by rintro rfl; exact absurd small (by decide)
    have dotted : c ≠ 'İ' := by rintro rfl; exact absurd small (by decide)
    rw [if_neg sigma,if_neg dotted]
  sidecar_ascii c small := by
    have sigma : c ≠ 'Σ' := by rintro rfl; exact absurd small (by decide)
    have dotted : c ≠ 'İ' := by rintro rfl; exact absurd small (by decide)
    rw [if_neg sigma,if_neg dotted]
  capital_sigma := rfl
  some_letter c := by
    split
    · exact List.cons_ne_nil _ _
    · split <;> exact List.cons_ne_nil _ _
  settled c d member := by
    split at member
    · cases List.mem_singleton.mp member
      decide
    · rename_i sigma
      split at member
      · simp only [List.mem_cons,List.not_mem_nil,or_false] at member
        rcases member with rfl | rfl <;> decide
      · rename_i dotted
        cases List.mem_singleton.mp member
        have plain : c.toLower ≠ 'Σ' := lower_outside (by decide) sigma
        have bare : c.toLower ≠ 'İ' := lower_outside (by decide) dotted
        rw [if_neg plain,if_neg plain,if_neg bare,if_neg bare,Char.toLower_toLower_eq_toLower]
        exact ⟨plain,rfl,rfl⟩
  small_sigma d member := by
    simp only [List.mem_cons,List.not_mem_nil,or_false] at member
    rcases member with rfl | rfl <;> decide

theorem own_name_missed : ∃ f, parseQuery someLetters.casing ['a','Σ'] = .ok f ∧ matchName someLetters.casing f "aΣ" = true ∧
    compiledMatchName someLetters.casing (compiled someLetters.casing f) "aΣ" = false ∧
    matchNameFast someLetters.casing (compiled someLetters.casing f) "aΣ" = false := by
  refine ⟨_,rfl,?_,?_,?_⟩
  · decide
  · decide
  · decide

end Queries

section Bytes
open CodeUnits (utf8)

-- Rust panics on a read outside of the bytes; here such a read is `none`.
def byteRange (bytes : List UInt8) (i j : Nat) : Option (List UInt8) :=
  if i ≤ j ∧ j ≤ bytes.length then some ((bytes.take j).drop i) else none

def toAsciiLowercase (b : UInt8) : UInt8 := if 65 ≤ b.toNat ∧ b.toNat ≤ 90 then b + 32 else b

def beginsAt (haystack : List UInt8) (first : UInt8) (rest : List UInt8) (i : Nat) : Option Bool := do
  let h ← haystack[i]?
  if toAsciiLowercase h = first then
    let window ← byteRange haystack (i + 1) (i + (first::rest).length)
    return (window.zip rest).all fun pair => toAsciiLowercase pair.1 == pair.2
  else return false

def containsBytes (haystack needle : List UInt8) : Option Bool :=
  match needle with
  | [] => some true
  | first::rest =>
    if haystack.length < (first::rest).length then some false else
    (List.range (haystack.length - (first::rest).length + 1)).anyM (beginsAt haystack first rest)

def compiledMatchFast (casing : Casing) (f : Filters) (name : String) (ascii : Bool) : Option Bool :=
  if !ascii then some (matchLower f (casing.toLowercase name)) else
  if f.glob = "" && isAscii f.needle then containsBytes (utf8 name.toList) (utf8 f.needle.toList) else
  some (matchLower f (lowerAscii name))

theorem anyM_given {at_ : α → Option Bool} {held : α → Bool} {xs : List α} (each : ∀ x ∈ xs, at_ x = some (held x)) : xs.anyM at_ = some (xs.any held) := by
  induction xs with
  | nil => rfl
  | cons x rest ih =>
    rw [List.anyM_cons,each x (List.mem_cons_self ..),ih fun y member => each y (List.mem_cons_of_mem _ member),List.any_cons]
    cases held x <;> rfl

theorem beginsAt_inside (first : UInt8) (rest : List UInt8) (inside : i + (first::rest).length ≤ haystack.length) :
    beginsAt haystack first rest i = some ((first::rest).isPrefixOf ((haystack.drop i).map toAsciiLowercase)) := by
  rw [List.length_cons] at inside
  have before : i < haystack.length := by omega
  have window : byteRange haystack (i + 1) (i + (first::rest).length) = some ((haystack.drop (i + 1)).take rest.length) := by
    unfold byteRange
    rw [if_pos ⟨by rw [List.length_cons]; omega,inside⟩,List.drop_take,List.length_cons,show i + (rest.length + 1) - (i + 1) = rest.length by omega]
  have whole : rest.length ≤ ((haystack.drop (i + 1)).take rest.length).length := by
    rw [List.length_take,List.length_drop]
    omega
  have later : rest.isPrefixOf ((haystack.drop (i + 1)).map toAsciiLowercase) =
      ((haystack.drop (i + 1)).take rest.length |>.zip rest).all fun pair => toAsciiLowercase pair.1 == pair.2 := by
    have folded := begins_folded toAsciiLowercase ((haystack.drop (i + 1)).take rest.length) rest
    rw [decide_eq_true whole,Bool.true_and] at folded
    rw [← folded,Bool.eq_iff_iff,List.isPrefixOf_iff_prefix,List.isPrefixOf_iff_prefix,List.map_take,List.prefix_take_iff]
    exact ⟨fun begins => ⟨begins,Nat.le_refl _⟩,And.left⟩
  unfold beginsAt
  rw [List.getElem?_eq_getElem before,List.drop_eq_getElem_cons before,List.map_cons,List.isPrefixOf,later]
  dsimp only [Option.bind_eq_bind,Option.bind_some]
  rw [window]
  by_cases same : toAsciiLowercase haystack[i] = first
  · rw [if_pos same,same,beq_self_eq_true,Bool.true_and]
    rfl
  · rw [if_neg same,beq_false_of_ne (Ne.symm same),Bool.false_and]
    rfl

theorem containsBytes_tails (haystack needle : List UInt8) :
    containsBytes haystack needle = some (haystack.tails.any fun tail => needle.isPrefixOf (tail.map toAsciiLowercase)) := by
  unfold containsBytes
  cases needle with
  | nil =>
    refine congrArg some (Eq.symm ?_)
    rw [List.any_eq_true]
    exact ⟨haystack,(List.mem_tails ..).mpr List.suffix_rfl,List.isPrefixOf_nil_left⟩
  | cons first rest =>
    -- No tail shorter than the needle begins with it.
    have long {tail : List UInt8} (begins : (first::rest).isPrefixOf (tail.map toAsciiLowercase) = true) : (first::rest).length ≤ tail.length := by
      have front := (List.isPrefixOf_iff_prefix.mp begins).length_le
      rwa [List.length_map] at front
    dsimp only
    split
    · refine congrArg some (Eq.symm ?_)
      rw [List.any_eq_false]
      intro tail listed begins
      have fits := long begins
      have part := ((List.mem_tails ..).mp listed).length_le
      omega
    · rw [anyM_given fun i listed => beginsAt_inside first rest (by have low := List.mem_range.mp listed; omega)]
      refine congrArg some (Bool.eq_iff_iff.mpr ?_)
      rw [List.any_eq_true,List.any_eq_true]
      refine ⟨?_,?_⟩
      · rintro ⟨i,_,begins⟩
        exact ⟨haystack.drop i,(List.mem_tails ..).mpr (List.drop_suffix i haystack),begins⟩
      · rintro ⟨tail,listed,begins⟩
        have part := (List.mem_tails ..).mp listed
        have fits := long begins
        rw [List.suffix_iff_eq_drop.mp part] at begins
        exact ⟨_,List.mem_range.mpr (by omega),begins⟩

theorem ascii_bytes (ascii : ∀ c ∈ text, c.toNat < 128) : utf8 text = text.map fun c => c.toNat.toUInt8 := by
  induction text with
  | nil => rfl
  | cons c rest ih =>
    have small := ascii c (List.mem_cons_self ..)
    have one : String.utf8EncodeChar c = [c.toNat.toUInt8] := by
      unfold String.utf8EncodeChar
      rw [if_pos (by change c.toNat ≤ 127; omega)]
      rfl
    rw [CodeUnits.utf8_cons,one,ih fun d member => ascii d (List.mem_cons_of_mem _ member)]
    rfl

theorem byte_back {c : Char} (small : c.toNat < 128) : Char.ofNat c.toNat.toUInt8.toNat = c := by
  rw [Nat.toUInt8_eq,UInt8.toNat_ofNat',Nat.mod_eq_of_lt (by omega),Char.ofNat_toNat]

theorem folded_byte {c : Char} (small : c.toNat < 128) :
    toAsciiLowercase c.toNat.toUInt8 = c.toLower.toNat.toUInt8 ∧ c.toLower.toNat < 128 := by
  have each : ∀ n < 128, toAsciiLowercase (Char.ofNat n).toNat.toUInt8 = (Char.ofNat n).toLower.toNat.toUInt8 ∧ (Char.ofNat n).toLower.toNat < 128 := by decide
  have held := each c.toNat small
  rwa [Char.ofNat_toNat] at held

theorem bytes_infix {needle text : List Char} (sought : ∀ c ∈ needle, c.toNat < 128) (ascii : ∀ c ∈ text, c.toNat < 128) :
    needle.map (fun c => c.toNat.toUInt8) <:+: text.map (fun c => c.toNat.toUInt8) ↔ needle <:+: text := by
  have back {cs : List Char} (low : ∀ c ∈ cs, c.toNat < 128) : (cs.map fun c => c.toNat.toUInt8).map (fun b => Char.ofNat b.toNat) = cs := by
    rw [List.map_map]
    exact (List.map_congr_left fun c member => byte_back (low c member)).trans (List.map_id' cs)
  refine ⟨fun held => ?_,fun held => held.map _⟩
  have chars := held.map fun b => Char.ofNat b.toNat
  rwa [back sought,back ascii] at chars

theorem infixOf_iff [BEq α] [LawfulBEq α] (needle text : List α) : (text.tails.any fun tail => needle.isPrefixOf tail) = true ↔ needle <:+: text := by
  rw [List.any_eq_true,List.infix_iff_prefix_suffix]
  simp only [List.mem_tails,List.isPrefixOf_iff_prefix,And.comm]

theorem bytes_contain {name needle : String} (ascii : isAscii name = true) (sought : isAscii needle = true) :
    containsBytes (utf8 name.toList) (utf8 needle.toList) = some (containsIgnoreAsciiCase name.toList needle.toList) := by
  unfold isAscii at ascii sought
  simp only [List.all_eq_true,decide_eq_true_eq] at ascii sought
  have lowered : ∀ c ∈ name.toList.map Char.toLower, c.toNat < 128 := by
    intro c member
    obtain ⟨d,listed,rfl⟩ := List.mem_map.mp member
    exact (folded_byte (ascii d listed)).2
  have letters : ((name.toList.map fun c => c.toNat.toUInt8).map toAsciiLowercase) = (name.toList.map Char.toLower).map fun c => c.toNat.toUInt8 := by
    rw [List.map_map,List.map_map]
    exact List.map_congr_left fun c member => (folded_byte (ascii c member)).1
  rw [containsBytes_tails,contains_ascii,ascii_bytes ascii,ascii_bytes sought]
  refine congrArg some (Bool.eq_iff_iff.mpr ?_)
  unfold infixOf
  rw [infixOf_iff,← bytes_infix sought lowered,← letters,← infixOf_iff,List.map_tails toAsciiLowercase,List.any_map]
  rfl

-- The sidecar's fast match reads inside the name only and answers as its general
-- one, whatever the filter and the name.
theorem fast_match_general (t : Tables) (f : Filters) (name : String) :
    compiledMatchFast t.casing (compile t.casing f) name (isAscii name) = some (compiledMatchName t.casing (compile t.casing f) name) := by
  rw [match_lowered,← fast_lowered]
  unfold compiledMatchFast matchNameFast
  cases ascii : isAscii name with
  | false => rfl
  | true =>
    simp only [Bool.not_true,Bool.false_eq_true,if_false]
    split
    · rename_i bare
      rw [Bool.and_eq_true] at bare
      exact bytes_contain ascii bare.2
    · rfl

end Bytes

end RemoteFileExplorer.NameFilters
