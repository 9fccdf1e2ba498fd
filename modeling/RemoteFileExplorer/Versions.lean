import Mathlib.Data.List.Forall2
import RemoteFileExplorer.DesktopDownloads
import RemoteFileExplorer.Numerals
import RemoteFileExplorer.SemVer

namespace RemoteFileExplorer.Versions
open PathTexts SemVer Numerals DesktopDownloads

structure Version where
  core : Core
  pre : List Text
  deriving DecidableEq

def Version.parse (text : Text) : Option Version :=
  let text := (trimSpace text).dropWhile (· == 'v')
  let (core,pre) := (splitOnce '-' text).elim (text,none) fun (c,p) => (c,some p)
  match core.splitOn '.' with
  | [a,b,c] =>
    (parseU64 a).bind fun major => (parseU64 b).bind fun minor => (parseU64 c).bind fun patch =>
    if pre = some [] then none else
    let pre := pre.elim [] (·.splitOn '.')
    if pre.any fun s => s.isEmpty || !s.all isWordChar then none else some ⟨(major,minor,patch),pre⟩
  | _ => none

def Version.isPre (v : Version) : Bool := !v.pre.isEmpty

def idOrder (a b : Text) : Ordering :=
  match parseU64 a,parseU64 b with
  | some x,some y => compare x y
  | some _,none => .lt
  | none,some _ => .gt
  | none,none => compare a b

-- The first pair that differs decides, else the length.
def preOrder : List Text → List Text → Ordering
  | a::first,b::second => (idOrder a b).then (preOrder first second)
  | first,second => compare first.length second.length

def Version.cmp (v w : Version) : Ordering :=
  (coreOrder v.core w.core).then <|
    match v.pre.isEmpty,w.pre.isEmpty with
    | true,true => .eq
    | true,false => .gt
    | false,true => .lt
    | false,false => preOrder v.pre w.pre

section Order
variable {a b : Text} {u v w : Version}

instance : Std.OrientedCmp idOrder where
  eq_swap {a b} := by
    unfold idOrder
    cases parseU64 a with
    | none =>
      cases parseU64 b with
      | none => exact Std.OrientedOrd.eq_swap
      | some y => rfl
    | some x =>
      cases parseU64 b with
      | none => rfl
      | some y => exact Std.OrientedOrd.eq_swap

instance : Std.TransCmp idOrder where
  isLE_trans {a b c} below above := by
    unfold idOrder at below above ⊢
    cases readA : parseU64 a with
    | none =>
      cases readB : parseU64 b with
      | none =>
        cases readC : parseU64 c with
        | none =>
          simp only [readA,readB,readC] at below above ⊢
          exact Std.TransCmp.isLE_trans below above
        | some z =>
          simp only [readB,readC] at above
          cases above
      | some y =>
        simp only [readA,readB] at below
        cases below
    | some x =>
      cases readC : parseU64 c with
      | none => rfl
      | some z =>
        cases readB : parseU64 b with
        | none =>
          simp only [readB,readC] at above
          cases above
        | some y =>
          simp only [readA,readB,readC] at below above ⊢
          exact Std.TransCmp.isLE_trans below above

theorem preOrder_lex (first second : List Text) : preOrder first second = List.compareLex idOrder first second := by
  induction first generalizing second with
  | nil =>
    cases second with
    | nil => rfl
    | cons b rest => exact Nat.compare_eq_lt.mpr (Nat.succ_pos _)
  | cons a rest ih =>
    cases second with
    | nil => exact Nat.compare_eq_gt.mpr (Nat.succ_pos _)
    | cons b more => rw [preOrder,ih,List.compareLex_cons_cons]

theorem cmp_ranked (v w : Version) : v.cmp w = (coreOrder v.core w.core).then (ranked idOrder v.pre w.pre) := by
  unfold Version.cmp
  congr 1
  cases v.pre with
  | nil => cases w.pre <;> rfl
  | cons a first =>
    cases w.pre with
    | nil => rfl
    | cons b second => exact preOrder_lex _ _

theorem cmp_swap (v w : Version) : w.cmp v = (v.cmp w).swap := by
  rw [cmp_ranked,cmp_ranked,Ordering.swap_then]
  congr 1
  · exact Std.OrientedCmp.eq_swap
  · exact Std.OrientedCmp.eq_swap

theorem cmp_trans (below : (u.cmp v).isLE = true) (above : (v.cmp w).isLE = true) : (u.cmp w).isLE = true := by
  rw [cmp_ranked] at below above ⊢
  rw [Ordering.isLE_then_iff_and] at below above ⊢
  refine ⟨Std.TransCmp.isLE_trans below.1 above.1,?_⟩
  rcases below.2 with less | belowPre
  · exact .inl (Std.TransCmp.lt_of_lt_of_isLE less above.1)
  · rcases above.2 with less | abovePre
    · exact .inl (Std.TransCmp.lt_of_isLE_of_lt below.1 less)
    · exact .inr (Std.TransCmp.isLE_trans belowPre abovePre)

end Order

section Equal
variable {a b : Text} {v w : Version}

theorem word_digit (allowed : isWordChar c = true) : c ≠ '+' := by
  rintro rfl
  cases allowed

theorem plain_parse (allowed : ∀ c ∈ a, isWordChar c = true) :
    parseU64 a = if a = [] ∨ ¬ a.all Char.isDigit then none else if value a < 2 ^ 64 then some (value a) else none := by
  have plain : withoutPlus a = a := by
    unfold withoutPlus
    split
    · exact absurd rfl (word_digit (allowed '+' (List.mem_cons_self ..)))
    · rfl
  unfold parseU64
  rw [plain]

theorem parse_number (allowed : ∀ c ∈ a, isWordChar c = true) (read : parseU64 a = some n) :
    (∀ c ∈ a, c.isDigit = true) ∧ n = value a := by
  rw [plain_parse allowed] at read
  split at read
  · cases read
  · rename_i digits
    split at read
    · cases read
      rw [not_or,not_not,List.all_eq_true] at digits
      exact ⟨digits.2,rfl⟩
    · cases read

def Respelled (a b : Text) : Prop := a ≠ b ∧ (parseU64 a).isSome = true ∧ (parseU64 b).isSome = true ∧ withoutZeros a = withoutZeros b

theorem idOrder_same (allowedA : ∀ c ∈ a, isWordChar c = true) (allowedB : ∀ c ∈ b, isWordChar c = true) :
    idOrder a b = .eq ↔ a = b ∨ Respelled a b := by
  constructor
  · intro same
    by_cases equal : a = b
    · exact .inl equal
    · unfold idOrder at same
      cases readA : parseU64 a with
      | none =>
        cases readB : parseU64 b with
        | none =>
          simp only [readA,readB] at same
          exact .inl (Std.LawfulEqOrd.eq_of_compare same)
        | some y =>
          simp only [readA,readB] at same
          cases same
      | some x =>
        cases readB : parseU64 b with
        | none =>
          simp only [readA,readB] at same
          cases same
        | some y =>
          simp only [readA,readB] at same
          obtain ⟨digitsA,valueA⟩ := parse_number allowedA readA
          obtain ⟨digitsB,valueB⟩ := parse_number allowedB readB
          have one : value a = value b := by rw [← valueA,← valueB,Nat.compare_eq_eq.mp same]
          refine .inr ⟨equal,by rw [readA]; rfl,by rw [readB]; rfl,?_⟩
          exact (value_same_iff digitsA digitsB).mp one
  · rintro (rfl | ⟨_,someA,someB,stripped⟩)
    · exact Std.ReflCmp.compare_self
    · obtain ⟨x,readA⟩ := Option.isSome_iff_exists.mp someA
      obtain ⟨y,readB⟩ := Option.isSome_iff_exists.mp someB
      obtain ⟨digitsA,valueA⟩ := parse_number allowedA readA
      obtain ⟨digitsB,valueB⟩ := parse_number allowedB readB
      unfold idOrder
      simp only [readA,readB]
      rw [Nat.compare_eq_eq,valueA,valueB]
      exact (value_same_iff digitsA digitsB).mpr stripped

theorem lex_same (first second : List Text) : List.compareLex idOrder first second = .eq ↔ List.Forall₂ (fun a b => idOrder a b = .eq) first second := by
  induction first generalizing second with
  | nil =>
    cases second with
    | nil => simp [List.compareLex_nil_nil]
    | cons b more => simp [List.compareLex_nil_cons]
  | cons a rest ih =>
    cases second with
    | nil => simp [List.compareLex_cons_nil]
    | cons b more => rw [List.compareLex_cons_cons,Ordering.then_eq_eq,ih,List.forall₂_cons]

theorem cmp_same (v w : Version) : v.cmp w = .eq ↔ v.core = w.core ∧ List.Forall₂ (fun a b => idOrder a b = .eq) v.pre w.pre := by
  have core : coreOrder v.core w.core = .eq ↔ v.core = w.core := by
    constructor
    · exact coreOrder_same
    · intro same
      rw [same]
      exact Std.ReflCmp.compare_self
  rw [cmp_ranked,Ordering.then_eq_eq,core]
  cases v.pre with
  | nil => cases w.pre <;> simp [ranked]
  | cons a first =>
    cases w.pre with
    | nil => simp [ranked]
    | cons b second =>
      rw [← lex_same]
      exact Iff.rfl

theorem parse_pre (read : Version.parse text = some v) : ∀ s ∈ v.pre, s ≠ [] ∧ ∀ c ∈ s, isWordChar c = true := by
  unfold Version.parse at read
  dsimp only at read
  split at read
  · obtain ⟨major,_,read⟩ := Option.bind_eq_some_iff.mp read
    obtain ⟨minor,_,read⟩ := Option.bind_eq_some_iff.mp read
    obtain ⟨patch,_,read⟩ := Option.bind_eq_some_iff.mp read
    split at read
    · cases read
    · split at read
      · cases read
      · rename_i clean
        cases read
        intro s member
        rw [List.any_eq_true] at clean
        constructor
        · intro empty
          exact clean ⟨s,member,by simp [empty]⟩
        · rw [← List.all_eq_true]
          by_contra other
          exact clean ⟨s,member,by simp [other]⟩
  · cases read

-- The identifiers of the two differ in no more than leading zeros, and in some.
def Version.Respells (v w : Version) : Prop :=
  v.core = w.core ∧ v.pre ≠ w.pre ∧ List.Forall₂ (fun a b => a = b ∨ Respelled a b) v.pre w.pre

theorem ids_same (allowedA : ∀ s ∈ first, ∀ c ∈ s, isWordChar c = true) (allowedB : ∀ s ∈ second, ∀ c ∈ s, isWordChar c = true) :
    List.Forall₂ (fun a b => idOrder a b = .eq) first second ↔ List.Forall₂ (fun a b => a = b ∨ Respelled a b) first second := by
  induction first generalizing second with
  | nil => cases second <;> simp
  | cons a rest ih =>
    cases second with
    | nil => simp
    | cons b more =>
      rw [List.forall_mem_cons] at allowedA allowedB
      have tail := ih allowedA.2 allowedB.2
      rw [List.forall₂_cons,List.forall₂_cons,idOrder_same allowedA.1 allowedB.1,tail]

theorem equal_iff (one : Version.parse first = some v) (two : Version.parse second = some w) :
    (v.cmp w = .eq ↔ v = w) ↔ ¬ v.Respells w := by
  have ids := ids_same (fun s member => (parse_pre one s member).2) (fun s member => (parse_pre two s member).2)
  rw [cmp_same,ids]
  constructor
  · rintro same ⟨core,differ,alike⟩
    exact differ (congrArg Version.pre (same.mp ⟨core,alike⟩))
  · intro single
    constructor
    · rintro ⟨core,alike⟩
      by_contra differ
      refine single ⟨core,?_,alike⟩
      intro pre
      apply differ
      cases v
      cases w
      cases core
      cases pre
      rfl
    · rintro rfl
      exact ⟨rfl,List.forall₂_same.mpr fun _ _ => .inl rfl⟩

end Equal

section Releases
variable {i j : Identifier} {r s : Release}

def Small (core : Core) : Prop := core.1 < 2 ^ 64 ∧ core.2.1 < 2 ^ 64 ∧ core.2.2 < 2 ^ 64

instance (core : Core) : Decidable (Small core) := inferInstanceAs (Decidable (_ ∧ _))

theorem intercalate_chars (member : c ∈ ['.'].intercalate parts) : c = '.' ∨ ∃ part ∈ parts, c ∈ part := by
  induction parts with
  | nil => cases member
  | cons part rest ih =>
    cases rest with
    | nil =>
      rw [List.intercalate_singleton] at member
      exact .inr ⟨part,List.mem_cons_self ..,member⟩
    | cons next more =>
      rw [List.intercalate_cons_cons,List.append_assoc,List.mem_append,List.mem_append] at member
      rcases member with first | dot | later
      · exact .inr ⟨part,List.mem_cons_self ..,first⟩
      · exact .inl (List.mem_singleton.mp dot)
      · rcases ih later with dot | ⟨other,among,within⟩
        · exact .inl dot
        · exact .inr ⟨other,List.mem_cons_of_mem _ among,within⟩

theorem coreText_chars (member : c ∈ coreText core) : c = '.' ∨ c.isDigit = true := by
  refine (intercalate_chars member).imp_right ?_
  rintro ⟨part,among,within⟩
  simp only [List.mem_cons,List.not_mem_nil,or_false] at among
  rcases among with rfl | rfl | rfl <;> exact Nat.isDigit_of_mem_toDigits (by decide) (by decide) within

theorem text_chars (member : c ∈ r.text) : c = '.' ∨ isWordChar c = true := by
  rcases List.mem_append.mp member with core | after
  · refine (coreText_chars core).imp_right fun digit => ?_
    simp [isWordChar,Char.isAlphanum,digit]
  · split at after
    · cases after
    · rcases List.mem_cons.mp after with rfl | pre
      · exact .inr rfl
      · refine (intercalate_chars pre).imp_right ?_
        rintro ⟨part,among,within⟩
        obtain ⟨i,_,rfl⟩ := List.mem_map.mp among
        exact identifier_text_allowed i c within

theorem word_ascii (allowed : isWordChar c = true) : 45 ≤ c.toNat ∧ c.toNat ≤ 122 := by
  unfold isWordChar at allowed
  rw [Bool.or_eq_true,beq_iff_eq] at allowed
  rcases allowed with letter | rfl
  · delta Char.isAlphanum Char.isAlpha Char.isUpper Char.isLower Char.isDigit at letter
    simp only [ge_iff_le,Bool.or_eq_true,Bool.and_eq_true,decide_eq_true_eq,UInt32.le_iff_toNat_le] at letter
    change ((65 ≤ c.toNat ∧ c.toNat ≤ 90) ∨ 97 ≤ c.toNat ∧ c.toNat ≤ 122) ∨ 48 ≤ c.toNat ∧ c.toNat ≤ 57 at letter
    omega
  · decide

theorem ascii_solid (range : 45 ≤ c.toNat ∧ c.toNat ≤ 122) : isSpace c = false := by
  have away : ∀ d : Char, d.toNat < 45 → c ≠ d := by
    rintro d below rfl
    exact absurd range.1 (Nat.not_le_of_lt below)
  unfold isSpace
  simp only [List.mem_cons,List.not_mem_nil,or_false,Bool.or_eq_false_iff,decide_eq_false_iff_not,not_or,Bool.and_eq_false_iff]
  refine ⟨⟨?_,by omega⟩,by omega⟩
  exact ⟨away _ (by decide),away _ (by decide),away _ (by decide),away _ (by decide),away _ (by decide),away _ (by decide)⟩

theorem trimSpace_solid (solid : ∀ c ∈ text, isSpace c = false) : trimSpace text = text := by
  have front : text.dropWhile isSpace = text := by
    cases text with
    | nil => rfl
    | cons c rest => exact List.dropWhile_cons_of_neg (by simp [solid c (List.mem_cons_self ..)])
  unfold trimSpace
  rw [front,List.rdropWhile_eq_self_iff]
  intro some
  rw [solid _ (List.getLast_mem some)]
  exact Bool.false_ne_true

theorem text_trimmed (r : Release) : trimSpace r.text = r.text := by
  refine trimSpace_solid fun c member => ascii_solid ?_
  rcases text_chars member with rfl | word
  · decide
  · exact word_ascii word

theorem text_headed (r : Release) : r.text.dropWhile (· == 'v') = r.text := by
  obtain ⟨c,rest,written⟩ := List.exists_cons_of_ne_nil (@Nat.toDigits_ne_nil r.core.1 10)
  have digit : c.isDigit = true := Nat.isDigit_of_mem_toDigits (by decide) (by decide) (written ▸ List.mem_cons_self ..)
  have other : c ≠ 'v' := by
    rintro rfl
    cases digit
  have headed : r.text = c::r.text.tail := by
    unfold Release.text coreText
    rw [List.intercalate_cons_cons,written]
    rfl
  rw [headed]
  exact List.dropWhile_cons_of_neg (by simpa using other)

theorem text_split (r : Release) :
    (splitOnce '-' r.text).elim (r.text,none) (fun (c,p) => (c,some p)) = (coreText r.core,if r.pre = [] then none else some (preText r.pre)) := by
  have free : '-' ∉ coreText r.core := by
    intro member
    rcases coreText_chars member with dot | digit
    · cases dot
    · cases digit
  unfold Release.text
  by_cases final : r.pre = []
  · have none : splitOnce '-' (coreText r.core) = .none := if_neg free
    rw [if_pos final,if_pos final,List.append_nil,none]
    rfl
  · rw [if_neg final,if_neg final,splitOnce_append free]
    rfl

theorem coreText_parts (core : Core) : (coreText core).splitOn '.' = [Nat.toDigits 10 core.1,Nat.toDigits 10 core.2.1,Nat.toDigits 10 core.2.2] := by
  refine List.splitOn_intercalate '.' ?_ (List.cons_ne_nil _ _)
  simp [digits_plain]

theorem preText_parts (some : pre ≠ []) : (preText pre).splitOn '.' = pre.map Identifier.text := by
  refine List.splitOn_intercalate '.' ?_ (by simpa using some)
  intro part among dot
  obtain ⟨i,_,rfl⟩ := List.mem_map.mp among
  cases identifier_text_allowed i '.' dot

theorem preText_some (some : pre ≠ []) : preText pre ≠ [] := by
  intro empty
  have parts := preText_parts some
  rw [empty] at parts
  obtain ⟨i,more,rfl⟩ := List.exists_cons_of_ne_nil some
  have head : [] = i.text := List.head_eq_of_cons_eq parts
  exact identifier_text_head i head.symm

-- A valid version is read back when its three numbers fit 64 bits.
theorem parse_text (r : Release) : Version.parse r.text = if Small r.core then some ⟨r.core,r.pre.map Identifier.text⟩ else none := by
  unfold Version.parse
  dsimp only
  rw [text_trimmed,text_headed,text_split]
  rw [coreText_parts]
  dsimp only
  rw [parseU64_digits,parseU64_digits,parseU64_digits]
  by_cases small : Small r.core
  · rw [if_pos small,if_pos small.1,if_pos small.2.1,if_pos small.2.2]
    simp only [Option.bind_some]
    have clean : ¬ ((r.pre.map Identifier.text).any fun s => s.isEmpty || !s.all isWordChar) = true := by
      intro dirty
      obtain ⟨part,among,bad⟩ := List.any_eq_true.mp dirty
      obtain ⟨i,_,rfl⟩ := List.mem_map.mp among
      rcases Bool.or_eq_true_iff.mp bad with empty | other
      · exact identifier_text_head i (List.isEmpty_iff.mp empty)
      · rw [List.all_eq_true.mpr (identifier_text_allowed i)] at other
        cases other
    by_cases final : r.pre = []
    · rw [if_pos final,if_neg (Option.some_ne_none _).symm,final]
      rfl
    · have written : some (preText r.pre) ≠ some [] := fun empty => preText_some final (Option.some.inj empty)
      rw [if_neg final,if_neg written,Option.elim_some,preText_parts final,if_neg clean]
  · rw [if_neg small]
    by_cases major : r.core.1 < 2 ^ 64
    · by_cases minor : r.core.2.1 < 2 ^ 64
      · have patch : ¬ r.core.2.2 < 2 ^ 64 := fun patch => small ⟨major,minor,patch⟩
        rw [if_pos major,if_pos minor,if_neg patch]
        rfl
      · rw [if_pos major,if_neg minor]
        rfl
    · rw [if_neg major]
      rfl

end Releases

section Precedence
variable {i j : Identifier} {r s : Release}

-- The comparison goes by text where a number does not fit 64 bits, and then
-- only some pairs come out as their numbers say.
def Judged : Identifier → Identifier → Prop
  | .numeric n,.numeric m => n < 2 ^ 64 ∨ m < 2 ^ 64 ∨ (n < m ↔ compare (Nat.toDigits 10 n) (Nat.toDigits 10 m) = .lt)
  | .numeric n,.word w => n < 2 ^ 64 ∨ compare (Nat.toDigits 10 n) w.text = .lt
  | .word w,.numeric n => n < 2 ^ 64 ∨ compare (Nat.toDigits 10 n) w.text = .lt
  | .word _,.word _ => True

def FirstJudged : List Identifier → List Identifier → Prop
  | i::first,j::second => if i = j then FirstJudged first second else Judged i j
  | _,_ => True

def Judges (r s : Release) : Prop := Small r.core ∧ Small s.core ∧ (r.core = s.core → FirstJudged r.pre s.pre)

def Agrees (r s : Release) : Prop := ∃ v w, Version.parse r.text = some v ∧ Version.parse s.text = some w ∧ v.cmp w = precedence r s

theorem word_number (w : Word) : parseU64 w.text = none := by
  rw [plain_parse w.allowed,if_pos]
  obtain ⟨c,member,other⟩ := w.worded
  refine .inr fun digits => ?_
  rw [List.all_eq_true.mp digits c member] at other
  cases other

theorem text_other (n : Nat) (w : Word) : Nat.toDigits 10 n ≠ w.text := by
  intro same
  obtain ⟨c,member,other⟩ := w.worded
  rw [← same] at member
  rw [Nat.isDigit_of_mem_toDigits (by decide) (by decide) member] at other
  cases other

theorem digits_injective (same : Nat.toDigits 10 n = Nat.toDigits 10 m) : n = m := by
  have read := congrArg value same
  rwa [value_toDigits,value_toDigits] at read

theorem compare_apart {a b : Text} (apart : a ≠ b) : compare a b ≠ .eq := fun same => apart (Std.LawfulEqOrd.eq_of_compare same)

theorem idOrder_self (a : Text) : idOrder a a = .eq := Std.ReflCmp.compare_self

theorem idOrder_numbers (n m : Nat) : idOrder (Nat.toDigits 10 n) (Nat.toDigits 10 m) =
    if n < 2 ^ 64 then (if m < 2 ^ 64 then compare n m else .lt) else if m < 2 ^ 64 then .gt else compare (Nat.toDigits 10 n) (Nat.toDigits 10 m) := by
  unfold idOrder
  rw [parseU64_digits,parseU64_digits]
  by_cases smallN : n < 2 ^ 64 <;> by_cases smallM : m < 2 ^ 64 <;> simp only [smallN,smallM,if_true,if_false]

theorem idOrder_number_word (n : Nat) (w : Word) : idOrder (Nat.toDigits 10 n) w.text = if n < 2 ^ 64 then .lt else compare (Nat.toDigits 10 n) w.text := by
  unfold idOrder
  rw [parseU64_digits,word_number]
  by_cases small : n < 2 ^ 64 <;> simp only [small,if_true,if_false]

theorem judged_numbers {n m : Nat} (differ : n ≠ m) : idOrder (Nat.toDigits 10 n) (Nat.toDigits 10 m) = compare n m ↔ Judged (.numeric n) (.numeric m) := by
  unfold Judged
  dsimp only
  rw [idOrder_numbers]
  by_cases smallN : n < 2 ^ 64
  · rw [if_pos smallN]
    refine iff_of_true ?_ (.inl smallN)
    by_cases smallM : m < 2 ^ 64
    · rw [if_pos smallM]
    · rw [if_neg smallM]
      exact (Nat.compare_eq_lt.mpr (smallN.trans_le (Nat.le_of_not_lt smallM))).symm
  · by_cases smallM : m < 2 ^ 64
    · rw [if_neg smallN,if_pos smallM]
      exact iff_of_true (Nat.compare_eq_gt.mpr (smallM.trans_le (Nat.le_of_not_lt smallN))).symm (.inr (.inl smallM))
    · have texts := compare_apart fun same => differ (digits_injective same)
      have numbers : compare n m ≠ .eq := fun same => differ (Nat.compare_eq_eq.mp same)
      rw [if_neg smallN,if_neg smallM,or_iff_right smallN,or_iff_right smallM,← Nat.compare_eq_lt]
      cases one : compare n m with
      | eq => exact absurd one numbers
      | lt => simp
      | gt =>
        cases two : compare (Nat.toDigits 10 n) (Nat.toDigits 10 m) with
        | eq => exact absurd two texts
        | lt | gt => simp

theorem judged_number_word (n : Nat) (w : Word) : idOrder (Nat.toDigits 10 n) w.text = .lt ↔ Judged (.numeric n) (.word w) := by
  unfold Judged
  dsimp only
  rw [idOrder_number_word]
  by_cases small : n < 2 ^ 64
  · rw [if_pos small]
    exact iff_of_true rfl (.inl small)
  · rw [if_neg small,or_iff_right small]

theorem judged_iff (apart : i ≠ j) : idOrder i.text j.text = identifierOrder i j ↔ Judged i j := by
  cases i with
  | numeric n =>
    cases j with
    | numeric m => exact judged_numbers fun same => apart (congrArg Identifier.numeric same)
    | word w => exact judged_number_word n w
  | word v =>
    cases j with
    | numeric m =>
      have turned : idOrder v.text (Nat.toDigits 10 m) = .gt ↔ idOrder (Nat.toDigits 10 m) v.text = .lt := by
        rw [@Std.OrientedCmp.eq_swap _ idOrder _ v.text]
        cases idOrder (Nat.toDigits 10 m) v.text <;> simp
      exact turned.trans (judged_number_word m v)
    | word w =>
      unfold Judged identifierOrder Identifier.text idOrder
      rw [word_number,word_number]
      simp

theorem identifierOrder_apart (apart : i ≠ j) : identifierOrder i j ≠ .eq := fun same => apart (identifierOrder_same same)

theorem identifier_text_injective (same : i.text = j.text) : i = j := by
  cases i with
  | numeric n =>
    cases j with
    | numeric m => rw [digits_injective same]
    | word w => exact absurd same (text_other n w)
  | word v =>
    cases j with
    | numeric m => exact absurd same.symm (text_other m v)
    | word w =>
      obtain ⟨text,_,_⟩ := v
      obtain ⟨other,_,_⟩ := w
      have equal : text = other := same
      cases equal
      rfl

theorem not_respelled : ¬ Respelled i.text j.text := by
  rintro ⟨differ,someI,someJ,stripped⟩
  cases i with
  | word v =>
    have none := word_number v
    rw [Identifier.text,none] at someI
    cases someI
  | numeric n =>
    cases j with
    | word w =>
      have none := word_number w
      rw [Identifier.text,none] at someJ
      cases someJ
    | numeric m =>
      have digits : ∀ k, ∀ c ∈ Nat.toDigits 10 k, c.isDigit = true := fun k c member => Nat.isDigit_of_mem_toDigits (by decide) (by decide) member
      have same := (value_same_iff (digits n) (digits m)).mpr stripped
      rw [value_toDigits,value_toDigits] at same
      exact differ (by rw [same])

theorem idOrder_apart (apart : i ≠ j) : idOrder i.text j.text ≠ .eq := by
  intro same
  rcases (idOrder_same (identifier_text_allowed i) (identifier_text_allowed j)).mp same with equal | respelled
  · exact apart (identifier_text_injective equal)
  · exact not_respelled respelled

theorem lex_judged (first second : List Identifier) :
    List.compareLex idOrder (first.map Identifier.text) (second.map Identifier.text) = List.compareLex identifierOrder first second ↔ FirstJudged first second := by
  induction first generalizing second with
  | nil => cases second <;> exact iff_of_true rfl trivial
  | cons i rest ih =>
    cases second with
    | nil => exact iff_of_true rfl trivial
    | cons j more =>
      rw [List.map_cons,List.map_cons,List.compareLex_cons_cons,List.compareLex_cons_cons,FirstJudged]
      by_cases same : i = j
      · rw [if_pos same,same,idOrder_self,identifierOrder_self,Ordering.eq_then,Ordering.eq_then,ih]
      · have decided := identifierOrder_apart same
        have chosen := idOrder_apart same
        rw [if_neg same,← judged_iff same]
        cases one : idOrder i.text j.text <;> cases two : identifierOrder i j <;> simp_all

theorem ranked_judged (first second : List Identifier) :
    ranked idOrder (first.map Identifier.text) (second.map Identifier.text) = ranked identifierOrder first second ↔ FirstJudged first second := by
  cases first with
  | nil => cases second <;> exact iff_of_true rfl trivial
  | cons i rest =>
    cases second with
    | nil => exact iff_of_true rfl trivial
    | cons j more => exact lex_judged (i::rest) (j::more)

theorem cmp_judged (r s : Release) :
    Version.cmp ⟨r.core,r.pre.map Identifier.text⟩ ⟨s.core,s.pre.map Identifier.text⟩ = precedence r s ↔ (r.core = s.core → FirstJudged r.pre s.pre) := by
  rw [cmp_ranked,precedence,← ranked_judged]
  by_cases same : r.core = s.core
  · have self : coreOrder s.core s.core = .eq := Std.ReflCmp.compare_self
    rw [same,self,Ordering.eq_then,Ordering.eq_then]
    exact ⟨fun equal _ => equal,fun equal => equal rfl⟩
  · have apart : coreOrder r.core s.core ≠ .eq := fun equal => same (coreOrder_same equal)
    refine iff_of_true ?_ fun equal => absurd equal same
    cases decided : coreOrder r.core s.core with
    | eq => exact absurd decided apart
    | lt => rfl
    | gt => rfl

theorem agrees_iff : Agrees r s ↔ Judges r s := by
  unfold Agrees Judges
  rw [← cmp_judged]
  constructor
  · rintro ⟨v,w,readR,readS,same⟩
    rw [parse_text] at readR readS
    split at readR
    · rename_i smallR
      split at readS
      · rename_i smallS
        cases readR
        cases readS
        exact ⟨smallR,smallS,same⟩
      · cases readS
    · cases readR
  · rintro ⟨smallR,smallS,same⟩
    exact ⟨_,_,by rw [parse_text,if_pos smallR],by rw [parse_text,if_pos smallS],same⟩

end Precedence

structure Lawful (a b c : Text) : Prop where
  reflexive : ∀ u, Version.parse a = some u → u.cmp u = .eq
  total : ∀ u v, Version.parse a = some u → Version.parse b = some v → v.cmp u = (u.cmp v).swap
  transitive : ∀ u v w, Version.parse a = some u → Version.parse b = some v → Version.parse c = some w →
    (u.cmp v).isLE = true → (v.cmp w).isLE = true → (u.cmp w).isLE = true
  antisymmetric : ∀ u v, Version.parse a = some u → Version.parse b = some v → (u.cmp v).isLE = true → (v.cmp u).isLE = true → u = v
  equal : ∀ u v, Version.parse a = some u → Version.parse b = some v → (u.cmp v = .eq ↔ u = v)
  agrees : ∀ r s : Release, r.text = a → s.text = b → Agrees r s

def Spelled (a b : Text) : Prop :=
  (∀ u v, Version.parse a = some u → Version.parse b = some v → ¬ u.Respells v) ∧ ∀ r s : Release, r.text = a → s.text = b → Judges r s

theorem order_lawful_iff (a b c : Text) : Lawful a b c ↔ Spelled a b := by
  constructor
  · intro lawful
    refine ⟨?_,?_⟩
    · intro u v readA readB
      exact (equal_iff readA readB).mp (lawful.equal u v readA readB)
    · intro r s textR textS
      exact agrees_iff.mp (lawful.agrees r s textR textS)
  · rintro ⟨single,judged⟩
    refine ⟨?_,?_,?_,?_,?_,?_⟩
    · intro u _
      exact (cmp_same u u).mpr ⟨rfl,List.forall₂_same.mpr fun a _ => idOrder_self a⟩
    · exact fun u v _ _ => cmp_swap u v
    · exact fun u v w _ _ _ below above => cmp_trans below above
    · intro u v readA readB below above
      refine ((equal_iff readA readB).mpr (single u v readA readB)).mp ?_
      rw [cmp_swap u v] at above
      cases order : u.cmp v with
      | eq => rfl
      | lt =>
        rw [order] at above
        cases above
      | gt =>
        rw [order] at below
        cases below
    · exact fun u v readA readB => (equal_iff readA readB).mpr (single u v readA readB)
    · exact fun r s textR textS => agrees_iff.mpr (judged r s textR textS)

theorem respelled_not_lawful : ¬ Lawful "1.0.0-1".toList "1.0.0-01".toList "1.0.0".toList := by
  intro lawful
  have same := (lawful.equal ⟨(1,0,0),[['1']]⟩ ⟨(1,0,0),[['0','1']]⟩ (by decide +kernel) (by decide +kernel)).mp (by decide +kernel)
  exact absurd same (by decide)

end RemoteFileExplorer.Versions
