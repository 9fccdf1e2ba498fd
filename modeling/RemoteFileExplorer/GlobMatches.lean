import RemoteFileExplorer.GlobChunks

namespace RemoteFileExplorer.GlobMatches
open CodeUnits hiding Bytes
open Glob GlobLanguage GlobChunks

section Parts

theorem chunkChars_le (inRange : Bool) (text : List Char) : chunkChars inRange text ≤ text.length := by
  induction inRange,text using chunkChars.induct with
  | case1 => exact Nat.le_refl _
  | case2 inRange => rw [chunkChars_cut]; exact Nat.le_refl _
  | case3 inRange d later ih => rw [chunkChars_escape]; exact Nat.add_le_add_right ih 2
  | case4 inRange rest _ ih => rw [chunkChars_open]; exact Nat.succ_le_succ ih
  | case5 inRange rest _ _ ih => rw [chunkChars_close]; exact Nat.succ_le_succ ih
  | case6 inRange c rest _ _ _ both =>
    obtain ⟨rfl,rfl⟩ := both
    rw [chunkChars_star]
    exact Nat.zero_le _
  | case7 inRange c rest back open_ close_ plain ih =>
    rw [chunkChars_plain back open_ close_ plain]
    exact Nat.succ_le_succ ih

theorem chunk_ends (inRange : Bool) (text : List Char) : chunkChars inRange (text.take (chunkChars inRange text)) = chunkChars inRange text ∧
    (text.drop (chunkChars inRange text) = [] ∨ ∃ later, text.drop (chunkChars inRange text) = '*'::later) := by
  induction inRange,text using chunkChars.induct with
  | case1 inRange => exact ⟨rfl,Or.inl rfl⟩
  | case2 inRange => exact ⟨by rw [chunkChars_cut,List.take_succ_cons,List.take_zero,chunkChars_cut],Or.inl (by rw [chunkChars_cut]; rfl)⟩
  | case3 inRange d later ih =>
    rw [chunkChars_escape,List.take_succ_cons,List.take_succ_cons,chunkChars_escape,ih.1]
    exact ⟨rfl,ih.2⟩
  | case4 inRange rest _ ih =>
    rw [chunkChars_open,List.take_succ_cons,chunkChars_open,ih.1]
    exact ⟨rfl,ih.2⟩
  | case5 inRange rest _ _ ih =>
    rw [chunkChars_close,List.take_succ_cons,chunkChars_close,ih.1]
    exact ⟨rfl,ih.2⟩
  | case6 inRange c rest _ _ _ both =>
    obtain ⟨rfl,rfl⟩ := both
    rw [chunkChars_star]
    exact ⟨rfl,Or.inr ⟨rest,rfl⟩⟩
  | case7 inRange c rest back open_ close_ plain ih =>
    rw [chunkChars_plain back open_ close_ plain,List.take_succ_cons,chunkChars_plain back open_ close_ plain,ih.1]
    exact ⟨rfl,ih.2⟩

theorem parse_strip (text : List Char) : ∃ count, (text.head? = some '*' ↔ 0 < count) ∧ text.length = count + (text.dropWhile (· == '*')).length ∧
    parse text = (parse (text.dropWhile (· == '*'))).map (List.replicate count .star ++ ·) := by
  induction text with
  | nil => exact ⟨0,by simp,rfl,by rw [List.dropWhile_nil,parse_nil]; rfl⟩
  | cons c rest ih =>
    by_cases starred : c = '*'
    · subst starred
      obtain ⟨count,_,size,parsed⟩ := ih
      rw [List.dropWhile_cons_of_pos (by decide)]
      refine ⟨count+1,by simp,by rw [List.length_cons,size]; omega,?_⟩
      rw [parse_star,parsed,Option.map_map]
      rfl
    · rw [List.dropWhile_cons_of_neg (by simpa using starred)]
      refine ⟨0,by simpa using starred,(Nat.zero_add _).symm,?_⟩
      cases parse (c::rest) <;> rfl

structure Cut (text : List Char) where
  (count : Nat)
  (chunk rest : List Char)
  next : nextChunk text = (decide (0 < count),chunk,rest)
  whole : chunkChars false chunk = chunk.length
  size : text.length = count + chunk.length + rest.length
  follows : rest = [] ∨ ∃ later, rest = '*'::later
  ended : chunk = [] → rest = []
  parsed : parse text = (parse chunk).bind fun first => (parse rest).map fun later => List.replicate count .star ++ (first ++ later)

theorem dropWhile_head (text : List Char) : (text.dropWhile (· == '*')).head? ≠ some '*' := by
  intro head
  have stops := List.head?_dropWhile_not (· == '*') text
  rw [head] at stops
  cases stops

theorem cut_exists (text : List Char) : Nonempty (Cut text) := by
  obtain ⟨count,starred,size,parsed⟩ := parse_strip text
  have ends := chunk_ends false (text.dropWhile (· == '*'))
  have short := chunkChars_le false (text.dropWhile (· == '*'))
  have head := dropWhile_head text
  have split := parse_split (text.dropWhile (· == '*'))
  refine ⟨⟨count,_,_,Prod.ext ?_ rfl,?_,?_,ends.2,?_,?_⟩⟩
  · change (text.head? == some '*') = _
    rw [Bool.eq_iff_iff,beq_iff_eq,decide_eq_true_eq]
    exact starred
  · rw [ends.1,List.length_take,Nat.min_eq_left short]
  · rw [size,List.length_take,List.length_drop]
    omega
  · intro none_
    rcases ends.2 with done | ⟨later,more⟩
    · exact done
    · have whole := List.take_append_drop (chunkChars false (text.dropWhile (· == '*'))) (text.dropWhile (· == '*'))
      rw [none_,more,List.nil_append] at whole
      rw [← whole] at head
      exact absurd rfl head
  · rw [parsed,split,Option.map_bind]
    congr 1
    funext first
    rw [Function.comp_apply,Option.map_map]
    rfl

theorem Cut.shorter {text : List Char} (cut : Cut text) (some_ : text ≠ []) : cut.rest.length < text.length := by
  have size := cut.size
  have long := List.length_pos_of_ne_nil some_
  by_cases none_ : cut.chunk = []
  · rw [cut.ended none_,List.length_nil]
    exact long
  · have more := List.length_pos_of_ne_nil none_
    omega

end Parts

section Loop

def trial (first : List Term) (last : Bool) (s : Glob.Bytes) : Option Glob.Bytes := (consume first s).filter fun left => left.isEmpty || !last

def search (first : List Term) (last : Bool) : Glob.Bytes → Option Glob.Bytes
  | [] => none
  | b::rest => if b = slash then none else (trial first last rest).or (search first last rest)

def attempt (starred : Bool) (first : List Term) (last : Bool) (s : Glob.Bytes) : Option Glob.Bytes :=
  (trial first last s).or (if starred then search first last s else none)

theorem runChunk_utf8 (whole : chunkChars false chunk = chunk.length) (s : Glob.Bytes) :
    runChunk (utf8 chunk) s = chunkResult (parse chunk) false s :=
  matchChunk_utf8 chunk whole _ (Nat.lt_succ_self _) s false

theorem starSearch_utf8 (whole : chunkChars false chunk = chunk.length) (parsed : parse chunk = some first)
    (last : Bool) (s : Glob.Bytes) : starSearch (utf8 chunk) last s = .ok (search first last s) := by
  induction s with
  | nil => rfl
  | cons b rest ih =>
    rw [starSearch,search]
    split
    · rfl
    · rw [runChunk_utf8 whole,parsed,ih]
      unfold trial
      simp only [chunkResult,Bool.false_eq_true,if_false,bind,Except.bind]
      cases consume first rest with
      | none => rfl
      | some left => cases last <;> cases empty : left.isEmpty <;> simp [Option.filter,empty]

theorem utf8_isEmpty (text : List Char) : (utf8 text).isEmpty = text.isEmpty := by
  rw [Bool.eq_iff_iff,List.isEmpty_iff,List.isEmpty_iff]
  exact utf8_empty

theorem loop_turn {text : List Char} (cut : Cut text) (some_ : text ≠ []) (fuel : Nat) (s : Glob.Bytes) :
    matchLoop (fuel+1) (utf8 text) s =
      if 0 < cut.count ∧ cut.chunk = [] then .ok (!s.contains slash) else
      match parse cut.chunk with
      | none => .error .badPattern
      | some first =>
        match attempt (decide (0 < cut.count)) first cut.rest.isEmpty s with
        | some left => matchLoop fuel (utf8 cut.rest) left
        | none => remainder ((utf8 cut.rest).length+1) (utf8 cut.rest) := by
  obtain ⟨b,bytes,written⟩ := List.exists_cons_of_ne_nil (fun none_ => some_ (utf8_empty.mp none_))
  have scanned := scanChunk_utf8 text
  rw [cut.next] at scanned
  rw [written] at scanned ⊢
  rw [matchLoop,scanned]
  swap
  · rintro ⟨⟩
  dsimp only
  by_cases trailing : 0 < cut.count ∧ cut.chunk = []
  · rw [if_pos trailing,if_pos (by simp [trailing])]
  · rw [if_neg trailing,if_neg (by simpa [utf8_isEmpty] using trailing),runChunk_utf8 cut.whole]
    cases parsed : parse cut.chunk with
    | none => rfl
    | some first =>
      simp only [chunkResult,Bool.false_eq_true,if_false,bind,Except.bind,utf8_isEmpty,starSearch_utf8 cut.whole parsed]
      unfold attempt trial
      cases (consume first s).filter fun left => left.isEmpty || !cut.rest.isEmpty with
      | some left => rfl
      | none =>
        cases decide (0 < cut.count) with
        | true => cases search first cut.rest.isEmpty s <;> rfl
        | false => rfl

theorem remainder_utf8 (fuel : Nat) (text : List Char) (enough : text.length < fuel) :
    remainder fuel (utf8 text) = if parse text = none then .error .badPattern else .ok false := by
  induction fuel generalizing text with
  | zero => omega
  | succ fuel ih =>
    by_cases none_ : text = []
    · subst none_
      rw [parse_nil]
      rfl
    · obtain ⟨cut⟩ := cut_exists text
      obtain ⟨b,bytes,written⟩ := List.exists_cons_of_ne_nil (fun empty => none_ (utf8_empty.mp empty))
      have scanned := scanChunk_utf8 text
      have shorter := cut.shorter none_
      rw [cut.next] at scanned
      rw [written] at scanned ⊢
      rw [remainder,scanned,cut.parsed]
      · dsimp only
        rw [runChunk_utf8 cut.whole,ih cut.rest (by omega)]
        cases parse cut.chunk with
        | none => rfl
        | some first => cases parse cut.rest <;> rfl
      · rintro ⟨⟩

-- The loop never leaves its bounds, and its only failure is a malformed pattern.
theorem loop_fails (text : List Char) (fuel : Nat) (enough : text.length < fuel) (s : Glob.Bytes) :
    if parse text = none then matchLoop fuel (utf8 text) s = .error .badPattern else ∃ answer, matchLoop fuel (utf8 text) s = .ok answer := by
  induction fuel generalizing text s with
  | zero => omega
  | succ fuel ih =>
    by_cases none_ : text = []
    · subst none_
      rw [parse_nil,if_neg (Option.some_ne_none _)]
      exact ⟨_,rfl⟩
    · obtain ⟨cut⟩ := cut_exists text
      have shorter := cut.shorter none_
      rw [loop_turn cut none_,cut.parsed]
      by_cases trailing : 0 < cut.count ∧ cut.chunk = []
      · rw [if_pos trailing,trailing.2,cut.ended trailing.2,parse_nil]
        exact ⟨_,rfl⟩
      · rw [if_neg trailing]
        cases parse cut.chunk with
        | none => rfl
        | some first =>
          have next := ih cut.rest (by omega)
          dsimp only
          cases attempt (decide (0 < cut.count)) first cut.rest.isEmpty s with
          | some left =>
            have turned := next left
            cases parsed : parse cut.rest with
            | none | some later => rwa [parsed] at turned
          | none =>
            rw [remainder_utf8 _ _ (Nat.lt_succ_of_le (utf8_longer _))]
            cases parse cut.rest with
            | none => rfl
            | some later => exact ⟨_,rfl⟩

end Loop

section Readings

-- What an answer of true was read as: a star may end inside a character, a rune
-- is what is decoded there, and a class may hold a slash.
def Reads : List Term → Glob.Bytes → Prop
  | [],s => s = []
  | .star::rest,s => ∃ front back, s = front ++ back ∧ slash ∉ front ∧ Reads rest back
  | .any::rest,s => s ≠ [] ∧ s.head? ≠ some slash ∧ Reads rest (s.drop (decodeRune s).2)
  | .lit c::rest,s => ∃ back, s = String.utf8EncodeChar c ++ back ∧ Reads rest back
  | .cls negated rs::rest,s => s ≠ [] ∧ inClass negated rs (decodeRune s).1 = true ∧ Reads rest (s.drop (decodeRune s).2)

theorem consume_reads {later : List Term} {left : Glob.Bytes} (read : Reads later left) (first : List Term) (s : Glob.Bytes) (took : consume first s = some left) :
    Reads (first ++ later) s := by
  induction first generalizing s with
  | nil =>
    cases took
    exact read
  | cons term rest ih =>
    cases term with
    | star => cases took
    | any =>
      rw [consume] at took
      split at took
      · cases took
      · rename_i held
        rw [not_or] at held
        exact ⟨held.1,held.2,ih _ took⟩
    | lit c =>
      rw [consume] at took
      split at took
      · rename_i begins
        obtain ⟨back,rfl⟩ := List.isPrefixOf_iff_prefix.mp begins
        rw [List.drop_left] at took
        exact ⟨back,rfl,ih back took⟩
      · cases took
    | cls negated rs =>
      rw [consume] at took
      split at took
      · rename_i held
        exact ⟨held.1,held.2,ih _ took⟩
      · cases took

theorem stars_read {terms : List Term} {count : Nat} {front back : Glob.Bytes} (free : slash ∉ front) (read : Reads terms back) (starred : 0 < count ∨ front = []) :
    Reads (List.replicate count .star ++ terms) (front ++ back) := by
  induction count generalizing front with
  | zero =>
    rcases starred with none_ | rfl
    · exact absurd none_ (Nat.lt_irrefl 0)
    · exact read
  | succ count ih => exact ⟨front,back,rfl,free,@ih [] (List.not_mem_nil) (Or.inr rfl)⟩

theorem attempt_parts {starred last : Bool} {first : List Term} {s left : Glob.Bytes} (found : attempt starred first last s = some left) :
    ∃ front back, s = front ++ back ∧ slash ∉ front ∧ (starred = true ∨ front = []) ∧ consume first back = some left := by
  have took {s : Glob.Bytes} (tried : trial first last s = some left) : consume first s = some left := (Option.filter_eq_some_iff.mp tried).1
  have further (s : Glob.Bytes) (searched : search first last s = some left) : ∃ front back, s = front ++ back ∧ slash ∉ front ∧ consume first back = some left := by
    induction s with
    | nil => cases searched
    | cons b rest ih =>
      rw [search] at searched
      split at searched
      · cases searched
      · rename_i plain
        have free (front : Glob.Bytes) (rest_free : slash ∉ front) : slash ∉ b::front := by
          rw [List.mem_cons,not_or]
          exact ⟨fun same => plain same.symm,rest_free⟩
        rcases Option.or_eq_some_iff.mp searched with here | ⟨_,later⟩
        · exact ⟨[b],rest,rfl,free [] List.not_mem_nil,took here⟩
        · obtain ⟨front,back,rfl,clear,found⟩ := ih later
          exact ⟨b::front,back,rfl,free front clear,found⟩
  rcases Option.or_eq_some_iff.mp found with here | ⟨_,later⟩
  · exact ⟨[],s,rfl,List.not_mem_nil,Or.inr rfl,took here⟩
  · cases starred with
    | false => cases later
    | true =>
      obtain ⟨front,back,split,clear,found⟩ := further s later
      exact ⟨front,back,split,clear,Or.inl rfl,found⟩

theorem loop_reads (text : List Char) (fuel : Nat) (enough : text.length < fuel) (s : Glob.Bytes) (won : matchLoop fuel (utf8 text) s = .ok true)
    {terms : List Term} (parsed : parse text = some terms) : Reads terms s := by
  induction fuel generalizing text s terms with
  | zero => omega
  | succ fuel ih =>
    by_cases none_ : text = []
    · subst none_
      rw [parse_nil] at parsed
      cases parsed
      rw [utf8_nil,matchLoop,Except.ok.injEq,List.isEmpty_iff] at won
      exact won
    · obtain ⟨cut⟩ := cut_exists text
      have shorter := cut.shorter none_
      rw [loop_turn cut none_] at won
      rw [cut.parsed] at parsed
      obtain ⟨first,one,more⟩ := Option.bind_eq_some_iff.mp parsed
      obtain ⟨later,two,rfl⟩ := Option.map_eq_some_iff.mp more
      by_cases trailing : 0 < cut.count ∧ cut.chunk = []
      · rw [if_pos trailing,Except.ok.injEq,Bool.not_eq_true',List.contains_eq_mem,decide_eq_false_iff_not] at won
        rw [trailing.2,parse_nil] at one
        rw [cut.ended trailing.2,parse_nil] at two
        cases one
        cases two
        rw [← List.append_nil s]
        exact @stars_read [] cut.count s [] won rfl (Or.inl trailing.1)
      · rw [if_neg trailing,one] at won
        dsimp only at won
        cases found : attempt (decide (0 < cut.count)) first cut.rest.isEmpty s with
        | none =>
          rw [found,remainder_utf8 _ _ (Nat.lt_succ_of_le (utf8_longer _)),two] at won
          cases won
        | some left =>
          rw [found] at won
          obtain ⟨front,back,rfl,clear,starred,took⟩ := attempt_parts found
          have read := ih cut.rest (by omega) left won two
          refine stars_read clear (consume_reads read first back took) (starred.imp_left ?_)
          exact of_decide_eq_true

end Readings

section Greed

-- Where the matcher stands in a name: some bytes of a character it broke, then
-- whole characters.
def Broken (bytes : Glob.Bytes) : Prop := ∀ b ∈ bytes, Continues b

theorem continues_slash (held : Continues b) : b ≠ slash := by
  rintro rfl
  exact absurd held.1 (by decide)

theorem broken_lit (held : Continues b) (bytes : Glob.Bytes) (c : Char) : (String.utf8EncodeChar c).isPrefixOf (b::bytes) = false := by
  obtain ⟨lead,tail,written,sort_,_⟩ := encoded_parts c
  have differs : (lead == b) = false := by
    rw [beq_eq_false_iff_ne]
    rintro rfl
    unfold Continues at held
    omega
  rw [written,List.isPrefixOf,differs]
  rfl

theorem encoded_begins (c d : Char) (bytes : Glob.Bytes) : (String.utf8EncodeChar c).isPrefixOf (String.utf8EncodeChar d ++ bytes) = true ↔ c = d := by
  rw [List.isPrefixOf_iff_prefix]
  refine ⟨?_,?_⟩
  · rintro ⟨back,same⟩
    exact encoded_front same
  · rintro rfl
    exact List.prefix_append _ _

theorem slash_lead (c : Char) (rest : List Char) : (utf8 (c::rest)).head? = some slash ↔ c = '/' := by
  obtain ⟨b,tail,_,whole,tells⟩ := utf8_parts c rest
  rw [whole,List.head?_cons,Option.some_inj]
  exact tells '/' (by decide)

-- A star-free run of terms and the characters it stands for.
inductive Spells : List Term → List Char → Prop where
  | nil : Spells [] []
  | any {rest name} (c : Char) : c ≠ '/' → Spells rest name → Spells (.any::rest) (c::name)
  | lit {rest name} (c : Char) : Spells rest name → Spells (.lit c::rest) (c::name)
  | cls {rest name} (c : Char) (negated : Bool) (rs : List (Char × Char)) : c ≠ '/' → inClass negated rs c.toNat = true → Spells rest name →
      Spells (.cls negated rs::rest) (c::name)

theorem consume_any (plain : c ≠ '/') (rest : List Term) (name : List Char) :
    consume (.any::rest) (utf8 (c::name)) = consume rest (utf8 name) := by
  rw [consume,if_neg (by rw [slash_lead,utf8_empty]; simp [plain]),utf8_cons,decode_encoded,List.drop_left]

theorem consume_lit (c : Char) (rest : List Term) (name : List Char) : consume (.lit c::rest) (utf8 (c::name)) = consume rest (utf8 name) := by
  rw [consume,utf8_cons,if_pos ((encoded_begins c c _).mpr rfl),List.drop_left]

theorem consume_class (rest : List Term) (name : List Char) :
    consume (.cls negated rs::rest) (utf8 (c::name)) = if inClass negated rs c.toNat = true then consume rest (utf8 name) else none := by
  rw [consume,utf8_cons,decode_encoded,List.drop_left]
  refine if_congr ?_ rfl rfl
  rw [← utf8_cons]
  exact ⟨And.right,fun held => ⟨by rw [ne_eq,utf8_empty]; exact List.cons_ne_nil _ _,held⟩⟩

theorem consume_spelled (spelled : Spells first span) (tail : List Char) :
    consume first (utf8 (span ++ tail)) = some (utf8 tail) := by
  induction spelled with
  | nil => rfl
  | any c plain _ ih => exact (consume_any plain _ _).trans ih
  | lit c _ ih => exact (consume_lit c _ _).trans ih
  | cls c negated rs _ held _ ih => exact (consume_class _ _).trans ((if_pos held).trans ih)

theorem rune_earlier (plain : c ≠ '/') (more : List Char) (cut : Broken broken) (free : '/' ∉ front) :
    let s := broken ++ utf8 (front ++ c::more)
    ∃ broken' front', s.drop (decodeRune s).2 = broken' ++ utf8 (front' ++ more) ∧ Broken broken' ∧ '/' ∉ front' := by
  have joined : '/' ∉ front ++ [c] := by
    rw [List.mem_append,List.mem_singleton,not_or]
    exact ⟨free,fun same => plain same.symm⟩
  cases broken with
  | cons b bytes =>
    have lead := cut b (List.mem_cons_self ..)
    refine ⟨bytes,front ++ [c],?_,fun d mem => cut d (List.mem_cons_of_mem _ mem),joined⟩
    rw [List.cons_append,decode_continues lead,List.drop_succ_cons,List.drop_zero,List.append_assoc]
    rfl
  | nil =>
    cases front with
    | nil =>
      refine ⟨[],[],?_,nofun,List.not_mem_nil⟩
      rw [List.nil_append,List.nil_append,utf8_cons,decode_encoded,List.drop_left]
      rfl
    | cons d others =>
      refine ⟨[],others ++ [c],?_,nofun,fun mem => joined (List.mem_cons_of_mem _ mem)⟩
      rw [List.nil_append,List.cons_append,utf8_cons,decode_encoded,List.drop_left,List.append_assoc]
      rfl

theorem consume_earlier (spelled : Spells first span) (tail : List Char) (broken : Glob.Bytes) (front : List Char)
    (left : Glob.Bytes) (cut : Broken broken) (free : '/' ∉ front) (took : consume first (broken ++ utf8 (front ++ (span ++ tail))) = some left) :
    ∃ broken' front', left = broken' ++ utf8 (front' ++ tail) ∧ Broken broken' ∧ '/' ∉ front' := by
  induction spelled generalizing broken front with
  | nil =>
    cases took
    exact ⟨broken,front,rfl,cut,free⟩
  | any c plain _ ih =>
    rw [consume] at took
    split at took
    · cases took
    · obtain ⟨broken',front',moved,cut',free'⟩ := rune_earlier plain _ cut free
      rw [List.cons_append,moved] at took
      exact ih broken' front' cut' free' took
  | @lit rest name c _ ih =>
    rw [consume] at took
    split at took
    · rename_i begins
      cases broken with
      | cons b bytes =>
        rw [List.cons_append,broken_lit (cut b (List.mem_cons_self ..))] at begins
        cases begins
      | nil =>
        cases front with
        | nil =>
          rw [List.nil_append,List.nil_append,List.cons_append,utf8_cons,List.drop_left] at took
          exact ih [] [] (by simp [Broken]) List.not_mem_nil took
        | cons d others =>
          rw [List.nil_append,List.cons_append,utf8_cons] at begins took
          obtain rfl := (encoded_begins c d _).mp begins
          rw [List.drop_left,List.cons_append] at took
          have joined : '/' ∉ others ++ [c] := by
            rw [List.mem_cons,not_or] at free
            rw [List.mem_append,List.mem_singleton,not_or]
            exact ⟨free.2,free.1⟩
          refine ih [] (others ++ [c]) (by simp [Broken]) joined ?_
          rwa [List.append_assoc]
    · cases took
  | cls c negated rs plain held _ ih =>
    rw [consume] at took
    split at took
    · obtain ⟨broken',front',moved,cut',free'⟩ := rune_earlier plain _ cut free
      rw [List.cons_append,moved] at took
      exact ih broken' front' cut' free' took
    · cases took

theorem attempt_next (missed : trial first last (b::rest) = none) (plain : b ≠ slash) :
    attempt true first last (b::rest) = attempt true first last rest := by
  unfold attempt
  rw [missed,Option.none_or,if_pos rfl,search,if_neg plain]
  rfl

-- The chunk is found at the latest where the language has it.
theorem attempt_finds (spelled : Spells first span) (tail : List Char) (last : Bool) (ends : last = true → tail = [])
    (cut : Broken broken) (free : '/' ∉ front)
    (enough : (broken ++ utf8 (front ++ (span ++ tail))).length < size) :
    ∃ left, attempt true first last (broken ++ utf8 (front ++ (span ++ tail))) = some left ∧ (last = true → left = []) ∧
      ∃ broken' front', left = broken' ++ utf8 (front' ++ tail) ∧ Broken broken' ∧ '/' ∉ front' := by
  induction size generalizing broken front with
  | zero => omega
  | succ size ih =>
    cases tried : trial first last (broken ++ utf8 (front ++ (span ++ tail))) with
    | some left =>
      obtain ⟨took,kept⟩ := Option.filter_eq_some_iff.mp tried
      refine ⟨left,by rw [attempt,tried]; rfl,?_,consume_earlier spelled tail broken front left cut free took⟩
      intro final
      simpa [final] using kept
    | none =>
      cases broken with
      | cons b bytes =>
        rw [List.cons_append] at tried enough ⊢
        rw [attempt_next tried (continues_slash (cut b (List.mem_cons_self ..)))]
        exact ih (fun d mem => cut d (List.mem_cons_of_mem _ mem)) free (Nat.lt_of_succ_lt_succ enough)
      | nil =>
        cases front with
        | nil =>
          -- Here the language has it, so the attempt did not miss.
          rw [List.nil_append,List.nil_append,trial,consume_spelled spelled] at tried
          cases last with
          | false => simp [Option.filter] at tried
          | true =>
            rw [ends rfl] at tried
            cases tried
        | cons d others =>
          obtain ⟨b,bytes,written,_,continues⟩ := encoded_parts d
          rw [List.mem_cons,not_or] at free
          have whole : ([] : Glob.Bytes) ++ utf8 (d::others ++ (span ++ tail)) = b::(bytes ++ utf8 (others ++ (span ++ tail))) := by
            rw [List.nil_append,List.cons_append,utf8_cons,written]
            rfl
          have plain : b ≠ slash := by
            rintro rfl
            exact free.1 ((lead_iff d '/' (by decide)).mp (by rw [written]; rfl)).symm
          rw [whole] at tried enough ⊢
          rw [attempt_next tried plain]
          exact ih continues free.2 (Nat.lt_of_succ_lt_succ enough)

theorem chunk_free (whole : chunkChars false chunk = chunk.length) (parsed : parse chunk = some first) : .star ∉ first := by
  -- The terms of one more piece of the chunk.
  have joined {term : Term} {text : List Char} {first : List Term} (parsed : (parse text).map (term::·) = some first) (other : .star ≠ term)
      (ih : ∀ {first}, parse text = some first → .star ∉ first) : .star ∉ first := by
    obtain ⟨more,one,rfl⟩ := Option.map_eq_some_iff.mp parsed
    rw [List.mem_cons,not_or]
    exact ⟨other,ih one⟩
  induction chunk using parse.induct generalizing first with
  | case1 =>
    rw [parse_nil] at parsed
    cases parsed
    exact List.not_mem_nil
  | case2 later _ =>
    rw [chunkChars_star] at whole
    cases whole
  | case3 later _ ih =>
    rw [chunkChars_lit (by decide) (by decide) (by decide),List.length_cons,Nat.add_right_cancel_iff] at whole
    rw [parse_any] at parsed
    exact joined parsed (by simp) (ih whole)
  | case4 =>
    rw [parse_cut] at parsed
    cases parsed
  | case5 d later _ _ ih =>
    rw [chunkChars_escape,List.length_cons,List.length_cons,Nat.add_right_cancel_iff] at whole
    rw [parse_escape] at parsed
    exact joined parsed (by simp) (ih whole)
  | case6 later malformed _ _ _ =>
    rw [parse_class,malformed] at parsed
    cases parsed
  | case7 later rs others formed _ _ _ ih =>
    rw [parse_class,formed,Option.bind_some] at parsed
    exact joined parsed (by simp) (ih (class_whole formed whole))
  | case8 d later star_ any_ back open_ ih =>
    rw [chunkChars_lit star_ back open_,List.length_cons,Nat.add_right_cancel_iff] at whole
    rw [parse_lit star_ any_ back open_] at parsed
    exact joined parsed (by simp) (ih whole)

theorem matches_spelled (free : .star ∉ first) (held : Matches (first ++ later) name) :
    ∃ span tail, name = span ++ tail ∧ Spells first span ∧ Matches later tail := by
  induction first generalizing name with
  | nil => exact ⟨[],name,rfl,.nil,held⟩
  | cons term rest ih =>
    rw [List.mem_cons,not_or] at free
    cases term with
    | star => exact absurd rfl free.1
    | any =>
      obtain ⟨c,back,rfl,plain,more⟩ := held
      obtain ⟨span,tail,rfl,spelled,left⟩ := ih free.2 more
      exact ⟨c::span,tail,rfl,.any c plain spelled,left⟩
    | lit c =>
      obtain ⟨back,rfl,more⟩ := held
      obtain ⟨span,tail,rfl,spelled,left⟩ := ih free.2 more
      exact ⟨c::span,tail,rfl,.lit c spelled,left⟩
    | cls negated rs =>
      obtain ⟨c,back,rfl,plain,inside,more⟩ := held
      obtain ⟨span,tail,rfl,spelled,left⟩ := ih free.2 more
      exact ⟨c::span,tail,rfl,.cls c negated rs plain inside spelled,left⟩

theorem stars_match (held : Matches (List.replicate count .star ++ terms) name) :
    ∃ front back, name = front ++ back ∧ '/' ∉ front ∧ (0 < count ∨ front = []) ∧ Matches terms back := by
  induction count generalizing name with
  | zero => exact ⟨[],name,rfl,List.not_mem_nil,Or.inr rfl,held⟩
  | succ count ih =>
    obtain ⟨front,back,rfl,free,more⟩ := held
    obtain ⟨front',back',rfl,free',_,left⟩ := ih more
    refine ⟨front ++ front',back',by rw [List.append_assoc],?_,Or.inl (Nat.succ_pos _),left⟩
    rw [List.mem_append,not_or]
    exact ⟨free,free'⟩

theorem slash_free (free : '/' ∉ name) : slash ∉ utf8 name := by
  induction name with
  | nil => exact List.not_mem_nil
  | cons c rest ih =>
    rw [List.mem_cons,not_or] at free
    obtain ⟨b,tail,written,_,continues⟩ := encoded_parts c
    rw [utf8_cons,written,List.cons_append,List.mem_cons,List.mem_append,not_or,not_or]
    refine ⟨?_,?_,ih free.2⟩
    · rintro rfl
      exact free.1 ((lead_iff c '/' (by decide)).mp (by rw [written]; rfl)).symm
    · intro mem
      exact continues_slash (continues slash mem) rfl

theorem loop_finds (text : List Char) (fuel : Nat) (enough : text.length < fuel) (parsed : parse text = some terms)
    (broken : Glob.Bytes) (name : List Char) (cut : Broken broken) (ready : broken = [] ∨ text.head? = some '*') (held : Matches terms name) :
    matchLoop fuel (utf8 text) (broken ++ utf8 name) = .ok true := by
  induction fuel generalizing text terms broken name with
  | zero => omega
  | succ fuel ih =>
    by_cases none_ : text = []
    · subst none_
      rw [parse_nil] at parsed
      cases parsed
      cases held
      rcases ready with rfl | starred
      · rfl
      · cases starred
    · obtain ⟨parts⟩ := cut_exists text
      have shorter := parts.shorter none_
      have starred : text.head? = some '*' → 0 < parts.count := by
        intro head
        have same : (text.head? == some '*') = decide (0 < parts.count) := congrArg Prod.fst parts.next
        rw [head] at same
        exact of_decide_eq_true same.symm
      rw [parts.parsed] at parsed
      obtain ⟨first,one,more⟩ := Option.bind_eq_some_iff.mp parsed
      obtain ⟨later,two,rfl⟩ := Option.map_eq_some_iff.mp more
      obtain ⟨front,back,rfl,free,room,inner⟩ := stars_match held
      obtain ⟨span,tail,rfl,spelled,rest⟩ := matches_spelled (chunk_free parts.whole one) inner
      rw [loop_turn parts none_]
      by_cases trailing : 0 < parts.count ∧ parts.chunk = []
      · rw [trailing.2,parse_nil] at one
        rw [parts.ended trailing.2,parse_nil] at two
        cases one
        cases two
        cases spelled
        cases rest
        rw [if_pos trailing,List.nil_append,List.append_nil]
        have plain : slash ∉ broken ++ utf8 front := by
          rw [List.mem_append,not_or]
          exact ⟨fun mem => continues_slash (cut _ mem) rfl,slash_free free⟩
        simpa using plain
      · rw [if_neg trailing,one]
        dsimp only
        have found : ∃ left, attempt (decide (0 < parts.count)) first parts.rest.isEmpty (broken ++ utf8 (front ++ (span ++ tail))) = some left ∧
            (parts.rest.isEmpty = true → left = []) ∧ ∃ broken' front', left = broken' ++ utf8 (front' ++ tail) ∧ Broken broken' ∧ '/' ∉ front' := by
          have ends : parts.rest.isEmpty = true → tail = [] := by
            intro empty
            rw [List.isEmpty_iff.mp empty,parse_nil] at two
            cases two
            exact rest
          rcases Nat.eq_zero_or_pos parts.count with zero | some_
          · have here : broken = [] ∧ front = [] := by
              refine ⟨ready.resolve_right fun head => ?_,room.resolve_left fun more => ?_⟩
              · exact absurd (starred head) (by omega)
              · omega
            rw [here.1,here.2,zero]
            refine ⟨utf8 tail,?_,fun empty => by rw [ends empty]; rfl,[],[],rfl,nofun,List.not_mem_nil⟩
            rw [List.nil_append,List.nil_append,attempt,trial,consume_spelled spelled]
            cases empty : parts.rest.isEmpty with
            | false => simp [Option.filter]
            | true =>
              rw [ends empty]
              rfl
          · rw [decide_eq_true some_]
            exact attempt_finds spelled tail _ ends cut free (Nat.lt_succ_self _)
        obtain ⟨left,found,ends,broken',front',rfl,cut',free'⟩ := found
        rw [found]
        rcases parts.follows with last | ⟨others,follows⟩
        · obtain ⟨spare,rfl⟩ : ∃ spare, fuel = spare + 1 := ⟨fuel-1,by have some_ := List.length_pos_of_ne_nil none_; omega⟩
          rw [ends (by rw [last]; rfl),last]
          rfl
        · refine ih parts.rest (by omega) two broken' (front' ++ tail) cut' (Or.inr (by rw [follows]; rfl)) ?_
          rw [follows,parse_star] at two
          obtain ⟨others',_,rfl⟩ := Option.map_eq_some_iff.mp two
          exact star_longer free' rest

end Greed

section Exact

def firm : Term → Bool
  | .star => true
  | .lit _ => true
  | _ => false

def Steady : List Term → Prop
  | [] => True
  | .star::rest => rest.head?.all firm = true ∧ Steady rest
  | _::rest => Steady rest

-- Names no class can cross a slash of, and no star can break a character of.
def Plain (terms : List Term) (name : List Char) : Prop :=
  ('/' ∉ name ∨ ∀ negated rs, .cls negated rs ∈ terms → inClass negated rs ('/').toNat = false) ∧ ((∀ c ∈ name, c.toNat < 0x80) ∨ Steady terms)

theorem split_name (cut : Broken broken) (same : broken ++ utf8 name = front ++ back) :
    ∃ broken' pre post, back = broken' ++ utf8 post ∧ name = pre ++ post ∧ Broken broken' ∧ (slash ∉ front → '/' ∉ pre) := by
  induction front generalizing broken name with
  | nil => exact ⟨broken,[],name,same.symm,rfl,cut,fun _ => List.not_mem_nil⟩
  | cons b front ih =>
    cases broken with
    | cons d bytes =>
      obtain ⟨rfl,more⟩ := List.cons.inj same
      obtain ⟨broken',pre,post,left,whole,cut',free⟩ := ih (fun t mem => cut t (List.mem_cons_of_mem _ mem)) more
      exact ⟨broken',pre,post,left,whole,cut',fun clear => free fun mem => clear (List.mem_cons_of_mem _ mem)⟩
    | nil =>
      cases name with
      | nil => cases same
      | cons c rest =>
        obtain ⟨lead,tail,written,_,continues⟩ := encoded_parts c
        rw [List.nil_append,utf8_cons,written] at same
        obtain ⟨rfl,more⟩ := List.cons.inj same
        obtain ⟨broken',pre,post,left,rfl,cut',free⟩ := ih continues more
        refine ⟨broken',c::pre,post,left,rfl,cut',fun clear => ?_⟩
        rw [List.mem_cons,not_or] at clear ⊢
        refine ⟨?_,free clear.2⟩
        rintro rfl
        have head : (String.utf8EncodeChar '/').head? = some slash := (lead_iff '/' '/' (by decide)).mpr rfl
        rw [written,List.head?_cons,Option.some_inj] at head
        exact clear.1 head.symm

theorem ascii_bytes (ascii : ∀ c ∈ name, c.toNat < 0x80) (mem : b ∈ utf8 name) : b.toNat < 0x80 := by
  induction name with
  | nil => cases mem
  | cons c rest ih =>
    obtain ⟨lead,tail,written,sort_,_⟩ := encoded_parts c
    have small := ascii c (List.mem_cons_self ..)
    rw [utf8_cons,written,List.mem_append,List.mem_cons] at mem
    rcases sort_ with ⟨_,same,rfl⟩ | ⟨large,_⟩
    · rcases mem with (rfl | none_) | later
      · omega
      · cases none_
      · exact ih (fun d inside => ascii d (List.mem_cons_of_mem _ inside)) later
    · omega

theorem steady_rest (steady : Steady (term::rest)) : Steady rest := by
  cases term with
  | star => exact steady.2
  | any | lit c | cls negated rs => exact steady

theorem plain_rest (plain : Plain (term::rest) (pre ++ post)) : Plain rest post := by
  obtain ⟨slashes,stars⟩ := plain
  refine ⟨slashes.imp (fun free mem => free (List.mem_append_right _ mem)) (fun none_ negated rs mem => none_ negated rs (List.mem_cons_of_mem _ mem)),?_⟩
  exact stars.imp (fun ascii c mem => ascii c (List.mem_append_right _ mem)) steady_rest

theorem reads_matches {terms : List Term} {broken : Glob.Bytes} {name : List Char} (cut : Broken broken)
    (place : broken = [] ∨ (terms.head?.all firm = true ∧ Steady terms)) (plain : Plain terms name) (read : Reads terms (broken ++ utf8 name)) :
    Matches terms name := by
  induction terms generalizing broken name with
  | nil => exact utf8_empty.mp (List.append_eq_nil_iff.mp read).2
  | cons term rest ih =>
    cases term with
    | star =>
      obtain ⟨front,back,same,free,more⟩ := read
      obtain ⟨broken',pre,post,rfl,rfl,cut',clear⟩ := split_name cut same
      refine ⟨pre,post,rfl,clear free,ih cut' ?_ (plain_rest plain) more⟩
      rcases place with rfl | firm_
      · rcases plain.2 with ascii | steady
        · refine Or.inl (List.eq_nil_iff_forall_not_mem.mpr fun b mem => ?_)
          have inside : b ∈ utf8 (pre ++ post) := by
            rw [List.nil_append] at same
            rw [same]
            exact List.mem_append_right _ (List.mem_append_left _ mem)
          have small := ascii_bytes ascii inside
          have large := (cut' b mem).1
          omega
        · exact Or.inr steady
      · exact Or.inr firm_.2
    | any =>
      obtain rfl := place.resolve_right fun firm_ => absurd firm_.1 (by simp [firm])
      obtain ⟨some_,head,more⟩ := read
      rw [List.nil_append] at some_ head more
      cases name with
      | nil => exact absurd rfl some_
      | cons c back =>
        rw [utf8_cons,decode_encoded,List.drop_left] at more
        exact ⟨c,back,rfl,fun slashed => head ((slash_lead c back).mpr slashed),@ih [] back nofun (Or.inl rfl) (@plain_rest _ _ [c] back plain) more⟩
    | lit c =>
      obtain ⟨back,same,more⟩ := read
      have whole : broken = [] := by
        cases broken with
        | nil => rfl
        | cons b bytes =>
          have missed := broken_lit (cut b (List.mem_cons_self ..)) (bytes ++ utf8 name) c
          have begins := List.isPrefixOf_iff_prefix.mpr ⟨back,same.symm⟩
          rw [List.cons_append,missed] at begins
          cases begins
      subst whole
      rw [List.nil_append] at same
      cases name with
      | nil =>
        have long := congrArg List.length same
        have some_ := encoded_pos c
        rw [utf8_nil,List.length_append,List.length_nil] at long
        omega
      | cons d rest' =>
        obtain rfl := encoded_front same
        obtain rfl := List.append_cancel_left same
        exact ⟨rest',rfl,@ih [] rest' nofun (Or.inl rfl) (@plain_rest _ _ [d] rest' plain) more⟩
    | cls negated rs =>
      obtain rfl := place.resolve_right fun firm_ => absurd firm_.1 (by simp [firm])
      obtain ⟨some_,inside,more⟩ := read
      rw [List.nil_append] at some_ inside more
      cases name with
      | nil => exact absurd rfl some_
      | cons c back =>
        rw [utf8_cons,decode_encoded] at inside
        rw [utf8_cons,decode_encoded,List.drop_left] at more
        refine ⟨c,back,rfl,?_,inside,@ih [] back nofun (Or.inl rfl) (@plain_rest _ _ [c] back plain) more⟩
        rintro rfl
        rcases plain.1 with free | none_
        · exact free (List.mem_cons_self ..)
        · have outside := none_ negated rs (List.mem_cons_self ..)
          rw [outside] at inside
          cases inside

section Texts
variable {pattern name : String} {terms : List Term}

theorem matches_ends (pattern name : String) : if parse pattern.toList = none then matches_ pattern name = .error .badPattern else
    ∃ answer, matches_ pattern name = .ok answer := by
  have ends := loop_fails pattern.toList _ (Nat.lt_succ_of_le (utf8_longer _)) (utf8 name.toList)
  unfold matches_
  rwa [bytesOf_utf8,bytesOf_utf8]

section
variable (parsed : parse pattern.toList = some terms)
include parsed

theorem matches_complete (held : Matches terms name.toList) : matches_ pattern name = .ok true := by
  have won := loop_finds pattern.toList _ (Nat.lt_succ_of_le (utf8_longer _)) parsed [] name.toList nofun (Or.inl rfl) held
  unfold matches_
  rw [bytesOf_utf8,bytesOf_utf8]
  exact won

theorem matches_reads (won : matches_ pattern name = .ok true) : Reads terms (utf8 name.toList) := by
  unfold matches_ at won
  rw [bytesOf_utf8,bytesOf_utf8] at won
  exact loop_reads pattern.toList _ (Nat.lt_succ_of_le (utf8_longer _)) _ won parsed

theorem matches_plain (plain : Plain terms name.toList) :
    matches_ pattern name = .ok true ↔ Matches terms name.toList :=
  ⟨fun won => @reads_matches terms [] name.toList nofun (Or.inl rfl) plain (matches_reads parsed won),matches_complete parsed⟩

end

end Texts

-- The matcher against the language of the documented patterns: its only failure
-- is a malformed pattern, it misses no name, and beyond the language it takes
-- only what a class reads as a slash or a star broke.
theorem glob_matches_language (pattern name : String) :
    match parse pattern.toList with
    | none => matches_ pattern name = .error .badPattern
    | some terms => ∃ answer, matches_ pattern name = .ok answer ∧ (Matches terms name.toList → answer = true) ∧
        (answer = true → Reads terms (utf8 name.toList)) ∧ (Plain terms name.toList → (answer = true ↔ Matches terms name.toList)) := by
  have ends := matches_ends pattern name
  cases parsed : parse pattern.toList with
  | none =>
    rw [parsed,if_pos rfl] at ends
    exact ends
  | some terms =>
    rw [parsed,if_neg (Option.some_ne_none _)] at ends
    obtain ⟨answer,same⟩ := ends
    have won : matches_ pattern name = .ok true ↔ answer = true := by rw [same,Except.ok.injEq]
    refine ⟨answer,same,?_,?_,?_⟩
    · intro held
      exact won.mp (matches_complete parsed held)
    · intro yes
      exact matches_reads parsed (won.mpr yes)
    · intro plain
      rw [← won]
      exact matches_plain parsed plain

-- A class takes the slash, and a star takes the first byte of a character.
theorem class_and_star_escape : matches_ "a[^a]b" "a/b" = .ok true ∧ matches_ "*??" "日" = .ok true ∧
    (∃ terms, parse "a[^a]b".toList = some terms ∧ ¬ Matches terms "a/b".toList) ∧
    ∃ terms, parse "*??".toList = some terms ∧ ¬ Matches terms "日".toList := by
  have one : "a[^a]b".toList = ['a','[','^','a',']','b'] := rfl
  have two : "a/b".toList = ['a','/','b'] := rfl
  have three : "*??".toList = ['*','?','?'] := rfl
  have four : "日".toList = ['日'] := rfl
  unfold matches_
  rw [bytesOf_utf8,bytesOf_utf8,bytesOf_utf8,bytesOf_utf8,one,two,three,four]
  refine ⟨?_,?_,?_,?_⟩
  · decide
  · decide
  · have class_ : ranges (classBody ['^','a',']','b']) = some ([('a','a')],['b']) := by
      rw [ranges_eq]
      rfl
    refine ⟨[.lit 'a',.cls true [('a','a')],.lit 'b'],?_,?_⟩
    · rw [parse_lit (by decide) (by decide) (by decide) (by decide),parse_class,class_,Option.bind_some,
        parse_lit (by decide) (by decide) (by decide) (by decide),parse_nil]
      rfl
    · rintro ⟨_,one,_,_,two,slashed,_⟩
      cases one
      cases two
      exact slashed rfl
  · refine ⟨[.star,.any,.any],by rw [parse_star,parse_any,parse_any,parse_nil]; rfl,?_⟩
    rintro ⟨front,back,split,_,_,_,one,_,_,_,two,_⟩
    have long := congrArg List.length split
    rw [one,two,List.length_append,List.length_cons,List.length_cons] at long
    simp only [List.length_cons,List.length_nil] at long
    omega

end Exact

end RemoteFileExplorer.GlobMatches
