import RemoteFileExplorer.Glob
import RemoteFileExplorer.GlobLanguage
import RemoteFileExplorer.TextDecodes

namespace RemoteFileExplorer.GlobChunks
open CodeUnits hiding Bytes
open TextDecodes Glob GlobLanguage

section Runes

theorem toList_data (bytes : ByteArray) : bytes.toList = bytes.data.toList := by
  have walk (left : Nat) : ∀ i r, bytes.size - i = left → ByteArray.toList.loop bytes i r = r.reverse ++ bytes.data.toList.drop i := by
    induction left with
    | zero =>
      intro i r done
      have past : bytes.data.toList.length ≤ i := by
        exact Nat.le_of_sub_eq_zero done
      rw [ByteArray.toList.loop,if_neg (by omega),List.drop_eq_nil_of_le past,List.append_nil]
    | succ left ih =>
      intro i r more
      have inside : i < bytes.data.toList.length := by
        change i < bytes.size
        omega
      rw [ByteArray.toList.loop,if_pos (by omega),ih (i+1) _ (by omega),List.drop_eq_getElem_cons inside,List.reverse_cons,List.append_assoc]
      congr 1
      rw [List.singleton_append]
      congr 1
      exact getElem!_pos bytes.data i (by simpa using inside)
  have whole := walk bytes.size 0 [] (Nat.sub_zero _)
  rwa [List.reverse_nil,List.nil_append,List.drop_zero] at whole

theorem bytesOf_utf8 (text : String) : bytesOf text = utf8 text.toList := by
  unfold bytesOf
  rw [String.toUTF8_eq_toByteArray,← String.utf8Encode_toList,toList_data,List.utf8Encode,List.toList_data_toByteArray]
  rfl

def Continues (b : UInt8) : Prop := 0x80 ≤ b.toNat ∧ b.toNat < 0xc0

-- A character is one byte below 0x80, or a first byte of its own kind and
-- continuations.
theorem encoded_parts (c : Char) : ∃ b tail, String.utf8EncodeChar c = b::tail ∧
    ((c.toNat < 0x80 ∧ b.toNat = c.toNat ∧ tail = []) ∨ (0x80 ≤ c.toNat ∧ 0xc0 ≤ b.toNat ∧ tail ≠ [])) ∧ ∀ t ∈ tail, Continues t := by
  generalize written : String.utf8EncodeChar c = bytes
  unfold Continues
  cases (encoded_iff c bytes).mpr written with
  | one small lead => exact ⟨_,[],rfl,Or.inl ⟨small,lead,rfl⟩,nofun⟩
  | two large small lead first =>
    refine ⟨_,_,rfl,Or.inr ⟨large,by omega,List.cons_ne_nil _ _⟩,?_⟩
    intro t mem
    simp only [List.mem_singleton] at mem
    subst mem
    omega
  | three large small lead first second =>
    refine ⟨_,_,rfl,Or.inr ⟨by omega,by omega,List.cons_ne_nil _ _⟩,?_⟩
    intro t mem
    simp only [List.mem_cons,List.not_mem_nil,or_false] at mem
    rcases mem with rfl | rfl <;> omega
  | four large lead first second third =>
    refine ⟨_,_,rfl,Or.inr ⟨by omega,by omega,List.cons_ne_nil _ _⟩,?_⟩
    intro t mem
    simp only [List.mem_cons,List.not_mem_nil,or_false] at mem
    rcases mem with rfl | rfl | rfl <;> omega

theorem byte_le {a b : UInt8} : a ≤ b ↔ a.toNat ≤ b.toNat := UInt8.le_iff_toNat_le

theorem runeWidth_eq (b : UInt8) : runeWidth b = if b.toNat ≤ 0x7f then some 1 else if 0xc2 ≤ b.toNat ∧ b.toNat ≤ 0xdf then some 2
    else if 0xe0 ≤ b.toNat ∧ b.toNat ≤ 0xef then some 3 else if 0xf0 ≤ b.toNat ∧ b.toNat ≤ 0xf4 then some 4 else none := by
  unfold runeWidth
  simp only [byte_le,Bool.and_eq_true,decide_eq_true_eq]
  rfl

theorem continuation_iff (b : UInt8) : continuation b = true ↔ Continues b := by
  unfold continuation Continues
  rw [Bool.and_eq_true,decide_eq_true_eq,decide_eq_true_eq,byte_le,byte_le]
  have high : (0xBF : UInt8).toNat = 0xbf := rfl
  have low : (0x80 : UInt8).toNat = 0x80 := rfl
  omega

theorem decode_continues {b : UInt8} (held : Continues b) (rest : Bytes) : decodeRune (b::rest) = (0xFFFD,1) := by
  unfold Continues at held
  have none_ : runeWidth b = none := by
    rw [runeWidth_eq,if_neg (by omega),if_neg (by omega),if_neg (by omega),if_neg (by omega)]
  simp only [decodeRune,none_]

theorem decode_encoded (c : Char) (rest : Bytes) : decodeRune (String.utf8EncodeChar c ++ rest) = (c.toNat,(String.utf8EncodeChar c).length) := by
  have bounds := scalar_bounds c
  generalize written : String.utf8EncodeChar c = bytes
  have known := (encoded_iff c bytes).mpr written
  cases known with
  | @one b small lead =>
    have width : runeWidth b = some 1 := by rw [runeWidth_eq,if_pos (by omega)]
    simp only [List.cons_append,List.nil_append,decodeRune,width,List.take_succ_cons,List.take_zero,List.length_singleton,wellFormed,runeValue,byte_le]
    rw [if_neg]
    · rw [lead]
    · have top : (0x7F : UInt8).toNat = 0x7f := rfl
      simp only [decide_eq_false_iff_not]
      omega
  | @two b b1 large small lead first =>
    have width : runeWidth b = some 2 := by rw [runeWidth_eq,if_neg (by omega),if_pos (by omega)]
    have held : continuation b1 = true := (continuation_iff b1).mpr (by unfold Continues; omega)
    simp only [List.cons_append,List.nil_append,decodeRune,width,List.take_succ_cons,List.take_zero,wellFormed,held,runeValue]
    rw [if_neg (by simp)]
    congr 1
    omega
  | @three b b1 b2 large small lead first second =>
    have width : runeWidth b = some 3 := by rw [runeWidth_eq,if_neg (by omega),if_neg (by omega),if_pos (by omega)]
    have held1 : continuation b1 = true := (continuation_iff b1).mpr (by unfold Continues; omega)
    have held2 : continuation b2 = true := (continuation_iff b2).mpr (by unfold Continues; omega)
    have formed : wellFormed [b,b1,b2] = true := by
      simp only [wellFormed,held1,held2,Bool.true_and,Bool.and_eq_true,Bool.not_eq_true',Bool.and_eq_false_iff,beq_eq_false_iff_ne,decide_eq_false_iff_not,
        UInt8.lt_iff_toNat_lt,ne_eq,← UInt8.toNat_inj]
      have e0 : (0xE0 : UInt8).toNat = 0xe0 := rfl
      have a0 : (0xA0 : UInt8).toNat = 0xa0 := rfl
      have ed : (0xED : UInt8).toNat = 0xed := rfl
      have nine : (0x9F : UInt8).toNat = 0x9f := rfl
      omega
    simp only [List.cons_append,List.nil_append,decodeRune,width,List.take_succ_cons,List.take_zero,formed,runeValue]
    rw [if_neg (by simp)]
    congr 1
    omega
  | @four b b1 b2 b3 large lead first second third =>
    have width : runeWidth b = some 4 := by
      rw [runeWidth_eq,if_neg (by omega),if_neg (by omega),if_neg (by omega),if_pos (by omega)]
    have held1 : continuation b1 = true := (continuation_iff b1).mpr (by unfold Continues; omega)
    have held2 : continuation b2 = true := (continuation_iff b2).mpr (by unfold Continues; omega)
    have held3 : continuation b3 = true := (continuation_iff b3).mpr (by unfold Continues; omega)
    have formed : wellFormed [b,b1,b2,b3] = true := by
      simp only [wellFormed,held1,held2,held3,Bool.true_and,Bool.and_eq_true,Bool.not_eq_true',Bool.and_eq_false_iff,beq_eq_false_iff_ne,decide_eq_false_iff_not,
        UInt8.lt_iff_toNat_lt,ne_eq,← UInt8.toNat_inj]
      have f0 : (0xF0 : UInt8).toNat = 0xf0 := rfl
      have nine : (0x90 : UInt8).toNat = 0x90 := rfl
      have f4 : (0xF4 : UInt8).toNat = 0xf4 := rfl
      have eight : (0x8F : UInt8).toNat = 0x8f := rfl
      omega
    simp only [List.cons_append,List.nil_append,decodeRune,width,List.take_succ_cons,List.take_zero,formed,runeValue]
    rw [if_neg (by simp)]
    congr 1
    omega

theorem encoded_pos (c : Char) : 0 < (String.utf8EncodeChar c).length := by
  obtain ⟨b,tail,written,_⟩ := encoded_parts c
  rw [written]
  exact Nat.succ_pos _

theorem encoded_front {c d : Char} {one other : Bytes} (same : String.utf8EncodeChar c ++ one = String.utf8EncodeChar d ++ other) : c = d := by
  have runes := decode_encoded c one
  rw [same,decode_encoded] at runes
  exact (Char.toNat_inj.mp (Prod.mk.inj runes).1).symm

theorem lead_iff (c a : Char) (small : a.toNat < 0x80) : (String.utf8EncodeChar c).head? = some (UInt8.ofNat a.toNat) ↔ c = a := by
  have whole : String.utf8EncodeChar a = [UInt8.ofNat a.toNat] := by
    rw [← encoded_iff]
    exact .one small (byte_small (by omega))
  refine ⟨?_,?_⟩
  · intro head
    obtain ⟨b,tail,written,_⟩ := encoded_parts c
    rw [written,List.head?_cons] at head
    cases head
    exact @encoded_front c a [] tail (by rw [written,whole,List.append_nil]; rfl)
  · rintro rfl
    rw [whole]
    rfl

end Runes

section Classes

theorem utf8_empty : utf8 text = [] ↔ text = [] := by
  cases text with
  | nil => simp
  | cons c rest =>
    simp

theorem utf8_lead (a : Char) (small : a.toNat < 0x80) (rest : List Char) : utf8 (a::rest) = UInt8.ofNat a.toNat::utf8 rest := by
  have whole : String.utf8EncodeChar a = [UInt8.ofNat a.toNat] := by
    rw [← encoded_iff]
    exact .one small (byte_small (by omega))
  rw [utf8_cons,whole]
  rfl

theorem utf8_parts (c : Char) (rest : List Char) : ∃ b tail, String.utf8EncodeChar c = b::tail ∧ utf8 (c::rest) = b::(tail ++ utf8 rest) ∧
    ∀ a : Char, a.toNat < 0x80 → (b = UInt8.ofNat a.toNat ↔ c = a) := by
  obtain ⟨b,tail,written,_⟩ := encoded_parts c
  refine ⟨b,tail,written,by rw [utf8_cons,written]; rfl,?_⟩
  intro a small
  have lead := lead_iff c a small
  rw [written,List.head?_cons,Option.some_inj] at lead
  exact lead

theorem rune_valid (c : Char) : ¬ (c.toNat = 0xFFFD ∧ (String.utf8EncodeChar c).length = 1) := by
  rintro ⟨bad,one⟩
  obtain ⟨b,tail,written,⟨small,_⟩ | ⟨_,_,more⟩,_⟩ := encoded_parts c
  · omega
  · rw [written,List.length_cons] at one
    exact more (List.length_eq_zero_iff.mp (by omega))

theorem getEsc_plain (c : Char) (rest : List Char) (chunk : Glob.Bytes) (whole : chunk = utf8 (c::rest)) :
    (let decoded := decodeRune chunk
      if decoded.1 = 0xFFFD ∧ decoded.2 = 1 then (.error .badPattern : Except Failure (Nat × Glob.Bytes))
      else if chunk.drop decoded.2 = [] then .error .badPattern else .ok (decoded.1,chunk.drop decoded.2)) =
    if rest = [] then .error .badPattern else .ok (c.toNat,utf8 rest) := by
  rw [whole,utf8_cons,decode_encoded]
  rw [if_neg (rune_valid c),List.drop_left]
  simp only [utf8_empty]

theorem getEsc_utf8 (text : List Char) : getEsc (utf8 text) = match rangeChar text with
    | none => .error .badPattern
    | some (c,rest) => if rest = [] then .error .badPattern else .ok (c.toNat,utf8 rest) := by
  cases text with
  | nil => rfl
  | cons c rest =>
    obtain ⟨b,tail,written,whole,tells⟩ := utf8_parts c rest
    have dash_ : b = dash ↔ c = '-' := tells '-' (by decide)
    have close_ : b = closeBracket ↔ c = ']' := tells ']' (by decide)
    have back_ : b = backslash ↔ c = '\\' := tells '\\' (by decide)
    unfold getEsc rangeChar
    rw [whole]
    dsimp only
    by_cases ends : c = '-' ∨ c = ']'
    · rw [if_pos (by rw [dash_,close_]; exact ends),if_pos ends]
    · rw [if_neg (by rw [dash_,close_]; exact ends),if_neg ends]
      by_cases escaped : c = '\\'
      · have tail_empty : tail = [] := by
          have one := utf8_lead '\\' (by decide) []
          rw [← escaped,utf8_cons,utf8_nil,List.append_nil,written] at one
          exact (List.cons.inj one).2
        rw [if_pos (back_.mpr escaped),if_pos escaped,tail_empty,List.nil_append]
        cases rest with
        | nil => rfl
        | cons d later =>
          rw [if_neg (by rw [utf8_empty]; exact List.cons_ne_nil _ _)]
          exact getEsc_plain d later _ rfl
      · have plain : ¬ b = backslash := fun same => escaped (back_.mp same)
        simp only [if_neg plain,if_neg escaped,if_neg (List.cons_ne_nil b (tail ++ utf8 rest))]
        exact getEsc_plain c rest _ whole.symm

theorem range_nil : range [] = none := rfl

theorem ranges_nil : ranges [] = none := by
  rw [ranges_eq,range_nil]
  rfl

theorem matchRanges_utf8 (rune : Nat) (fuel : Nat) (text : List Char) (enough : text.length < fuel) (matched : Bool) (count : Nat) :
    matchRanges rune fuel (utf8 text) matched count =
      if text.head? = some ']' ∧ 0 < count then .ok (matched,utf8 text.tail) else
      match ranges text with
      | none => .error .badPattern
      | some (rs,later) => .ok (matched || rs.any (fun r => decide (r.1.toNat ≤ rune) && decide (rune ≤ r.2.toNat)),utf8 later) := by
  induction fuel generalizing text matched count with
  | zero => omega
  | succ fuel ih =>
    have closes : (utf8 text).head? = some closeBracket ↔ text.head? = some ']' := by
      cases text with
      | nil => simp
      | cons c rest =>
        obtain ⟨b,tail,_,whole,tells⟩ := utf8_parts c rest
        rw [whole,List.head?_cons,List.head?_cons,Option.some_inj,Option.some_inj]
        exact tells ']' (by decide)
    unfold matchRanges
    by_cases ended : text.head? = some ']' ∧ 0 < count
    · rw [if_pos (by rw [closes]; exact ended),if_pos ended]
      obtain ⟨rest,rfl⟩ : ∃ rest, text = ']'::rest := by
        cases text with
        | nil => simp at ended
        | cons c rest => exact ⟨rest,by simpa using ended.1⟩
      rfl
    · rw [if_neg (by rw [closes]; exact ended),if_neg ended,getEsc_utf8,ranges_eq]
      unfold range
      cases low : rangeChar text with
      | none => rfl
      | some first =>
        obtain ⟨c,rest⟩ := first
        have shorter := rangeChar_shorter low
        cases rest with
        | nil =>
          simp only [Option.bind_some,List.head?_nil,ranges_nil,Option.map_none]
          rfl
        | cons d later =>
          obtain ⟨b,tail,written,whole,tells⟩ := utf8_parts d later
          have dash_ : b = dash ↔ d = '-' := tells '-' (by decide)
          have goes (high : Char) (left : List Char) (less : left.length < fuel) (some_left : left ≠ []) :
              matchRanges rune fuel (utf8 left) (matched || (decide (c.toNat ≤ rune) && decide (rune ≤ high.toNat))) (count+1) =
              match (if left.head? = some ']' then some ([(c,high)],left.tail) else (ranges left).map fun more => ((c,high)::more.1,more.2)) with
              | none => .error .badPattern
              | some (rs,later) => .ok (matched || rs.any (fun r => decide (r.1.toNat ≤ rune) && decide (rune ≤ r.2.toNat)),utf8 later) := by
            rw [ih left less]
            by_cases closed : left.head? = some ']'
            · rw [if_pos ⟨closed,Nat.succ_pos _⟩,if_pos closed]
              simp
            · rw [if_neg (fun both => closed both.1),if_neg closed]
              cases ranges left with
              | none => rfl
              | some more => simp [Bool.or_assoc]
          rw [List.length_cons] at shorter
          dsimp only [Option.bind_some]
          rw [if_neg (List.cons_ne_nil _ _)]
          simp only [bind,Except.bind,whole]
          by_cases spans : d = '-'
          · have tail_empty : tail = [] := by
              have one := utf8_lead '-' (by decide) []
              rw [← spans,utf8_cons,utf8_nil,List.append_nil,written] at one
              exact (List.cons.inj one).2
            rw [if_pos (dash_.mpr spans),if_pos spans,tail_empty,List.nil_append,getEsc_utf8]
            cases up : rangeChar later with
            | none => rfl
            | some second =>
              obtain ⟨high,left⟩ := second
              have less := rangeChar_shorter up
              cases left with
              | nil =>
                simp only [Option.map_some,Option.bind_some,List.head?_nil,ranges_nil,Option.map_none]
                rfl
              | cons e others =>
                exact goes high (e::others) (by omega) (List.cons_ne_nil _ _)
          · rw [if_neg (by rw [dash_]; exact spans),if_neg spans,← whole]
            exact goes c (d::later) (by rw [List.length_cons]; omega) (List.cons_ne_nil _ _)

end Classes

section Scanning

def chunkChars : Bool → List Char → Nat
  | _,[] => 0
  | inRange,c::rest =>
    if c = '\\' then
      match rest with
      | [] => 1
      | _::later => 2 + chunkChars inRange later
    else if c = '[' then 1 + chunkChars true rest
    else if c = ']' then 1 + chunkChars false rest
    else if c = '*' ∧ inRange = false then 0
    else 1 + chunkChars inRange rest

section Equations
variable {inRange : Bool} {c : Char} {rest : List Char}

theorem chunkChars_step (inRange : Bool) (c : Char) (rest : List Char) : chunkChars inRange (c::rest) =
    if c = '\\' then (match rest with | [] => 1 | _::later => 2 + chunkChars inRange later)
    else if c = '[' then 1 + chunkChars true rest
    else if c = ']' then 1 + chunkChars false rest
    else if c = '*' ∧ inRange = false then 0
    else 1 + chunkChars inRange rest := by
  cases rest <;> rfl

theorem chunkChars_cut : chunkChars inRange ['\\'] = 1 := by
  rw [chunkChars_step,if_pos rfl]

theorem chunkChars_escape : chunkChars inRange ('\\'::c::rest) = chunkChars inRange rest + 2 := by
  rw [chunkChars_step,if_pos rfl]
  dsimp only
  omega

theorem chunkChars_open : chunkChars inRange ('['::rest) = chunkChars true rest + 1 := by
  rw [chunkChars_step,if_neg (by decide),if_pos rfl]
  omega

theorem chunkChars_close : chunkChars inRange (']'::rest) = chunkChars false rest + 1 := by
  rw [chunkChars_step,if_neg (by decide),if_neg (by decide),if_pos rfl]
  omega

theorem chunkChars_star : chunkChars false ('*'::rest) = 0 := by
  rw [chunkChars_step,if_neg (by decide),if_neg (by decide),if_neg (by decide),if_pos ⟨rfl,rfl⟩]

theorem chunkChars_plain (back : c ≠ '\\') (open_ : c ≠ '[') (close_ : c ≠ ']') (plain : ¬ (c = '*' ∧ inRange = false)) :
    chunkChars inRange (c::rest) = chunkChars inRange rest + 1 := by
  rw [chunkChars_step,if_neg back,if_neg open_,if_neg close_,if_neg plain]
  omega

theorem chunkChars_lit (star_ : c ≠ '*') (back : c ≠ '\\') (open_ : c ≠ '[') : chunkChars false (c::rest) = chunkChars false rest + 1 := by
  by_cases close_ : c = ']'
  · rw [close_,chunkChars_close]
  · exact chunkChars_plain back open_ close_ fun both => star_ both.1

end Equations

theorem chunkLength_plain (inRange : Bool) (bytes rest : Glob.Bytes) (plain : ∀ b ∈ bytes, 0x80 ≤ b.toNat) :
    chunkLength inRange (bytes ++ rest) = bytes.length + chunkLength inRange rest := by
  induction bytes with
  | nil => simp
  | cons b others ih =>
    have high := plain b (List.mem_cons_self ..)
    have differs (a : UInt8) (small : a.toNat < 0x80) : ¬ b = a := by
      rintro rfl
      omega
    rw [List.cons_append]
    conv_lhs => rw [chunkLength.eq_def]
    dsimp only
    rw [if_neg (differs _ (by decide)),if_neg (differs _ (by decide)),if_neg (differs _ (by decide)),if_neg (fun both => differs _ (by decide) both.1),
      ih fun t mem => plain t (List.mem_cons_of_mem _ mem),List.length_cons]
    omega

theorem tail_plain (written : String.utf8EncodeChar c = b::tail) : ∀ t ∈ tail, 0x80 ≤ t.toNat := by
  obtain ⟨b',tail',other,_,continues⟩ := encoded_parts c
  rw [written] at other
  cases other
  exact fun t mem => (continues t mem).1

theorem chunkLength_utf8 (inRange : Bool) (text : List Char) :
    chunkLength inRange (utf8 text) = (utf8 (text.take (chunkChars inRange text))).length := by
  induction inRange,text using chunkChars.induct with
  | case1 => rfl
  | case2 inRange => simp [utf8_lead '\\' (by decide),chunkLength,chunkChars,backslash]
  | case3 inRange d later ih =>
    obtain ⟨b,tail,written,whole,_⟩ := utf8_parts d later
    have one : chunkLength inRange (utf8 ('\\'::d::later)) = 2 + chunkLength inRange (tail ++ utf8 later) := by
      rw [utf8_lead '\\' (by decide),whole]
      simp [chunkLength,backslash]
    rw [one,chunkLength_plain _ _ _ (tail_plain written),ih,chunkChars_escape,List.take_succ_cons,List.take_succ_cons,utf8_lead '\\' (by decide),utf8_cons,written]
    simp only [List.length_cons,List.length_append]
    omega
  | case4 inRange rest _ ih =>
    have bytes : chunkLength inRange (openBracket::utf8 rest) = 1 + chunkLength true (utf8 rest) := by
      conv_lhs => rw [chunkLength.eq_def]
      dsimp only
      rw [if_neg (by decide),if_pos rfl]
    refine bytes.trans ?_
    rw [chunkChars_open,List.take_succ_cons,utf8_lead '[' (by decide),List.length_cons,ih]
    omega
  | case5 inRange rest _ _ ih =>
    have bytes : chunkLength inRange (closeBracket::utf8 rest) = 1 + chunkLength false (utf8 rest) := by
      conv_lhs => rw [chunkLength.eq_def]
      dsimp only
      rw [if_neg (by decide),if_neg (by decide),if_pos rfl]
    refine bytes.trans ?_
    rw [chunkChars_close,List.take_succ_cons,utf8_lead ']' (by decide),List.length_cons,ih]
    omega
  | case6 inRange c rest _ _ _ both =>
    obtain ⟨rfl,rfl⟩ := both
    have bytes : chunkLength false (star::utf8 rest) = 0 := by
      rw [chunkLength.eq_def]
      dsimp only
      rw [if_neg (by decide),if_neg (by decide),if_neg (by decide),if_pos ⟨rfl,rfl⟩]
    refine bytes.trans ?_
    rw [chunkChars_star]
    rfl
  | case7 inRange c rest back open_ close_ plain ih =>
    obtain ⟨b,tail,written,whole,tells⟩ := utf8_parts c rest
    have bytes : chunkLength inRange (utf8 (c::rest)) = 1 + chunkLength inRange (tail ++ utf8 rest) := by
      have back_ : ¬ b = backslash := fun same => back ((tells '\\' (by decide)).mp same)
      have opens : ¬ b = openBracket := fun same => open_ ((tells '[' (by decide)).mp same)
      have closes : ¬ b = closeBracket := fun same => close_ ((tells ']' (by decide)).mp same)
      have other : ¬ (b = star ∧ inRange = false) := fun both => plain ⟨(tells '*' (by decide)).mp both.1,both.2⟩
      rw [whole]
      conv_lhs => rw [chunkLength.eq_def]
      dsimp only
      rw [if_neg back_,if_neg opens,if_neg closes,if_neg other]
    rw [bytes,chunkLength_plain _ _ _ (tail_plain written),ih,chunkChars_plain back open_ close_ plain,List.take_succ_cons,utf8_cons,written]
    simp only [List.length_cons,List.length_append]
    omega

theorem strip_utf8 (text : List Char) : (utf8 text).dropWhile (· == star) = utf8 (text.dropWhile (· == '*')) := by
  induction text with
  | nil => rfl
  | cons c rest ih =>
    by_cases starred : c = '*'
    · rw [starred,utf8_lead '*' (by decide),List.dropWhile_cons_of_pos (by decide),List.dropWhile_cons_of_pos (by decide),ih]
    · obtain ⟨b,tail,written,whole,tells⟩ := utf8_parts c rest
      have other : ¬ b = star := fun same => starred ((tells '*' (by decide)).mp same)
      rw [whole,List.dropWhile_cons_of_neg (by simpa using other),List.dropWhile_cons_of_neg (by simpa using starred),whole]

def nextChunk (text : List Char) : Bool × List Char × List Char :=
  let stripped := text.dropWhile (· == '*')
  (text.head? == some '*',stripped.take (chunkChars false stripped),stripped.drop (chunkChars false stripped))

theorem scanChunk_utf8 (text : List Char) :
    scanChunk (utf8 text) = ((nextChunk text).1,utf8 (nextChunk text).2.1,utf8 (nextChunk text).2.2) := by
  have head : ((utf8 text).head? == some star) = (text.head? == some '*') := by
    cases text with
    | nil => rfl
    | cons c rest =>
      obtain ⟨b,tail,_,whole,tells⟩ := utf8_parts c rest
      rw [whole,List.head?_cons,List.head?_cons,Bool.eq_iff_iff,beq_iff_eq,beq_iff_eq,Option.some_inj,Option.some_inj]
      exact tells '*' (by decide)
  unfold scanChunk nextChunk
  dsimp only
  rw [strip_utf8,chunkLength_utf8,head]
  have split : utf8 (text.dropWhile (· == '*')) =
      utf8 ((text.dropWhile (· == '*')).take (chunkChars false (text.dropWhile (· == '*')))) ++
      utf8 ((text.dropWhile (· == '*')).drop (chunkChars false (text.dropWhile (· == '*')))) := by
    rw [← utf8_append,List.take_append_drop]
  conv_lhs => rw [split]
  rw [List.take_left,List.drop_left]

end Scanning

section Splits

-- What was read from a class does not depend on what follows it.
theorem rangeChar_local (parsed : rangeChar text = some (c,rest)) :
    ∃ front, text = front ++ rest ∧ ∀ other, rangeChar (front ++ other) = some (c,other) ∧ ∀ inRange, inRange = true →
      chunkChars inRange (front ++ other) = front.length + chunkChars inRange other := by
  unfold rangeChar at parsed
  split at parsed
  · cases parsed
  · split at parsed
    · cases parsed
    · rename_i allowed
      rw [not_or] at allowed
      split at parsed
      · rename_i escaped
        subst escaped
        split at parsed
        · cases parsed
        · cases parsed
          refine ⟨['\\',c],rfl,fun other => ⟨by simp [rangeChar],?_⟩⟩
          rintro _ rfl
          simp [chunkChars]
      · rename_i plain
        cases parsed
        refine ⟨[c],rfl,fun other => ⟨by simp [rangeChar,allowed,plain],?_⟩⟩
        rintro _ rfl
        rw [List.singleton_append,chunkChars_step,if_neg plain]
        split
        · rfl
        · rw [if_neg allowed.2,if_neg (by simp)]
          rfl

theorem rangeChar_head (parsed : rangeChar text = some first) :
    text.head? ≠ some '-' ∧ text.head? ≠ some ']' := by
  cases text with
  | nil => cases parsed
  | cons c rest =>
    by_cases ends : c = '-' ∨ c = ']'
    · rw [rangeChar.eq_def] at parsed
      dsimp only at parsed
      rw [if_pos ends] at parsed
      cases parsed
    · rw [not_or] at ends
      simp only [List.head?_cons,ne_eq,Option.some_inj]
      exact ends

theorem range_local (parsed : range text = some (r,rest)) :
    ∃ front, text = front ++ rest ∧ ∀ other, other.head? ≠ some '-' → range (front ++ other) = some (r,other) ∧
      chunkChars true (front ++ other) = front.length + chunkChars true other := by
  obtain ⟨⟨low,left⟩,first,more⟩ := Option.bind_eq_some_iff.mp parsed
  obtain ⟨front,rfl,goes⟩ := rangeChar_local first
  dsimp only at more
  split at more
  · cases more
    refine ⟨front,rfl,fun other alone => ⟨?_,(goes other).2 true rfl⟩⟩
    unfold range
    rw [(goes other).1,Option.bind_some]
    cases other with
    | nil => rfl
    | cons d later =>
      dsimp only
      rw [if_neg (by simpa using alone)]
  · split at more
    · rename_i spans
      subst spans
      obtain ⟨⟨high,others⟩,second,same⟩ := Option.map_eq_some_iff.mp more
      cases same
      obtain ⟨back,rfl,then_⟩ := rangeChar_local second
      refine ⟨front ++ '-'::back,by rw [List.append_assoc]; rfl,fun other _ => ⟨?_,?_⟩⟩
      · unfold range
        rw [List.append_assoc,List.cons_append,(goes _).1,Option.bind_some]
        dsimp only
        rw [if_pos rfl,(then_ other).1]
        rfl
      · have dash_ : chunkChars true ('-'::(back ++ other)) = 1 + chunkChars true (back ++ other) := by
          rw [chunkChars_step,if_neg (by decide),if_neg (by decide),if_neg (by decide),if_neg (by simp)]
        rw [List.append_assoc,List.cons_append,(goes _).2 true rfl,dash_,(then_ other).2 true rfl,List.length_append,List.length_cons]
        omega
    · cases more
      refine ⟨front,rfl,fun other alone => ⟨?_,(goes other).2 true rfl⟩⟩
      unfold range
      rw [(goes other).1,Option.bind_some]
      cases other with
      | nil => rfl
      | cons d others =>
        dsimp only
        rw [if_neg (by simpa using alone)]

theorem ranges_head (parsed : ranges text = some body) :
    text.head? ≠ some '-' ∧ text.head? ≠ some ']' := by
  rw [ranges_eq] at parsed
  obtain ⟨first,one,_⟩ := Option.bind_eq_some_iff.mp parsed
  obtain ⟨low,read,_⟩ := Option.bind_eq_some_iff.mp one
  exact rangeChar_head read

theorem ranges_local (parsed : ranges text = some (rs,rest)) :
    ∃ front, text = front ++ rest ∧ ∀ other, ranges (front ++ other) = some (rs,other) ∧
      chunkChars true (front ++ other) = front.length + chunkChars false other := by
  induction text using ranges.induct generalizing rs rest with
  | case1 text failed =>
    rw [ranges_eq,failed] at parsed
    cases parsed
  | case2 text r later first closed =>
    rw [ranges_eq,first,Option.bind_some,if_pos closed] at parsed
    cases parsed
    obtain ⟨rest,rfl⟩ : ∃ rest, later = ']'::rest := by
      cases later with
      | nil => cases closed
      | cons c rest => exact ⟨rest,by simpa using closed⟩
    obtain ⟨front,rfl,goes⟩ := range_local first
    refine ⟨front ++ [']'],by simp,fun other => ?_⟩
    have next := goes (']'::other) (by simp)
    have bracket : chunkChars true (']'::other) = 1 + chunkChars false other := by
      rw [chunkChars_step,if_neg (by decide),if_neg (by decide),if_pos rfl]
    rw [List.append_assoc,List.singleton_append,ranges_eq,next.1,Option.bind_some]
    refine ⟨rfl,?_⟩
    rw [next.2,bracket,List.length_append,List.length_singleton]
    omega
  | case3 text r later first opened ih =>
    rw [ranges_eq,first,Option.bind_some,if_neg opened] at parsed
    obtain ⟨⟨more,others⟩,second,same⟩ := Option.map_eq_some_iff.mp parsed
    cases same
    obtain ⟨back,rfl,then_⟩ := ih second
    obtain ⟨front,rfl,goes⟩ := range_local first
    refine ⟨front ++ back,by rw [List.append_assoc],fun other => ?_⟩
    have head := ranges_head (then_ other).1
    have next := goes (back ++ other) head.1
    rw [List.append_assoc,ranges_eq,next.1,Option.bind_some,if_neg head.2,(then_ other).1]
    refine ⟨rfl,?_⟩
    rw [next.2,(then_ other).2,List.length_append]
    omega

theorem classBody_append (text other : List Char) (some_ : text ≠ []) :
    isNegated (text ++ other) = isNegated text ∧ classBody (text ++ other) = classBody text ++ other := by
  cases text with
  | nil => exact absurd rfl some_
  | cons c rest =>
    unfold classBody isNegated
    rw [List.cons_append,List.head?_cons,List.head?_cons]
    refine ⟨rfl,?_⟩
    split <;> rfl

theorem chunkChars_class (rest : List Char) :
    chunkChars true rest = (rest.length - (classBody rest).length) + chunkChars true (classBody rest) := by
  unfold classBody
  split
  · rename_i negated
    cases rest with
    | nil => cases negated
    | cons c later =>
      have caret_ : c = '^' := by simpa [isNegated] using negated
      subst caret_
      rw [chunkChars_step,if_neg (by decide),if_neg (by decide),if_neg (by decide),if_neg (by simp),List.tail_cons,List.length_cons,Nat.add_sub_cancel_left]
  · rw [Nat.sub_self,Nat.zero_add]

theorem parse_split (text : List Char) : parse text =
    (parse (text.take (chunkChars false text))).bind fun first => (parse (text.drop (chunkChars false text))).map (first ++ ·) := by
  induction text using parse.induct with
  | case1 => rw [chunkChars,List.take_zero,List.drop_zero,parse_nil]; rfl
  | case2 later _ => rw [chunkChars_star,List.take_zero,List.drop_zero,parse_nil,Option.bind_some,parse_star,Option.map_map]; rfl
  | case3 later _ ih =>
    rw [chunkChars_lit (by decide) (by decide) (by decide),List.take_succ_cons,List.drop_succ_cons,parse_any,parse_any,ih]
    cases parse (later.take (chunkChars false later)) with
    | none => rfl
    | some first => cases parse (later.drop (chunkChars false later)) <;> rfl
  | case4 => rw [chunkChars_cut,List.take_succ_cons,List.take_zero,parse_cut]; rfl
  | case5 d later _ _ ih =>
    rw [chunkChars_escape,List.take_succ_cons,List.take_succ_cons,List.drop_succ_cons,List.drop_succ_cons,parse_escape,parse_escape,ih]
    cases parse (later.take (chunkChars false later)) with
    | none => rfl
    | some first => cases parse (later.drop (chunkChars false later)) <;> rfl
  | case6 later malformed _ _ _ =>
    rw [chunkChars_open,List.take_succ_cons,List.drop_succ_cons,parse_class,parse_class,malformed]
    have cut : ranges (classBody (later.take (chunkChars true later))) = none := by
      cases short : ranges (classBody (later.take (chunkChars true later))) with
      | none => rfl
      | some body =>
        have some_ : later.take (chunkChars true later) ≠ [] := by
          intro none_
          rw [none_] at short
          change ranges [] = _ at short
          rw [ranges_nil] at short
          cases short
        obtain ⟨front,whole,goes⟩ := ranges_local short
        have both := classBody_append _ (later.drop (chunkChars true later)) some_
        rw [List.take_append_drop] at both
        rw [both.2,whole,List.append_assoc,(goes _).1] at malformed
        cases malformed
    rw [cut]
    rfl
  | case7 later rs others formed _ _ _ ih =>
    obtain ⟨front,whole,goes⟩ := ranges_local formed
    have some_front : front ≠ [] := by
      rintro rfl
      have none_ := (goes []).1
      rw [List.append_nil,ranges_nil] at none_
      cases none_
    have count : chunkChars true later = (later.length - (classBody later).length) + (front.length + chunkChars false others) := by
      rw [chunkChars_class,whole,(goes others).2]
    -- The class and what stands before it, with the others cut short.
    obtain ⟨mark,split,short⟩ : ∃ mark, later = mark ++ (front ++ others) ∧ ∀ other, isNegated (mark ++ (front ++ other)) = isNegated later ∧
        classBody (mark ++ (front ++ other)) = front ++ other := by
      unfold classBody isNegated at whole
      split at whole
      · rename_i negated
        obtain ⟨tail,rfl⟩ : ∃ tail, later = '^'::tail := by
          cases later with
          | nil => cases negated
          | cons c tail => exact ⟨tail,by simpa using negated⟩
        rw [List.tail_cons] at whole
        refine ⟨['^'],by rw [whole]; rfl,fun other => ⟨rfl,rfl⟩⟩
      · rename_i positive
        refine ⟨[],whole,fun other => ?_⟩
        obtain ⟨c,tail,rfl⟩ := List.exists_cons_of_ne_nil some_front
        rw [whole] at positive ⊢
        unfold classBody isNegated
        rw [List.nil_append,List.cons_append,List.cons_append,List.head?_cons,List.head?_cons]
        refine ⟨rfl,?_⟩
        rw [List.cons_append,List.head?_cons] at positive
        rw [if_neg positive]
    have sizes : chunkChars true later = mark.length + (front.length + chunkChars false others) := by
      rw [count]
      conv_lhs => rw [whole,split]
      simp only [List.length_append]
      omega
    rw [chunkChars_open,List.take_succ_cons,List.drop_succ_cons,parse_class,parse_class,formed,sizes]
    conv_rhs => rw [split]
    rw [List.take_length_add_append,List.take_length_add_append,List.drop_length_add_append,List.drop_length_add_append,(short _).1,(short _).2,
      (goes _).1,Option.bind_some,Option.bind_some,ih]
    cases parse (others.take (chunkChars false others)) with
    | none => rfl
    | some first => cases parse (others.drop (chunkChars false others)) <;> rfl
  | case8 d later star_ any_ back open_ ih =>
    rw [chunkChars_lit star_ back open_,List.take_succ_cons,List.drop_succ_cons,parse_lit star_ any_ back open_,parse_lit star_ any_ back open_,ih]
    cases parse (later.take (chunkChars false later)) with
    | none => rfl
    | some first => cases parse (later.drop (chunkChars false later)) <;> rfl

end Splits

section Chunks

-- What a chunk's terms take from the front of a name, rune by rune as they are
-- decoded there.
def consume : List Term → Glob.Bytes → Option Glob.Bytes
  | [],s => some s
  | .star::_,_ => none
  | .any::rest,s => if s = [] ∨ s.head? = some slash then none else consume rest (s.drop (decodeRune s).2)
  | .lit c::rest,s => if (String.utf8EncodeChar c).isPrefixOf s then consume rest (s.drop (String.utf8EncodeChar c).length) else none
  | .cls negated rs::rest,s =>
    if s ≠ [] ∧ inClass negated rs (decodeRune s).1 = true then consume rest (s.drop (decodeRune s).2) else none

theorem utf8_longer (text : List Char) : text.length ≤ (utf8 text).length := by
  induction text with
  | nil => exact Nat.le_refl _
  | cons c rest ih =>
    have some_ := encoded_pos c
    rw [utf8_cons,List.length_cons,List.length_append]
    omega

theorem classBody_utf8 (text : List Char) : ((utf8 text).head? == some caret) = isNegated text ∧
    (if isNegated text then (utf8 text).tail else utf8 text) = utf8 (classBody text) := by
  unfold classBody isNegated
  cases text with
  | nil => exact ⟨rfl,rfl⟩
  | cons c rest =>
    obtain ⟨b,tail,_,whole,tells⟩ := utf8_parts c rest
    refine ⟨?_,?_⟩
    · rw [whole,List.head?_cons,List.head?_cons,Bool.eq_iff_iff,beq_iff_eq,beq_iff_eq,Option.some_inj,Option.some_inj]
      exact tells '^' (by decide)
    · split
      · rename_i marked
        have caret_ : c = '^' := by simpa using marked
        rw [caret_,utf8_lead '^' (by decide),List.tail_cons,List.tail_cons]
      · rfl

def literalStep (fuel : Nat) (b : UInt8) (rest s : Glob.Bytes) (failed : Bool) : Except Failure (Option Glob.Bytes) :=
  if failed || s.isEmpty then matchChunk fuel rest s true else matchChunk fuel rest s.tail (s.head? != some b)

theorem chunk_step (fuel : Nat) (c : UInt8) (rest s : Glob.Bytes) (failed : Bool) : matchChunk (fuel+1) (c::rest) s failed =
    (let failed := failed || s.isEmpty
    if c = openBracket then do
      let (rune,width) := if failed then (0,0) else decodeRune s
      let negated := rest.head? == some caret
      let (matched,rest) ← matchRanges rune (rest.length + 1) (if negated then rest.tail else rest) false 0
      matchChunk fuel rest (s.drop width) (failed || matched == negated)
    else if c = question then
      if failed then matchChunk fuel rest s failed
      else matchChunk fuel rest (s.drop (decodeRune s).2) (s.head? == some slash)
    else do
      let (literal,rest) ← if c = backslash then (match rest with | [] => .error .badPattern | d::later => .ok (d,later)) else .ok (c,rest)
      if failed then matchChunk fuel rest s failed else matchChunk fuel rest s.tail (s.head? != some literal)) := rfl

theorem plain_step (fuel : Nat) (rest s : Glob.Bytes) (failed : Bool) (open_ : b ≠ openBracket) (any_ : b ≠ question) (back : b ≠ backslash) :
    matchChunk (fuel+1) (b::rest) s failed = literalStep fuel b rest s failed := by
  rw [chunk_step]
  simp only [if_neg open_,if_neg any_,if_neg back,bind,Except.bind]
  unfold literalStep
  cases failed || s.isEmpty <;> rfl

theorem escape_step (fuel : Nat) (b : UInt8) (rest s : Glob.Bytes) (failed : Bool) :
    matchChunk (fuel+1) (backslash::b::rest) s failed = literalStep fuel b rest s failed := by
  rw [chunk_step]
  unfold literalStep
  cases failed || s.isEmpty <;> rfl

theorem any_step (fuel : Nat) (rest s : Glob.Bytes) (failed : Bool) : matchChunk (fuel+1) (question::rest) s failed =
    if failed || s.isEmpty then matchChunk fuel rest s true else matchChunk fuel rest (s.drop (decodeRune s).2) (s.head? == some slash) := by
  rw [chunk_step]
  cases failed || s.isEmpty <;> rfl

theorem class_step (fuel : Nat) (later : List Char) (s : Glob.Bytes) (failed : Bool) :
    matchChunk (fuel+1) (openBracket::utf8 later) s failed =
      let rune := if failed || s.isEmpty then (0,0) else decodeRune s
      match ranges (classBody later) with
      | none => .error .badPattern
      | some (rs,others) => matchChunk fuel (utf8 others) (s.drop rune.2) (failed || s.isEmpty || (inClass (isNegated later) rs rune.1 == false)) := by
  have shorter := classBody_length later
  have longer := utf8_longer later
  have body := classBody_utf8 later
  rw [chunk_step]
  simp only [if_pos,bind,Except.bind,body.1]
  rw [body.2,matchRanges_utf8 _ _ _ (by omega),if_neg (by simp)]
  cases ranges (classBody later) with
  | none => rfl
  | some found =>
    unfold inClass
    cases isNegated later <;> simp

theorem literal_run {result : Bool → Glob.Bytes → Except Failure (Option Glob.Bytes)}
    (next : ∀ s failed, matchChunk fuel rest s failed = result failed s) (over_ : ∀ s, result true s = result true []) (tail : Glob.Bytes)
    (plain : ∀ t ∈ tail, 0x80 ≤ t.toNat) (b : UInt8) (s : Glob.Bytes) (failed : Bool) :
    literalStep (fuel + tail.length) b (tail ++ rest) s failed =
      if failed then result true [] else if (b::tail).isPrefixOf s then result false (s.drop (tail.length+1)) else result true [] := by
  induction tail generalizing b s failed with
  | nil =>
    unfold literalStep
    cases failed with
    | true => rw [Bool.true_or,if_pos rfl,if_pos rfl]; exact (next s true).trans (over_ s)
    | false =>
      cases s with
      | nil => exact (next [] true).trans (over_ [])
      | cons d others =>
        by_cases same : b = d
        · subst same
          simp only [List.isEmpty_cons,Bool.or_false,Bool.false_eq_true,if_false,List.tail_cons,List.head?_cons,List.nil_append,List.length_nil,Nat.add_zero,
            bne_self_eq_false,next,List.isPrefixOf_cons_cons_self,List.isPrefixOf_nil_left,if_true,List.drop_succ_cons,List.drop_zero]
        · have missed : (some d != some b) = true := by simpa using fun same_ => same same_.symm
          have other : (b == d) = false := by simpa using same
          simp only [List.isEmpty_cons,Bool.or_false,Bool.false_eq_true,if_false,List.tail_cons,List.head?_cons,List.nil_append,List.length_nil,Nat.add_zero,
            missed,next,List.isPrefixOf,other,Bool.false_and]
          exact over_ others
  | cons t tail ih =>
    have high := plain t (List.mem_cons_self ..)
    have differs (a : UInt8) (small : a.toNat < 0x80) : t ≠ a := by
      rintro rfl
      omega
    have then_ (s : Glob.Bytes) (failed : Bool) : matchChunk (fuel + (t::tail).length) ((t::tail) ++ rest) s failed =
        if failed then result true [] else if (t::tail).isPrefixOf s then result false (s.drop (tail.length+1)) else result true [] := by
      rw [List.length_cons,← Nat.add_assoc,List.cons_append,plain_step _ _ _ _ (differs _ (by decide)) (differs _ (by decide)) (differs _ (by decide))]
      exact ih (fun u mem => plain u (List.mem_cons_of_mem _ mem)) t s failed
    unfold literalStep
    cases failed with
    | true => rw [Bool.true_or,if_pos rfl,if_pos rfl,then_,if_pos rfl]
    | false =>
      cases s with
      | nil => rw [List.isEmpty_nil,Bool.or_true,if_pos rfl,then_]; rfl
      | cons d others =>
        by_cases same : b = d
        · subst same
          simp only [List.isEmpty_cons,Bool.or_false,Bool.false_eq_true,if_false,List.tail_cons,List.head?_cons,bne_self_eq_false,then_,
            List.isPrefixOf_cons_cons_self,List.drop_succ_cons]
          rfl
        · have missed : (some d != some b) = true := by simpa using fun same_ => same same_.symm
          have other : (b == d) = false := by simpa using same
          simp only [List.isEmpty_cons,Bool.or_false,Bool.false_eq_true,if_false,List.tail_cons,List.head?_cons,missed,then_,if_true,List.isPrefixOf,other,Bool.false_and]

def chunkResult (terms : Option (List Term)) (failed : Bool) (s : Glob.Bytes) : Except Failure (Option Glob.Bytes) :=
  match terms with
  | none => .error .badPattern
  | some terms => .ok (if failed then none else consume terms s)

section
variable (terms : Option (List Term))
include terms

theorem chunkResult_failed (s : Glob.Bytes) : chunkResult terms true s = chunkResult terms true [] := by
  cases terms <;> rfl

theorem chunkResult_lit (c : Char) (failed : Bool) (s : Glob.Bytes) : chunkResult (terms.map (.lit c::·)) failed s =
    if failed then chunkResult terms true [] else
    if (String.utf8EncodeChar c).isPrefixOf s then chunkResult terms false (s.drop (String.utf8EncodeChar c).length) else chunkResult terms true [] := by
  cases terms with
  | none => cases failed <;> simp [chunkResult]
  | some terms =>
    cases failed with
    | true => rfl
    | false =>
      simp only [chunkResult,Option.map_some,consume,Bool.false_eq_true,if_false]
      split <;> rfl

theorem chunkResult_any (failed : Bool) (s : Glob.Bytes) : chunkResult (terms.map (.any::·)) failed s =
    if failed || s.isEmpty then chunkResult terms true [] else chunkResult terms (s.head? == some slash) (s.drop (decodeRune s).2) := by
  cases terms with
  | none => cases failed || s.isEmpty <;> rfl
  | some terms =>
    cases failed with
    | true => rfl
    | false =>
      cases s with
      | nil => simp [chunkResult,consume]
      | cons b rest =>
        by_cases slashed : b = slash
        all_goals simp [chunkResult,consume,slashed]

theorem chunkResult_class (negated : Bool) (rs : List (Char × Char)) (failed : Bool) (s : Glob.Bytes) :
    chunkResult (terms.map (.cls negated rs::·)) failed s = if failed || s.isEmpty then chunkResult terms true [] else
      chunkResult terms (inClass negated rs (decodeRune s).1 == false) (s.drop (decodeRune s).2) := by
  cases terms with
  | none => cases failed || s.isEmpty <;> rfl
  | some terms =>
    cases failed with
    | true => rfl
    | false =>
      cases s with
      | nil => simp [chunkResult,consume]
      | cons b rest => cases held : inClass negated rs (decodeRune (b::rest)).1 <;> simp [chunkResult,consume,held]

end

theorem literal_utf8 {later : List Char} (written : String.utf8EncodeChar c = b::tail)
    (enough : (utf8 (c::later)).length ≤ fuel) (next : ∀ k, (utf8 later).length < k → ∀ s failed,
      matchChunk k (utf8 later) s failed = chunkResult (parse later) failed s) (s : Glob.Bytes) (failed : Bool) :
    literalStep fuel b (tail ++ utf8 later) s failed = chunkResult ((parse later).map (.lit c::·)) failed s := by
  rw [utf8_cons,written,List.length_append,List.length_cons] at enough
  obtain ⟨k,rfl⟩ : ∃ k, fuel = k + tail.length := ⟨fuel-tail.length,by omega⟩
  rw [literal_run (next k (by omega)) (chunkResult_failed (parse later)) tail (tail_plain written),chunkResult_lit,written]
  rfl

theorem class_whole (formed : ranges (classBody later) = some (rs,others))
    (whole : chunkChars false ('['::later) = ('['::later).length) : chunkChars false others = others.length := by
  obtain ⟨front,split,goes⟩ := ranges_local formed
  have shorter := classBody_length later
  rw [chunkChars_open,List.length_cons,Nat.add_right_cancel_iff,chunkChars_class] at whole
  rw [split,(goes others).2,List.length_append] at whole
  rw [split,List.length_append] at shorter
  omega

theorem matchChunk_utf8 (chunk : List Char) (whole : chunkChars false chunk = chunk.length) (fuel : Nat) (enough : (utf8 chunk).length < fuel)
    (s : Glob.Bytes) (failed : Bool) : matchChunk fuel (utf8 chunk) s failed = chunkResult (parse chunk) failed s := by
  induction chunk using parse.induct generalizing fuel s failed with
  | case1 =>
    obtain ⟨k,rfl⟩ := Nat.exists_eq_add_of_lt enough
    rw [parse_nil]
    rfl
  | case2 later _ =>
    rw [chunkChars_star] at whole
    cases whole
  | case3 later _ ih =>
    obtain ⟨k,rfl⟩ : ∃ k, fuel = k + 1 := ⟨fuel-1,by omega⟩
    rw [chunkChars_lit (by decide) (by decide) (by decide),List.length_cons,Nat.add_right_cancel_iff] at whole
    rw [utf8_lead '?' (by decide),List.length_cons] at enough
    rw [utf8_lead '?' (by decide),parse_any,chunkResult_any]
    refine (any_step k _ s failed).trans ?_
    rw [ih whole k (by omega),ih whole k (by omega),chunkResult_failed]
  | case4 =>
    obtain ⟨k,rfl⟩ : ∃ k, fuel = k + 1 := ⟨fuel-1,by omega⟩
    rw [parse_cut,utf8_lead '\\' (by decide)]
    rfl
  | case5 d later _ _ ih =>
    obtain ⟨k,rfl⟩ : ∃ k, fuel = k + 1 := ⟨fuel-1,by omega⟩
    obtain ⟨b,tail,written,bytes,_⟩ := utf8_parts d later
    rw [chunkChars_escape,List.length_cons,List.length_cons,Nat.add_right_cancel_iff] at whole
    rw [utf8_lead '\\' (by decide),List.length_cons] at enough
    rw [utf8_lead '\\' (by decide),bytes,parse_escape]
    refine (escape_step k b _ s failed).trans ?_
    exact literal_utf8 written (by omega) (fun j more => ih whole j more) s failed
  | case6 later malformed _ _ _ =>
    obtain ⟨k,rfl⟩ : ∃ k, fuel = k + 1 := ⟨fuel-1,by omega⟩
    rw [parse_class,malformed,utf8_lead '[' (by decide)]
    refine (class_step k later s failed).trans ?_
    rw [malformed]
    rfl
  | case7 later rs others formed _ _ _ ih =>
    obtain ⟨k,rfl⟩ : ∃ k, fuel = k + 1 := ⟨fuel-1,by omega⟩
    obtain ⟨front,split,goes⟩ := ranges_local formed
    have room : (utf8 others).length < k := by
      have body : (utf8 (classBody later)).length ≤ (utf8 later).length := by
        rw [← (classBody_utf8 later).2]
        split
        · rw [List.length_tail]
          omega
        · exact Nat.le_refl _
      rw [split,utf8_append,List.length_append] at body
      rw [utf8_lead '[' (by decide),List.length_cons] at enough
      omega
    rw [parse_class,formed,Option.bind_some,chunkResult_class,utf8_lead '[' (by decide)]
    refine (class_step k later s failed).trans ?_
    rw [formed]
    dsimp only
    rw [ih (class_whole formed whole) k room]
    cases failed || s.isEmpty with
    | true => exact chunkResult_failed _ _
    | false => rfl
  | case8 d later star_ any_ back open_ ih =>
    obtain ⟨k,rfl⟩ : ∃ k, fuel = k + 1 := ⟨fuel-1,by omega⟩
    obtain ⟨b,tail,written,bytes,tells⟩ := utf8_parts d later
    rw [chunkChars_lit star_ back open_,List.length_cons,Nat.add_right_cancel_iff] at whole
    rw [parse_lit star_ any_ back open_,bytes,plain_step k _ s failed (fun same => open_ ((tells '[' (by decide)).mp same))
      (fun same => any_ ((tells '?' (by decide)).mp same)) (fun same => back ((tells '\\' (by decide)).mp same))]
    exact literal_utf8 written (by omega) (fun j more => ih whole j more) s failed

end Chunks

end RemoteFileExplorer.GlobChunks
