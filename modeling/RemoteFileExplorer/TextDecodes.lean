import RemoteFileExplorer.CodeUnits

namespace RemoteFileExplorer.TextDecodes
open CodeUnits

-- The six bits of a continuation byte. A missing byte is no continuation.
def cont (b : UInt8) : Option Nat := if b.toNat &&& 0xc0 ≠ 0x80 then none else some (b.toNat &&& 0x3f)

def pair (b : UInt8) (c1 : Nat) : Nat := ((b.toNat &&& 0x1f) <<< 6) ||| c1

def triple (b : UInt8) (c1 c2 : Nat) : Option Nat :=
  let cp := ((b.toNat &&& 0x0f) <<< 12) ||| (c1 <<< 6) ||| c2
  -- overlong forms and UTF-16 surrogates are invalid UTF-8
  if cp < 0x800 ∨ 0xd800 ≤ cp ∧ cp ≤ 0xdfff then none else some cp

def quadruple (b : UInt8) (c1 c2 c3 : Nat) : Option Nat :=
  let cp := ((b.toNat &&& 0x07) <<< 18) ||| (c1 <<< 12) ||| (c2 <<< 6) ||| c3
  if cp < 0x10000 ∨ cp > 0x10ffff then none else some cp

def push (cp : Nat) : Units :=
  if cp > 0xffff then [UInt16.ofNat (0xd800 + ((cp - 0x10000) >>> 10)),UInt16.ofNat (0xdc00 + ((cp - 0x10000) &&& 0x3ff))]
  else [UInt16.ofNat cp]

-- The loop over the bytes from position i on.
def decodeFrom : Bytes → Option Units
  | [] => some []
  | b::rest =>
    if b.toNat < 0x80 then (decodeFrom rest).map (push b.toNat ++ ·) else
    if 0xc2 ≤ b.toNat ∧ b.toNat ≤ 0xdf then
      match rest with
      | b1::rest => (cont b1).bind fun c1 => (decodeFrom rest).map (push (pair b c1) ++ ·)
      | _ => none
    else if 0xe0 ≤ b.toNat ∧ b.toNat ≤ 0xef then
      match rest with
      | b1::b2::rest => (cont b1).bind fun c1 => (cont b2).bind fun c2 =>
          (triple b c1 c2).bind fun cp => (decodeFrom rest).map (push cp ++ ·)
      | _ => none
    else if 0xf0 ≤ b.toNat ∧ b.toNat ≤ 0xf4 then
      match rest with
      | b1::b2::b3::rest => (cont b1).bind fun c1 => (cont b2).bind fun c2 => (cont b3).bind fun c3 =>
          (quadruple b c1 c2 c3).bind fun cp => (decodeFrom rest).map (push cp ++ ·)
      | _ => none
    else none

def mark : Bytes := [0xef,0xbb,0xbf]

def unmarked (bytes : Bytes) : Bytes := if bytes.take 3 = mark then bytes.drop 3 else bytes

def sample : Nat := 8192

def decodeAsText (bytes : Bytes) : Option Units :=
  if 0 ∈ bytes.take sample then none else decodeFrom (unmarked bytes)

def utf8Length : Units → Nat
  | [] => 0
  | c::rest =>
    if c.toNat < 0x80 then utf8Length rest + 1 else
    if c.toNat < 0x800 then utf8Length rest + 2 else
    if 0xd800 ≤ c.toNat ∧ c.toNat ≤ 0xdbff then
      match rest with
      | [] => 4
      | _::rest => utf8Length rest + 4
    else utf8Length rest + 3

-- The bit operations of the loop as arithmetic.

theorem mask_iff (b : UInt8) : b.toNat &&& 0xc0 = 0x80 ↔ 0x80 ≤ b.toNat ∧ b.toNat < 0xc0 := by
  have masks : ∀ n < 256,n &&& 0xc0 = 0x80 ↔ 0x80 ≤ n ∧ n < 0xc0 := by decide +kernel
  exact masks b.toNat b.toNat_lt

theorem cont_iff (b : UInt8) (c : Nat) : cont b = some c ↔ b.toNat = 0x80 + c ∧ c < 0x40 := by
  have head := mask_iff b
  have low := Nat.and_two_pow_sub_one_eq_mod b.toNat 6
  unfold cont
  split
  next other => simp only [ne_eq,head] at other; simp only [reduceCtorEq,false_iff]; omega
  next fits =>
    simp only [low,Option.some.injEq]
    omega

theorem shifted_or (high : Nat) (small : low < 2 ^ n) : (high <<< n) ||| low = high * 2 ^ n + low := by
  rw [← Nat.shiftLeft_add_eq_or_of_lt small,Nat.shiftLeft_eq]

theorem pair_sum (b : UInt8) (small : c1 < 64) : pair b c1 = b.toNat % 32 * 64 + c1 := by
  have mask := Nat.and_two_pow_sub_one_eq_mod b.toNat 5
  have sum := shifted_or (b.toNat &&& 0x1f) (n := 6) small
  simp only [Nat.reducePow,Nat.reduceSub] at mask sum
  rw [pair,sum,mask]

theorem triple_sum (b : UInt8) (first : c1 < 64) (second : c2 < 64) :
    ((b.toNat &&& 0x0f) <<< 12) ||| (c1 <<< 6) ||| c2 = b.toNat % 16 * 4096 + c1 * 64 + c2 := by
  rw [Nat.or_assoc,shifted_or c1 (n := 6) second,shifted_or _ (n := 12) (by omega),Nat.and_two_pow_sub_one_eq_mod _ 4]
  omega

theorem quadruple_sum (b : UInt8) (first : c1 < 64) (second : c2 < 64) (third : c3 < 64) :
    ((b.toNat &&& 0x07) <<< 18) ||| (c1 <<< 12) ||| (c2 <<< 6) ||| c3 = b.toNat % 8 * 262144 + c1 * 4096 + c2 * 64 + c3 := by
  rw [Nat.or_assoc,Nat.or_assoc,shifted_or c2 (n := 6) third,shifted_or c1 (n := 12) (by omega),shifted_or _ (n := 18) (by omega),
    Nat.and_two_pow_sub_one_eq_mod _ 3]
  omega

theorem push_units (cp : Nat) : push cp = unitsOf cp := by
  rw [push,unitsOf,Nat.shiftRight_eq_div_pow,Nat.and_two_pow_sub_one_eq_mod _ 10]

theorem byte_small (small : n < 256) : (UInt8.ofNat n).toNat = n := by
  rw [UInt8.toNat_ofNat']
  omega

inductive Encoded (c : Char) : Bytes → Prop where
  | one (small : c.toNat < 0x80) (lead : b.toNat = c.toNat) : Encoded c [b]
  | two (large : 0x80 ≤ c.toNat) (small : c.toNat < 0x800) (lead : b.toNat = 0xc0 + c.toNat / 64)
      (first : b1.toNat = 0x80 + c.toNat % 64) : Encoded c [b,b1]
  | three (large : 0x800 ≤ c.toNat) (small : c.toNat < 0x10000) (lead : b.toNat = 0xe0 + c.toNat / 4096)
      (first : b1.toNat = 0x80 + c.toNat / 64 % 64) (second : b2.toNat = 0x80 + c.toNat % 64) : Encoded c [b,b1,b2]
  | four (large : 0x10000 ≤ c.toNat) (lead : b.toNat = 0xf0 + c.toNat / 262144) (first : b1.toNat = 0x80 + c.toNat / 4096 % 64)
      (second : b2.toNat = 0x80 + c.toNat / 64 % 64) (third : b3.toNat = 0x80 + c.toNat % 64) : Encoded c [b,b1,b2,b3]

theorem encoded (c : Char) : Encoded c (String.utf8EncodeChar c) := by
  have bounds := scalar_bounds c
  have same : c.val.toNat = c.toNat := rfl
  simp only [String.utf8EncodeChar,same]
  split
  next => exact .one (by omega) (byte_small (by omega))
  next =>
    split
    next =>
      refine .two (by omega) (by omega) ?_ ?_
      all_goals rw [byte_small (by omega)]; omega
    next =>
      split
      next =>
        refine .three (by omega) (by omega) ?_ ?_ ?_
        all_goals rw [byte_small (by omega)]; omega
      next =>
        refine .four (by omega) ?_ ?_ ?_ ?_
        all_goals rw [byte_small (by omega)]; omega

theorem encoded_same (known : Encoded c bytes) (other : Encoded c more) : bytes = more := by
  cases known <;> cases other <;> first | omega | simp only [List.cons.injEq,and_true,← UInt8.toNat_inj]; omega

theorem encoded_iff (c : Char) (bytes : Bytes) : Encoded c bytes ↔ String.utf8EncodeChar c = bytes := by
  constructor
  · intro known
    exact encoded_same (encoded c) known
  · intro same
    exact same ▸ encoded c

theorem decode_char (c : Char) (rest : Bytes) :
    decodeFrom (String.utf8EncodeChar c ++ rest) = (decodeFrom rest).map (unitsOf c.toNat ++ ·) := by
  have bounds := scalar_bounds c
  generalize written : String.utf8EncodeChar c = bytes
  cases (encoded_iff c bytes).mpr written with
  | one small lead =>
      rw [List.singleton_append,decodeFrom.eq_def]
      simp [lead,small,push_units]
  | @two b b1 large small lead first =>
      have c1 := (cont_iff b1 (c.toNat % 64)).mpr (by omega)
      have whole : pair b (c.toNat % 64) = c.toNat := by
        rw [pair_sum b (by omega)]
        omega
      simp only [List.cons_append,List.nil_append,decodeFrom,if_neg (show ¬b.toNat < 0x80 by omega),
        if_pos (show 0xc2 ≤ b.toNat ∧ b.toNat ≤ 0xdf by omega),c1,Option.bind_some,whole,push_units]
  | @three b b1 b2 large small lead first second =>
      have c1 := (cont_iff b1 (c.toNat / 64 % 64)).mpr (by omega)
      have c2 := (cont_iff b2 (c.toNat % 64)).mpr (by omega)
      have whole : triple b (c.toNat / 64 % 64) (c.toNat % 64) = some c.toNat := by
        rw [triple,triple_sum b (by omega) (by omega),if_neg (by omega)]
        congr 1
        omega
      simp only [List.cons_append,List.nil_append,decodeFrom,if_neg (show ¬b.toNat < 0x80 by omega),
        if_neg (show ¬(0xc2 ≤ b.toNat ∧ b.toNat ≤ 0xdf) by omega),if_pos (show 0xe0 ≤ b.toNat ∧ b.toNat ≤ 0xef by omega),
        c1,c2,Option.bind_some,whole,push_units]
  | @four b b1 b2 b3 large lead first second third =>
      have c1 := (cont_iff b1 (c.toNat / 4096 % 64)).mpr (by omega)
      have c2 := (cont_iff b2 (c.toNat / 64 % 64)).mpr (by omega)
      have c3 := (cont_iff b3 (c.toNat % 64)).mpr (by omega)
      have whole : quadruple b (c.toNat / 4096 % 64) (c.toNat / 64 % 64) (c.toNat % 64) = some c.toNat := by
        rw [quadruple,quadruple_sum b (by omega) (by omega) (by omega),if_neg (by omega)]
        congr 1
        omega
      simp only [List.cons_append,List.nil_append,decodeFrom,if_neg (show ¬b.toNat < 0x80 by omega),
        if_neg (show ¬(0xc2 ≤ b.toNat ∧ b.toNat ≤ 0xdf) by omega),if_neg (show ¬(0xe0 ≤ b.toNat ∧ b.toNat ≤ 0xef) by omega),
        if_pos (show 0xf0 ≤ b.toNat ∧ b.toNat ≤ 0xf4 by omega),c1,c2,c3,Option.bind_some,whole,push_units]

theorem decode_utf8 (text : List Char) : decodeFrom (utf8 text) = some (utf16 text) := by
  induction text with
  | nil => rfl
  | cons c text ih => rw [utf8_cons,decode_char,ih,utf16_cons,Option.map_some]

theorem decode_append (text : List Char) (rest : Bytes) :
    decodeFrom (utf8 text ++ rest) = (decodeFrom rest).map (utf16 text ++ ·) := by
  induction text with
  | nil => simp
  | cons c text ih =>
      rw [utf8_cons,List.append_assoc,decode_char,ih,Option.map_map,utf16_cons]
      simp [Function.comp_def]

theorem scalar_exists (valid : n < 0xd800 ∨ 0xdfff < n ∧ n < 0x110000) : ∃ c : Char, c.toNat = n :=
  ⟨Char.ofNatAux n valid,rfl⟩

theorem well_formed_cons (known : Encoded c bytes) (rest : WellFormed more) : WellFormed (bytes ++ more) := by
  obtain ⟨text,rfl⟩ := rest
  refine ⟨c::text,?_⟩
  rw [utf8_cons,(encoded_iff c bytes).mp known]

theorem pair_encoded (lead : 0xc2 ≤ b.toNat ∧ b.toNat ≤ 0xdf) (first : cont b1 = some c1) : ∃ c, Encoded c [b,b1] := by
  obtain ⟨first,small⟩ := (cont_iff b1 c1).mp first
  obtain ⟨c,same⟩ := scalar_exists (n := b.toNat % 32 * 64 + c1) (by omega)
  exact ⟨c,.two (by omega) (by omega) (by omega) (by omega)⟩

theorem triple_encoded (lead : 0xe0 ≤ b.toNat ∧ b.toNat ≤ 0xef) (first : cont b1 = some c1) (second : cont b2 = some c2)
    (checked : triple b c1 c2 = some cp) : ∃ c, Encoded c [b,b1,b2] := by
  obtain ⟨first,small1⟩ := (cont_iff b1 c1).mp first
  obtain ⟨second,small2⟩ := (cont_iff b2 c2).mp second
  rw [triple,triple_sum b small1 small2] at checked
  split at checked
  · cases checked
  next allowed =>
    obtain ⟨c,same⟩ := scalar_exists (n := b.toNat % 16 * 4096 + c1 * 64 + c2) (by omega)
    exact ⟨c,.three (by omega) (by omega) (by omega) (by omega) (by omega)⟩

theorem quadruple_encoded (lead : 0xf0 ≤ b.toNat ∧ b.toNat ≤ 0xf4) (first : cont b1 = some c1) (second : cont b2 = some c2)
    (third : cont b3 = some c3) (checked : quadruple b c1 c2 c3 = some cp) : ∃ c, Encoded c [b,b1,b2,b3] := by
  obtain ⟨first,small1⟩ := (cont_iff b1 c1).mp first
  obtain ⟨second,small2⟩ := (cont_iff b2 c2).mp second
  obtain ⟨third,small3⟩ := (cont_iff b3 c3).mp third
  rw [quadruple,quadruple_sum b small1 small2 small3] at checked
  split at checked
  · cases checked
  next allowed =>
    obtain ⟨c,same⟩ := scalar_exists (n := b.toNat % 8 * 262144 + c1 * 4096 + c2 * 64 + c3) (by omega)
    exact ⟨c,.four (by omega) (by omega) (by omega) (by omega) (by omega)⟩

theorem decoded_well_formed (bytes : Bytes) : decodeFrom bytes = some text → WellFormed bytes := by
  fun_induction decodeFrom bytes generalizing text with
  | case1 => exact fun _ => ⟨[],rfl⟩
  | case2 b rest small ih =>
      intro decoded
      obtain ⟨more,decoded,_⟩ := Option.map_eq_some_iff.mp decoded
      obtain ⟨c,same⟩ := scalar_exists (n := b.toNat) (by omega)
      exact well_formed_cons (.one (by omega) same.symm) (ih decoded)
  | case3 b _ lead b1 rest ih =>
      intro decoded
      obtain ⟨c1,first,decoded⟩ := Option.bind_eq_some_iff.mp decoded
      obtain ⟨more,decoded,_⟩ := Option.map_eq_some_iff.mp decoded
      obtain ⟨c,known⟩ := pair_encoded lead first
      exact well_formed_cons known (ih decoded)
  | case5 b _ _ lead b1 b2 rest ih =>
      intro decoded
      obtain ⟨c1,first,decoded⟩ := Option.bind_eq_some_iff.mp decoded
      obtain ⟨c2,second,decoded⟩ := Option.bind_eq_some_iff.mp decoded
      obtain ⟨cp,checked,decoded⟩ := Option.bind_eq_some_iff.mp decoded
      obtain ⟨more,decoded,_⟩ := Option.map_eq_some_iff.mp decoded
      obtain ⟨c,known⟩ := triple_encoded lead first second checked
      exact well_formed_cons known (ih decoded)
  | case7 b _ _ _ lead b1 b2 b3 rest ih =>
      intro decoded
      obtain ⟨c1,first,decoded⟩ := Option.bind_eq_some_iff.mp decoded
      obtain ⟨c2,second,decoded⟩ := Option.bind_eq_some_iff.mp decoded
      obtain ⟨c3,third,decoded⟩ := Option.bind_eq_some_iff.mp decoded
      obtain ⟨cp,checked,decoded⟩ := Option.bind_eq_some_iff.mp decoded
      obtain ⟨more,decoded,_⟩ := Option.map_eq_some_iff.mp decoded
      obtain ⟨c,known⟩ := quadruple_encoded lead first second third checked
      exact well_formed_cons known (ih decoded)
  | case4 | case6 | case8 | case9 => exact nofun

theorem well_formed_right (left : WellFormed bytes) (whole : WellFormed (bytes ++ more)) : WellFormed more := by
  obtain ⟨text,rfl⟩ := left
  obtain ⟨all,same⟩ := whole
  have decoded := decode_utf8 all
  rw [same,decode_append,Option.map_eq_some_iff] at decoded
  obtain ⟨units,rest,_⟩ := decoded
  exact decoded_well_formed more rest

-- The decoder accepts the encodings of scalar values and nothing else.
theorem decode_iff (bytes : Bytes) (text : Units) : decodeFrom bytes = some text ↔ ∃ chars, utf8 chars = bytes ∧ utf16 chars = text := by
  constructor
  · intro decoded
    obtain ⟨chars,rfl⟩ := decoded_well_formed bytes decoded
    rw [decode_utf8] at decoded
    exact ⟨chars,rfl,Option.some.inj decoded⟩
  · rintro ⟨chars,rfl,rfl⟩
    exact decode_utf8 chars

theorem length_units (c : Char) (rest : Units) : utf8Length (unitsOf c.toNat ++ rest) = (String.utf8EncodeChar c).length + utf8Length rest := by
  have bounds := scalar_bounds c
  generalize written : String.utf8EncodeChar c = bytes
  cases (encoded_iff c bytes).mpr written with
  | one small lead =>
      have same := unit_low (n := c.toNat) (by omega)
      rw [unitsOf,if_neg (by omega),List.singleton_append,utf8Length.eq_def]
      simp only [same,if_pos small,List.length_singleton]
      omega
  | two large small lead first =>
      have same := unit_low (n := c.toNat) (by omega)
      rw [unitsOf,if_neg (by omega),List.singleton_append,utf8Length.eq_def]
      simp only [same,if_neg (show ¬c.toNat < 0x80 by omega),if_pos small,List.length_cons,List.length_nil]
      omega
  | three large small lead first second =>
      have same := unit_low (n := c.toNat) (by omega)
      rw [unitsOf,if_neg (by omega),List.singleton_append,utf8Length.eq_def]
      simp only [same,if_neg (show ¬c.toNat < 0x80 by omega),if_neg (show ¬c.toNat < 0x800 by omega),
        if_neg (show ¬(0xd800 ≤ c.toNat ∧ c.toNat ≤ 0xdbff) by omega),List.length_cons,List.length_nil]
      omega
  | four large lead first second third =>
      have same := unit_low (n := 0xd800 + (c.toNat - 0x10000) / 1024) (by omega)
      rw [unitsOf,if_pos (by omega),List.cons_append,List.singleton_append,utf8Length.eq_def]
      simp only [same,if_neg (show ¬0xd800 + (c.toNat - 0x10000) / 1024 < 0x80 by omega),
        if_neg (show ¬0xd800 + (c.toNat - 0x10000) / 1024 < 0x800 by omega),
        if_pos (show 0xd800 ≤ 0xd800 + (c.toNat - 0x10000) / 1024 ∧ 0xd800 + (c.toNat - 0x10000) / 1024 ≤ 0xdbff by omega),
        List.length_cons,List.length_nil]
      omega

theorem length_utf16 (text : List Char) : utf8Length (utf16 text) = (utf8 text).length := by
  induction text with
  | nil => rfl
  | cons c text ih => rw [utf16_cons,length_units,ih,utf8_cons,List.length_append]

theorem decoding_strict (bytes : Bytes) :
    ((decodeAsText bytes).isSome = true ↔ 0 ∉ bytes.take sample ∧ WellFormed (unmarked bytes)) ∧
      ∀ text, decodeAsText bytes = some text → encode text = unmarked bytes ∧ utf8Length text = (unmarked bytes).length := by
  unfold decodeAsText
  split
  next binary => exact ⟨by simp [binary],nofun⟩
  next textual =>
    refine ⟨?_,?_⟩
    · rw [Option.isSome_iff_exists]
      constructor
      · rintro ⟨text,decoded⟩
        exact ⟨textual,decoded_well_formed _ decoded⟩
      · rintro ⟨_,chars,same⟩
        exact ⟨utf16 chars,(decode_iff _ _).mpr ⟨chars,same,rfl⟩⟩
    · intro text decoded
      obtain ⟨chars,same,rfl⟩ := (decode_iff _ _).mp decoded
      exact ⟨(encode_utf16 chars).trans same,(length_utf16 chars).trans (congrArg List.length same)⟩

theorem decoding_strict_pair : decodeAsText [0xef,0xbb,0xbf,0x61,0xf0,0x9f,0x98,0x80] = some [0x61,0xd83d,0xde00] ∧
    encode [0x61,0xd83d,0xde00] = [0x61,0xf0,0x9f,0x98,0x80] ∧ utf8Length [0x61,0xd83d,0xde00] = 5 :=
  ⟨by decide,(decoding_strict [0xef,0xbb,0xbf,0x61,0xf0,0x9f,0x98,0x80]).2 _ (by decide)⟩

end RemoteFileExplorer.TextDecodes
