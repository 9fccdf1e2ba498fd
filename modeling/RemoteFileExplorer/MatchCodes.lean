import RemoteFileExplorer.ByteStreams
import RemoteFileExplorer.CodeUnits
import RemoteFileExplorer.JsonTexts
import RemoteFileExplorer.Numerals

namespace RemoteFileExplorer.MatchCodes
open ByteStreams CodeUnits JsonTexts Numerals

-- HMAC-SHA-256: the digest of a key and a message.
variable (hmac : List UInt8 → List UInt8 → List UInt8)

def label : Text := "rfe-pair-sas\n".toList

-- Both libraries take the digits of either case, two for a byte, and nothing else.
def hexDecode : Text → Option (List UInt8)
  | [] => some []
  | [_] => none
  | high::low::rest => do
    let x ← hexValue high
    let y ← hexValue low
    let bytes ← hexDecode rest
    some (UInt8.ofNat (16 * x + y)::bytes)

-- %04d
def padded (width n : Nat) : Text := List.replicate (width - (Nat.toDigits 10 n).length) '0' ++ Nat.toDigits 10 n

def message (nonce : List UInt8) (requestID : Text) : List UInt8 := utf8 label ++ nonce ++ utf8 requestID

-- Eight bytes read as an unsigned number of 64 bits, then the reduction.
def reduced (digest : List UInt8) : UInt64 := UInt64.ofNat (fromBE (digest.take 8)) % 100000000

def shown (n : UInt64) : Text := padded 4 (n / 10000).toNat ++ ' '::padded 4 (n % 10000).toNat

inductive Refusal where
  | badFingerprint
  | badNonce
  deriving DecidableEq,Repr

def Refusal.message : Refusal → String
  | .badFingerprint => "bad fingerprint"
  | .badNonce => "bad client nonce"

def SAS (fingerprintHex clientNonceHex requestID : Text) : Except Refusal Text :=
  match hexDecode fingerprintHex with
  | none => .error .badFingerprint
  | some fp =>
    if fp.length ≠ 32 then .error .badFingerprint else
    match hexDecode clientNonceHex with
    | none => .error .badNonce
    | some nonce => if nonce.length ≠ 16 then .error .badNonce else .ok (shown (reduced (hmac fp (message nonce requestID))))

def isAsciiHex (c : Char) : Bool := (hexValue c).isSome

def normalize_fingerprint (s : Text) : Text := (s.filter isAsciiHex).map Char.toLower

def match_code (fingerprint_hex client_nonce_hex request_id : Text) : Except Refusal Text :=
  match (hexDecode (normalize_fingerprint fingerprint_hex)).filter (·.length == 32) with
  | none => .error .badFingerprint
  | some fp =>
    match (hexDecode client_nonce_hex).filter (·.length == 16) with
    | none => .error .badNonce
    | some nonce => .ok (shown (reduced (hmac fp (message nonce request_id))))

def isLineEnd (u : UInt16) : Bool := u == 0x0a || u == 0x0d || u == 0x2028 || u == 0x2029

def pairs : Units → List Units
  | [] => []
  | [_] => []
  | a::b::rest => if isLineEnd a then pairs (b::rest) else if isLineEnd b then pairs rest else [a,b]::pairs rest

def unitHex (u : UInt16) : Option Nat := hexValue (Char.ofNat u.toNat)

def digitsValue (digits : Units) : Nat := digits.foldl (fun n u => 16 * n + (unitHex u).getD 0) 0

-- parseInt with radix 16; `none` is no number.
def parseInt (text : Units) : Option Int :=
  let text := text.dropWhile isWhite
  let sign : Int := if text.head? = some 0x2d then -1 else 1
  let text := if text.head? = some 0x2d ∨ text.head? = some 0x2b then text.drop 1 else text
  let text := if text.head? = some 0x30 ∧ (text[1]? = some 0x78 ∨ text[1]? = some 0x58) then text.drop 2 else text
  let digits := text.takeWhile fun u => (unitHex u).isSome
  if digits = [] then none else some (sign * digitsValue digits)

-- An element of an array of bytes takes the number modulo 256 and zero for none.
def toUint8 (n : Option Int) : UInt8 := UInt8.ofNat ((n.getD 0) % 256).toNat

def hexToBytes (h : Units) : List UInt8 := (pairs h).map fun b => toUint8 (parseInt b)

-- The number of a big integer: 53 bits, the nearest with ties to even.
def toNumber (n : Nat) : Nat :=
  let extra := n.log2 - 52
  let low := n % 2^extra
  let high := n / 2^extra
  let up := 2^extra < 2 * low ∨ 2^extra = 2 * low ∧ high % 2 = 1
  if up then (high + 1) * 2^extra else high * 2^extra

def bigNumber (d : List UInt8) : Nat :=
  let at_ i := (d.getD i 0).toNat
  at_ 0 <<< 56 ||| at_ 1 <<< 48 ||| at_ 2 <<< 40 ||| at_ 3 <<< 32 ||| at_ 4 <<< 24 ||| at_ 5 <<< 16 ||| at_ 6 <<< 8 ||| at_ 7

def matchCode (fingerprintHex clientNonceHex requestId : Units) : Text :=
  let d := hmac (hexToBytes fingerprintHex) (encode (utf16 label) ++ hexToBytes clientNonceHex ++ encode requestId)
  let s := padded 8 (toNumber (bigNumber d % 100000000))
  s.take 4 ++ ' '::s.drop 4

def code (n : Nat) : Text := fixed 4 (n / 10000) ++ ' '::fixed 4 n

theorem fixed_mod (width n : Nat) : fixed width (n % 10 ^ width) = fixed width n := by
  induction width generalizing n with
  | zero => rfl
  | succ width ih =>
    have front : n % 10 ^ (width + 1) / 10 = n / 10 % 10 ^ width := by
      rw [Nat.pow_succ,Nat.mul_comm,Nat.mod_mul_right_div_self]
    have last : n % 10 ^ (width + 1) % 10 = n % 10 := Nat.mod_mod_of_dvd n ⟨10 ^ width,Nat.pow_succ'⟩
    rw [fixed,fixed,front,last,ih]

theorem fixed_append (width more n : Nat) : fixed (width + more) n = fixed width (n / 10 ^ more) ++ fixed more n := by
  induction more generalizing n with
  | zero => simp [fixed]
  | succ more ih => rw [← Nat.add_assoc,fixed,fixed,ih,Nat.div_div_eq_div_mul,List.append_assoc,Nat.pow_succ,Nat.mul_comm 10]

theorem byte_below (b : UInt8) : b.toNat < 2 ^ 8 := b.toNat_lt

theorem shift_or (n : Nat) (b : UInt8) : n <<< 8 ||| b.toNat = n * 256 + b.toNat := by
  rw [← Nat.shiftLeft_add_eq_or_of_lt (byte_below b),Nat.shiftLeft_eq]

theorem fromBE_below (bytes : List UInt8) : fromBE bytes < 256 ^ bytes.length := by
  induction bytes using List.reverseRecOn with
  | nil => decide
  | append_singleton bytes b ih =>
    rw [fromBE,List.foldl_append,List.length_append,List.length_singleton,Nat.pow_succ]
    change fromBE bytes * 256 + b.toNat < _
    have := byte_below b
    omega

theorem reduced_exact {digest : List UInt8} (long : digest.length = 32) : (reduced digest).toNat = fromBE (digest.take 8) % 100000000 := by
  have fits : fromBE (digest.take 8) < 2 ^ 64 := by
    have below := fromBE_below (digest.take 8)
    rw [List.length_take,long] at below
    exact below
  rw [reduced,UInt64.toNat_mod,UInt64.toNat_ofNat_of_lt' fits]
  rfl

theorem shown_code {digest : List UInt8} (long : digest.length = 32) :
    shown (reduced digest) = code (fromBE (digest.take 8) % 100000000) := by
  have small : fromBE (digest.take 8) % 100000000 < 100000000 := Nat.mod_lt _ (by decide)
  rw [shown,UInt64.toNat_div,UInt64.toNat_mod,reduced_exact long,code]
  generalize fromBE (digest.take 8) % 100000000 = n at small
  have front : padded 4 (n / 10000) = fixed 4 (n / 10000) := padded_fixed (by omega)
  have back : padded 4 (n % 10000) = fixed 4 (n % 10 ^ 4) := padded_fixed (Nat.mod_lt _ (by decide))
  rw [fixed_mod] at back
  exact congrArg₂ (· ++ ' '::·) front back

theorem toNumber_exact (small : n < 2 ^ 53) : toNumber n = n := by
  have extra : n.log2 - 52 = 0 := by
    by_cases zero : n = 0
    · rw [zero,Nat.log2_zero]
    · have := (Nat.log2_lt zero).mpr small
      omega
  unfold toNumber
  rw [extra]
  simp [Nat.mod_one]

theorem big_exact {digest : List UInt8} (long : digest.length = 32) : bigNumber digest = fromBE (digest.take 8) := by
  match digest,long with
  | a::b::c::d::e::f::g::h::rest,_ =>
    change _ = ((((((((0 * 256 + a.toNat) * 256 + b.toNat) * 256 + c.toNat) * 256 + d.toNat) * 256 + e.toNat) * 256 + f.toNat) * 256 + g.toNat) * 256 + h.toNat)
    rw [Nat.zero_mul,Nat.zero_add]
    simp only [← shift_or,Nat.shiftLeft_or_distrib,← Nat.shiftLeft_add]
    rfl

section Hex
variable {text : Text} {bytes : List UInt8}

theorem hexDecode_pair {high low : Char} (decoded : hexDecode (high::low::text) = some bytes) :
    ∃ x y rest, hexValue high = some x ∧ hexValue low = some y ∧ hexDecode text = some rest ∧ bytes = UInt8.ofNat (16 * x + y)::rest := by
  obtain ⟨x,first,decoded⟩ := Option.bind_eq_some_iff.mp decoded
  obtain ⟨y,second,decoded⟩ := Option.bind_eq_some_iff.mp decoded
  obtain ⟨rest,tail,same⟩ := Option.bind_eq_some_iff.mp decoded
  exact ⟨x,y,rest,first,second,tail,(Option.some.inj same).symm⟩

-- What is looked at for each number below 103 holds of each digit.
@[elab_as_elim]
theorem hex_all {P : Char → Prop} (all : ∀ n < 103, hexValue (Char.ofNat n) ≠ none → P (Char.ofNat n)) {c : Char} (value : hexValue c = some x) : P c := by
  have small : c.toNat < 103 := by
    have below {d : Char} (least : c ≤ d) : c.toNat ≤ d.toNat := UInt32.le_iff_toNat_le.mp (Char.le_def.mp least)
    unfold hexValue at value
    split at value
    · rename_i digit
      have := below (of_decide_eq_true (Bool.and_eq_true_iff.mp digit).2)
      exact Nat.lt_of_le_of_lt this (by decide)
    · split at value
      · rename_i letter
        exact Nat.lt_of_le_of_lt (below letter.2) (by decide)
      · split at value
        · rename_i letter
          exact Nat.lt_of_le_of_lt (below letter.2) (by decide)
        · cases value
  have holds := all c.toNat small
  rw [Char.ofNat_toNat c] at holds
  exact holds (by rw [value]; exact Option.some_ne_none x)

theorem hex_lower {c : Char} (value : hexValue c = some x) : hexValue c.toLower = some x := by
  rw [← value]
  refine hex_all ?_ value
  decide

theorem hex_unit {c : Char} (value : hexValue c = some x) : unitsOf c.toNat = [UInt16.ofNat c.toNat] ∧ unitHex (UInt16.ofNat c.toNat) = some x ∧
    isLineEnd (UInt16.ofNat c.toNat) = false ∧ isWhite (UInt16.ofNat c.toNat) = false ∧ UInt16.ofNat c.toNat ∉ [(0x2d : UInt16),0x2b,0x78,0x58] := by
  rw [← value]
  refine hex_all ?_ value
  decide

theorem parseInt_pair {high low : Char} (first : hexValue high = some x) (second : hexValue low = some y) :
    parseInt [UInt16.ofNat high.toNat,UInt16.ofNat low.toNat] = some ((16 * x + y : Nat) : Int) := by
  obtain ⟨_,front,_,white,apart⟩ := hex_unit first
  obtain ⟨_,back,_,_,other⟩ := hex_unit second
  generalize UInt16.ofNat high.toNat = a at *
  generalize UInt16.ofNat low.toNat = b at *
  simp only [List.mem_cons,List.not_mem_nil,or_false,not_or] at apart other
  have digits : [a,b].takeWhile (fun u => (unitHex u).isSome) = [a,b] := by simp [List.takeWhile,front,back]
  simp [parseInt,white,apart,other,digits,digitsValue,front,back]

theorem normalize_hex (decoded : hexDecode text = some bytes) : hexDecode (normalize_fingerprint text) = some bytes := by
  induction text using hexDecode.induct generalizing bytes with
  | case1 => exact decoded
  | case2 => cases decoded
  | case3 high low text ih =>
    obtain ⟨x,y,rest,first,second,tail,rfl⟩ := hexDecode_pair decoded
    have front : isAsciiHex high = true := by rw [isAsciiHex,first]; rfl
    have back : isAsciiHex low = true := by rw [isAsciiHex,second]; rfl
    have later := ih tail
    rw [normalize_fingerprint] at later ⊢
    rw [List.filter_cons_of_pos front,List.filter_cons_of_pos back,List.map_cons,List.map_cons,hexDecode,hex_lower first,hex_lower second,later]
    rfl

theorem hexToBytes_decoded (decoded : hexDecode text = some bytes) : hexToBytes (utf16 text) = bytes := by
  induction text using hexDecode.induct generalizing bytes with
  | case1 =>
    cases decoded
    rfl
  | case2 => cases decoded
  | case3 high low text ih =>
    obtain ⟨x,y,rest,first,second,tail,rfl⟩ := hexDecode_pair decoded
    have later := ih tail
    obtain ⟨single,_,line,_,_⟩ := hex_unit first
    obtain ⟨alone,_,ends,_,_⟩ := hex_unit second
    have value : toUint8 (parseInt [UInt16.ofNat high.toNat,UInt16.ofNat low.toNat]) = UInt8.ofNat (16 * x + y) := by
      rw [parseInt_pair first second,toUint8,Option.getD_some,← UInt8.toNat_inj,UInt8.toNat_ofNat',UInt8.toNat_ofNat']
      omega
    unfold hexToBytes at later ⊢
    rw [utf16_cons,utf16_cons,single,alone,List.singleton_append,List.singleton_append,pairs,line,ends]
    simp only [Bool.false_eq_true,if_false,List.map_cons]
    rw [value,later]

end Hex

section Codes
variable {fingerprint nonce : Text} {fp bytes : List UInt8} {hmac}

section
variable (requestId : Text) (digests : ∀ key message, (hmac key message).length = 32) (certificate : hexDecode fingerprint = some fp)
include requestId digests certificate

theorem SAS_code (whole : fp.length = 32) (drawn : hexDecode nonce = some bytes) (sixteen : bytes.length = 16) :
    SAS hmac fingerprint nonce requestId = .ok (code (fromBE ((hmac fp (message bytes requestId)).take 8) % 100000000)) := by
  rw [SAS,certificate,drawn]
  simp only [whole,sixteen,ne_eq,not_true_eq_false,if_false]
  rw [shown_code (digests _ _)]

theorem match_code_code (whole : fp.length = 32) (drawn : hexDecode nonce = some bytes) (sixteen : bytes.length = 16) :
    match_code hmac fingerprint nonce requestId = .ok (code (fromBE ((hmac fp (message bytes requestId)).take 8) % 100000000)) := by
  rw [match_code,normalize_hex certificate,drawn]
  simp only [Option.filter_some,whole,sixteen,beq_self_eq_true,if_true]
  rw [shown_code (digests _ _)]

theorem matchCode_code (drawn : hexDecode nonce = some bytes) :
    matchCode hmac (utf16 fingerprint) (utf16 nonce) (utf16 requestId) = code (fromBE ((hmac fp (message bytes requestId)).take 8) % 100000000) := by
  rw [matchCode,hexToBytes_decoded certificate,hexToBytes_decoded drawn,encode_utf16,encode_utf16,← message,big_exact (digests _ _)]
  have small : fromBE ((hmac fp (message bytes requestId)).take 8) % 100000000 < 10 ^ 8 := Nat.mod_lt _ (by decide)
  generalize fromBE ((hmac fp (message bytes requestId)).take 8) % 100000000 = n at small
  have whole : padded 8 (toNumber n) = fixed 4 (n / 10 ^ 4) ++ fixed 4 n := by
    rw [toNumber_exact (by omega),← fixed_append]
    exact padded_fixed small
  rw [whole,List.take_left' (fixed_length 4 _),List.drop_left' (fixed_length 4 _)]
  rfl

end

end Codes

-- The three codes are the first 64 bits of the digest modulo 10^8.
theorem codes_agree {fingerprint nonce : Text} (requestId : Text) {fp bytes : List UInt8} (digests : ∀ key message, (hmac key message).length = 32)
    (certificate : hexDecode fingerprint = some fp) (whole : fp.length = 32) (drawn : hexDecode nonce = some bytes) (sixteen : bytes.length = 16) :
    ∃ front back, SAS hmac fingerprint nonce requestId = .ok (front ++ ' '::back) ∧ match_code hmac fingerprint nonce requestId = .ok (front ++ ' '::back) ∧
      matchCode hmac (utf16 fingerprint) (utf16 nonce) (utf16 requestId) = front ++ ' '::back ∧ front.length = 4 ∧ back.length = 4 ∧
      (∀ c ∈ front ++ back, c.isDigit = true) ∧ value (front ++ back) = fromBE ((hmac fp (message bytes requestId)).take 8) % 10 ^ 8 := by
  have agent := SAS_code requestId digests certificate whole drawn sixteen
  have desktop := match_code_code requestId digests certificate whole drawn sixteen
  have phone := matchCode_code requestId digests certificate drawn
  have small : fromBE ((hmac fp (message bytes requestId)).take 8) % 100000000 < 10 ^ 8 := Nat.mod_lt _ (by decide)
  refine ⟨_,_,agent,desktop,phone,fixed_length 4 _,fixed_length 4 _,?_,?_⟩
  · rw [List.forall_mem_append]
    exact ⟨fixed_digits 4 _,fixed_digits 4 _⟩
  · exact (congrArg value (fixed_append 4 4 _).symm).trans (value_fixed small)

def sampleDigest : List UInt8 :=
  [89,70,254,94,126,79,221,138,49,63,78,8,204,151,195,19,152,190,187,116,193,191,211,187,116,203,242,131,90,236,152,71]

def sampleFingerprint : Text := "000102030405060708090A0b0C0d0E0f101112131415161718191A1b1C1d1E1f".toList
def sampleNonce : Text := "000102030405060708090a0b0c0d0e0f".toList

theorem codes_agree_sample : ∃ front back, match_code (fun _ _ => sampleDigest) sampleFingerprint sampleNonce "r1".toList = .ok (front ++ ' '::back) ∧
    matchCode (fun _ _ => sampleDigest) (utf16 sampleFingerprint) (utf16 sampleNonce) (utf16 "r1".toList) = front ++ ' '::back ∧ value (front ++ back) = 44876426 := by
  have certificate : hexDecode sampleFingerprint = some ((List.range 32).map UInt8.ofNat) := by decide
  have drawn : hexDecode sampleNonce = some ((List.range 16).map UInt8.ofNat) := by decide
  obtain ⟨front,back,_,desktop,phone,_,_,_,number⟩ :=
    codes_agree (fun _ _ => sampleDigest) "r1".toList (fun _ _ => rfl) certificate rfl drawn rfl
  exact ⟨front,back,desktop,phone,number.trans (by decide)⟩

end RemoteFileExplorer.MatchCodes
