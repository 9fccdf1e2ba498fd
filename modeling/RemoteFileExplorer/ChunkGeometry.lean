import Mathlib
import RemoteFileExplorer.FixedWidths
import RemoteFileExplorer.PhoneUploads
import RemoteFileExplorer.DesktopUploads

namespace RemoteFileExplorer.ChunkGeometry
open FixedWidths Transfers

-- openSession: `int` has 64 bits.
def openTotal (size chunkSize : Int) : Option Int := do
  let above ← int64.add size chunkSize
  let above ← int64.sub above 1
  let totalChunks ← int64.div above chunkSize
  pure (if totalChunks = 0 then 1 else totalChunks)

-- ExpectedChunkLen
def agentLen (totalSize chunkSize totalChunks n : Int) : Option Int :=
  if n < 0 ∨ n ≥ totalChunks then some (-1) else
  if chunkSize ≤ 0 then some (-1) else do
  let start ← int64.mul n chunkSize
  let remaining ← int64.sub totalSize start
  pure (if remaining < 0 then -1 else if remaining > chunkSize then chunkSize else remaining)

-- u64::div_ceil
def divCeil (a b : Int) : Option Int := do
  let d ← uint64.div a b
  if a % b > 0 then uint64.add d 1 else some d

-- expected_chunks
def desktopTotal (size chunk : Int) : Option Int := (divCeil size (max chunk 1)).map (max · 1)

-- chunk_len; the difference saturates at zero.
def desktopLen (size chunkSize n : Int) : Option Int := do
  let start ← uint64.mul n chunkSize
  pure (min (max (size - start) 0) chunkSize)

-- chunkLen: `n`, `chunk` and `total` have 32 bits, the sizes 64.
def phoneLen (n size chunk total : Int) : Option Int :=
  if size = 0 then some 0 else do
  let last ← int32.sub total 1
  if n = last then do
    let start ← int64.mul n chunk
    int64.sub size start
  else some chunk

-- JSONObject.getInt keeps the low 32 bits of a longer number.
def phoneTotal (totalChunks : Int) : Int := toInt32 totalChunks

structure Admitted (size chunkSize : Int) : Prop where
  given : 0 ≤ size
  bounded : size ≤ maxTransferSize
  positive : 0 < chunkSize
  small : chunkSize ≤ maxChunkSize

-- The intervals the chunks of a file stand in: none empty unless the file is,
-- no two with a byte in common, and every byte of the file in one.
structure Tiles (size chunkSize total : Int) (len : Int → Int) : Prop where
  filled : size ≠ 0 → ∀ n, 0 ≤ n → n < total → 0 < len n
  apart : ∀ m n, 0 ≤ m → m < total → 0 ≤ n → n < total → m ≠ n →
    Disjoint (Set.Ico (m * chunkSize) (m * chunkSize + len m)) (Set.Ico (n * chunkSize) (n * chunkSize + len n))
  covers : ∀ x, (0 ≤ x ∧ x < size) ↔ ∃ n, 0 ≤ n ∧ n < total ∧ x ∈ Set.Ico (n * chunkSize) (n * chunkSize + len n)

def length (size chunkSize n : Int) : Int := min (size - n * chunkSize) chunkSize

section Chunks
variable {size chunkSize total n : Int}

section
variable (admitted : Admitted size chunkSize)
include admitted

theorem total_spans : 1 ≤ totalChunksOf size chunkSize ∧ totalChunksOf size chunkSize ≤ size + 1 ∧
    size ≤ totalChunksOf size chunkSize * chunkSize ∧ (size ≠ 0 → (totalChunksOf size chunkSize - 1) * chunkSize < size) := by
  obtain ⟨given,bounded,positive,small⟩ := admitted
  have quotient := Int.mul_ediv_add_emod (size + chunkSize - 1) chunkSize
  have low := Int.emod_nonneg (size + chunkSize - 1) (Int.ne_of_gt positive)
  have high := Int.emod_lt_of_pos (size + chunkSize - 1) positive
  have least : 0 ≤ (size + chunkSize - 1) / chunkSize := Int.ediv_nonneg (by omega) (Int.le_of_lt positive)
  unfold totalChunksOf
  simp only
  generalize (size + chunkSize - 1) / chunkSize = chunks at *
  rw [Int.mul_comm] at quotient
  split
  · rename_i none_
    rw [none_,Int.zero_mul] at quotient
    refine ⟨by omega,by omega,by omega,?_⟩
    omega
  · have back : (chunks - 1) * chunkSize = chunks * chunkSize - chunkSize := by rw [Int.sub_mul,Int.one_mul]
    refine ⟨by omega,?_,by omega,fun _ => by omega⟩
    by_contra many
    have rows : (size + 1) * 1 ≤ (chunks - 1) * chunkSize := Int.mul_le_mul (by omega) (by omega) (by omega) (by omega)
    omega

theorem openTotal_eq : openTotal size chunkSize = some (totalChunksOf size chunkSize) := by
  obtain ⟨given,bounded,positive,small⟩ := admitted
  unfold maxTransferSize at bounded
  unfold maxChunkSize at small
  have sum : int64.add size chunkSize = some (size + chunkSize) := check_holds (by unfold int64 Width.Holds; simp only; omega)
  have less : int64.sub (size + chunkSize) 1 = some (size + chunkSize - 1) := check_holds (by unfold int64 Width.Holds; simp only; omega)
  have quotient : int64.div (size + chunkSize - 1) chunkSize = some ((size + chunkSize - 1) / chunkSize) :=
    div_holds (by omega) positive (by decide) (by unfold int64; simp only; omega)
  unfold openTotal totalChunksOf
  simp [sum,less,quotient]

theorem start_within (low : 0 ≤ n) (high : n < totalChunksOf size chunkSize) :
    0 ≤ n * chunkSize ∧ n * chunkSize ≤ size ∧ (size ≠ 0 → n * chunkSize < size) := by
  obtain ⟨least,most,_,last⟩ := total_spans admitted
  have positive := admitted.positive
  have given := admitted.given
  have start : 0 ≤ n * chunkSize := Int.mul_nonneg low (Int.le_of_lt positive)
  have bound : n * chunkSize ≤ (totalChunksOf size chunkSize - 1) * chunkSize := Int.mul_le_mul_of_nonneg_right (by omega) (Int.le_of_lt positive)
  by_cases empty : size = 0
  · have first : n = 0 := by omega
    rw [first,Int.zero_mul]
    exact ⟨Int.le_refl _,given,fun some_ => absurd empty some_⟩
  · exact ⟨start,by omega,fun _ => by omega⟩

theorem start_product (low : 0 ≤ n) (high : n < totalChunksOf size chunkSize) :
    int64.mul n chunkSize = some (n * chunkSize) ∧ uint64.mul n chunkSize = some (n * chunkSize) ∧
      int64.sub size (n * chunkSize) = some (size - n * chunkSize) := by
  obtain ⟨start,within,_⟩ := start_within admitted low high
  have bounded := admitted.bounded
  unfold maxTransferSize at bounded
  refine ⟨check_holds ?_,check_holds ?_,check_holds ?_⟩
  · unfold int64 Width.Holds
    simp only
    omega
  · unfold uint64 Width.Holds
    simp only
    omega
  · unfold int64 Width.Holds
    simp only
    omega

theorem agentLen_eq (low : 0 ≤ n) (high : n < totalChunksOf size chunkSize) :
    agentLen size chunkSize (totalChunksOf size chunkSize) n = some (length size chunkSize n) := by
  obtain ⟨_,within,_⟩ := start_within admitted low high
  obtain ⟨product,_,rest⟩ := start_product admitted low high
  have positive := admitted.positive
  unfold agentLen length
  rw [if_neg (by omega),if_neg (by omega),product]
  simp only [Option.bind_eq_bind,Option.bind_some,rest,Option.pure_def,Option.some.injEq]
  split <;> omega

theorem divCeil_eq : divCeil size chunkSize = some ((size + chunkSize - 1) / chunkSize) := by
  obtain ⟨given,bounded,positive,small⟩ := admitted
  unfold maxTransferSize at bounded
  have quotient : uint64.div size chunkSize = some (size / chunkSize) := div_holds given positive (by decide) (by unfold uint64; simp only; omega)
  have least : 0 ≤ size / chunkSize := Int.ediv_nonneg given (Int.le_of_lt positive)
  have most : size / chunkSize ≤ size := Int.ediv_le_self chunkSize given
  have whole := Int.mul_ediv_add_emod size chunkSize
  have low := Int.emod_nonneg size (Int.ne_of_gt positive)
  have high := Int.emod_lt_of_pos size positive
  have shifted : ∀ r c, 0 ≤ r → r < chunkSize → size + chunkSize - 1 = r + chunkSize * c → (size + chunkSize - 1) / chunkSize = c := by
    intro r c above below same
    rw [same,Int.add_mul_ediv_left _ _ (Int.ne_of_gt positive),Int.ediv_eq_zero_of_lt above below,Int.zero_add]
  unfold divCeil
  rw [quotient,Option.bind_eq_bind,Option.bind_some]
  split
  · rw [shifted (size % chunkSize - 1) (size / chunkSize + 1) (by omega) (by omega) (by rw [Int.mul_add]; omega)]
    exact check_holds (by unfold uint64 Width.Holds; simp only; omega)
  · rw [shifted (chunkSize - 1) (size / chunkSize) (by omega) (by omega) (by omega)]

theorem desktopTotal_eq : desktopTotal size chunkSize = some (totalChunksOf size chunkSize) := by
  have positive := admitted.positive
  have same : max chunkSize 1 = chunkSize := by omega
  have least : 0 ≤ (size + chunkSize - 1) / chunkSize := Int.ediv_nonneg (by have := admitted.given; omega) (Int.le_of_lt positive)
  unfold desktopTotal totalChunksOf
  rw [same,divCeil_eq admitted,Option.map_some]
  simp only
  split <;> congr 1 <;> omega

theorem desktopLen_eq (low : 0 ≤ n) (high : n < totalChunksOf size chunkSize) :
    desktopLen size chunkSize n = some (length size chunkSize n) := by
  obtain ⟨_,within,_⟩ := start_within admitted low high
  obtain ⟨_,product,_⟩ := start_product admitted low high
  unfold desktopLen length
  rw [product,Option.bind_eq_bind,Option.bind_some,Option.pure_def]
  congr 2
  omega

theorem phoneLen_eq (few : totalChunksOf size chunkSize < 2^31) (low : 0 ≤ n) (high : n < totalChunksOf size chunkSize) :
    phoneLen n size chunkSize (totalChunksOf size chunkSize) = some (length size chunkSize n) := by
  obtain ⟨start,within,_⟩ := start_within admitted low high
  obtain ⟨product,_,rest⟩ := start_product admitted low high
  obtain ⟨least,_,whole,last⟩ := total_spans admitted
  have positive := admitted.positive
  have back : int32.sub (totalChunksOf size chunkSize) 1 = some (totalChunksOf size chunkSize - 1) :=
    check_holds (by unfold int32 Width.Holds; simp only; omega)
  unfold phoneLen length
  split
  · congr 1
    omega
  · rw [back,Option.bind_eq_bind,Option.bind_some]
    split
    · have next : totalChunksOf size chunkSize * chunkSize = n * chunkSize + chunkSize := by
        rw [show totalChunksOf size chunkSize = n + 1 by omega,Int.add_mul,Int.one_mul]
      rw [product,Option.bind_some,rest]
      congr 1
      omega
    · have more : (n + 1) * chunkSize ≤ (totalChunksOf size chunkSize - 1) * chunkSize :=
        Int.mul_le_mul_of_nonneg_right (by omega) (Int.le_of_lt positive)
      rw [Int.add_mul,Int.one_mul] at more
      congr 1
      omega

end

theorem expectedChunkLen_machine (admitted : Admitted t.totalSize t.chunkSize) (total : t.totalChunks = totalChunksOf t.totalSize t.chunkSize)
    (low : 0 ≤ n) (high : n < t.totalChunks) : agentLen t.totalSize t.chunkSize t.totalChunks n = some (expectedChunkLen t n) := by
  have positive := admitted.positive
  rw [total] at high ⊢
  obtain ⟨_,within,_⟩ := start_within admitted low high
  rw [agentLen_eq admitted low high]
  unfold expectedChunkLen length
  simp only
  split <;> congr 1 <;> omega

theorem expectedChunks_machine {size chunkSize : Nat} (admitted : Admitted size chunkSize) :
    desktopTotal size chunkSize = some (DesktopUploads.expectedChunks size chunkSize : Int) := by
  have positive := admitted.positive
  rw [desktopTotal_eq admitted]
  unfold DesktopUploads.expectedChunks totalChunksOf
  have same : max chunkSize 1 = chunkSize := by omega
  have above : ((size + chunkSize - 1 : Nat) : Int) = (size : Int) + chunkSize - 1 := by omega
  have quotient : (((size + chunkSize - 1) / chunkSize : Nat) : Int) = ((size : Int) + chunkSize - 1) / chunkSize := by
    rw [Int.natCast_ediv,above]
  rw [same]
  simp only
  rw [← quotient]
  generalize (size + chunkSize - 1) / chunkSize = chunks
  split <;> congr 1 <;> omega

theorem chunkLen_machine {n : Nat} (admitted : Admitted source.length saved.chunkSize)
    (high : (n : Int) < totalChunksOf source.length saved.chunkSize) :
    desktopLen source.length saved.chunkSize n = some (DesktopUploads.chunkLen source saved n : Int) := by
  rw [desktopLen_eq admitted (Int.natCast_nonneg n) high]
  obtain ⟨_,within,_⟩ := start_within admitted (Int.natCast_nonneg n) high
  unfold DesktopUploads.chunkLen length
  congr 1
  omega

theorem phone_machine {n : Nat} (admitted : Admitted u.source.length session.chunkSize)
    (total : session.totalChunks = totalChunksOf u.source.length session.chunkSize) (few : session.totalChunks < 2^31) (high : (n : Int) < session.totalChunks) :
    phoneLen n u.source.length session.chunkSize session.totalChunks = some (PhoneUploads.chunkLen u session n) := by
  rw [total] at few high ⊢
  obtain ⟨product,_,rest⟩ := start_product admitted (Int.natCast_nonneg n) high
  have back : int32.sub (totalChunksOf u.source.length session.chunkSize) 1 = some (totalChunksOf u.source.length session.chunkSize - 1) :=
    check_holds (by unfold int32 Width.Holds; simp only; omega)
  unfold phoneLen PhoneUploads.chunkLen
  rw [total,back,Option.bind_eq_bind,Option.bind_some]
  by_cases empty : u.source.length = 0
  · rw [if_pos (by omega),if_pos empty]
  · rw [if_neg (by omega),if_neg empty]
    split
    · rw [product,Option.bind_some,rest]
    · rfl

theorem ends_before (positive : 0 < chunkSize) (earlier : m < n) : m * chunkSize + length size chunkSize m ≤ n * chunkSize := by
  have more : (m + 1) * chunkSize ≤ n * chunkSize := Int.mul_le_mul_of_nonneg_right (by omega) (Int.le_of_lt positive)
  rw [Int.add_mul,Int.one_mul] at more
  unfold length
  omega

theorem length_tiles (admitted : Admitted size chunkSize) : Tiles size chunkSize (totalChunksOf size chunkSize) (length size chunkSize) := by
  have positive := admitted.positive
  refine ⟨?_,?_,?_⟩
  · intro given n low high
    obtain ⟨_,_,inside⟩ := start_within admitted low high
    unfold length
    omega
  · intro m n _ _ _ _ different
    rw [Set.disjoint_left]
    intro x one two
    rcases Int.lt_or_gt_of_ne different with earlier | later
    · have := @ends_before size chunkSize n m positive earlier
      have := one.2
      have := two.1
      omega
    · have := @ends_before size chunkSize m n positive later
      have := one.1
      have := two.2
      omega
  · intro x
    obtain ⟨_,_,whole,_⟩ := total_spans admitted
    constructor
    · rintro ⟨low,high⟩
      have parts := Int.mul_ediv_add_emod x chunkSize
      have below := Int.emod_nonneg x (Int.ne_of_gt positive)
      have above := Int.emod_lt_of_pos x positive
      rw [Int.mul_comm] at parts
      refine ⟨x / chunkSize,Int.ediv_nonneg low (Int.le_of_lt positive),?_,?_,?_⟩
      · refine Int.lt_of_mul_lt_mul_right ?_ (Int.le_of_lt positive)
        omega
      · omega
      · unfold length
        omega
    · rintro ⟨n,low,_,start,end_⟩
      have := Int.mul_nonneg low (Int.le_of_lt positive)
      unfold length at end_
      omega

end Chunks

theorem chunk_geometry_agrees (admitted : Admitted size chunkSize) : ∃ total len, openTotal size chunkSize = some total ∧
    desktopTotal size chunkSize = some total ∧ Tiles size chunkSize total len ∧
    (∀ n, 0 ≤ n → n < total → agentLen size chunkSize total n = some (len n) ∧ desktopLen size chunkSize n = some (len n)) ∧
    (total < 2^31 → phoneTotal total = total ∧ ∀ n, 0 ≤ n → n < total → phoneLen n size chunkSize (phoneTotal total) = some (len n)) := by
  refine ⟨totalChunksOf size chunkSize,length size chunkSize,openTotal_eq admitted,desktopTotal_eq admitted,length_tiles admitted,?_,?_⟩
  · exact fun n low high => ⟨agentLen_eq admitted low high,desktopLen_eq admitted low high⟩
  · intro few
    have least := (total_spans admitted).1
    have same : phoneTotal (totalChunksOf size chunkSize) = totalChunksOf size chunkSize :=
      toInt32_same (by unfold int32 Width.Holds; simp only; omega)
    rw [same]
    exact ⟨rfl,fun n low high => phoneLen_eq admitted few low high⟩

theorem three_chunks : ∃ total len, openTotal 25 10 = some total ∧ desktopTotal 25 10 = some total ∧ Tiles 25 10 total len ∧
    (∀ n, 0 ≤ n → n < total → agentLen 25 10 total n = some (len n) ∧ desktopLen 25 10 n = some (len n)) ∧
    (total < 2^31 → phoneTotal total = total ∧ ∀ n, 0 ≤ n → n < total → phoneLen n 25 10 (phoneTotal total) = some (len n)) :=
  chunk_geometry_agrees ⟨by decide,by decide,by decide,by decide⟩

-- One byte more than 32 bits count, in chunks of one byte: no 32-bit number
-- says how many chunks there are, and the phone takes the file for one chunk.
theorem many_chunks_differ : Admitted (2^32+1) 1 ∧ openTotal (2^32+1) 1 = some (2^32+1) ∧ (∀ total, int32.Holds total → total ≠ 2^32+1) ∧
    phoneTotal (2^32+1) = 1 ∧ agentLen (2^32+1) 1 (2^32+1) 0 = some 1 ∧ phoneLen 0 (2^32+1) 1 (phoneTotal (2^32+1)) = some (2^32+1) := by
  refine ⟨⟨by decide,by decide,by decide,by decide⟩,by decide,?_,by decide,by decide,by decide⟩
  intro total holds same
  rw [same] at holds
  exact absurd holds (by decide)

end RemoteFileExplorer.ChunkGeometry
