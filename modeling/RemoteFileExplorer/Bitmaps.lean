import RemoteFileExplorer.FixedWidths

namespace RemoteFileExplorer.Bitmaps
open FixedWidths

inductive DecodeError where
  | unsupported (text : String)
  | tooLarge (text : String)
  deriving DecidableEq,Repr

-- `panics`: an access out of range, a division by zero, or a result or a shift
-- that leaves its type.
inductive Stop where
  | panics
  | fails (error : DecodeError)
  deriving DecidableEq,Repr

inductive Format where
  | jpeg
  | png
  | gif
  | webp
  | tiff
  | bmp
  deriving DecidableEq,Repr

structure Decoded where
  format : Format
  srcWidth : Nat
  srcHeight : Nat
  width : Nat
  height : Nat
  rgb : List UInt8
  orientation : Nat
  deriving DecidableEq,Repr

-- u64 and usize.
def fits (n : Nat) : Except Stop Nat := if n < 2^64 then .ok n else .error .panics
def minus (a b : Nat) : Except Stop Nat := if b ≤ a then .ok (a - b) else .error .panics
def quot (a b : Nat) : Except Stop Nat := if b = 0 then .error .panics else .ok (a / b)
def rem (a b : Nat) : Except Stop Nat := if b = 0 then .error .panics else .ok (a % b)
def shl (width a n : Nat) : Except Stop Nat := if n < width then .ok (a * 2^n % 2^width) else .error .panics
def shr (width a n : Nat) : Except Stop Nat := if n < width then .ok (a / 2^n) else .error .panics
def byteAt (d : List UInt8) (i : Nat) : Except Stop UInt8 := d[i]?.elim (.error .panics) .ok
def get (d : List UInt8) (start stop : Nat) : Option (List UInt8) := if start ≤ stop ∧ stop ≤ d.length then some ((d.drop start).take (stop - start)) else none

-- &d[start..][..count]
def slice (d : List UInt8) (start count : Nat) : Except Stop (List UInt8) :=
  if start ≤ d.length ∧ count ≤ d.length - start then .ok ((d.drop start).take count) else .error .panics

def fromLE : List UInt8 → Nat := List.foldr (fun byte n => byte.toNat + 256 * n) 0

def maxPixels : Nat := 40000000

def checkPixels (w h : Nat) : Except Stop Unit :=
  if w = 0 ∨ h = 0 then .error (.fails (.unsupported s!"invalid image dimensions {w}x{h}")) else do
  let pixels ← fits (w * h)
  if pixels > maxPixels then .error (.fails (.tooLarge s!"{w}x{h} exceeds the pixel budget")) else .ok ()

def bad : Stop := .fails (.unsupported "malformed bmp")

def okOr : Option α → Except Stop α
  | some v => .ok v
  | none => .error bad

def le (n : Nat) (d : List UInt8) (i : Nat) : Except Stop Nat := do
  let stop ← fits (i + n)
  okOr ((get d i stop).map fromLE)

def le_u16 (d : List UInt8) (i : Nat) : Except Stop Nat := le 2 d i
def le_u32 (d : List UInt8) (i : Nat) : Except Stop Nat := le 4 d i

def colorsOf (data : List UInt8) (bpp : Nat) : Except Stop Nat :=
  if bpp ≤ 8 then do
    let n ← le_u32 data 46
    let all ← shl 64 1 bpp
    .ok (if n = 0 then all else min n all)
  else .ok 0

def pixel (row palette : List UInt8) (bpp x : Nat) : Except Stop (List UInt8) :=
  if bpp = 24 ∨ bpp = 32 then do
    let o ← fits (x * (bpp / 8))
    let red ← byteAt row (← fits (o + 2))
    let green ← byteAt row (← fits (o + 1))
    let blue ← byteAt row o
    .ok [red,green,blue]
  else do
    let perByte ← quot 8 bpp
    let byte ← byteAt row (← quot x perByte)
    let shift ← minus 8 (← fits (bpp * ((← rem x perByte) + 1)))
    let shifted ← shr 8 byte.toNat shift
    let mask ← minus (← shl 16 1 bpp) 1
    let idx := shifted &&& mask % 256
    let e := (get palette (idx * 4) (idx * 4 + 3)).getD [0,0,0]
    let red ← byteAt e 2
    let green ← byteAt e 1
    let blue ← byteAt e 0
    .ok [red,green,blue]

def srcRow (h : Nat) (topDown : Bool) (y : Nat) : Except Stop Nat :=
  if topDown then .ok y else do
  let last ← minus h 1
  minus last y

def rowOf (data palette : List UInt8) (pixelOffset stride w h : Nat) (topDown : Bool) (bpp y : Nat) : Except Stop (List (List UInt8)) := do
  let start ← fits (pixelOffset + (← fits ((← srcRow h topDown y) * stride)))
  let row ← slice data start stride
  (List.range w).mapM (pixel row palette bpp)

def pixels (data : List UInt8) (pixelOffset headerSize w h : Nat) (topDown : Bool) (bpp : Nat) : Except Stop Decoded := do
  let colors ← colorsOf data bpp
  let paletteAt ← fits (14 + headerSize)
  let paletteEnd ← fits (paletteAt + (← fits (colors * 4)))
  let palette ← okOr (get data paletteAt paletteEnd)
  let stride ← fits (((← fits (w * bpp)) + 31) / 32 * 4)
  let needed ← fits (pixelOffset + (← fits (stride * h)))
  if needed > data.length then .error bad else do
  let _ ← fits ((← fits (w * h)) * 3)
  let rows ← (List.range h).mapM (rowOf data palette pixelOffset stride w h topDown bpp)
  .ok ⟨.bmp,w,h,w,h,rows.flatten.flatten,1⟩

def sized (data : List UInt8) (pixelOffset headerSize : Nat) (w rawH : Int) (planes bpp compression : Nat) : Except Stop Decoded :=
  if planes ≠ 1 ∨ compression ≠ 0 then .error (.fails (.unsupported "compressed bmp")) else
  if w ≤ 0 ∨ rawH = 0 ∨ rawH = -2147483648 then .error (.fails (.unsupported "invalid bmp dimensions")) else do
  checkPixels w.toNat rawH.natAbs
  if bpp ∉ [1,4,8,24,32] then .error (.fails (.unsupported s!"bmp with {bpp} bits per pixel")) else
  pixels data pixelOffset headerSize w.toNat rawH.natAbs (rawH < 0) bpp

def bmp (data : List UInt8) : Except Stop Decoded := do
  let pixelOffset ← le_u32 data 10
  let headerSize ← le_u32 data 14
  if headerSize < 40 then .error (.fails (.unsupported "bmp core header")) else do
  let w ← le_u32 data 18
  let rawH ← le_u32 data 22
  let planes ← le_u16 data 26
  let bpp ← le_u16 data 28
  let compression ← le_u32 data 30
  sized data pixelOffset headerSize (toInt32 w) (toInt32 rawH) planes bpp compression

-- What a bitmap says, by the numbers and the bits of its bytes.
def field (data : List UInt8) (i n : Nat) : Nat := fromLE ((data.drop i).take n)
def pixelOffset (data : List UInt8) : Nat := field data 10 4
def headerSize (data : List UInt8) : Nat := field data 14 4
def width (data : List UInt8) : Nat := field data 18 4
def signedHeight (data : List UInt8) : Int := toInt32 (field data 22 4)
def height (data : List UInt8) : Nat := (signedHeight data).natAbs
def depth (data : List UInt8) : Nat := field data 28 2

def colors (data : List UInt8) : Nat :=
  if depth data ≤ 8 then if field data 46 4 = 0 then 2 ^ depth data else min (field data 46 4) (2 ^ depth data) else 0

-- Rows are filled up to 32 bits.
def stride (w bpp : Nat) : Nat := (w * bpp + 31) / 32 * 4

structure Bitmap (data : List UInt8) : Prop where
  header : 40 ≤ headerSize data
  plain : field data 26 2 = 1 ∧ field data 30 4 = 0
  wide : 0 < width data
  high : signedHeight data ≠ 0
  known : depth data ∈ [1,4,8,24,32]
  budget : width data * height data ≤ maxPixels
  palette : 14 + headerSize data + colors data * 4 ≤ data.length
  rows : pixelOffset data + stride (width data) (depth data) * height data ≤ data.length

-- The bits of a byte from its highest on.
def byteBits (byte : Nat) : List Bool := (List.range 8).map fun i => byte.testBit (7 - i)
def bits (bytes : List UInt8) : List Bool := bytes.flatMap fun byte => byteBits byte.toNat
def number (bits : List Bool) : Nat := bits.foldl (fun n bit => 2 * n + bit.toNat) 0

-- Blue, green and red are stored in this order; a number that the palette does
-- not have is black.
def color (row palette : List UInt8) (bpp x : Nat) : List UInt8 :=
  if 8 < bpp then ((row.drop (x * (bpp / 8))).take 3).reverse else
  let i := number (((bits row).drop (x * bpp)).take bpp)
  if i * 4 < palette.length then ((palette.drop (i * 4)).take 3).reverse else [0,0,0]

def storedRow (data : List UInt8) (offset w h : Nat) (topDown : Bool) (bpp y : Nat) : List UInt8 :=
  (data.drop (offset + (if topDown then y else h - 1 - y) * stride w bpp)).take (stride w bpp)

def paletteOf (data : List UInt8) : List UInt8 := (data.drop (14 + headerSize data)).take (colors data * 4)

def colorAt (data : List UInt8) (x y : Nat) : List UInt8 :=
  color (storedRow data (pixelOffset data) (width data) (height data) (signedHeight data < 0) (depth data) y) (paletteOf data) (depth data) x

theorem fits_ok (small : n < 2^64) : fits n = .ok n := if_pos small

theorem ok_bind (a : α) (f : α → Except Stop β) : (Except.ok a >>= f) = f a := rfl

theorem bind_safe {x : Except Stop α} {f : α → Except Stop β} (safe : x ≠ .error .panics) (next : ∀ a, x = .ok a → f a ≠ .error .panics) :
    (x >>= f) ≠ .error .panics := by
  cases x with
  | ok a => exact next a rfl
  | error stop => exact fun same => safe (congrArg Except.error (Except.error.inj same))

theorem mapM_ok {f : α → Except Stop β} {g : α → β} {list : List α} (each : ∀ a ∈ list, f a = .ok (g a)) : list.mapM f = .ok (list.map g) := by
  induction list with
  | nil => rfl
  | cons a rest ih =>
    rw [List.mapM_cons,each a (List.mem_cons_self ..),ih fun b member => each b (List.mem_cons_of_mem a member)]
    rfl

theorem okOr_safe (found : Option α) : okOr found ≠ .error .panics := by
  cases found <;> nofun

theorem fromLE_below (bytes : List UInt8) : fromLE bytes < 256 ^ bytes.length := by
  induction bytes with
  | nil => exact Nat.one_pos
  | cons byte rest ih =>
    change byte.toNat + 256 * fromLE rest < 256 ^ (rest.length + 1)
    have small := byte.toNat_lt
    omega

theorem le_safe (near : i + n < 2^64) : le n d i ≠ .error .panics := by
  rw [le,fits_ok near]
  exact okOr_safe _

theorem le_below (read : le n d i = .ok v) (near : i + n < 2^64) : v < 256 ^ n := by
  rw [le,fits_ok near] at read
  change okOr ((get d i (i + n)).map fromLE) = .ok v at read
  unfold get at read
  split at read
  · cases read
    have below := fromLE_below ((d.drop i).take (i + n - i))
    refine Nat.lt_of_lt_of_le below (Nat.pow_le_pow_right (by decide) ?_)
    rw [List.length_take]
    omega
  · cases read

theorem le_field (near : i + n < 2^64) (inside : i + n ≤ d.length) : le n d i = .ok (field d i n) := by
  rw [le,fits_ok near]
  change okOr ((get d i (i + n)).map fromLE) = _
  rw [get,if_pos ⟨Nat.le_add_right i n,inside⟩,Nat.add_sub_cancel_left]
  rfl

theorem bits_field {row : List UInt8} {b : UInt8} (found : row[q]? = some b) (inside : r + n ≤ 8) :
    ((bits row).drop (8 * q + r)).take n = ((byteBits b.toNat).drop r).take n := by
  have eight : ∀ byte, (byteBits byte).length = 8 := fun byte => (List.length_map ..).trans List.length_range
  induction row generalizing q with
  | nil => cases found
  | cons byte rest ih =>
    have split : bits (byte::rest) = byteBits byte.toNat ++ bits rest := rfl
    rw [split]
    cases q with
    | zero =>
      cases found
      rw [Nat.mul_zero,Nat.zero_add,List.drop_append_of_le_length (by rw [eight]; omega),List.take_append_of_le_length]
      rw [List.length_drop,eight]
      omega
    | succ q =>
      have further : 8 * (q + 1) + r = 8 + (8 * q + r) := by omega
      rw [further,← List.drop_drop,List.drop_left' (eight _)]
      exact ih found

theorem byte_field : ∀ n ∈ [1,4,8], ∀ byte < 256, ∀ k < 8 / n,
    byte / 2 ^ (8 - n * (k + 1)) &&& (1 * 2 ^ n % 2 ^ 16 - 1) % 256 = number (((byteBits byte).drop (n * k)).take n) := by
  decide +kernel

theorem triple {bytes : List UInt8} (inside : o + 2 < bytes.length) :
    ∃ b g r, byteAt bytes o = .ok b ∧ byteAt bytes (o + 1) = .ok g ∧ byteAt bytes (o + 2) = .ok r ∧ (bytes.drop o).take 3 = [b,g,r] := by
  have one : o < bytes.length := by omega
  have two : o + 1 < bytes.length := by omega
  refine ⟨bytes[o],bytes[o + 1],bytes[o + 2],?_,?_,?_,?_⟩
  · rw [byteAt,List.getElem?_eq_getElem one]
    rfl
  · rw [byteAt,List.getElem?_eq_getElem two]
    rfl
  · rw [byteAt,List.getElem?_eq_getElem inside]
    rfl
  · rw [List.drop_eq_getElem_cons one,List.drop_eq_getElem_cons two,List.drop_eq_getElem_cons inside]
    rfl

theorem entry_ok {palette : List UInt8} (whole : palette.length = count * 4) (i : Nat) :
    ∃ b g r, byteAt ((get palette (i * 4) (i * 4 + 3)).getD [0,0,0]) 0 = .ok b ∧ byteAt ((get palette (i * 4) (i * 4 + 3)).getD [0,0,0]) 1 = .ok g ∧
      byteAt ((get palette (i * 4) (i * 4 + 3)).getD [0,0,0]) 2 = .ok r ∧ [r,g,b] = if i * 4 < palette.length then ((palette.drop (i * 4)).take 3).reverse else [0,0,0] := by
  by_cases known : i * 4 < palette.length
  · have inside : i * 4 + 2 < palette.length := by omega
    have found : get palette (i * 4) (i * 4 + 3) = some ((palette.drop (i * 4)).take 3) := by
      rw [get,if_pos ⟨Nat.le_add_right ..,inside⟩,Nat.add_sub_cancel_left]
    obtain ⟨b,g,r,_,_,_,same⟩ := triple inside
    rw [if_pos known,found,same]
    exact ⟨b,g,r,rfl,rfl,rfl,rfl⟩
  · have missing : get palette (i * 4) (i * 4 + 3) = none := if_neg fun inside => known (by omega)
    rw [if_neg known,missing]
    exact ⟨0,0,0,rfl,rfl,rfl,rfl⟩

theorem pixel_ok {row palette : List UInt8} (known : bpp ∈ [1,4,8,24,32]) (long : row.length = stride w bpp) (whole : palette.length = count * 4)
    (near : w < 2^32) (inside : x < w) : ∃ r g b, pixel row palette bpp x = .ok [r,g,b] ∧ color row palette bpp x = [r,g,b] := by
  unfold stride at long
  by_cases deep : 8 < bpp
  · have direct : bpp = 24 ∨ bpp = 32 := by simp at known; omega
    have room : x * (bpp / 8) + 2 < row.length := by
      rcases direct with rfl | rfl <;> omega
    have small : x * (bpp / 8) + 2 < 2^64 := by
      rcases direct with rfl | rfl <;> omega
    obtain ⟨b,g,r,blue,green,red,same⟩ := triple room
    refine ⟨r,g,b,?_,by rw [color,if_pos deep,same]; rfl⟩
    unfold pixel
    rw [if_pos direct,fits_ok (by omega : x * (bpp / 8) < 2^64)]
    simp only [bind,Except.bind,fits_ok small,fits_ok (by omega : x * (bpp / 8) + 1 < 2^64),blue,green,red]
  · have shallow : bpp ∈ [1,4,8] := by simp at known ⊢; omega
    have cases_ : bpp = 1 ∨ bpp = 4 ∨ bpp = 8 := by simpa using shallow
    have room : x / (8 / bpp) < row.length := by
      rcases cases_ with rfl | rfl | rfl <;> simp only [Nat.reduceDiv] <;> omega
    have start : x * bpp = 8 * (x / (8 / bpp)) + bpp * (x % (8 / bpp)) := by
      rcases cases_ with rfl | rfl | rfl <;> simp only [Nat.reduceDiv] <;> omega
    have place : x % (8 / bpp) < 8 / bpp := by
      rcases cases_ with rfl | rfl | rfl <;> simp only [Nat.reduceDiv] <;> omega
    have fitting : bpp * (x % (8 / bpp) + 1) ≤ 8 := by
      rcases cases_ with rfl | rfl | rfl <;> simp only [Nat.reduceDiv] at place ⊢ <;> omega
    have mask : 1 ≤ 1 * 2 ^ bpp % 2 ^ 16 ∧ bpp < 16 ∧ 8 / bpp ≠ 0 ∧ bpp ≠ 0 := by
      rcases cases_ with rfl | rfl | rfl <;> decide
    have found := List.getElem?_eq_getElem room
    have stored : byteAt row (x / (8 / bpp)) = .ok row[x / (8 / bpp)] := by
      rw [byteAt,found]
      rfl
    have read := bits_field found (r := bpp * (x % (8 / bpp))) (n := bpp) (by rw [Nat.mul_succ] at fitting; exact fitting)
    rw [← start] at read
    have value := byte_field bpp shallow row[x / (8 / bpp)].toNat row[x / (8 / bpp)].toNat_lt _ place
    rw [← read] at value
    have positive : 0 < bpp * (x % (8 / bpp) + 1) := Nat.mul_pos (Nat.pos_of_ne_zero mask.2.2.2) (Nat.succ_pos _)
    obtain ⟨b,g,r,blue,green,red,same⟩ := entry_ok whole (number (((bits row).drop (x * bpp)).take bpp))
    refine ⟨r,g,b,?_,by rw [color,if_neg deep]; exact same.symm⟩
    unfold pixel
    rw [if_neg (by omega)]
    simp only [bind,Except.bind,quot,rem,minus,shr,shl,if_neg mask.2.2.2,if_neg mask.2.2.1,stored,fits_ok (by omega : bpp * (x % (8 / bpp) + 1) < 2^64),
      if_pos fitting,if_pos (by omega : 8 - bpp * (x % (8 / bpp) + 1) < 8),if_pos mask.2.1,if_pos mask.1,value,blue,green,red]

def image (data palette : List UInt8) (offset w h : Nat) (topDown : Bool) (bpp : Nat) : List (List (List UInt8)) :=
  (List.range h).map fun y => (List.range w).map (color (storedRow data offset w h topDown bpp y) palette bpp)

section Rows
variable {data palette : List UInt8} {offset size w h bpp count : Nat}

theorem stride_small (wide : 0 < w) (high : 0 < h) (known : bpp ∈ [1,4,8,24,32]) (budget : w * h ≤ maxPixels) :
    w * bpp < 2^40 ∧ stride w bpp < 2^40 ∧ stride w bpp * h < 2^40 := by
  have narrow : w ≤ maxPixels := Nat.le_trans (Nat.le_mul_of_pos_right w high) budget
  have most : bpp ≤ 32 := by simp at known; omega
  have wide_ : w * bpp ≤ w * 32 := Nat.mul_le_mul_left w most
  have each : stride w bpp ≤ 8 * w := by
    unfold stride
    omega
  have all : stride w bpp * h ≤ 8 * (w * h) := by
    rw [← Nat.mul_assoc]
    exact Nat.mul_le_mul_right h each
  unfold maxPixels at narrow budget
  omega

theorem stored_inside (w bpp : Nat) (topDown : Bool) (below : y < h) :
    (if topDown then y else h - 1 - y) * stride w bpp + stride w bpp ≤ stride w bpp * h := by
  have counted : (if topDown then y else h - 1 - y) < h := by split <;> omega
  rw [← Nat.succ_mul,Nat.mul_comm (stride w bpp)]
  exact Nat.mul_le_mul_right _ counted

theorem storedRow_length (inside : offset + stride w bpp * h ≤ data.length) (topDown : Bool) (below : y < h) :
    (storedRow data offset w h topDown bpp y).length = stride w bpp := by
  have rows := stored_inside w bpp topDown below
  rw [storedRow,List.length_take,List.length_drop]
  omega

theorem rowOf_ok (known : bpp ∈ [1,4,8,24,32]) (whole : palette.length = count * 4) (near : w < 2^32) (offset_ : offset < 2^32) (small : stride w bpp * h < 2^40)
    (inside : offset + stride w bpp * h ≤ data.length) (topDown : Bool) (below : y < h) :
    rowOf data palette offset (stride w bpp) w h topDown bpp y = .ok ((List.range w).map (color (storedRow data offset w h topDown bpp y) palette bpp)) := by
  have chosen : srcRow h topDown y = .ok (if topDown then y else h - 1 - y) := by
    unfold srcRow
    split
    · rfl
    · simp only [minus,if_pos (by omega : 1 ≤ h),bind,Except.bind,if_pos (by omega : y ≤ h - 1)]
  have rows := stored_inside w bpp topDown below
  have sliced : slice data (offset + (if topDown then y else h - 1 - y) * stride w bpp) (stride w bpp) = .ok (storedRow data offset w h topDown bpp y) :=
    if_pos ⟨by omega,by omega⟩
  unfold rowOf
  rw [chosen]
  simp only [bind,Except.bind,fits_ok (by omega : (if topDown then y else h - 1 - y) * stride w bpp < 2^64),
    fits_ok (by omega : offset + (if topDown then y else h - 1 - y) * stride w bpp < 2^64),sliced]
  refine mapM_ok fun x member => ?_
  obtain ⟨r,g,b,read,same⟩ := pixel_ok known (storedRow_length inside topDown below) whole near (List.mem_range.mp member)
  exact read.trans (congrArg Except.ok same.symm)

theorem colorsOf_most (known : bpp ∈ [1,4,8,24,32]) (read : colorsOf data bpp = .ok count) : count ≤ 256 := by
  unfold colorsOf at read
  split at read
  · cases number_ : le_u32 data 46 with
    | error stop => rw [number_] at read; cases read
    | ok n =>
      have all : 1 * 2 ^ bpp % 2 ^ 64 ≤ 256 ∧ bpp < 64 := by
        have cases_ : bpp = 1 ∨ bpp = 4 ∨ bpp = 8 := by simp at known; omega
        rcases cases_ with rfl | rfl | rfl <;> decide
      rw [number_] at read
      simp only [bind,Except.bind,shl,if_pos all.2,Except.ok.injEq] at read
      rw [← read]
      split
      · exact all.1
      · exact Nat.le_trans (Nat.min_le_right ..) all.1
  · cases read
    exact Nat.zero_le _

theorem colorsOf_safe : colorsOf data bpp ≠ .error .panics := by
  unfold colorsOf
  split
  · refine bind_safe (le_safe (by decide)) fun n _ => ?_
    rw [shl,if_pos (by omega)]
    nofun
  · nofun

theorem pixels_ok (wide : 0 < w) (high : 0 < h) (known : bpp ∈ [1,4,8,24,32]) (budget : w * h ≤ maxPixels) (offset_ : offset < 2^32) (size_ : size < 2^32)
    (topDown : Bool) (read : colorsOf data bpp = .ok count) :
    pixels data offset size w h topDown bpp = if 14 + size + count * 4 ≤ data.length ∧ offset + stride w bpp * h ≤ data.length then
      .ok ⟨.bmp,w,h,w,h,(image data ((data.drop (14 + size)).take (count * 4)) offset w h topDown bpp).flatten.flatten,1⟩ else .error bad := by
  have most := colorsOf_most known read
  obtain ⟨row,each,all⟩ := stride_small wide high known budget
  have narrow : w ≤ maxPixels := Nat.le_trans (Nat.le_mul_of_pos_right w high) budget
  unfold maxPixels at narrow budget
  have strided : (w * bpp + 31) / 32 * 4 = stride w bpp := rfl
  unfold pixels
  rw [read]
  simp only [bind,Except.bind,fits_ok (by omega : 14 + size < 2^64),fits_ok (by omega : count * 4 < 2^64),fits_ok (by omega : 14 + size + count * 4 < 2^64)]
  by_cases palette : 14 + size + count * 4 ≤ data.length
  · have found : get data (14 + size) (14 + size + count * 4) = some ((data.drop (14 + size)).take (count * 4)) := by
      rw [get,if_pos ⟨Nat.le_add_right ..,palette⟩,Nat.add_sub_cancel_left]
    have whole : ((data.drop (14 + size)).take (count * 4)).length = count * 4 := by
      rw [List.length_take,List.length_drop]
      omega
    simp only [found,okOr,fits_ok (by omega : w * bpp < 2^64),strided,fits_ok (by omega : stride w bpp < 2^64),
      fits_ok (by omega : stride w bpp * h < 2^64),fits_ok (by omega : offset + stride w bpp * h < 2^64)]
    by_cases inside : offset + stride w bpp * h ≤ data.length
    · rw [if_neg (by omega),if_pos ⟨palette,inside⟩]
      simp only [fits_ok (by omega : w * h < 2^64),fits_ok (by omega : w * h * 3 < 2^64)]
      rw [mapM_ok fun y member => rowOf_ok known whole (by omega) offset_ (by omega) inside topDown (List.mem_range.mp member)]
      rfl
    · rw [if_pos (by omega),if_neg fun both => inside both.2]
  · have missing : get data (14 + size) (14 + size + count * 4) = none := if_neg fun both => palette both.2
    rw [missing,if_neg fun both => palette both.1]
    rfl

end Rows

theorem checkPixels_safe (wide : w < 2^32) (high : h < 2^32) : checkPixels w h ≠ .error .panics := by
  unfold checkPixels
  split
  · nofun
  · have small : w * h < 2^64 := Nat.lt_of_lt_of_le (Nat.mul_lt_mul'' wide high) (by decide)
    rw [fits_ok small]
    simp only [bind,Except.bind]
    split <;> nofun

theorem checkPixels_budget (checked : checkPixels w h = .ok ()) (wide : w < 2^32) (high : h < 2^32) : 0 < w ∧ 0 < h ∧ w * h ≤ maxPixels := by
  unfold checkPixels at checked
  split at checked
  · cases checked
  · have small : w * h < 2^64 := Nat.lt_of_lt_of_le (Nat.mul_lt_mul'' wide high) (by decide)
    rw [fits_ok small] at checked
    simp only [bind,Except.bind] at checked
    split at checked
    · cases checked
    · omega

theorem checkPixels_ok (wide : 0 < w) (high : 0 < h) (budget : w * h ≤ maxPixels) : checkPixels w h = .ok () := by
  have most : maxPixels < 2^64 := by decide
  unfold checkPixels
  rw [if_neg (by omega),fits_ok (by omega)]
  exact if_neg (Nat.not_lt.mpr budget)

theorem toInt32_small (v : Nat) : (toInt32 v).natAbs < 2^32 ∧ (toInt32 v).toNat < 2^32 := by
  have low := Int.le_bmod (x := v) (m := 2^32) (by decide)
  have high := Int.bmod_lt (x := v) (m := 2^32) (by decide)
  unfold toInt32
  omega

theorem sized_safe {offset size : Nat} {w h : Int} (wide : w.toNat < 2^32) (high : h.natAbs < 2^32) (offset_ : offset < 2^32) (size_ : size < 2^32) :
    sized data offset size w h planes bpp compression ≠ .error .panics := by
  unfold sized
  split
  · nofun
  split
  · nofun
  refine bind_safe (checkPixels_safe wide high) fun _ checked => ?_
  split
  · nofun
  rename_i known
  obtain ⟨some_,rows,budget⟩ := checkPixels_budget checked wide high
  cases read : colorsOf data bpp with
  | error stop =>
    unfold pixels
    rw [read]
    exact fun same => colorsOf_safe (read.trans (congrArg Except.error (Except.error.inj same)))
  | ok count =>
    rw [pixels_ok some_ rows (Decidable.not_not.mp known) budget offset_ size_ _ read]
    split <;> nofun

theorem bmp_safe (data : List UInt8) : bmp data ≠ .error .panics := by
  refine bind_safe (le_safe (by decide)) fun offset offset_ => bind_safe (le_safe (by decide)) fun size size_ => ?_
  split
  · nofun
  refine bind_safe (le_safe (by decide)) fun w _ => bind_safe (le_safe (by decide)) fun h _ => bind_safe (le_safe (by decide)) fun planes _ =>
    bind_safe (le_safe (by decide)) fun bpp _ => bind_safe (le_safe (by decide)) fun compression _ => ?_
  exact sized_safe (toInt32_small w).2 (toInt32_small h).1 (le_below offset_ (by decide)) (le_below size_ (by decide))

theorem colorsOf_colors (known : depth data ∈ [1,4,8,24,32]) (long : 50 ≤ data.length) : colorsOf data (depth data) = .ok (colors data) := by
  unfold colorsOf colors
  split
  · have all : 1 * 2 ^ depth data % 2 ^ 64 = 2 ^ depth data ∧ depth data < 64 := by
      have cases_ : depth data = 1 ∨ depth data = 4 ∨ depth data = 8 := by simp at known; omega
      rcases cases_ with same | same | same <;> rw [same] <;> decide
    rw [le_u32,le_field (by decide) long]
    simp only [bind,Except.bind,shl,if_pos all.2,all.1]
  · rfl

theorem sized_pixels {w h : Int} (wide : 0 < w) (high : h ≠ 0 ∧ h ≠ -2147483648) (checked : checkPixels w.toNat h.natAbs = .ok ())
    (known : bpp ∈ [1,4,8,24,32]) : sized data offset size w h 1 bpp 0 = pixels data offset size w.toNat h.natAbs (h < 0) bpp := by
  unfold sized
  rw [if_neg (by decide),if_neg (by omega),checked]
  exact if_neg (not_not_intro known)

theorem bmp_sized {offset size w h bpp : Nat} (offset_ : le_u32 data 10 = .ok offset) (size_ : le_u32 data 14 = .ok size) (width_ : le_u32 data 18 = .ok w)
    (height_ : le_u32 data 22 = .ok h) (planes : le_u16 data 26 = .ok 1) (depth_ : le_u16 data 28 = .ok bpp) (compression : le_u32 data 30 = .ok 0)
    (header : 40 ≤ size) : bmp data = sized data offset size (toInt32 w) (toInt32 h) 1 bpp 0 := by
  unfold bmp
  rw [offset_,ok_bind,size_,ok_bind,if_neg (Nat.not_lt.mpr header),width_,ok_bind,height_,ok_bind,planes,ok_bind,depth_,ok_bind,compression,ok_bind]

theorem bmp_image (bitmap : Bitmap data) : bmp data = .ok ⟨.bmp,width data,height data,width data,height data,
    (image data (paletteOf data) (pixelOffset data) (width data) (height data) (signedHeight data < 0) (depth data)).flatten.flatten,1⟩ := by
  obtain ⟨header,plain,wide,high,known,budget,palette,inside⟩ := bitmap
  have reads : ∀ i n, i + n ≤ 54 → le n data i = .ok (field data i n) := fun i n near => le_field (by omega) (by omega)
  have small : ∀ i n, field data i n < 256 ^ n := by
    intro i n
    refine Nat.lt_of_lt_of_le (fromLE_below _) (Nat.pow_le_pow_right (by decide) ?_)
    rw [List.length_take]
    exact Nat.min_le_left ..
  have rows : 0 < height data := Int.natAbs_pos.mpr high
  have narrow : width data ≤ maxPixels := Nat.le_trans (Nat.le_mul_of_pos_right _ rows) budget
  have short : height data ≤ maxPixels := Nat.le_trans (Nat.le_mul_of_pos_left _ wide) budget
  have most : maxPixels < 2^31 := by decide
  have signed : toInt32 (field data 18 4) = width data :=
    toInt32_same (v := width data) ⟨by simp only [int32]; omega,by simp only [int32]; omega⟩
  have unsigned : (toInt32 (field data 18 4)).toNat = width data := by
    rw [signed,Int.toNat_natCast]
  have whole : signedHeight data ≠ -2147483648 := by
    intro same
    rw [height,same] at short
    exact absurd short (by decide)
  have positive : 0 < toInt32 (field data 18 4) := by
    rw [signed]
    exact Int.natCast_pos.mpr wide
  have checked : checkPixels (toInt32 (field data 18 4)).toNat (height data) = .ok () := by
    rw [unsigned]
    exact checkPixels_ok wide rows budget
  rw [bmp_sized (reads 10 4 (by decide)) (reads 14 4 (by decide)) (reads 18 4 (by decide)) (reads 22 4 (by decide))
    ((reads 26 2 (by decide)).trans (congrArg Except.ok plain.1)) (reads 28 2 (by decide)) ((reads 30 4 (by decide)).trans (congrArg Except.ok plain.2)) header]
  refine (sized_pixels positive ⟨high,whole⟩ checked known).trans ?_
  rw [unsigned]
  have pixels_ := pixels_ok wide rows known budget (small 10 4) (small 14 4) (decide (signedHeight data < 0)) (colorsOf_colors known (by omega))
  rw [if_pos ⟨palette,inside⟩] at pixels_
  exact pixels_

theorem flatten_piece {list : List (List α)} (all : ∀ l ∈ list, l.length = n) (found : list[i]? = some piece) : (list.flatten.drop (i * n)).take n = piece := by
  induction list generalizing i with
  | nil => cases found
  | cons first rest ih =>
    have size := all first (List.mem_cons_self ..)
    rw [List.flatten_cons]
    cases i with
    | zero =>
      cases found
      rw [Nat.zero_mul,List.drop_zero,List.take_left' size]
    | succ i =>
      rw [Nat.succ_mul,Nat.add_comm,← List.drop_drop,List.drop_left' size]
      exact ih (fun l member => all l (List.mem_cons_of_mem first member)) found

theorem flatten_length {list : List (List α)} (all : ∀ l ∈ list, l.length = n) : list.flatten.length = list.length * n := by
  induction list with
  | nil => exact (Nat.zero_mul n).symm
  | cons first rest ih =>
    rw [List.flatten_cons,List.length_append,all first (List.mem_cons_self ..),ih fun l member => all l (List.mem_cons_of_mem first member),List.length_cons,
      Nat.succ_mul,Nat.add_comm]

-- No bytes make the decoder panic, and a bitmap that fits is read pixel by pixel.
theorem bmp_decodes : (∀ data, bmp data ≠ .error .panics) ∧ ∀ data, Bitmap data → ∃ decoded, bmp data = .ok decoded ∧ decoded.width = width data ∧
    decoded.height = height data ∧ decoded.rgb.length = width data * height data * 3 ∧
    ∀ x < width data, ∀ y < height data, (decoded.rgb.drop ((y * width data + x) * 3)).take 3 = colorAt data x y := by
  refine ⟨bmp_safe,fun data bitmap => ⟨_,bmp_image bitmap,?_⟩⟩
  dsimp only
  refine ⟨Eq.refl (width data),Eq.refl (height data),?_⟩
  have rows : 0 < height data := Int.natAbs_pos.mpr bitmap.high
  have narrow : width data ≤ maxPixels := Nat.le_trans (Nat.le_mul_of_pos_right _ rows) bitmap.budget
  have most : maxPixels < 2^32 := by decide
  have whole : (paletteOf data).length = colors data * 4 := by
    rw [paletteOf,List.length_take,List.length_drop]
    have := bitmap.palette
    omega
  have threes : ∀ x < width data, ∀ y < height data, (colorAt data x y).length = 3 := by
    intro x inside y below
    obtain ⟨r,g,b,_,same⟩ := pixel_ok bitmap.known (storedRow_length bitmap.rows (signedHeight data < 0) below) whole (by omega) inside
    exact congrArg List.length same
  have lines : image data (paletteOf data) (pixelOffset data) (width data) (height data) (signedHeight data < 0) (depth data) =
      (List.range (height data)).map fun y => (List.range (width data)).map fun x => colorAt data x y := rfl
  rw [lines]
  have across : ∀ l ∈ (List.range (height data)).map fun y => (List.range (width data)).map fun x => colorAt data x y, l.length = width data := by
    intro l member
    obtain ⟨y,_,rfl⟩ := List.mem_map.mp member
    rw [List.length_map,List.length_range]
  have each : ∀ l ∈ ((List.range (height data)).map fun y => (List.range (width data)).map fun x => colorAt data x y).flatten, l.length = 3 := by
    intro l member
    obtain ⟨line,listed,inside⟩ := List.mem_flatten.mp member
    obtain ⟨y,below,rfl⟩ := List.mem_map.mp listed
    obtain ⟨x,within,rfl⟩ := List.mem_map.mp inside
    exact threes x (List.mem_range.mp within) y (List.mem_range.mp below)
  refine ⟨?_,fun x inside y below => flatten_piece each ?_⟩
  · rw [flatten_length each,flatten_length across,List.length_map,List.length_range,Nat.mul_comm (height data)]
  · have line := flatten_piece (i := y) across (by rw [List.getElem?_map,List.getElem?_range below]; rfl)
    have column := congrArg (·[x]?) line
    rw [List.getElem?_take_of_lt inside,List.getElem?_drop,List.getElem?_map,List.getElem?_range inside] at column
    exact column

def sample : List UInt8 :=
  [66,77,0,0,0,0,0,0,0,0,54,0,0,0,40,0,0,0,2,0,0,0,1,0,0,0,1,0,24,0,0,0,0,0,0,0,0,0,0,0,0,0,0,0,0,0,0,0,0,0,0,0,0,0,1,2,3,4,5,6,0,0]

theorem bmp_decodes_sample : ∃ decoded, bmp sample = .ok decoded ∧ decoded.rgb.length = 6 ∧ (decoded.rgb.drop 3).take 3 = [6,5,4] := by
  have bitmap : Bitmap sample := ⟨by decide,by decide,by decide,by decide +kernel,by decide,by decide +kernel,by decide,by decide +kernel⟩
  obtain ⟨decoded,read,_,_,long,pixels_⟩ := bmp_decodes.2 sample bitmap
  exact ⟨decoded,read,long,pixels_ 1 (by decide) 0 (by decide)⟩

end RemoteFileExplorer.Bitmaps
