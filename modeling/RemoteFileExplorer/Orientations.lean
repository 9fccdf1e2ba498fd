import Mathlib.Data.List.Perm.Subperm
import Mathlib.Data.List.Nodup
import RemoteFileExplorer.Slices

namespace RemoteFileExplorer.Orientations
open Slices

structure Image where
  rgb : List UInt8
  width : Nat
  height : Nat
  deriving DecidableEq, Repr

def outSize (orientation w h : Nat) : Nat × Nat := if 5 ≤ orientation then (h,w) else (w,h)

def landing (orientation w h x y : Nat) : Nat × Nat :=
  match orientation with
  | 2 => (w - 1 - x,y)
  | 3 => (w - 1 - x,h - 1 - y)
  | 4 => (x,h - 1 - y)
  | 5 => (y,x)
  | 6 => (h - 1 - y,x)
  | 7 => (h - 1 - y,w - 1 - x)
  | 8 => (y,w - 1 - x)
  | _ => (x,y)

-- Which pixel of the result the pixel at `x` and `y` becomes.
def place (orientation : Nat) (image : Image) (x y : Nat) : Nat :=
  (landing orientation image.width image.height x y).2 * (outSize orientation image.width image.height).1 +
    (landing orientation image.width image.height x y).1

-- An index out of range is a panic, here `none`.
def copyPixel (orientation : Nat) (image : Image) (out : List UInt8) (cell : Nat × Nat) : Option (List UInt8) :=
  let s := (cell.2 * image.width + cell.1) * 3
  let d := place orientation image cell.1 cell.2 * 3
  if d + 3 ≤ out.length ∧ s + 3 ≤ image.rgb.length then some (writeAt 0 out d (slice image.rgb s 3)) else none

-- In the order of the two loops.
def cells (image : Image) : List (Nat × Nat) := (List.range image.height).flatMap fun y => (List.range image.width).map fun x => (x,y)

def orient (image : Image) (orientation : Nat) : Option Image :=
  if orientation ≤ 1 ∨ 8 < orientation then some image else do
    let out ← (cells image).foldlM (copyPixel orientation image) (List.replicate image.rgb.length 0)
    let (ow,oh) := outSize orientation image.width image.height
    some ⟨out,ow,oh⟩

def orients (image : Image) (orientations : List Nat) : Option Image := orientations.foldlM orient image

def Sized (image : Image) : Prop := image.rgb.length = image.width * image.height * 3

def pixel (image : Image) (x y : Nat) : List UInt8 := slice image.rgb ((y * image.width + x) * 3) 3

def pixels (image : Image) : List (List UInt8) := (cells image).map fun cell => pixel image cell.1 cell.2

-- Every pixel of the image stands where the orientation puts it.
structure Moved (orientation : Nat) (image out : Image) : Prop where
  wide : out.width = (outSize orientation image.width image.height).1
  high : out.height = (outSize orientation image.width image.height).2
  long : out.rgb.length = image.rgb.length
  each : ∀ x < image.width, ∀ y < image.height, slice out.rgb (place orientation image x y * 3) 3 = pixel image x y

variable {o x y a b w h : Nat} {image mid out other : Image}

theorem mem_cells (image : Image) (cell : Nat × Nat) : cell ∈ cells image ↔ cell.1 < image.width ∧ cell.2 < image.height := by
  simp [cells,Prod.ext_iff,and_comm]

theorem index_below (within : x < w) (below : y < h) : y * w + x < w * h := by
  have rows : (y + 1) * w ≤ h * w := Nat.mul_le_mul_right w below
  rw [Nat.succ_mul,Nat.mul_comm h] at rows
  omega

theorem index_inj (within : x < w) (inside : a < w) (same : y * w + x = b * w + a) : x = a ∧ y = b := by
  have rest := congrArg (· % w) same
  simp only [Nat.mul_comm _ w,Nat.mul_add_mod,Nat.mod_eq_of_lt within,Nat.mod_eq_of_lt inside] at rest
  subst rest
  exact ⟨rfl,Nat.eq_of_mul_eq_mul_right (by omega) (Nat.add_right_cancel same)⟩

theorem outSize_area (o w h : Nat) : (outSize o w h).1 * (outSize o w h).2 = w * h := by
  unfold outSize
  split
  · exact Nat.mul_comm h w
  · rfl

section Known
variable (known : 1 ≤ o ∧ o ≤ 8)
include known

theorem known_cases : o = 1 ∨ o = 2 ∨ o = 3 ∨ o = 4 ∨ o = 5 ∨ o = 6 ∨ o = 7 ∨ o = 8 := by
  omega

theorem landing_inside (within : x < w) (below : y < h) : (landing o w h x y).1 < (outSize o w h).1 ∧ (landing o w h x y).2 < (outSize o w h).2 := by
  rcases known_cases known with rfl | rfl | rfl | rfl | rfl | rfl | rfl | rfl <;> simp [landing,outSize] <;> omega

theorem landing_inj (within : x < w) (below : y < h) (inside : a < w) (under : b < h) (same : landing o w h x y = landing o w h a b) : x = a ∧ y = b := by
  rcases known_cases known with rfl | rfl | rfl | rfl | rfl | rfl | rfl | rfl <;> simp only [landing,Prod.mk.injEq] at same <;> omega

theorem place_below (within : x < image.width) (below : y < image.height) : place o image x y < image.width * image.height := by
  have inside := landing_inside known within below
  exact outSize_area o _ _ ▸ index_below inside.1 inside.2

theorem place_inj (within : x < image.width) (below : y < image.height) (inside : a < image.width) (under : b < image.height)
    (same : place o image x y = place o image a b) : x = a ∧ y = b := by
  obtain ⟨column,row⟩ := index_inj (landing_inside known within below).1 (landing_inside known inside under).1 same
  exact landing_inj known within below inside under (Prod.ext column row)

theorem places_perm (image : Image) : ((cells image).map fun cell => place o image cell.1 cell.2).Perm (List.range (image.width * image.height)) := by
  have once : (cells image).Nodup := by
    refine List.nodup_flatMap.mpr ⟨fun y _ => List.nodup_range.map fun _ _ same => congrArg Prod.fst same,List.nodup_range.imp fun apart => ?_⟩
    intro cell one two
    obtain ⟨_,_,rfl⟩ := List.mem_map.mp one
    obtain ⟨_,_,same⟩ := List.mem_map.mp two
    exact apart (congrArg Prod.snd same).symm
  refine (List.subperm_of_subset (once.map_on fun one listed two also same => ?_) fun p listed => ?_).perm_of_length_le ?_
  · obtain ⟨within,below⟩ := (mem_cells image one).mp listed
    obtain ⟨inside,under⟩ := (mem_cells image two).mp also
    exact Prod.ext_iff.mpr (place_inj known within below inside under same)
  · obtain ⟨cell,inside,rfl⟩ := List.mem_map.mp listed
    obtain ⟨within,below⟩ := (mem_cells image cell).mp inside
    exact List.mem_range.mpr (place_below known within below)
  · simp [cells,Nat.mul_comm]

end Known

section Loop
variable (sized : Sized image) (known : 1 ≤ o ∧ o ≤ 8)

-- The pixels that the loops have copied so far.
structure Copied (o : Nat) (image : Image) (done : Nat → Nat → Prop) (out : List UInt8) : Prop where
  long : out.length = image.rgb.length
  each : ∀ x < image.width, ∀ y < image.height, done x y → slice out (place o image x y * 3) 3 = pixel image x y

include sized known

theorem copyPixel_copied {out : List UInt8} (copied : Copied o image done out) (within : x < image.width) (below : y < image.height) :
    ∃ next, copyPixel o image out (x,y) = some next ∧ Copied o image (fun a b => done a b ∨ (a = x ∧ b = y)) next := by
  have source := index_below within below
  have target := place_below known within below
  have whole : image.rgb.length = image.width * image.height * 3 := sized
  have three : (pixel image x y).length = 3 := by
    rw [pixel,slice,List.length_take,List.length_drop]
    omega
  have fits : place o image x y * 3 + (pixel image x y).length ≤ out.length := by
    rw [three,copied.long]
    omega
  refine ⟨_,if_pos ⟨three ▸ fits,by dsimp only; omega⟩,(writeAt_length fits).trans copied.long,fun a inside b under written => ?_⟩
  by_cases here : a = x ∧ b = y
  · obtain ⟨rfl,rfl⟩ := here
    have same : slice (writeAt 0 out _ _) _ _ = pixel image a b := slice_writeAt_same fits
    rwa [three] at same
  · have kept {q : Nat} (away : q ≠ place o image x y) : slice (writeAt 0 out _ (pixel image x y)) (q * 3) 3 = slice out (q * 3) 3 :=
      slice_writeAt_apart fits (by rw [three]; omega)
    rw [← copied.each a inside b under (written.resolve_right here)]
    exact kept fun equal => here (place_inj known inside under within below equal)

theorem cells_copied {out : List UInt8} (todo : List (Nat × Nat)) (copied : Copied o image done out) (all : ∀ cell ∈ todo, cell ∈ cells image) :
    ∃ last, todo.foldlM (copyPixel o image) out = some last ∧ Copied o image (fun a b => done a b ∨ (a,b) ∈ todo) last := by
  induction todo generalizing done out with
  | nil => exact ⟨out,rfl,copied.long,fun a inside b under written => copied.each a inside b under (by simpa using written)⟩
  | cons cell rest ih =>
    obtain ⟨within,below⟩ := (mem_cells image cell).mp (all cell List.mem_cons_self)
    obtain ⟨next,first,part⟩ := copyPixel_copied sized known copied within below
    obtain ⟨last,looped,whole⟩ := ih part fun other listed => all other (List.mem_cons_of_mem cell listed)
    refine ⟨last,by rw [List.foldlM_cons,first]; exact looped,whole.long,fun a inside b under written => whole.each a inside b under ?_⟩
    rwa [List.mem_cons,← or_assoc,Prod.ext_iff] at written

theorem orient_moved : ∃ out, orient image o = some out ∧ Moved o image out := by
  unfold orient
  split
  · have one : o = 1 := by omega
    subst one
    exact ⟨image,rfl,rfl,rfl,rfl,fun _ _ _ _ => rfl⟩
  · have none_ : Copied o image (fun _ _ => False) (List.replicate image.rgb.length 0) := ⟨List.length_replicate,fun _ _ _ _ never => never.elim⟩
    obtain ⟨out,looped,copied⟩ := cells_copied sized known _ none_ fun cell => id
    exact ⟨⟨out,_,_⟩,by rw [looped]; rfl,rfl,rfl,copied.long,fun x within y below => copied.each x within y below (.inr ((mem_cells _ _).mpr ⟨within,below⟩))⟩

end Loop

section Moves
variable (known : 1 ≤ o ∧ o ≤ 8) (sized : Sized image)

theorem moved_area (moved : Moved o image out) : out.width * out.height = image.width * image.height := by
  rw [moved.wide,moved.high]
  exact outSize_area o _ _

theorem moved_sized (moved : Moved o image out) (sized : Sized image) : Sized out := by
  rw [Sized,moved.long,moved_area moved]
  exact sized

include known

theorem moved_pixels (moved : Moved o image out) : (pixels out).Perm (pixels image) := by
  have inner_ : pixels image = ((cells image).map fun cell => place o image cell.1 cell.2).map fun p => slice out.rgb (p * 3) 3 := by
    rw [List.map_map]
    refine List.map_congr_left fun cell listed => ?_
    obtain ⟨within,below⟩ := (mem_cells image cell).mp listed
    exact (moved.each _ within _ below).symm
  have outer : pixels out = ((cells out).map fun cell => place 1 out cell.1 cell.2).map fun p => slice out.rgb (p * 3) 3 := by
    rw [List.map_map]
    rfl
  rw [inner_,outer]
  refine List.Perm.map _ ((places_perm ⟨Nat.le_refl 1,by decide⟩ out).trans ?_)
  rw [moved_area moved]
  exact (places_perm known image).symm

include sized

theorem moved_unique (one : Moved o image out) (two : Moved o image other) : out = other := by
  have wide := one.wide.trans two.wide.symm
  have high := one.high.trans two.high.symm
  have same : out.rgb = other.rgb := by
    have every := @eq_take_of_slices _ out.rgb other.rgb (fun i => (i / 3 * 3,3)) fun i inside => by
      refine ⟨i,by dsimp only; omega,by dsimp only; omega,?_⟩
      have cell : i / 3 ∈ List.range (image.width * image.height) := by
        rw [one.long,show image.rgb.length = _ from sized] at inside
        exact List.mem_range.mpr (by omega)
      obtain ⟨⟨x,y⟩,listed,lands⟩ := List.mem_map.mp ((places_perm known image).mem_iff.mpr cell)
      obtain ⟨within,below⟩ := (mem_cells image _).mp listed
      have both := (one.each x within y below).trans (two.each x within y below).symm
      rwa [show place o image x y = i / 3 from lands] at both
    rw [every,List.take_of_length_le (by rw [one.long,two.long])]
  obtain ⟨rgb,w,h⟩ := out
  cases same
  cases wide
  cases high
  rfl

end Moves

def compositions : List (Nat × Nat × Nat) :=
  [(6,8,1),(8,6,1),(2,2,1),(3,3,1),(4,4,1),(5,5,1),(7,7,1),(6,6,3),(3,6,8),(2,3,4),(2,8,5),(2,6,7)]

theorem composition_known : ∀ c ∈ compositions, (1 ≤ c.1 ∧ c.1 ≤ 8) ∧ (1 ≤ c.2.1 ∧ c.2.1 ≤ 8) ∧ (1 ≤ c.2.2 ∧ c.2.2 ≤ 8) := by
  decide

theorem size_composed (w h : Nat) : ∀ c ∈ compositions, outSize c.2.1 (outSize c.1 w h).1 (outSize c.1 w h).2 = outSize c.2.2 w h := by
  simp [compositions,outSize]

theorem landing_composed (listed : c ∈ compositions) (within : x < w) (below : y < h) :
    landing c.2.1 (outSize c.1 w h).1 (outSize c.1 w h).2 (landing c.1 w h x y).1 (landing c.1 w h x y).2 = landing c.2.2 w h x y := by
  simp only [compositions,List.mem_cons,List.not_mem_nil,or_false] at listed
  rcases listed with rfl | rfl | rfl | rfl | rfl | rfl | rfl | rfl | rfl | rfl | rfl | rfl <;> simp [landing,outSize] <;> omega

theorem moved_composed (listed : c ∈ compositions) (one : Moved c.1 image mid) (two : Moved c.2.1 mid out) : Moved c.2.2 image out := by
  have sides := size_composed image.width image.height c listed
  rw [← one.wide,← one.high] at sides
  refine ⟨by rw [two.wide,sides],by rw [two.high,sides],two.long.trans one.long,fun x within y below => ?_⟩
  have inside := landing_inside (composition_known c listed).1 within below
  rw [← one.wide,← one.high] at inside
  have moved := two.each _ inside.1 _ inside.2
  have first := one.each x within y below
  unfold place at moved first ⊢
  rw [sides,one.wide,one.high,landing_composed listed within below] at moved
  rw [moved,← first,pixel,one.wide]

theorem orients_composed (sized : Sized image) (listed : c ∈ compositions) : orients image [c.1,c.2.1] = orient image c.2.2 := by
  obtain ⟨first,second,third⟩ := composition_known c listed
  obtain ⟨mid,once,one⟩ := orient_moved sized first
  obtain ⟨out,twice,two⟩ := orient_moved (moved_sized one sized) second
  obtain ⟨whole,direct,moved⟩ := orient_moved sized third
  have same := moved_unique third sized (moved_composed listed one two) moved
  subst same
  rw [direct,orients,List.foldlM_cons,once]
  exact (congrArg (· >>= pure) twice).trans (bind_pure _)

theorem orients_append (image : Image) (front back : List Nat) : orients image (front ++ back) = orients image front >>= fun mid => orients mid back :=
  List.foldlM_append

-- Every orientation puts each pixel of the image at one place of its own, and the
-- orientations compose as EXIF has them.
theorem orient_moves_pixels (image : Image) (sized : Sized image) :
    (∀ o, ∃ out, orient image o = some out ∧
      (out.width,out.height) = (if 5 ≤ o ∧ o ≤ 8 then (image.height,image.width) else (image.width,image.height)) ∧
      out.rgb.length = image.rgb.length ∧ (pixels out).Perm (pixels image)) ∧
    orients image [6,8] = some image ∧ orients image [8,6] = some image ∧ (∀ o ∈ [2,3,4,5,7], orients image [o,o] = some image) ∧
    orients image [6,6] = orient image 3 ∧ orients image [6,6,6] = orient image 8 ∧ orients image [2,3] = orient image 4 ∧
    orients image [2,8] = orient image 5 ∧ orients image [2,6] = orient image 7 := by
  have composed {a b c : Nat} (listed : (a,b,c) ∈ compositions) : orients image [a,b] = orient image c := orients_composed sized listed
  refine ⟨fun o => ?_,composed (c := 1) (by decide),composed (c := 1) (by decide),?_,composed (by decide),?_,composed (by decide),composed (by decide),composed (by decide)⟩
  · by_cases known : 1 ≤ o ∧ o ≤ 8
    · obtain ⟨out,turned,moved⟩ := orient_moved sized known
      refine ⟨out,turned,?_,moved.long,moved_pixels known moved⟩
      rw [moved.wide,moved.high]
      exact if_congr ⟨fun five => ⟨five,known.2⟩,And.left⟩ rfl rfl
    · exact ⟨image,if_pos (by omega),by rw [if_neg (by omega)],rfl,List.Perm.refl _⟩
  · intro o listed
    simp only [List.mem_cons,List.not_mem_nil,or_false] at listed
    rcases listed with rfl | rfl | rfl | rfl | rfl <;> exact composed (c := 1) (by decide)
  · calc orients image [6,6,6] = orients image [6,6] >>= fun mid => orients mid [6] := orients_append image [6,6] [6]
      _ = orients image [3] >>= fun mid => orients mid [6] := congrArg (· >>= _) ((composed (c := 3) (by decide)).trans (bind_pure _).symm)
      _ = orients image [3,6] := (orients_append image [3] [6]).symm
      _ = orient image 8 := composed (by decide)

theorem orient_moves_pair : orients ⟨[1,2,3,4,5,6],2,1⟩ [6,6,6] = orient ⟨[1,2,3,4,5,6],2,1⟩ 8 :=
  (orient_moves_pixels ⟨[1,2,3,4,5,6],2,1⟩ rfl).2.2.2.2.2.1

example : orient ⟨[1,2,3,4,5,6],2,1⟩ 8 = some ⟨[4,5,6,1,2,3],1,2⟩ := by decide

end RemoteFileExplorer.Orientations
