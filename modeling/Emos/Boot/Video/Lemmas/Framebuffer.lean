import Emos.Boot.Video.Impl.Vconsole
import Emos.Boot.Video.Lemmas.Color
import Emos.Lib.Damage

/-!
This module contains that a flush shows what has been drawn in the frame buffer, for the modes whose regions
have their entries in the map.
-/

open Lib

namespace Emos.Boot

/--
A mode with a frame buffer, whose rows of pixels do not overlap and are inside of memory.
-/
structure BitmapMode extends VbeVideoModeInfo where
  bitmap : memoryModel ≠ .text
  width_pos : 1 ≤ width
  height_pos : 1 ≤ height
  row_fits : width * ((bpp + 7) / 8) ≤ pitch
  frame_fits : framebuffer + pitch * height ≤ 2 ^ 32

namespace FbAction

/--
The pixels are on the screen.
-/
def Inside (mode : VbeVideoModeInfo) : FbAction → Prop
  | .write x y _ => x < mode.width ∧ y < mode.height
  | .invalidate _ _ x1 y1 => x1 ≤ mode.width ∧ y1 ≤ mode.height

/--
Every pixel that is written is in a rectangle that is invalidated.
-/
def Covered (as : List FbAction) : Prop :=
  ∀ x y color, .write x y color ∈ as →
    ∃ x0 y0 x1 y1, .invalidate x0 y0 x1 y1 ∈ as ∧ x0 ≤ x ∧ x < x1 ∧ y0 ≤ y ∧ y < y1

end FbAction

namespace VgaData

def fbStep (data : VgaData) : FbAction → Run VgaData
  | .write x y color => do
    let frameBuffer ← data.frameBuffer.set .access (y * data.vbeModeInfo.width + x) color
    .ok { data with frameBuffer }
  | .invalidate x0 y0 x1 y1 => do
    let ⟨_, data⟩ ← data.fbInvalidate x0 y0 x1 y1
    .ok data

def fbSteps (data : VgaData) : List FbAction → Run VgaData
  | [] => .ok data
  | a :: as => do
    let data ← data.fbStep a
    data.fbSteps as

/--
Rounds of actions, with a flush at the end of each.
-/
def fbRounds (data : VgaData) : List (List FbAction) → Run VgaData
  | [] => .ok data
  | as :: rounds => do
    let data ← data.fbSteps as
    let ⟨_, data⟩ ← data.fbFlush
    data.fbRounds rounds

/--
What the hardware has at a pixel.
-/
def hwPixel (data : VgaData) (x y : Nat) : Nat :=
  let mode := data.vbeModeInfo
  Bytes.read data.memory (mode.framebuffer + y * mode.pitch + x * mode.pixelSize) mode.storedSize

def swPixel (data : VgaData) (x y : Nat) : BitVec 32 := data.frameBuffer.data (y * data.vbeModeInfo.width + x)

end VgaData

namespace BitmapMode

def xRegions (mode : BitmapMode) : Nat := mode.width / diffRegionSize

def yRegions (mode : BitmapMode) : Nat := mode.height / diffRegionSize

/--
The map has an entry for a region, which is the one at its index, and a flush stores its rows where the
hardware has them.
-/
structure Denotes (mode : BitmapMode) (xr yr : Nat) : Prop where
  x_lt : xr < mode.xRegions
  y_lt : yr < mode.yRegions
  index : yr * mode.width / diffRegionSize + xr = yr * mode.xRegions + xr
  offset : xr * diffRegionSize * mode.bpp / 8 = xr * diffRegionSize * mode.pixelSize

/--
The regions of a rectangle, as they are invalidated.
-/
def rectRegions (x0 y0 x1 y1 : Nat) : Set (Nat × Nat) :=
  {r | x0 / diffRegionSize ≤ r.1 ∧ r.1 < (x1 + diffRegionSize - 1) / diffRegionSize
    ∧ y0 / diffRegionSize ≤ r.2 ∧ r.2 < (y1 + diffRegionSize - 1) / diffRegionSize}

/--
The mode is set, and in each of any number of rounds pixels are written, each of them in a rectangle that is
invalidated, and then everything is flushed. After that the hardware has the colour of every pixel that was
ever written, and every region that was invalidated or flushed is the one that was meant.
-/
structure FlushComplete (mode : BitmapMode) : Prop where
  invalidated : ∀ x0 y0 x1 y1, FbAction.Inside mode.toVbeVideoModeInfo (.invalidate x0 y0 x1 y1) →
    ∀ r ∈ rectRegions x0 y0 x1 y1, mode.Denotes r.1 r.2
  flushed : ∀ xr yr, xr < mode.xRegions → yr < mode.yRegions → mode.Denotes xr yr
  shown : ∀ (data : VgaData) (number : Nat) (rounds : List (List FbAction)), data.vbeAvailable = true →
    (∀ as ∈ rounds, (∀ a ∈ as, FbAction.Inside mode.toVbeVideoModeInfo a) ∧ FbAction.Covered as) →
    ∃ start data', data.setModeVbe number (.ok mode.toVbeVideoModeInfo) = .ok ⟨.success, start⟩
      ∧ start.fbRounds rounds = .ok data'
      ∧ ∀ x y color, .write x y color ∈ rounds.flatten →
        data'.hwPixel x y = mode.colorConversion (data'.swPixel x y)

/--
The width and the height are multiples of the size of a region, a pixel is whole bytes or there is only one
region in a row, and the size of the frame buffer does not overflow.
-/
structure Aligned (mode : BitmapMode) : Prop where
  width : diffRegionSize ∣ mode.width
  height : diffRegionSize ∣ mode.height
  bpp : mode.width = diffRegionSize ∨ 8 ∣ mode.bpp
  size : mode.width * mode.height < 2 ^ 30

variable {mode : BitmapMode} {xr yr : Nat}

theorem Aligned.width_eq (h : mode.Aligned) : mode.width = diffRegionSize * mode.xRegions :=
  (Nat.mul_div_cancel' h.width).symm

theorem Aligned.height_eq (h : mode.Aligned) : mode.height = diffRegionSize * mode.yRegions :=
  (Nat.mul_div_cancel' h.height).symm

theorem Aligned.index (h : mode.Aligned) (yr : Nat) : yr * mode.width / diffRegionSize = yr * mode.xRegions :=
  Nat.mul_div_assoc yr h.width

theorem Aligned.offset (h : mode.Aligned) (hx : xr < mode.xRegions)
    : xr * diffRegionSize * mode.bpp / 8 = xr * diffRegionSize * mode.pixelSize := by
  unfold VbeVideoModeInfo.pixelSize
  cases h.bpp with
  | inl hwidth =>
    have hone : mode.xRegions = 1 := by
      unfold xRegions
      rw [hwidth]
      rfl
    rw [hone] at hx
    rw [Nat.lt_one_iff.mp hx, Nat.zero_mul, Nat.zero_mul, Nat.zero_mul]
  | inr hbpp =>
    rw [Nat.mul_div_assoc _ hbpp]
    congr 1
    lia

theorem Aligned.denotes (h : mode.Aligned) (hx : xr < mode.xRegions) (hy : yr < mode.yRegions) : mode.Denotes xr yr :=
  ⟨hx, hy, by rw [h.index], h.offset hx⟩

theorem Aligned.invalidated (h : mode.Aligned) {x0 y0 x1 y1 : Nat} (hx : x1 ≤ mode.width) (hy : y1 ≤ mode.height)
    {r : Nat × Nat} (hr : r ∈ rectRegions x0 y0 x1 y1)
    : r.1 < mode.xRegions ∧ r.2 < mode.yRegions := by
  obtain ⟨_, hr1, _, hr2⟩ := hr
  rw [h.width_eq] at hx
  rw [h.height_eq] at hy
  unfold diffRegionSize at *
  lia

/--
What setting the mode leaves, and what drawing keeps.
-/
structure Ready (mode : BitmapMode) (data : VgaData) : Prop where
  info : data.vbeModeInfo = mode.toVbeVideoModeInfo
  available : data.vbeAvailable = true
  idle : data.isSwitchingMode = false
  convert : data.convertColor = ConvertColor.ofBpp mode.bpp
  frameSize : data.frameBuffer.size = mode.width * mode.height
  diffSize : data.diffBuffer.size = mode.xRegions * mode.yRegions

def region (p : Nat × Nat) : Nat × Nat := (p.1 / diffRegionSize, p.2 / diffRegionSize)

def address (mode : BitmapMode) (x y : Nat) : Nat := mode.framebuffer + y * mode.pitch + x * mode.pixelSize

def pixel (mode : BitmapMode) (data : VgaData) (p : Nat × Nat) : Nat :=
  Bytes.read data.memory (mode.address p.1 p.2) mode.storedSize

def drawnPixel (mode : BitmapMode) (data : VgaData) (p : Nat × Nat) : Nat :=
  mode.colorConversion (data.frameBuffer.data (p.2 * mode.width + p.1))

/--
The pixels of the screen as they are drawn and as they are shown, and the regions whose entry is set.
-/
def damage (mode : BitmapMode) (data : VgaData) : Damage (Nat × Nat) (Nat × Nat) Nat where
  want p := if p.1 < mode.width ∧ p.2 < mode.height then mode.drawnPixel data p else 0
  shown p := if p.1 < mode.width ∧ p.2 < mode.height then mode.pixel data p else 0
  marked := {r | r.1 < mode.xRegions ∧ r.2 < mode.yRegions ∧ data.diffBuffer.data (r.2 * mode.xRegions + r.1) ≠ 0}

/--
An action on the frame buffer as one on the pixels.
-/
def actionOf (mode : BitmapMode) : FbAction → Damage.Action (Nat × Nat) (Nat × Nat) Nat
  | .write x y color => .draw (x, y) (mode.colorConversion color)
  | .invalidate x0 y0 x1 y1 => .mark (rectRegions x0 y0 x1 y1)

variable {data t : VgaData} {x y x' y' n : Nat}

theorem address_succ : mode.address (x + 1) y = mode.address x y + mode.pixelSize := by
  unfold address
  rw [Nat.succ_mul]
  omega

theorem address_add (n : Nat) : mode.address (x + n) y = mode.address x y + n * mode.pixelSize := by
  unfold address
  rw [Nat.add_mul]
  omega

theorem address_mono (h : x ≤ x') : mode.address x y ≤ mode.address x' y :=
  Nat.add_le_add_left (Nat.mul_le_mul_right _ h) _

/--
A row of pixels ends in front of the next one.
-/
theorem address_row (hx : x ≤ mode.width) (hy : y < y') : mode.address x y ≤ mode.address x' y' := by
  have hrow : x * mode.pixelSize ≤ mode.pitch := Nat.le_trans (Nat.mul_le_mul_right _ hx) mode.row_fits
  have hnext : (y + 1) * mode.pitch ≤ y' * mode.pitch := Nat.mul_le_mul_right _ hy
  rw [Nat.succ_mul] at hnext
  unfold address
  lia

theorem regionIndex_eq (h : mode.Aligned) (hready : mode.Ready data) (xr yr : Nat)
    : data.regionIndex xr yr = yr * mode.xRegions + xr := by
  unfold VgaData.regionIndex
  rw [hready.info, h.index]

theorem getRegionDiff_eq (h : mode.Aligned) (hready : mode.Ready data) (hx : xr < mode.xRegions)
    (hy : yr < mode.yRegions)
    : data.getRegionDiff xr yr = .ok (data.diffBuffer.data (yr * mode.xRegions + xr)) := by
  unfold VgaData.getRegionDiff
  rw [regionIndex_eq h hready]
  apply Buffer.get_of_lt
  rw [hready.diffSize]
  exact Buffer.row_lt hx hy

theorem mem_marked
    : (xr, yr) ∈ (mode.damage data).marked
        ↔
      xr < mode.xRegions ∧ yr < mode.yRegions ∧ data.diffBuffer.data (yr * mode.xRegions + xr) ≠ 0 :=
  Iff.rfl

theorem setRegionDiff_eq (h : mode.Aligned) (hready : mode.Ready data) (hx : xr < mode.xRegions)
    (hy : yr < mode.yRegions)
    : ∃ t, data.setRegionDiff xr yr = .ok t ∧ mode.Ready t
        ∧ mode.damage t = (mode.damage data).step (.mark {(xr, yr)}) := by
  have hlt : yr * mode.xRegions + xr < data.diffBuffer.size := by
    rw [hready.diffSize]
    exact Buffer.row_lt hx hy
  unfold VgaData.setRegionDiff
  rw [regionIndex_eq h hready, Buffer.set_of_lt hlt]
  refine ⟨_, rfl, ⟨hready.info, hready.available, hready.idle, hready.convert, hready.frameSize, hready.diffSize⟩, ?_⟩
  refine Damage.ext rfl rfl ?_
  ext ⟨xr', yr'⟩
  change _ ↔ (xr', yr') ∈ (mode.damage data).marked ∪ {(xr, yr)}
  rw [Set.mem_union, Set.mem_singleton_iff, mem_marked, mem_marked]
  dsimp only
  by_cases heq : yr' * mode.xRegions + xr' = yr * mode.xRegions + xr
  . rw [heq, Function.update_self]
    constructor
    . rintro ⟨hx', hy', _⟩
      obtain ⟨rfl, rfl⟩ := Buffer.row_inj hx' hx heq
      exact .inr rfl
    . rintro (⟨hx', hy', _⟩ | hself)
      . exact ⟨hx', hy', by decide⟩
      . cases hself
        exact ⟨hx, hy, by decide⟩
  . rw [Function.update_of_ne heq]
    constructor
    . exact .inl
    . rintro (hmark | hself)
      . exact hmark
      . cases hself
        exact absurd rfl heq

theorem resetRegionDiff_eq (h : mode.Aligned) (hready : mode.Ready data) (hx : xr < mode.xRegions)
    (hy : yr < mode.yRegions)
    : ∃ t, data.resetRegionDiff xr yr = .ok t ∧ mode.Ready t ∧ t.frameBuffer = data.frameBuffer
        ∧ t.memory = data.memory ∧ (mode.damage t).marked = (mode.damage data).marked \ {(xr, yr)} := by
  have hlt : yr * mode.xRegions + xr < data.diffBuffer.size := by
    rw [hready.diffSize]
    exact Buffer.row_lt hx hy
  unfold VgaData.resetRegionDiff
  rw [regionIndex_eq h hready, Buffer.set_of_lt hlt]
  refine ⟨_, rfl, ⟨hready.info, hready.available, hready.idle, hready.convert, hready.frameSize, hready.diffSize⟩,
    rfl, rfl, ?_⟩
  ext ⟨xr', yr'⟩
  rw [Set.mem_sdiff, Set.mem_singleton_iff, mem_marked, mem_marked]
  dsimp only
  by_cases heq : yr' * mode.xRegions + xr' = yr * mode.xRegions + xr
  . rw [heq, Function.update_self]
    constructor
    . rintro ⟨_, _, hzero⟩
      exact absurd rfl hzero
    . rintro ⟨⟨hx', hy', _⟩, hne⟩
      obtain ⟨rfl, rfl⟩ := Buffer.row_inj hx' hx heq
      exact absurd rfl hne
  . rw [Function.update_of_ne heq]
    constructor
    . refine fun hmark => ⟨hmark, fun hself => ?_⟩
      cases hself
      exact heq rfl
    . exact And.left

theorem fbStep_write (hready : mode.Ready data) (hx : x < mode.width) (hy : y < mode.height) (color : BitVec 32)
    : ∃ t, data.fbStep (.write x y color) = .ok t ∧ mode.Ready t
        ∧ mode.damage t = (mode.damage data).step (.draw (x, y) (mode.colorConversion color)) := by
  have hlt : y * data.vbeModeInfo.width + x < data.frameBuffer.size := by
    rw [hready.info, hready.frameSize]
    exact Buffer.row_lt hx hy
  unfold VgaData.fbStep
  dsimp only
  rw [Buffer.set_of_lt hlt]
  refine ⟨_, rfl, ⟨hready.info, hready.available, hready.idle, hready.convert, hready.frameSize, hready.diffSize⟩, ?_⟩
  rw [hready.info]
  refine Damage.ext (funext fun p => ?_) rfl rfl
  change (if p.1 < mode.width ∧ p.2 < mode.height then
      mode.colorConversion (Function.update data.frameBuffer.data (y * mode.width + x) color (p.2 * mode.width + p.1))
    else 0) = _
  by_cases hp : p = (x, y)
  . subst hp
    rw [Damage.step_draw_self, Function.update_self, if_pos ⟨hx, hy⟩]
  . rw [Damage.step_draw_of_ne hp]
    by_cases hscreen : p.1 < mode.width ∧ p.2 < mode.height
    . have hne : p.2 * mode.width + p.1 ≠ y * mode.width + x := by
        intro heq
        obtain ⟨h1, h2⟩ := Buffer.row_inj hscreen.1 hx heq
        exact hp (Prod.ext h1 h2)
      rw [Function.update_of_ne hne, if_pos hscreen]
      exact (if_pos hscreen).symm
    . rw [if_neg hscreen]
      exact (if_neg hscreen).symm

/--
The regions of a row of a rectangle.
-/
theorem fbInvalidate_row (h : mode.Aligned) (hready : mode.Ready data) (hy : yr < mode.yRegions) {lo n : Nat}
    (hn : ∀ k, lo ≤ k → k < lo + n → k < mode.xRegions)
    : ∃ t, forRange (fun (data : VgaData) xr => data.setRegionDiff xr yr) n lo data = .ok t ∧ mode.Ready t
        ∧ mode.damage t = (mode.damage data).step (.mark {r | r.2 = yr ∧ lo ≤ r.1 ∧ r.1 < lo + n}) := by
  refine forRange_total (fun k t => mode.Ready t
    ∧ mode.damage t = (mode.damage data).step (.mark {r | r.2 = yr ∧ lo ≤ r.1 ∧ r.1 < k})) ?_ ⟨hready, ?_⟩
  . intro k t hlo hk ⟨ht, hdamage⟩
    obtain ⟨u, hu, hnext, hmark⟩ := setRegionDiff_eq h ht (hn k hlo hk) hy
    refine ⟨u, hu, hnext, ?_⟩
    rw [hmark, hdamage, Damage.step_mark_mark]
    congr 2
    ext ⟨xr, yr'⟩
    simp only [Set.mem_union, Set.mem_ofPred_eq, Set.mem_singleton_iff, Prod.mk.injEq]
    lia
  . rw [show {r : Nat × Nat | r.2 = yr ∧ lo ≤ r.1 ∧ r.1 < lo} = ∅ by ext r; simp]
    exact Damage.step_mark_empty.symm

theorem fbStep_invalidate (h : mode.Aligned) (hready : mode.Ready data) {x0 y0 x1 y1 : Nat} (hx : x1 ≤ mode.width)
    (hy : y1 ≤ mode.height)
    : ∃ t, data.fbStep (.invalidate x0 y0 x1 y1) = .ok t ∧ mode.Ready t
        ∧ mode.damage t = (mode.damage data).step (.mark (rectRegions x0 y0 x1 y1)) := by
  have hw := h.width_eq
  have hh := h.height_eq
  unfold VgaData.fbStep VgaData.fbInvalidate VgaData.fbInvalidateVbe
  rw [hready.idle, hready.available]
  dsimp only
  unfold diffRegionSize at *
  generalize hxlo : x0 / 16 = xlo
  generalize hxn : (x1 + 16 - 1) / 16 - xlo = xn
  generalize hylo : y0 / 16 = ylo
  generalize hyn : (y1 + 16 - 1) / 16 - ylo = yn
  obtain ⟨t, ht, hnext, hdamage⟩ := forRange_total (n := yn) (i := ylo) (s := data)
    (fun k t => mode.Ready t ∧ mode.damage t = (mode.damage data).step
      (.mark {r | xlo ≤ r.1 ∧ r.1 < xlo + xn ∧ ylo ≤ r.2 ∧ r.2 < k}))
    (by
      intro k t hlo hk ⟨ht, hdamage⟩
      obtain ⟨u, hu, hnext, hmark⟩ := fbInvalidate_row h ht (by lia : k < mode.yRegions)
        (by lia : ∀ j, xlo ≤ j → j < xlo + xn → j < mode.xRegions)
      refine ⟨u, hu, hnext, ?_⟩
      rw [hmark, hdamage, Damage.step_mark_mark]
      congr 2
      ext ⟨xr, yr⟩
      simp only [Set.mem_union, Set.mem_ofPred_eq]
      lia)
    ⟨hready, by
      rw [show {r : Nat × Nat | xlo ≤ r.1 ∧ r.1 < xlo + xn ∧ ylo ≤ r.2 ∧ r.2 < ylo} = ∅ by ext r; simp]
      exact Damage.step_mark_empty.symm⟩
  refine ⟨t, ?_, hnext, ?_⟩
  . rw [ht]
    rfl
  . rw [hdamage]
    congr 2
    ext ⟨xr, yr⟩
    unfold rectRegions diffRegionSize
    simp only [Set.mem_ofPred_eq]
    lia

/--
The regions of a chunk.
-/
def chunk (xr yr size : Nat) : Set (Nat × Nat) := {r | r.2 = yr ∧ xr ≤ r.1 ∧ r.1 < xr + size}

theorem mem_chunk {size : Nat} {r : Nat × Nat} : r ∈ chunk xr yr size ↔ r.2 = yr ∧ xr ≤ r.1 ∧ r.1 < xr + size :=
  Iff.rfl

theorem sameDiff_eq (h : mode.Aligned) (hready : mode.Ready data) (hy : yr < mode.yRegions) (value : BitVec 8)
    (hn : xr + n ≤ mode.xRegions)
    : ∃ k, data.sameDiff value yr n xr = .ok k ∧ k ≤ n
        ∧ ∀ j, j < k → data.diffBuffer.data (yr * mode.xRegions + (xr + j)) = value := by
  induction n generalizing xr with
  | zero => exact ⟨0, rfl, Nat.le_refl 0, fun j hj => absurd hj (Nat.not_lt_zero j)⟩
  | succ n ih =>
    unfold VgaData.sameDiff
    rw [getRegionDiff_eq h hready (by omega) hy]
    change ∃ k, (if value ≠ data.diffBuffer.data (yr * mode.xRegions + xr) then Except.ok 0 else _) = _ ∧ _
    by_cases hvalue : value = data.diffBuffer.data (yr * mode.xRegions + xr)
    . obtain ⟨k, hk, hle, hsame⟩ := @ih (xr + 1) (by omega)
      rw [if_neg (fun hne => hne hvalue), hk]
      refine ⟨k + 1, rfl, by omega, fun j hj => ?_⟩
      cases j with
      | zero => exact hvalue.symm
      | succ j =>
        rw [show xr + (j + 1) = xr + 1 + j by omega]
        exact hsame j (by omega)
    . rw [if_pos hvalue]
      exact ⟨0, rfl, Nat.zero_le _, fun j hj => absurd hj (Nat.not_lt_zero j)⟩

/--
A chunk is not empty, is inside of the row, and has no marked region when its size is negative.
-/
theorem getDiffChunkVbe_eq (h : mode.Aligned) (hready : mode.Ready data) (hx : xr < mode.xRegions)
    (hy : yr < mode.yRegions)
    : ∃ size, 1 ≤ size ∧ xr + size ≤ mode.xRegions
        ∧ (data.getDiffChunkVbe xr yr = .ok (size : Int)
          ∨ (data.getDiffChunkVbe xr yr = .ok (-(size : Int))
            ∧ ∀ r ∈ chunk xr yr size, r ∉ (mode.damage data).marked)) := by
  have hregions : data.vbeModeInfo.width / diffRegionSize = mode.xRegions := by
    rw [hready.info]
    rfl
  unfold VgaData.getDiffChunkVbe
  rw [getRegionDiff_eq h hready hx hy, hregions]
  obtain ⟨k, hk, hle, hsame⟩ := sameDiff_eq h hready hy (data.diffBuffer.data (yr * mode.xRegions + xr))
    (show xr + 1 + (mode.xRegions - (xr + 1)) ≤ mode.xRegions by lia)
  refine ⟨1 + k, by lia, by lia, ?_⟩
  change (data.sameDiff _ yr _ (xr + 1) >>= fun size => Except.ok _) = _
    ∨ ((data.sameDiff _ yr _ (xr + 1) >>= fun size => Except.ok _) = _ ∧ _)
  rw [hk]
  by_cases hzero : data.diffBuffer.data (yr * mode.xRegions + xr) = 0
  . refine .inr ⟨congrArg Except.ok (if_neg (fun hne => hne hzero)), ?_⟩
    rintro ⟨xr', yr'⟩ ⟨rfl, hlo, hhi⟩ ⟨_, _, hne⟩
    dsimp only at hlo hhi hne
    apply hne
    by_cases hfirst : xr' = xr
    . rw [hfirst]
      exact hzero
    . have := hsame (xr' - (xr + 1)) (by lia)
      rw [show xr + 1 + (xr' - (xr + 1)) = xr' by lia, hzero] at this
      exact this
  . exact .inl (congrArg Except.ok (if_pos hzero))

theorem Ready.of_memory (hready : mode.Ready data) (memory : Bytes) : mode.Ready { data with memory } :=
  ⟨hready.info, hready.available, hready.idle, hready.convert, hready.frameSize, hready.diffSize⟩

theorem storedSize_cases (mode : VbeVideoModeInfo) : mode.storedSize = mode.pixelSize ∨ mode.storedSize = 0 := by
  unfold VbeVideoModeInfo.storedSize
  split
  . exact .inl rfl
  . exact .inr rfl

theorem read_row {m : Bytes} {vs : List Nat} {i : Nat} (hi : i < vs.length)
    : Bytes.read (Bytes.writeAll m (mode.address x y) mode.storedSize vs) (mode.address (x + i) y) mode.storedSize
        = vs[i] % 256 ^ mode.storedSize := by
  cases storedSize_cases mode.toVbeVideoModeInfo with
  | inl hsize =>
    rw [address_add, ← hsize, Nat.mul_comm]
    exact Bytes.read_writeAll hi
  | inr hsize =>
    rw [hsize, Nat.pow_zero, Nat.mod_one, Bytes.read]

theorem read_row_outside {m : Bytes} {vs : List Nat} (hx : x + vs.length ≤ mode.width) (hx' : x' < mode.width)
    (hout : y' ≠ y ∨ x' < x ∨ x + vs.length ≤ x')
    : Bytes.read (Bytes.writeAll m (mode.address x y) mode.storedSize vs) (mode.address x' y') mode.storedSize
        = Bytes.read m (mode.address x' y') mode.storedSize := by
  cases storedSize_cases mode.toVbeVideoModeInfo with
  | inl hsize =>
    apply Bytes.read_writeAll_disjoint
    rw [hsize, ← address_succ, Nat.mul_comm, ← address_add]
    rcases Nat.lt_trichotomy y' y with hlt | rfl | hgt
    . exact .inl (address_row hx' hlt)
    . rcases hout with hne | hlt | hge
      . exact absurd rfl hne
      . exact .inl (address_mono hlt)
      . exact .inr (address_mono hge)
    . exact .inr (address_row hx hgt)
  | inr hsize => rw [hsize, Bytes.read, Bytes.read]

/--
The pixels of a row of a chunk are shown, and no others change.
-/
theorem copyRow_eq (h : mode.Aligned) (hready : mode.Ready data) {size : Nat} (hsize : 1 ≤ size)
    (hx : xr + size ≤ mode.xRegions) (hy : y < mode.height)
    : ∃ memory, data.copyRow xr size y = .ok { data with memory }
        ∧ ∀ p : Nat × Nat, p.1 < mode.width → p.2 < mode.height →
          mode.pixel { data with memory } p
            = if p.2 = y ∧ xr * diffRegionSize ≤ p.1 ∧ p.1 < (xr + size) * diffRegionSize then
                mode.drawnPixel data p
              else
                mode.pixel data p := by
  have hw := h.width_eq
  have hend : (xr + size) * diffRegionSize ≤ mode.width := by
    rw [hw, Nat.mul_comm]
    exact Nat.mul_le_mul_left _ hx
  have hinside : y * mode.width + xr * diffRegionSize + size * diffRegionSize ≤ data.frameBuffer.size := by
    have hrow : (y + 1) * mode.width ≤ mode.height * mode.width := Nat.mul_le_mul_right _ hy
    rw [Nat.succ_mul] at hrow
    rw [Nat.add_mul] at hend
    rw [hready.frameSize, Nat.mul_comm mode.width]
    lia
  have hdest : mode.framebuffer + (y * mode.pitch + xr * diffRegionSize * mode.bpp / 8)
      = mode.address (xr * diffRegionSize) y := by
    rw [h.offset (by omega)]
    exact (Nat.add_assoc _ _ _).symm
  unfold VgaData.copyRow
  rw [hready.info, hready.convert]
  dsimp only
  rw [Buffer.slice_of_le hinside]
  refine ⟨_, rfl, ?_⟩
  intro p hpx hpy
  unfold pixel drawnPixel
  dsimp only
  rw [convert_eq, hdest, List.map_map]
  have hlen : ((List.range (size * diffRegionSize)).map
      (mode.colorValue ∘ fun j => data.frameBuffer.data (y * mode.width + xr * diffRegionSize + j))).length
        = size * diffRegionSize := by
    rw [List.length_map, List.length_range]
  split
  next hin =>
    obtain ⟨rfl, hlo, hhi⟩ := hin
    obtain ⟨i, hi⟩ := Nat.exists_eq_add_of_le hlo
    rw [Nat.add_mul] at hhi
    rw [hi, read_row (by rw [hlen]; lia)]
    rw [List.getElem_map, List.getElem_range, Function.comp_apply, Nat.add_assoc]
    rfl
  next hout =>
    rw [Nat.add_mul] at hend hout
    apply read_row_outside (by rw [hlen]; exact hend) hpx
    rw [hlen]
    lia

theorem resetChunk (h : mode.Aligned) (hready : mode.Ready data) {size : Nat} (hx : xr + size ≤ mode.xRegions)
    (hy : yr < mode.yRegions)
    : ∃ t, forRange (fun (data : VgaData) i => data.resetRegionDiff (xr + i) yr) size 0 data = .ok t ∧ mode.Ready t
        ∧ t.frameBuffer = data.frameBuffer ∧ t.memory = data.memory
        ∧ (mode.damage t).marked = (mode.damage data).marked \ chunk xr yr size := by
  have hrun := @forRange_total VgaData Fault (fun data i => data.resetRegionDiff (xr + i) yr)
    (fun k t => mode.Ready t ∧ t.frameBuffer = data.frameBuffer ∧ t.memory = data.memory
      ∧ (mode.damage t).marked = (mode.damage data).marked \ chunk xr yr k) size 0 data ?_ ?_
  . rw [Nat.zero_add] at hrun
    exact hrun
  . intro k t _ hk ⟨ht, hframe, hmemory, hmarked⟩
    obtain ⟨u, hu, hnext, huframe, humemory, humarked⟩ :=
      resetRegionDiff_eq h ht (show xr + k < mode.xRegions by omega) hy
    refine ⟨u, hu, hnext, huframe.trans hframe, humemory.trans hmemory, ?_⟩
    rw [humarked, hmarked, Set.sdiff_sdiff]
    congr 1
    ext ⟨xr', yr'⟩
    simp only [Set.mem_union, Set.mem_singleton_iff, mem_chunk, Prod.mk.injEq]
    lia
  . refine ⟨hready, rfl, rfl, ?_⟩
    rw [show chunk xr yr 0 = ∅ by ext r; simp [mem_chunk]]
    exact Set.sdiff_empty.symm

theorem flushChunk_eq (h : mode.Aligned) (hready : mode.Ready data) {size : Nat} (hsize : 1 ≤ size)
    (hx : xr + size ≤ mode.xRegions) (hy : yr < mode.yRegions)
    : ∃ t, data.flushChunk xr yr size = .ok t ∧ mode.Ready t
        ∧ mode.damage t = (mode.damage data).refresh region (chunk xr yr size) := by
  obtain ⟨start, hstart, hready', hframe, hmemory, hmarked⟩ := resetChunk h hready hx hy
  have hh := h.height_eq
  -- the rows in front of `y` are shown
  obtain ⟨t, ht, hnext, hdiff, hsame, hpixels⟩ := forRange_total (n := diffRegionSize) (i := yr * diffRegionSize)
    (s := start)
    (fun y t => mode.Ready t ∧ t.diffBuffer = start.diffBuffer ∧ t.frameBuffer = start.frameBuffer
      ∧ ∀ p : Nat × Nat, p.1 < mode.width → p.2 < mode.height →
        mode.pixel t p
          = if yr * diffRegionSize ≤ p.2 ∧ p.2 < y ∧ xr * diffRegionSize ≤ p.1
              ∧ p.1 < (xr + size) * diffRegionSize then
              mode.drawnPixel start p
            else
              mode.pixel start p)
    (by
      intro y t hlo hy' ⟨hready, hdiff, hsame, hpixels⟩
      have hyh : y < mode.height := by
        rw [hh]
        unfold diffRegionSize at *
        omega
      obtain ⟨memory, hcopy, hrow⟩ := copyRow_eq h hready hsize hx hyh
      refine ⟨_, hcopy, hready.of_memory memory, hdiff, hsame, fun p hpx hpy => ?_⟩
      have hdrawn : mode.drawnPixel t p = mode.drawnPixel start p := by
        unfold drawnPixel
        rw [hsame]
      rw [hrow p hpx hpy, hdrawn, hpixels p hpx hpy]
      by_cases hin : xr * diffRegionSize ≤ p.1 ∧ p.1 < (xr + size) * diffRegionSize
      . by_cases hpy' : p.2 = y
        . rw [if_pos ⟨hpy', hin⟩, if_pos ⟨by omega, by omega, hin⟩]
        . rw [if_neg (fun hc => hpy' hc.1)]
          congr 1
          rw [eq_iff_iff]
          constructor
          . exact fun hc => ⟨hc.1, by omega, hc.2.2⟩
          . exact fun hc => ⟨hc.1, by lia, hc.2.2⟩
      . rw [if_neg (fun hc => hin hc.2), if_neg (fun hc => hin hc.2.2), if_neg (fun hc => hin hc.2.2)])
    ⟨hready', rfl, rfl, fun p _ _ => (if_neg (fun hc => by omega)).symm⟩
  have hframe' : t.frameBuffer = data.frameBuffer := hsame.trans hframe
  refine ⟨t, (bind_eq_ok _ _ _).mpr ⟨start, hstart, ht⟩, hnext, Damage.ext ?_ ?_ ?_⟩
  . funext p
    change (if _ then _ else _) = (if _ then _ else _)
    unfold drawnPixel
    rw [hframe']
  . funext p
    have hrect : region p ∈ chunk xr yr size
        ↔ yr * diffRegionSize ≤ p.2 ∧ p.2 < yr * diffRegionSize + diffRegionSize
          ∧ xr * diffRegionSize ≤ p.1 ∧ p.1 < (xr + size) * diffRegionSize := by
      unfold region diffRegionSize
      rw [mem_chunk]
      lia
    have hold : mode.pixel start p = mode.pixel data p := by
      unfold pixel
      rw [hmemory]
    have hdrawn : mode.drawnPixel start p = mode.drawnPixel data p := by
      unfold drawnPixel
      rw [hframe]
    by_cases hscreen : p.1 < mode.width ∧ p.2 < mode.height
    . have hshown : (mode.damage t).shown p = mode.pixel t p := if_pos hscreen
      rw [hshown, hpixels p hscreen.1 hscreen.2]
      by_cases hin : region p ∈ chunk xr yr size
      . rw [Damage.refresh_shown_of_mem hin, if_pos (hrect.mp hin), hdrawn]
        exact (if_pos hscreen).symm
      . rw [Damage.refresh_shown_of_notMem hin, if_neg (fun hc => hin (hrect.mpr hc)), hold]
        exact (if_pos hscreen).symm
    . have hshown : (mode.damage t).shown p = 0 := if_neg hscreen
      rw [hshown]
      by_cases hin : region p ∈ chunk xr yr size
      . rw [Damage.refresh_shown_of_mem hin]
        exact (if_neg hscreen).symm
      . rw [Damage.refresh_shown_of_notMem hin]
        exact (if_neg hscreen).symm
  . change (mode.damage t).marked = (mode.damage data).marked \ chunk xr yr size
    rw [← hmarked]
    unfold damage
    rw [hdiff]

/--
The marked regions of a row from `xr` on are shown.
-/
theorem flushRegions_eq (h : mode.Aligned) (hready : mode.Ready data) (hy : yr < mode.yRegions)
    (hx : xr ≤ mode.xRegions) (hn : mode.xRegions < xr + n)
    : ∃ t rs, VgaData.flushRegions yr n xr data = .ok t ∧ mode.Ready t
        ∧ mode.damage t = (mode.damage data).refresh region rs
        ∧ ∀ r ∈ (mode.damage data).marked, r.2 = yr → xr ≤ r.1 → r ∈ rs := by
  induction n generalizing xr data with
  | zero => omega
  | succ n ih =>
    have hregions : data.vbeModeInfo.width / diffRegionSize = mode.xRegions := by
      rw [hready.info]
      rfl
    unfold VgaData.flushRegions
    rw [hregions]
    by_cases hlt : xr < mode.xRegions
    . rw [if_pos hlt]
      obtain ⟨size, hsize, hinside, hchunk | ⟨hchunk, hnone⟩⟩ := getDiffChunkVbe_eq h hready hlt hy
      . obtain ⟨u, hu, hready', hdamage⟩ := flushChunk_eq h hready hsize hinside hy
        obtain ⟨t, rs, ht, hnext, hdamage', hall⟩ := @ih (xr + size) u hready' hinside (by omega)
        refine ⟨t, chunk xr yr size ∪ rs, ?_, hnext, ?_, ?_⟩
        . refine (bind_eq_ok _ _ _).mpr ⟨_, hchunk, ?_⟩
          rw [if_neg (by omega), Int.toNat_natCast]
          exact (bind_eq_ok _ _ _).mpr ⟨u, hu, ht⟩
        . rw [hdamage', hdamage, Damage.refresh_refresh]
        . intro r hr hry hrx
          by_cases hin : r ∈ chunk xr yr size
          . exact .inl hin
          . refine .inr (hall r ?_ hry ?_)
            . rw [hdamage]
              exact ⟨hr, hin⟩
            . rw [mem_chunk] at hin
              lia
      . obtain ⟨t, rs, ht, hnext, hdamage, hall⟩ := @ih (xr + size) data hready hinside (by omega)
        refine ⟨t, rs, ?_, hnext, hdamage, ?_⟩
        . refine (bind_eq_ok _ _ _).mpr ⟨_, hchunk, ?_⟩
          rw [if_pos (by omega), Int.neg_neg, Int.toNat_natCast]
          exact ht
        . intro r hr hry hrx
          apply hall r hr hry
          by_contra hlt
          exact hnone r ⟨hry, hrx, Nat.lt_of_not_le hlt⟩ hr
    . rw [if_neg hlt]
      refine ⟨data, ∅, rfl, hready, Damage.refresh_empty.symm, ?_⟩
      intro r hr _ hrx
      exact absurd hr.1 (by omega)

theorem fbFlush_eq (h : mode.Aligned) (hready : mode.Ready data)
    : ∃ t rs, data.fbFlush = .ok ⟨.success, t⟩ ∧ mode.Ready t
        ∧ mode.damage t = (mode.damage data).refresh region rs ∧ (mode.damage data).marked ⊆ rs := by
  have hrows : data.vbeModeInfo.height / diffRegionSize = mode.yRegions := by
    rw [hready.info]
    rfl
  have hrun := @forRange_total VgaData Fault
    (fun data yr => VgaData.flushRegions yr (data.vbeModeInfo.width / diffRegionSize + 1) 0 data)
    (fun k t => mode.Ready t ∧ ∃ rs, mode.damage t = (mode.damage data).refresh region rs
      ∧ ∀ r ∈ (mode.damage data).marked, r.2 < k → r ∈ rs) mode.yRegions 0 data ?_ ⟨hready, ∅, Damage.refresh_empty.symm, ?_⟩
  . obtain ⟨t, ht, hnext, rs, hdamage, hall⟩ := hrun
    refine ⟨t, rs, ?_, hnext, hdamage, fun r hr => hall r hr ?_⟩
    . unfold VgaData.fbFlush VgaData.fbFlushVbe
      rw [hready.idle, hready.available, hrows]
      exact (bind_eq_ok _ _ _).mpr ⟨t, ht, rfl⟩
    . rw [Nat.zero_add]
      exact hr.2.1
  . intro k t _ hk ⟨ht, rs, hdamage, hall⟩
    have hregions : t.vbeModeInfo.width / diffRegionSize = mode.xRegions := by
      rw [ht.info]
      rfl
    rw [hregions]
    obtain ⟨u, rs', hu, hnext, hdamage', hrow⟩ := flushRegions_eq (n := mode.xRegions + 1) h ht
      (show k < mode.yRegions by omega) (Nat.zero_le _) (by omega)
    refine ⟨u, hu, hnext, rs ∪ rs', ?_, ?_⟩
    . rw [hdamage', hdamage, Damage.refresh_refresh]
    . intro r hr hlt
      by_cases hin : r ∈ rs
      . exact .inl hin
      . by_cases hrk : r.2 = k
        . refine .inr (hrow r ?_ hrk (Nat.zero_le _))
          rw [hdamage]
          exact ⟨hr, hin⟩
        . exact absurd (hall r hr (by omega)) hin
  . exact fun r _ hlt => absurd hlt (Nat.not_lt_zero _)

theorem fbSteps_eq (h : mode.Aligned) (hready : mode.Ready data) {as : List FbAction}
    (hinside : ∀ a ∈ as, FbAction.Inside mode.toVbeVideoModeInfo a)
    : ∃ t, data.fbSteps as = .ok t ∧ mode.Ready t
        ∧ mode.damage t = (mode.damage data).run (as.map mode.actionOf) := by
  induction as generalizing data with
  | nil => exact ⟨data, rfl, hready, rfl⟩
  | cons a as ih =>
    rw [List.forall_mem_cons] at hinside
    have hstep : ∃ t, data.fbStep a = .ok t ∧ mode.Ready t
        ∧ mode.damage t = (mode.damage data).step (mode.actionOf a) := by
      cases a with
      | write x y color => exact fbStep_write hready hinside.1.1 hinside.1.2 color
      | invalidate x0 y0 x1 y1 => exact fbStep_invalidate h hready hinside.1.1 hinside.1.2
    obtain ⟨t, ht, hnext, hdamage⟩ := hstep
    obtain ⟨u, hu, hend, hrest⟩ := ih hnext hinside.2
    refine ⟨u, (bind_eq_ok _ _ _).mpr ⟨t, ht, hu⟩, hend, ?_⟩
    rw [hrest, hdamage, List.map_cons, Damage.run_cons]

theorem fbRounds_eq (h : mode.Aligned) (hready : mode.Ready data) {rounds : List (List FbAction)}
    (hinside : ∀ as ∈ rounds, ∀ a ∈ as, FbAction.Inside mode.toVbeVideoModeInfo a)
    : ∃ t, data.fbRounds rounds = .ok t ∧ mode.Ready t
        ∧ Damage.Rounds region (mode.damage data) (rounds.map (List.map mode.actionOf)) (mode.damage t) := by
  induction rounds generalizing data with
  | nil => exact ⟨data, rfl, hready, .nil _⟩
  | cons as rounds ih =>
    rw [List.forall_mem_cons] at hinside
    obtain ⟨t, ht, hnext, hdamage⟩ := fbSteps_eq h hready hinside.1
    obtain ⟨u, rs, hu, hflushed, hrefresh, hrs⟩ := fbFlush_eq h hnext
    obtain ⟨v, hv, hend, hrest⟩ := ih hflushed hinside.2
    refine ⟨v, ?_, hend, ?_⟩
    . exact (bind_eq_ok _ _ _).mpr ⟨t, ht, (bind_eq_ok _ _ _).mpr ⟨⟨.success, u⟩, hu, hv⟩⟩
    . rw [hrefresh, hdamage] at hrest
      rw [hdamage] at hrs
      exact .cons hrs hrest

theorem mem_drawn_map {as : List FbAction} {color : BitVec 32} (h : .write x y color ∈ as)
    : (x, y) ∈ Damage.drawn (as.map mode.actionOf) :=
  ⟨mode.colorConversion color, List.mem_map.mpr ⟨_, h, rfl⟩⟩

theorem covered_map {as : List FbAction} (h : FbAction.Covered as) : Damage.Covered region (as.map mode.actionOf) := by
  rintro ⟨x, y⟩ ⟨v, hv⟩
  obtain ⟨a, ha, heq⟩ := List.mem_map.mp hv
  cases a with
  | write x' y' color =>
    cases heq
    obtain ⟨x0, y0, x1, y1, hrect, hx0, hx1, hy0, hy1⟩ := h x y color ha
    refine ⟨rectRegions x0 y0 x1 y1, List.mem_map.mpr ⟨_, hrect, rfl⟩, ?_⟩
    change x0 / 16 ≤ x / 16 ∧ x / 16 < (x1 + 16 - 1) / 16 ∧ y0 / 16 ≤ y / 16 ∧ y / 16 < (y1 + 16 - 1) / 16
    lia
  | invalidate x0 y0 x1 y1 => contradiction

theorem reallocZeroed_of_lt {α : Type} {count size : Nat} {zero : α} (hcount : 0 < count) (hsize : 0 < size)
    (hlt : count * size < 2 ^ 32)
    : reallocZeroed count size zero = .ok (Buffer.filled count zero) := by
  unfold reallocZeroed
  rw [u32_of_lt hlt, if_neg (Nat.mul_pos hcount hsize).ne', Nat.mul_div_cancel _ hsize]

theorem setModeVbe_ready (h : mode.Aligned) (havailable : data.vbeAvailable = true) (number : Nat)
    : ∃ start, data.setModeVbe number (.ok mode.toVbeVideoModeInfo) = .ok ⟨.success, start⟩ ∧ mode.Ready start := by
  have hwidth := mode.width_pos
  have hheight := mode.height_pos
  have hw := h.width_eq
  have hh := h.height_eq
  have hsize := h.size
  have hregions : mode.xRegions * mode.yRegions ≤ mode.width * mode.height :=
    Nat.mul_le_mul (Nat.div_le_self _ _) (Nat.div_le_self _ _)
  have hframe : reallocZeroed (mode.width * mode.height) 4 (0 : BitVec 32)
      = .ok (Buffer.filled (mode.width * mode.height) 0) :=
    reallocZeroed_of_lt (Nat.mul_pos hwidth hheight) (by decide) (by omega)
  have hdiff : reallocZeroed (mode.xRegions * mode.yRegions) 1 (0 : BitVec 8)
      = .ok (Buffer.filled (mode.xRegions * mode.yRegions) 0) := by
    apply reallocZeroed_of_lt _ (by decide) (by omega)
    apply Nat.mul_pos
    . apply Nat.pos_of_ne_zero
      intro hzero
      rw [hzero, Nat.mul_zero] at hw
      omega
    . apply Nat.pos_of_ne_zero
      intro hzero
      rw [hzero, Nat.mul_zero] at hh
      omega
  unfold VgaData.setModeVbe
  dsimp only
  rw [if_neg mode.bitmap]
  refine ⟨_, (bind_eq_ok _ _ _).mpr ⟨_, (bind_eq_ok _ _ _).mpr ⟨_, hframe,
    (bind_eq_ok _ _ _).mpr ⟨_, hdiff, rfl⟩⟩, rfl⟩, ?_⟩
  exact ⟨rfl, havailable, rfl, rfl, rfl, rfl⟩

theorem setModeVbe_size {number : Nat} {status : Status} {start : VgaData}
    (h : data.setModeVbe number (.ok mode.toVbeVideoModeInfo) = .ok ⟨status, start⟩)
    : start.vbeModeInfo = mode.toVbeVideoModeInfo
        ∧ start.frameBuffer.size = u32 (mode.width * mode.height * 4) / 4 := by
  unfold VgaData.setModeVbe at h
  dsimp only at h
  rw [if_neg mode.bitmap] at h
  obtain ⟨_, h, hstart⟩ := (bind_eq_ok _ _ _).mp h
  obtain ⟨frameBuffer, hframe, h⟩ := (bind_eq_ok _ _ _).mp h
  obtain ⟨diffBuffer, _, h⟩ := (bind_eq_ok _ _ _).mp h
  cases h
  cases hstart
  refine ⟨rfl, ?_⟩
  change frameBuffer.size = _
  unfold reallocZeroed at hframe
  split at hframe
  . contradiction
  . cases hframe
    rfl

theorem Aligned.flushComplete (h : mode.Aligned) : mode.FlushComplete where
  invalidated x0 y0 x1 y1 hinside r hr := by
    obtain ⟨hx, hy⟩ := h.invalidated hinside.1 hinside.2 hr
    exact h.denotes hx hy
  flushed xr yr hx hy := h.denotes hx hy
  shown data number rounds havailable hrounds := by
    obtain ⟨start, hstart, hready⟩ := setModeVbe_ready h havailable number
    obtain ⟨t, ht, hend, hdamage⟩ := fbRounds_eq h hready fun as has => (hrounds as has).1
    refine ⟨start, t, hstart, ht, ?_⟩
    intro x y color hwrite
    obtain ⟨as, has, hmem⟩ := List.mem_flatten.mp hwrite
    have hscreen : x < mode.width ∧ y < mode.height := (hrounds as has).1 _ hmem
    have hcovered : ∀ bs ∈ rounds.map (List.map mode.actionOf), Damage.Covered region bs := by
      intro bs hbs
      obtain ⟨as, has, rfl⟩ := List.mem_map.mp hbs
      exact covered_map (hrounds as has).2
    have hdrawn : (x, y) ∈ Damage.drawn (rounds.map (List.map mode.actionOf)).flatten := by
      rw [← List.map_flatten]
      exact mem_drawn_map hwrite
    have hshown := hdamage.shown hcovered hdrawn
    have hpixel : mode.pixel t (x, y) = mode.drawnPixel t (x, y) :=
      (if_pos hscreen).symm.trans (hshown.trans (if_pos hscreen))
    unfold VgaData.hwPixel VgaData.swPixel
    rw [hend.info]
    exact hpixel

/--
Pixels at the right and at the bottom edge are in regions without an entry unless the size is a multiple of
the one of a region, and the last pixel is behind the frame buffer when its size overflows.
-/
theorem FlushComplete.aligned (h : mode.FlushComplete) : mode.Aligned := by
  have hw := mode.width_pos
  have hh := mode.height_pos
  have hwidth : diffRegionSize ∣ mode.width := by
    by_contra hndvd
    have hdenotes := h.invalidated (mode.width - 1) 0 mode.width 1 ⟨Nat.le_refl _, hh⟩ (mode.width / diffRegionSize, 0)
      (by
        change (mode.width - 1) / 16 ≤ mode.width / 16 ∧ mode.width / 16 < (mode.width + 16 - 1) / 16 ∧ 0 ≤ 0 ∧ 0 < 1
        unfold diffRegionSize at hndvd
        lia)
    exact Nat.lt_irrefl _ hdenotes.x_lt
  have hheight : diffRegionSize ∣ mode.height := by
    by_contra hndvd
    have hdenotes := h.invalidated 0 (mode.height - 1) 1 mode.height ⟨hw, Nat.le_refl _⟩
      (0, mode.height / diffRegionSize)
      (by
        change 0 ≤ 0 ∧ 0 < 1 ∧ (mode.height - 1) / 16 ≤ mode.height / 16
          ∧ mode.height / 16 < (mode.height + 16 - 1) / 16
        unfold diffRegionSize at hndvd
        lia)
    exact Nat.lt_irrefl _ hdenotes.y_lt
  refine ⟨hwidth, hheight, ?_, ?_⟩
  . by_contra hbpp
    unfold diffRegionSize at hwidth hheight hbpp
    have hdenotes := h.flushed 1 0 (by unfold xRegions diffRegionSize; lia)
      (by unfold yRegions diffRegionSize; omega)
    have hoffset := hdenotes.offset
    unfold diffRegionSize VbeVideoModeInfo.pixelSize at hoffset
    lia
  . by_contra hsize
    have hlast : mode.width - 1 < mode.width ∧ mode.height - 1 < mode.height := ⟨by omega, by omega⟩
    obtain ⟨start, t, hstart, ht, _⟩ := h.shown
      ⟨Buffer.filled 0 zeroCell, Buffer.filled 0 0, Buffer.filled 0 0, true, false, false, 0,
        mode.toVbeVideoModeInfo, 0, 0, false, .generic, fun _ => 0⟩ 0
      [[.write (mode.width - 1) (mode.height - 1) 0, .invalidate 0 0 mode.width mode.height]] rfl
      (by
        intro as has
        rw [List.mem_singleton] at has
        subst has
        refine ⟨?_, ?_⟩
        . rw [List.forall_mem_cons, List.forall_mem_singleton]
          exact ⟨hlast, Nat.le_refl _, Nat.le_refl _⟩
        . intro x y color hmem
          rw [List.mem_cons, List.mem_singleton] at hmem
          obtain heq | heq := hmem
          . cases heq
            exact ⟨0, 0, mode.width, mode.height, List.mem_cons_of_mem _ (List.mem_singleton_self _), Nat.zero_le _,
              hlast.1, Nat.zero_le _, hlast.2⟩
          . contradiction)
    obtain ⟨hinfo, hframe⟩ := setModeVbe_size hstart
    obtain ⟨_, hsteps, _⟩ := (bind_eq_ok _ _ _).mp ht
    obtain ⟨_, hwrite, _⟩ := (bind_eq_ok _ _ _).mp hsteps
    obtain ⟨_, hset, _⟩ := (bind_eq_ok _ _ _).mp hwrite
    have hlt := (Buffer.set_eq_ok hset).1
    rw [hframe, hinfo] at hlt
    have hu32 := u32_lt (mode.width * mode.height * 4)
    have harea : (mode.height - 1) * mode.width + mode.width = mode.width * mode.height := by
      rw [← Nat.succ_mul, Nat.succ_eq_add_one, Nat.sub_add_cancel hh, Nat.mul_comm]
    lia

/--
The modes for which a flush shows everything that has been written.
-/
theorem flushComplete_iff (mode : BitmapMode) : mode.FlushComplete ↔ mode.Aligned :=
  ⟨FlushComplete.aligned, Aligned.flushComplete⟩

/--
A mode of 32 bits for each pixel.
-/
def mode32 (width height : Nat) (hwidth : 1 ≤ width) (hheight : 1 ≤ height)
    (hfits : 0xE0000000 + width * 4 * height ≤ 2 ^ 32)
    : BitmapMode where
  pitch := width * 4
  width := width
  height := height
  bpp := 32
  memoryModel := .direct
  redMask := 8
  redPosition := 16
  greenMask := 8
  greenPosition := 8
  blueMask := 8
  bluePosition := 0
  framebuffer := 0xE0000000
  linNumImagePages := 0
  bitmap := by decide
  width_pos := hwidth
  height_pos := hheight
  row_fits := Nat.le_refl _
  frame_fits := hfits

/--
With 600 rows a pixel at the bottom is in a region behind the end of the map. With 1366 columns the last
region of a row has the index of the first one of the next row, and a pixel in it is not shown.
-/
theorem flushComplete_false
    : (do
        let ⟨_, data⟩ ← VgaData.setModeVbe
          ⟨Buffer.filled 0 zeroCell, Buffer.filled 0 0, Buffer.filled 0 0, true, false, false, 0,
            (mode32 800 600 (by decide) (by decide) (by decide)).toVbeVideoModeInfo, 0, 0, false, .generic, fun _ => 0⟩
          0x115 (.ok (mode32 800 600 (by decide) (by decide) (by decide)).toVbeVideoModeInfo)
        let data ← data.fbRounds [[.write 0 599 0xFFFFFF, .invalidate 0 599 1 600]]
        Except.ok (data.hwPixel 0 599)) = .error .access
        ∧ ¬(mode32 800 600 (by decide) (by decide) (by decide)).FlushComplete
        ∧ 0 * 1366 / diffRegionSize + 85 = 1 * 1366 / diffRegionSize + 0
        ∧ ¬(mode32 1366 768 (by decide) (by decide) (by decide)).FlushComplete := by
  refine ⟨by decide, ?_, by decide, ?_⟩
  . exact fun h => absurd h.aligned.height (by decide)
  . exact fun h => absurd h.aligned.width (by decide)

end BitmapMode

end Emos.Boot
