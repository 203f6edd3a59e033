import Emos.Boot.Video.Impl.Vga

/-!
This module contains that every conversion of colours stores the converted pixels one after another.
-/

open Lib

namespace Emos.Boot

namespace VbeVideoModeInfo

/--
The bytes from a pixel to the next one.
-/
def pixelSize (mode : VbeVideoModeInfo) : Nat := (mode.bpp + 7) / 8

/--
The bytes that are stored for a pixel, where more than four are not supported.
-/
def storedSize (mode : VbeVideoModeInfo) : Nat := if mode.pixelSize ≤ 4 then mode.pixelSize else 0

def colorValue (mode : VbeVideoModeInfo) (orig : BitVec 32) : Nat :=
  match ConvertColor.ofBpp mode.bpp with
  | .rgbx8888 | .rgb888 => orig.toNat
  | .rgb565 => (color565 orig).toNat
  | .generic => (colorGeneric mode orig).toNat

/--
The number that the hardware has for a colour.
-/
def colorConversion (mode : VbeVideoModeInfo) (orig : BitVec 32) : Nat :=
  mode.colorValue orig % 256 ^ mode.storedSize

end VbeVideoModeInfo

variable {mode : VbeVideoModeInfo} {m : Bytes} {dest : Nat}

theorem writeColor24_eq (color : Nat) : writeColor24 m dest color true = Bytes.write m dest 3 color := by
  unfold writeColor24
  split
  . exact (Bytes.write_add m dest 1 2 color).symm
  . exact (Bytes.write_add m dest 2 1 color).symm

theorem writeColor24_apply {color q : Nat} {last : Bool} (h : last = true ∨ q < dest + 3 ∨ dest + 4 ≤ q)
    : writeColor24 m dest color last q = Bytes.write m dest 3 color q := by
  cases last with
  | true => rw [writeColor24_eq]
  | false =>
    have hq : q ≠ dest + 3 := by
      intro heq
      subst heq
      simp at h
    unfold writeColor24
    split
    . exact congrFun (Bytes.write_add m dest 1 2 color).symm q
    . change Bytes.write m dest 4 color q = _
      rw [Bytes.write_add m dest 3 1]
      exact Bytes.write_outside (by lia)

/--
The byte behind a pixel is stored again with the next pixel.
-/
theorem writeColor24_rest (color : Nat) (rest : List (BitVec 32)) (value : BitVec 32 → Nat)
    : Bytes.writeAll (writeColor24 m dest color rest.isEmpty) (dest + 3) 3 (rest.map value)
        = Bytes.writeAll (Bytes.write m dest 3 color) (dest + 3) 3 (rest.map value) := by
  apply Bytes.writeAll_congr
  intro q hq
  apply writeColor24_apply
  cases rest with
  | nil => exact .inl rfl
  | cons orig rest =>
    rw [List.length_map, List.length_cons] at hq
    omega

theorem convertColorRgbx8888_eq (orig : List (BitVec 32))
    : convertColorRgbx8888 m dest orig = Bytes.writeAll m dest 4 (orig.map BitVec.toNat) := by
  induction orig generalizing m dest with
  | nil => rfl
  | cons o orig ih => exact ih

theorem convertColorRgb888_eq (orig : List (BitVec 32))
    : convertColorRgb888 m dest orig = Bytes.writeAll m dest 3 (orig.map BitVec.toNat) := by
  induction orig generalizing m dest with
  | nil => rfl
  | cons o orig ih =>
    rw [convertColorRgb888, ih, List.map_cons, Bytes.writeAll_cons]
    exact writeColor24_rest o.toNat orig BitVec.toNat

theorem convertColorRgb565_eq (orig : List (BitVec 32))
    : convertColorRgb565 m dest orig = Bytes.writeAll m dest 2 (orig.map fun o => (color565 o).toNat) := by
  induction orig generalizing m dest with
  | nil => rfl
  | cons o orig ih => exact ih

theorem writeAll_zero (m : Bytes) (p : Nat) (vs : List Nat) : Bytes.writeAll m p 0 vs = m := by
  induction vs generalizing m p with
  | nil => rfl
  | cons v vs ih => exact ih m p

theorem convertColorGeneric_eq (orig : List (BitVec 32))
    : convertColorGeneric mode m dest orig
        = Bytes.writeAll m dest mode.storedSize (orig.map fun o => (colorGeneric mode o).toNat) := by
  unfold VbeVideoModeInfo.storedSize VbeVideoModeInfo.pixelSize
  induction orig generalizing m dest with
  | nil => rfl
  | cons o orig ih =>
    rw [convertColorGeneric, ih]
    change Bytes.writeAll _ (dest + (mode.bpp + 7) / 8) _ _ = _
    generalize (mode.bpp + 7) / 2 ^ 3 = size
    rw [List.map_cons, Bytes.writeAll_cons]
    obtain _ | _ | _ | _ | _ | n := size
    . rfl
    . rfl
    . rfl
    . exact writeColor24_rest _ orig fun o => (colorGeneric mode o).toNat
    . rfl
    . rw [if_neg (by omega), writeAll_zero, writeAll_zero]
      rfl

/--
Every conversion stores the values of the pixels one after another.
-/
theorem convert_eq (orig : List (BitVec 32))
    : (ConvertColor.ofBpp mode.bpp).convert mode m dest orig
        = Bytes.writeAll m dest mode.storedSize (orig.map mode.colorValue) := by
  have hsize (n : Nat) (hbpp : mode.bpp = 8 * n) (hn : n ≤ 4) : mode.storedSize = n := by
    unfold VbeVideoModeInfo.storedSize VbeVideoModeInfo.pixelSize
    rw [if_pos (by omega)]
    omega
  change _ = Bytes.writeAll m dest mode.storedSize (orig.map fun o => mode.colorValue o)
  unfold VbeVideoModeInfo.colorValue ConvertColor.ofBpp
  by_cases h24 : mode.bpp = 24
  . rw [if_pos h24, hsize 3 h24 (by decide)]
    exact convertColorRgb888_eq orig
  . rw [if_neg h24]
    by_cases h32 : mode.bpp = 32
    . rw [if_pos h32, hsize 4 h32 (by decide)]
      exact convertColorRgbx8888_eq orig
    . rw [if_neg h32]
      by_cases h16 : mode.bpp = 16
      . rw [if_pos h16, hsize 2 h16 (by decide)]
        exact convertColorRgb565_eq orig
      . rw [if_neg h16]
        exact convertColorGeneric_eq orig

end Emos.Boot
