import Emos.Boot.Video.Lemmas.Color

/-!
This module contains that the fast conversions of colours store what the generic one stores for their layouts.
-/

open Lib

namespace Emos.Boot

variable {mode : VbeVideoModeInfo} {m : Bytes} {dest : Nat}

/--
The sizes and positions of the components of a colour.
-/
structure ColorLayout where
  bpp : Nat
  redMask : Nat
  redPosition : Nat
  greenMask : Nat
  greenPosition : Nat
  blueMask : Nat
  bluePosition : Nat
  deriving DecidableEq, Repr

def VbeVideoModeInfo.layout (mode : VbeVideoModeInfo) : ColorLayout where
  bpp := mode.bpp
  redMask := mode.redMask
  redPosition := mode.redPosition
  greenMask := mode.greenMask
  greenPosition := mode.greenPosition
  blueMask := mode.blueMask
  bluePosition := mode.bluePosition

/--
The layout that a fast conversion is for.
-/
def ConvertColor.layout? : ConvertColor → Option ColorLayout
  | .rgb565 => some ⟨16, 5, 11, 6, 5, 5, 0⟩
  | .rgb888 => some ⟨24, 8, 16, 8, 8, 8, 0⟩
  | .rgbx8888 => some ⟨32, 8, 16, 8, 8, 8, 0⟩
  | .generic => none

theorem getLsbD_mask_shiftLeft (w k n i : Nat)
    : (BitVec.ofNat w ((2 ^ k - 1) <<< n)).getLsbD i = (decide (i < w) && decide (n ≤ i) && decide (i - n < k)) := by
  rw [BitVec.getLsbD_ofNat, Nat.testBit_shiftLeft, Nat.testBit_two_pow_sub_one, Bool.and_assoc]

/--
The highest `mask` of the eight bits from `shift` on, which stay where they are.
-/
def channel (orig : BitVec 32) (shift mask : Nat) : BitVec 32 :=
  orig &&& BitVec.ofNat 32 ((2 ^ mask - 1) <<< (shift + (8 - mask)))

theorem getLsbD_channel (orig : BitVec 32) (shift mask i : Nat)
    : (channel orig shift mask).getLsbD i
        = (orig.getLsbD i && decide (shift + (8 - mask) ≤ i ∧ i < shift + (8 - mask) + mask)) := by
  unfold channel
  rw [BitVec.getLsbD_and, getLsbD_mask_shiftLeft]
  by_cases hi : i < 32
  . congr 1
    rw [Bool.eq_iff_iff]
    simp only [Bool.and_eq_true, decide_eq_true_eq]
    lia
  . rw [BitVec.getLsbD_of_ge orig i (by omega)]
    simp

theorem component_shiftLeft {shift mask position : Nat} (orig : BitVec 32) (hmask : mask ≤ 8) (hlt : position < 32)
    (hle : position ≤ shift + (8 - mask))
    : component orig shift mask <<< (position % 32) = channel orig shift mask >>> (shift + (8 - mask) - position) := by
  have h255 : (0xFF : BitVec 32) = BitVec.ofNat 32 ((2 ^ 8 - 1) <<< 0) := rfl
  have hcount : (8 + 256 - mask) % 32 = 8 - mask := by lia
  apply BitVec.eq_of_getLsbD_eq
  intro i _
  unfold component
  rw [hcount, h255, Nat.mod_eq_of_lt hlt, BitVec.getLsbD_ushiftRight, getLsbD_channel]
  rw [BitVec.getLsbD_shiftLeft, BitVec.getLsbD_ushiftRight, BitVec.getLsbD_and, getLsbD_mask_shiftLeft,
    BitVec.getLsbD_ushiftRight]
  by_cases hi : i < position
  . simp only [hi, decide_true, Bool.not_true, Bool.and_false, Bool.false_and]
    rw [decide_eq_false (by lia), Bool.and_false]
  . rw [show shift + (8 - mask + (i - position)) = shift + (8 - mask) - position + i by lia]
    rw [Bool.and_left_comm]
    congr 1
    rw [Bool.eq_iff_iff]
    simp only [Bool.and_eq_true, Bool.not_eq_true', decide_eq_false_iff_not, decide_eq_true_eq]
    lia

theorem colorGeneric_565 (hlayout : ConvertColor.rgb565.layout? = some mode.layout) (orig : BitVec 32)
    : colorGeneric mode orig = color565 orig := by
  simp only [ConvertColor.layout?, VbeVideoModeInfo.layout, Option.some.injEq, ColorLayout.mk.injEq] at hlayout
  obtain ⟨_, hredMask, hredPosition, hgreenMask, hgreenPosition, hblueMask, hbluePosition⟩ := hlayout
  unfold colorGeneric
  dsimp only
  rw [← hredMask, ← hredPosition, ← hgreenMask, ← hgreenPosition, ← hblueMask, ← hbluePosition]
  rw [component_shiftLeft orig (by decide) (by decide) (by decide),
    component_shiftLeft orig (by decide) (by decide) (by decide),
    component_shiftLeft orig (by decide) (by decide) (by decide)]
  rfl

/--
The layouts whose components are the three low bytes.
-/
theorem colorGeneric_888 (hred : mode.redMask = 8 ∧ mode.redPosition = 16)
    (hgreen : mode.greenMask = 8 ∧ mode.greenPosition = 8) (hblue : mode.blueMask = 8 ∧ mode.bluePosition = 0)
    {orig : BitVec 32} (htop : orig.toNat < 2 ^ 24)
    : colorGeneric mode orig = orig := by
  apply BitVec.eq_of_getLsbD_eq
  intro i _
  unfold colorGeneric
  dsimp only
  rw [hred.1, hred.2, hgreen.1, hgreen.2, hblue.1, hblue.2]
  rw [component_shiftLeft orig (by decide) (by decide) (by decide),
    component_shiftLeft orig (by decide) (by decide) (by decide),
    component_shiftLeft orig (by decide) (by decide) (by decide)]
  rw [BitVec.getLsbD_or, BitVec.getLsbD_or, BitVec.getLsbD_ushiftRight, BitVec.getLsbD_ushiftRight,
    BitVec.getLsbD_ushiftRight, getLsbD_channel, getLsbD_channel, getLsbD_channel]
  simp only [Nat.sub_self, Nat.add_zero, Nat.zero_add, ← Bool.and_or_distrib_left]
  by_cases hi : i < 24
  . rw [Bool.eq_iff_iff]
    simp only [Bool.and_eq_true, Bool.or_eq_true, decide_eq_true_eq]
    exact and_iff_left (by lia)
  . have hbit : orig.getLsbD i = false := by
      apply Nat.testBit_lt_two_pow
      exact Nat.lt_of_lt_of_le htop (Nat.pow_le_pow_right (by decide) (by omega))
    rw [hbit, Bool.false_and]

theorem convert_eq_generic {fast : ConvertColor} (hlayout : fast.layout? = some mode.layout)
    {orig : List (BitVec 32)} (htop : ∀ o ∈ orig, o.toNat < 2 ^ 24)
    : fast.convert mode m dest orig = ConvertColor.generic.convert mode m dest orig := by
  have hgeneric (n : Nat) (hbpp : mode.bpp = 8 * n) (hn : n ≤ 4)
      : ConvertColor.generic.convert mode m dest orig
          = Bytes.writeAll m dest n (orig.map fun o => (colorGeneric mode o).toNat) := by
    have hsize : mode.storedSize = n := by
      unfold VbeVideoModeInfo.storedSize VbeVideoModeInfo.pixelSize
      rw [if_pos (by omega)]
      omega
    rw [← hsize]
    exact convertColorGeneric_eq orig
  have h888 (n : Nat) (hlayout : mode.layout = ⟨8 * n, 8, 16, 8, 8, 8, 0⟩) (hn : n ≤ 4)
      : ConvertColor.generic.convert mode m dest orig = Bytes.writeAll m dest n (orig.map BitVec.toNat) := by
    simp only [VbeVideoModeInfo.layout, ColorLayout.mk.injEq] at hlayout
    obtain ⟨hbpp, hredMask, hredPosition, hgreenMask, hgreenPosition, hblueMask, hbluePosition⟩ := hlayout
    rw [hgeneric n hbpp hn]
    congr 1
    apply List.map_congr_left
    intro o ho
    rw [colorGeneric_888 ⟨hredMask, hredPosition⟩ ⟨hgreenMask, hgreenPosition⟩ ⟨hblueMask, hbluePosition⟩ (htop o ho)]
  cases fast with
  | rgbx8888 =>
    rw [h888 4 (Option.some.inj hlayout).symm (by decide)]
    exact convertColorRgbx8888_eq orig
  | rgb888 =>
    rw [h888 3 (Option.some.inj hlayout).symm (by decide)]
    exact convertColorRgb888_eq orig
  | rgb565 =>
    have hbpp : mode.bpp = 16 := congrArg ColorLayout.bpp (Option.some.inj hlayout).symm
    rw [hgeneric 2 hbpp (by decide)]
    simp only [colorGeneric_565 hlayout]
    exact convertColorRgb565_eq orig
  | generic => rfl

theorem convertColorGeneric_outside {orig : List (BitVec 32)} {q : Nat}
    (hq : dest + orig.length * mode.pixelSize ≤ q)
    : ConvertColor.generic.convert mode m dest orig q = m q := by
  have hsize : mode.storedSize ≤ mode.pixelSize := by
    unfold VbeVideoModeInfo.storedSize
    split
    . exact Nat.le_refl _
    . exact Nat.zero_le _
  have hstored := Nat.mul_le_mul_right orig.length hsize
  rw [Nat.mul_comm mode.pixelSize] at hstored
  change convertColorGeneric mode m dest orig q = m q
  rw [convertColorGeneric_eq]
  apply Bytes.writeAll_outside
  rw [List.length_map]
  omega

/--
A fast conversion leaves the same bytes as the generic one for its layout, and neither of them changes a byte
behind the pixels. The generic one does not do so for any description of a mode.
-/
theorem fast_conversions_agree (fast : ConvertColor) (mode : VbeVideoModeInfo)
    (hlayout : fast.layout? = some mode.layout) (m : Bytes) (dest : Nat) (orig : List (BitVec 32))
    (htop : ∀ o ∈ orig, o.toNat < 2 ^ 24)
    : fast.convert mode m dest orig = ConvertColor.generic.convert mode m dest orig
        ∧ (∀ q, dest + orig.length * mode.pixelSize ≤ q → fast.convert mode m dest orig q = m q)
        ∧ ∀ (mode' : VbeVideoModeInfo) q, dest + orig.length * mode'.pixelSize ≤ q
          → ConvertColor.generic.convert mode' m dest orig q = m q := by
  refine ⟨convert_eq_generic hlayout htop, ?_, fun _ _ hq => convertColorGeneric_outside hq⟩
  intro q hq
  rw [convert_eq_generic hlayout htop]
  exact convertColorGeneric_outside hq

def mode24 : VbeVideoModeInfo where
  pitch := 12
  width := 3
  height := 1
  bpp := 24
  memoryModel := .direct
  redMask := 8
  redPosition := 16
  greenMask := 8
  greenPosition := 8
  blueMask := 8
  bluePosition := 0
  framebuffer := 1
  linNumImagePages := 0

theorem fast_conversions_agree_mode24
    : ConvertColor.rgb888.convert mode24 (fun _ => 0xFF) 1 [0x112233, 0x445566, 0x778899]
        = ConvertColor.generic.convert mode24 (fun _ => 0xFF) 1 [0x112233, 0x445566, 0x778899]
      ∧ ConvertColor.rgb888.convert mode24 (fun _ => 0xFF) 1 [0x112233, 0x445566, 0x778899] 9 = 0x77
      ∧ ConvertColor.rgb888.convert mode24 (fun _ => 0xFF) 1 [0x112233, 0x445566, 0x778899] 10 = 0xFF := by
  have h := fast_conversions_agree .rgb888 mode24 rfl (fun _ => 0xFF) 1 [0x112233, 0x445566, 0x778899] (by simp)
  exact ⟨h.1, by decide, h.2.1 10 (by decide)⟩

end Emos.Boot
