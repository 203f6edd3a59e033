import Emos.Tools.MkfsAfs.Lemmas.Volume
import Mathlib.Tactic.Ring

/-!
This module contains which sizes of a volume `make_fs` computes rightly, and that what it writes is
inside of it then.
-/

open Lib

namespace Emos.Tools.MkfsAfs

namespace FormatInput

variable (c : FormatInput)

/--
What `make_fs` divides by.
-/
def divisors : List Nat := [c.sectorsPerBlock.toNat, c.blocksPerBlockGroup, c.blocksPerBlockGroup]

/--
What `make_fs` subtracts, behind what from. The last two are of the loops that set bits, where the bits
up to some number are left in each round.
-/
def differences : List (Nat × Nat) :=
  [⟨c.totalSectorCount, c.reservedSectors.toNat⟩, ⟨c.bytesPerBlock * 8, 32⟩,
    ⟨c.totalBlockGroupCount + c.blocksPerBlockGroup, 1⟩, ⟨c.bytesPerBlock, 4⟩]
  ++ (List.range c.totalBlockGroupCount).map (fun i => ⟨c.totalBlockGroupCount, i⟩)
  ++ (List.range c.blocksPerBlockGroup).map (fun i => ⟨c.blocksPerBlockGroup, i⟩)

structure GeometryRight : Prop where
  divides : makeFs c ≠ .error .divide
  divisors : ∀ n ∈ c.divisors, n ≠ 0
  differences : ∀ d ∈ c.differences, d.2 ≤ d.1
  fits : makeFs c = .ok none
    ∨ ∀ rbb gbb, ∀ w ∈ c.writeList rbb gbb, w.position + w.length ≤ c.fileLen

variable {c}

theorem storeBytes_ne_divide (size : Nat) (stores : List (Nat × BitVec 8)) (buf : Bytes)
    : storeBytes size buf stores ≠ .error .divide := by
  induction stores generalizing buf with
  | nil => simp [storeBytes]
  | cons store stores ih =>
    unfold storeBytes
    split
    . simp
    . exact ih _

theorem bind_ne_divide {α β : Type} {x : Run α} {f : α → Run β} (hx : x ≠ .error .divide)
    (hf : ∀ a, f a ≠ .error .divide)
    : (x >>= f) ≠ .error .divide := by
  cases x with
  | error fault => exact fun h => hx (by cases h; rfl)
  | ok a => exact hf a

theorem makeFs_ne_divide (hspb : c.sectorsPerBlock ≠ 0) : makeFs c ≠ .error .divide := by
  unfold makeFs
  rw [if_neg hspb]
  split
  . simp
  . split
    . simp
    . apply bind_ne_divide
      . apply bind_ne_divide (storeBytes_ne_divide _ _ _)
        simp
      . intro rbb
        apply bind_ne_divide
        . apply bind_ne_divide (storeBytes_ne_divide _ _ _)
          simp
        . simp

theorem makeFs_eq_none (hlen : c.fileLen % bytesPerSector = 0) (hspb : c.sectorsPerBlock ≠ 0)
    (h : ¬ c.Accepts)
    : makeFs c = .ok none := by
  unfold makeFs
  rw [if_neg (not_not.mpr hlen), if_neg hspb, if_pos]
  unfold Accepts at h
  rw [not_and_or, Bool.not_eq_true] at h
  exact h

/--
The blocks lie behind the reserved sectors, if there are that many sectors.
-/
theorem blockPosition_le (hreserved : c.reservedSectors.toNat ≤ c.totalSectorCount) {i : Nat}
    (hi : i < c.totalBlockCount)
    : c.blockPosition i + c.bytesPerBlock ≤ c.fileLen := by
  have hlt := c.fileLen_lt
  have htotal : bytesPerSector * c.totalSectorCount ≤ c.fileLen := Nat.mul_div_le _ _
  have hcount : c.totalBlockCount
      = (c.totalSectorCount - c.reservedSectors.toNat) / c.sectorsPerBlock.toNat := by
    unfold totalBlockCount u64
    congr 1
    unfold bytesPerSector at htotal
    lia
  have hblocks : c.sectorsPerBlock.toNat * (i + 1) ≤ c.totalSectorCount - c.reservedSectors.toNat := by
    calc c.sectorsPerBlock.toNat * (i + 1)
        ≤ c.sectorsPerBlock.toNat * c.totalBlockCount := Nat.mul_le_mul_left _ hi
      _ ≤ c.totalSectorCount - c.reservedSectors.toNat := by
        rw [hcount]
        exact Nat.mul_div_le _ _
  calc c.blockPosition i + c.bytesPerBlock
      = bytesPerSector * (c.reservedSectors.toNat + c.sectorsPerBlock.toNat * (i + 1)) := by
        unfold blockPosition bytesPerBlock
        ring
    _ ≤ bytesPerSector * c.totalSectorCount := Nat.mul_le_mul_left _ (by omega)
    _ ≤ c.fileLen := htotal

/--
There are more blocks in a single block group than copies of RDB, and the groups need less blocks of
bits than there are groups.
-/
theorem Fits.blocks_le (h : c.Fits) : c.rdbCount.toNat + c.rbbCount + 3 ≤ c.totalBlockCount := by
  have hrdb := c.rdbCount.toNat_lt
  have hgroup := h.blocksPerBlockGroup
  have hpos := h.sectorsPerBlock
  have hone := h.2.2.2.2.1
  have hgroups : c.blocksPerBlockGroup * c.totalBlockGroupCount ≤ c.totalBlockCount := Nat.mul_div_le _ _
  have hmin : 4064 * c.totalBlockGroupCount ≤ c.blocksPerBlockGroup * c.totalBlockGroupCount :=
    Nat.mul_le_mul_right _ (by lia)
  have hrbb : c.rbbCount ≤ c.totalBlockGroupCount := by
    rw [h.rbbCount]
    apply Nat.le_of_lt_succ
    rw [Nat.div_lt_iff_lt_mul (by lia)]
    have := Nat.mul_le_mul_left c.totalBlockGroupCount (show 1 ≤ c.blocksPerBlockGroup by lia)
    rw [Nat.succ_mul]
    omega
  omega

theorem Accepts.writeList_fits (h : c.Accepts) (hreserved : c.reservedSectors.toNat ≤ c.totalSectorCount)
    (rbb gbb : Bytes)
    : ∀ w ∈ c.writeList rbb gbb, w.position + w.length ≤ c.fileLen := by
  have hrdb := c.rdbCount.toNat_lt
  have hcount := h.1.blocks_le
  have htotal : bytesPerSector * c.totalSectorCount ≤ c.fileLen := Nat.mul_div_le _ _
  have hblock : ∀ i, i ≤ c.rdbCount.toNat + 2 + c.rbbCount
      → c.blockPosition i + c.bytesPerBlock ≤ c.fileLen := by
    intro i hi
    apply blockPosition_le hreserved
    omega
  have hsector : 512 ≤ c.fileLen := by
    have hfirst := hblock 0 (by omega)
    have hpos := h.1.sectorsPerBlock
    unfold bytesPerBlock bytesPerSector at hfirst
    omega
  intro w hw
  unfold writeList at hw
  simp only [List.mem_append, List.mem_map, List.mem_range, List.mem_cons, List.not_mem_nil,
    or_false] at hw
  obtain ((hboot | rfl) | ⟨i, hi, rfl⟩) | rfl | rfl | rfl | rfl := hw
  . have hfits := h.2
    unfold bootCodeFits at hfits
    cases hfile : c.bootCodeFile with
    | none => simp [hfile] at hboot
    | some file =>
      cases file with
      | none => simp [hfile] at hboot
      | some code =>
        simp only [hfile, List.mem_singleton] at hboot
        simp only [hfile, decide_eq_true_eq] at hfits
        rw [hboot]
        show 0 + code.length ≤ c.fileLen
        have hmul := Nat.mul_le_mul_right bytesPerSector hreserved
        rw [Nat.mul_comm c.totalSectorCount] at hmul
        omega
  . show 0 + 512 ≤ c.fileLen
    omega
  . have hend := hblock i (by omega)
    rw [← position32_eq (by omega)] at hend
    exact hend
  . have hend := hblock c.rdbCount.toNat (by omega)
    rw [← position32_eq (by omega)] at hend
    exact hend
  . have hend := hblock (c.rdbCount.toNat + c.rbbCount) (by omega)
    rw [← h.1.position64 (by omega)] at hend
    exact hend
  . have hend := hblock (c.rdbCount.toNat + 1 + c.rbbCount) (by omega)
    rw [← h.1.position64 (by omega)] at hend
    exact hend
  . have hend := hblock (c.rdbCount.toNat + 2 + c.rbbCount) (by omega)
    rw [← h.1.position64 (by omega)] at hend
    exact hend

theorem GeometryRight.of_reserved (hlen : c.fileLen % bytesPerSector = 0) (hspb : c.sectorsPerBlock ≠ 0)
    (hreserved : c.reservedSectors.toNat ≤ c.totalSectorCount)
    : c.GeometryRight := by
  have hlt := c.sectorsPerBlock.toNat_lt
  have hpos : 0 < c.sectorsPerBlock.toNat := by
    apply Nat.pos_of_ne_zero
    intro hzero
    exact hspb (UInt8.toNat_inj.mp hzero)
  have hgroup : c.blocksPerBlockGroup = 4096 * c.sectorsPerBlock.toNat - 32 := by
    unfold blocksPerBlockGroup bytesPerBlock bytesPerSector u32
    lia
  refine ⟨makeFs_ne_divide hspb, ?_, ?_, ?_⟩
  . intro n hn
    simp only [FormatInput.divisors, List.mem_cons, List.not_mem_nil, or_false] at hn
    omega
  . intro d hd
    simp only [FormatInput.differences, List.mem_append, List.mem_cons, List.not_mem_nil, or_false, List.mem_map,
      List.mem_range] at hd
    obtain ((rfl | rfl | rfl | rfl) | ⟨i, hi, rfl⟩) | ⟨i, hi, rfl⟩ := hd
    . exact hreserved
    . show 32 ≤ c.bytesPerBlock * 8
      unfold bytesPerBlock bytesPerSector
      omega
    . show 1 ≤ c.totalBlockGroupCount + c.blocksPerBlockGroup
      lia
    . show 4 ≤ c.bytesPerBlock
      unfold bytesPerBlock bytesPerSector
      omega
    . exact Nat.le_of_lt hi
    . exact Nat.le_of_lt hi
  . by_cases haccepts : c.Accepts
    . exact .inr (haccepts.writeList_fits hreserved)
    . exact .inl (makeFs_eq_none hlen hspb haccepts)

/--
There must be room for the reserved sectors, and blocks must not be empty.
-/
theorem geometry_right_iff (c : FormatInput) (hlen : c.fileLen % bytesPerSector = 0)
    : c.GeometryRight ↔ c.sectorsPerBlock ≠ 0 ∧ c.reservedSectors.toNat ≤ c.totalSectorCount := by
  constructor
  . intro h
    constructor
    . intro hzero
      have hmem : c.sectorsPerBlock.toNat ∈ c.divisors := List.mem_cons_self
      have hne := h.divisors _ hmem
      rw [hzero] at hne
      exact hne rfl
    . have hmem : (c.totalSectorCount, c.reservedSectors.toNat) ∈ c.differences := by
        unfold FormatInput.differences
        rw [List.append_assoc]
        exact List.mem_append_left _ List.mem_cons_self
      exact h.differences _ hmem
  . intro ⟨hspb, hreserved⟩
    exact .of_reserved hlen hspb hreserved

theorem geometry_right_iff_default
    : (defaultInput 32768).fileLen % bytesPerSector = 0
        ∧ ((defaultInput 32768).GeometryRight
          ↔ (defaultInput 32768).sectorsPerBlock ≠ 0
            ∧ (defaultInput 32768).reservedSectors.toNat ≤ (defaultInput 32768).totalSectorCount) :=
  ⟨by decide, geometry_right_iff (defaultInput 32768) (by decide)⟩

/--
Blocks without sectors, and a file with a sector less than what is reserved: it is accepted, and its last
blocks are not in the file.
-/
theorem geometry_wrong
    : (makeFs { defaultInput 32768 with sectorsPerBlock := 0 } = .error .divide)
        ∧ Accepts { defaultInput 0 with reservedSectors := 17 }
        ∧ (∃ d ∈ differences { defaultInput 0 with reservedSectors := 17 }, d.1 < d.2)
        ∧ ¬ GeometryRight { defaultInput 32768 with sectorsPerBlock := 0 }
        ∧ ¬ GeometryRight { defaultInput 0 with reservedSectors := 17 } := by
  have hdivide : makeFs { defaultInput 32768 with sectorsPerBlock := 0 } = .error .divide := by
    unfold makeFs
    rw [if_neg (by decide), if_pos rfl]
  have hwraps : ⟨16, 17⟩ ∈ differences { defaultInput 0 with reservedSectors := 17 } := by
    unfold differences
    rw [List.append_assoc]
    apply List.mem_append_left
    decide
  refine ⟨hdivide, ?_, ⟨_, hwraps, by decide⟩, ?_, ?_⟩
  . unfold Accepts Fits
    decide
  . intro h
    exact h.divides hdivide
  . intro h
    have := h.differences _ hwraps
    omega

end FormatInput

end Emos.Tools.MkfsAfs
