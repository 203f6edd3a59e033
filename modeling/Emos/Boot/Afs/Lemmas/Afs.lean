import Emos.Boot.Afs.Impl.Afs
import Emos.Fat.Lemmas.Geometry
import Emos.Lib.Trace

/-!
This module contains what the buffer of the boot loader's AFS driver holds after any sequence of reads,
some of which fail.
-/

open Lib

namespace Emos.Boot

namespace AfsData

variable {d d' : AfsData} {block : BitVec 64} {r : Except Status Unit}

/--
Where the block starts, which may be too far away for an address.
-/
def blockStart (d : AfsData) (block : BitVec 64) : Nat := d.reservedSectors + block.toNat * d.sectorsPerBlock

def blockBytes (d : AfsData) (block : BitVec 64) : Bytes := d.blkdev.bytesFrom (d.blockStart block)

theorem toNat_blockToSector (h : d.blockStart block < 2 ^ 64)
    : (d.blockToSector block).toNat = d.blockStart block := by
  unfold blockToSector
  unfold blockStart at *
  simp only [BitVec.toNat_add, BitVec.toNat_mul, BitVec.toNat_ofNat, Nat.mod_add_mod, Nat.add_mod_mod,
    Nat.mul_mod_mod]
  exact Nat.mod_eq_of_lt h

theorem readBlock_cases (h : d.readBlock block = .ok ⟨r, d'⟩)
    : (d.blkbufNum = d.blockToSector block ∧ r = .ok () ∧ d' = d)
        ∨ (d.blkbufNum ≠ d.blockToSector block ∧ ∃ buf, d.blkbuf = some buf
          ∧ ((∃ status junk, r = .error status
              ∧ d' = { d with readCount := d.readCount + 1, blkbuf := some junk })
            ∨ (r = .ok () ∧ d' = { d with
                readCount := d.readCount + 1
                blkbuf := some (overwrite buf (d.blkdev.bytesFrom (d.blockToSector block).toNat)
                  (d.sectorsPerBlock * fatSectorSize))
                blkbufNum := block }))) := by
  unfold readBlock at h
  dsimp only at h
  split at h
  . next hhit =>
    cases h
    exact .inl ⟨hhit, rfl, rfl⟩
  . next hmiss =>
    refine .inr ⟨hmiss, ?_⟩
    rw [bind_eq_ok] at h
    obtain ⟨⟨r1, d1⟩, hread, h⟩ := h
    unfold readSectors at hread
    dsimp only at hread
    split at hread
    . cases hread
    . next buf hbuf =>
      refine ⟨buf, hbuf, ?_⟩
      split at hread
      . cases hread
      . split at hread
        . cases hread
          cases h
          exact .inl ⟨_, _, rfl, rfl⟩
        . cases hread
          cases h
          exact .inr ⟨rfl, rfl⟩

/--
There is a buffer, and it has room for a block.
-/
structure HasRoom (d : AfsData) : Prop where
  blkbuf : d.blkbuf.isSome = true
  blockSize : d.sectorsPerBlock * fatSectorSize ≤ d.blockSize

theorem HasRoom.readBlock (h : d.HasRoom) (block : BitVec 64) : ∃ r d', d.readBlock block = .ok ⟨r, d'⟩ := by
  obtain ⟨buf, hbuf⟩ := Option.isSome_iff_exists.mp h.blkbuf
  have hsize := h.blockSize
  unfold AfsData.readBlock readSectors
  dsimp only
  split
  . exact ⟨_, _, rfl⟩
  . rw [hbuf]
    dsimp only
    rw [if_neg (by omega)]
    split
    . exact ⟨_, _, rfl⟩
    . exact ⟨_, _, rfl⟩

theorem HasRoom.of_readBlock (h : d.readBlock block = .ok ⟨r, d'⟩)
    (hmiss : d.blkbufNum ≠ d.blockToSector block)
    : d.HasRoom := by
  unfold AfsData.readBlock readSectors at h
  dsimp only at h
  rw [if_neg hmiss] at h
  cases hbuf : d.blkbuf with
  | none =>
    rw [hbuf] at h
    cases h
  | some buf =>
    refine ⟨by rw [hbuf]; rfl, ?_⟩
    rw [hbuf] at h
    dsimp only at h
    by_contra hroom
    rw [if_pos (by omega)] at h
    cases h

end AfsData

/--
A mounted volume, and whether the last read of the device succeeded.
-/
structure AfsState where
  data : AfsData
  filled : Bool

namespace AfsState

/--
A call does not always lead to a read of the device.
-/
def step (s : AfsState) (block : BitVec 64) : Run AfsState := do
  match ← s.data.readBlock block with
  | ⟨.error _, d⟩ => .ok ⟨d, false⟩
  | ⟨.ok _, d⟩ => .ok ⟨d, if d.readCount = s.data.readCount then s.filled else true⟩

/--
The call returns, and if it succeeds, then the block is in the buffer.
-/
def Served (s : AfsState) (block : BitVec 64) : Prop :=
  ∃ r d, s.data.readBlock block = .ok ⟨r, d⟩
    ∧ (r = .ok () → ∃ buf, d.blkbuf = some buf
      ∧ ∀ i < s.data.sectorsPerBlock * fatSectorSize, buf i = s.data.blockBytes block i)

/--
The block has an address, and it is the number of the block in the buffer only if that one is wanted and
was read.
-/
def Trusted (s : AfsState) (block : BitVec 64) : Prop :=
  s.data.blockStart block < 2 ^ 64
    ∧ (s.data.blkbufNum = s.data.blockToSector block → block = s.data.blkbufNum ∧ s.filled = true)

instance (s : AfsState) (block : BitVec 64) : Decidable (s.Trusted block) := instDecidableAnd

structure Filled (s : AfsState) : Prop where
  room : s.data.HasRoom
  blkbuf : s.filled = true → ∀ buf, s.data.blkbuf = some buf
    → ∀ i < s.data.sectorsPerBlock * fatSectorSize, buf i = s.data.blockBytes s.data.blkbufNum i

variable {s s' : AfsState} {block : BitVec 64} {d : AfsData}

theorem overwrite_block (hstart : d.blockStart block < 2 ^ 64) (buf : Bytes) {i : Nat}
    (hi : i < d.sectorsPerBlock * fatSectorSize)
    : overwrite buf (d.blkdev.bytesFrom (d.blockToSector block).toNat) (d.sectorsPerBlock * fatSectorSize) i
        =
      d.blockBytes block i := by
  unfold overwrite AfsData.blockBytes
  rw [if_pos hi, AfsData.toNat_blockToSector hstart]

theorem step_filled (h : s.Filled) (htrusted : s.Trusted block) (hstep : s.step block = .ok s')
    : s'.Filled := by
  unfold step at hstep
  rw [bind_eq_ok] at hstep
  obtain ⟨⟨r, d⟩, hread, hstep⟩ := hstep
  obtain ⟨-, rfl, rfl⟩ | ⟨-, buf, hbuf, ⟨status, junk, rfl, rfl⟩ | ⟨rfl, rfl⟩⟩ :=
    AfsData.readBlock_cases hread
  . simp only [if_true] at hstep
    cases hstep
    exact h
  . cases hstep
    refine ⟨⟨rfl, h.room.blockSize⟩, ?_⟩
    intro hfilled
    cases hfilled
  . cases hstep
    refine ⟨⟨rfl, h.room.blockSize⟩, ?_⟩
    intro _ buf' hbuf' i hi
    cases hbuf'
    exact overwrite_block htrusted.1 buf hi

theorem served_of_trusted (h : s.Filled) (htrusted : s.Trusted block) : s.Served block := by
  obtain ⟨r, d, hread⟩ := h.room.readBlock block
  refine ⟨r, d, hread, ?_⟩
  intro hr
  obtain ⟨htag, -, rfl⟩ | ⟨-, buf, hbuf, ⟨status, junk, hfail, -⟩ | ⟨-, rfl⟩⟩ :=
    AfsData.readBlock_cases hread
  . obtain ⟨hblock, hfilled⟩ := htrusted.2 htag
    obtain ⟨buf, hbuf⟩ := Option.isSome_iff_exists.mp h.room.blkbuf
    refine ⟨buf, hbuf, ?_⟩
    rw [hblock]
    exact h.blkbuf hfilled buf hbuf
  . rw [hr] at hfail
    cases hfail
  . refine ⟨_, rfl, ?_⟩
    intro i hi
    exact overwrite_block htrusted.1 buf hi

theorem Filled.setPointers {d' : AfsData} {filled : Bool} (hpointers : d.setPointers = .ok d')
    (h : Filled ⟨d, filled⟩)
    : Filled ⟨d', filled⟩ := by
  unfold AfsData.setPointers at hpointers
  split at hpointers
  . cases hpointers
  . split at hpointers
    . cases hpointers
    . cases hpointers
      exact ⟨⟨h.room.blkbuf, h.room.blockSize⟩, h.blkbuf⟩

/--
The first block is read once the volume says where it is, since its address is not that of no block.
-/
theorem Filled.of_readBlock {d' : AfsData} (hnum : d.blkbufNum = -1) (hreserved : d.reservedSectors < 2 ^ 16)
    (h : d.readBlock 0 = .ok ⟨.ok (), d'⟩)
    : Filled ⟨d', true⟩ := by
  have hstart : d.blockStart 0 = d.reservedSectors := by simp [AfsData.blockStart]
  have hlba : (d.blockToSector 0).toNat = d.reservedSectors := by
    rw [AfsData.toNat_blockToSector (by omega), hstart]
  have hmiss : d.blkbufNum ≠ d.blockToSector 0 := by
    intro hhit
    rw [← hhit, hnum] at hlba
    simp at hlba
    omega
  have hroom := AfsData.HasRoom.of_readBlock h hmiss
  obtain ⟨hhit, -, -⟩ | ⟨-, buf, hbuf, ⟨status, junk, hfail, -⟩ | ⟨-, rfl⟩⟩ := AfsData.readBlock_cases h
  . exact absurd hhit hmiss
  . cases hfail
  . refine ⟨⟨rfl, hroom.blockSize⟩, ?_⟩
    intro _ buf' hbuf' i hi
    cases hbuf'
    exact overwrite_block (by omega) buf hi

theorem Filled.of_mount {dev : BlockDevice} {blockSize : Except Status Nat} {create : Option Status}
    {hasData : Bool} {blkbuf : Option Bytes} (h : afsMount dev blockSize create hasData blkbuf = .ok (.ok d))
    : Filled ⟨d, true⟩ := by
  unfold afsMount at h
  split at h
  . cases h
  . split at h
    . cases h
    . split at h
      . cases h
      . split at h
        . cases h
        . split at h
          . cases h
          . next sector _ =>
            dsimp only at h
            split at h
            . cases h
            . split at h
              . cases h
              . rw [bind_eq_ok] at h
                obtain ⟨⟨r, d'⟩, hread, h⟩ := h
                cases r with
                | error status => cases h
                | ok _ =>
                  rw [bind_eq_ok] at h
                  obtain ⟨d1, hpointers, h⟩ := h
                  cases h
                  apply Filled.setPointers hpointers
                  exact Filled.of_readBlock rfl (Bytes.read_lt sector 508 2) hread

/--
The call succeeds, and a byte of the wanted block is not in the buffer.
-/
def Misserved (s : AfsState) (block : BitVec 64) : Prop :=
  ∃ d buf, s.data.readBlock block = .ok ⟨.ok (), d⟩ ∧ d.blkbuf = some buf
    ∧ ∃ i < s.data.sectorsPerBlock * fatSectorSize, buf i ≠ s.data.blockBytes block i

end AfsState

end Emos.Boot
