import Emos.Boot.Fat.Lemmas.Fat
import Emos.Fat.Lemmas.Geometry
import Emos.Lib.Trace

/-!
This module contains what the two buffers of the boot loader's FAT driver hold after any sequence of
reads, some of which fail.
-/

open Lib

namespace Emos.Boot

namespace FatData

def sectorBytes (d : FatData) (lba : Nat) : Bytes :=
  fun i => d.blkdev.bytesFrom 0 (lba * d.geometry.sectorSize + i)

theorem sectorBytes_eq {d : FatData} (hsize : d.geometry.sectorSize = fatSectorSize) (lba : Nat)
    : d.sectorBytes lba = d.blkdev.bytesFrom lba := by
  funext i
  unfold sectorBytes BlockDevice.bytesFrom Blocks.flatten
  rw [hsize, Nat.mul_comm, Nat.mul_add_div (by decide), Nat.mul_add_mod]
  simp

theorem readBlocks_cases {d d' : FatData} {lba count capacity : Nat} {buf buf' : Bytes}
    {r : Except Status Unit} (h : d.readBlocks lba count capacity buf = .ok ⟨r, buf', d'⟩)
    : d' = { d with readCount := d.readCount + 1 }
        ∧ ((∃ status, r = .error status)
          ∨ r = .ok () ∧ buf' = overwrite buf (d.blkdev.bytesFrom lba) (count * fatSectorSize)) := by
  unfold readBlocks at h
  split at h
  . cases h
  . split at h
    . cases h
      exact ⟨rfl, .inl ⟨_, rfl⟩⟩
    . cases h
      exact ⟨rfl, .inr ⟨rfl, rfl⟩⟩

end FatData

inductive CacheCall where
  | readFat (fatSector : Nat)
  | readSector (lba : Nat)
  | readCluster (cluster : Nat)

namespace CacheCall

def run (d : FatData) : CacheCall → Run (Except Status Unit × FatData)
  | readFat fatSector => d.readFat fatSector
  | readSector lba => d.readSector lba
  | readCluster cluster => d.readCluster cluster

def lba (d : FatData) : CacheCall → Nat
  | readFat fatSector => u32 (d.geometry.reservedSectors + fatSector)
  | readSector lba => lba
  | readCluster cluster => d.fatclusterToSector cluster

def count (d : FatData) : CacheCall → Nat
  | readFat _ | readSector _ => 1
  | readCluster _ => d.geometry.sectorsPerCluster

def tag (d : FatData) : CacheCall → Int
  | readFat _ => d.fatbufLba
  | readSector _ | readCluster _ => d.databufLbaStart

def buffer (d : FatData) : CacheCall → Bytes
  | readFat _ => d.fatbuf
  | readSector _ | readCluster _ => d.databuf

def store (d : FatData) (buf : Bytes) (lba : Int) : CacheCall → FatData
  | readFat _ => { d with fatbuf := buf, fatbufLba := lba }
  | readSector _ | readCluster _ => { d with databuf := buf, databufLbaStart := lba }

theorem run_cases {d d' : FatData} {call : CacheCall} {r : Except Status Unit}
    (h : call.run d = .ok ⟨r, d'⟩)
    : (call.tag d = call.lba d ∧ r = .ok () ∧ d' = d)
        ∨ (call.tag d ≠ call.lba d
          ∧ ((∃ status buf, r = .error status
              ∧ d' = call.store { d with readCount := d.readCount + 1 } buf (call.tag d))
            ∨ (r = .ok () ∧ d' = call.store { d with readCount := d.readCount + 1 }
                (overwrite (call.buffer d) (d.blkdev.bytesFrom (call.lba d))
                  (call.count d * fatSectorSize)) (call.lba d)))) := by
  have hdata : ∀ lba count, d.readData lba count = .ok ⟨r, d'⟩
      → (d.databufLbaStart = lba ∧ r = .ok () ∧ d' = d)
        ∨ (d.databufLbaStart ≠ lba
          ∧ ((∃ status buf, r = .error status
              ∧ d' = { d with readCount := d.readCount + 1, databuf := buf })
            ∨ (r = .ok () ∧ d' = { d with
                readCount := d.readCount + 1
                databuf := overwrite d.databuf (d.blkdev.bytesFrom lba) (count * fatSectorSize)
                databufLbaStart := lba }))) := by
    intro lba count h
    unfold FatData.readData at h
    split at h
    . next hhit =>
      cases h
      exact .inl ⟨hhit, rfl, rfl⟩
    . next hmiss =>
      rw [bind_eq_ok] at h
      obtain ⟨⟨r1, buf, d1⟩, hread, h⟩ := h
      obtain ⟨rfl, ⟨status, rfl⟩ | ⟨rfl, rfl⟩⟩ := FatData.readBlocks_cases hread
      . cases h
        exact .inr ⟨hmiss, .inl ⟨status, buf, rfl, rfl⟩⟩
      . cases h
        exact .inr ⟨hmiss, .inr ⟨rfl, rfl⟩⟩
  cases call with
  | readSector lba => exact hdata lba 1 h
  | readCluster cluster => exact hdata _ _ h
  | readFat fatSector =>
    unfold run FatData.readFat at h
    dsimp only at h
    split at h
    . next hhit =>
      cases h
      exact .inl ⟨hhit, rfl, rfl⟩
    . next hmiss =>
      rw [bind_eq_ok] at h
      obtain ⟨⟨r1, buf, d1⟩, hread, h⟩ := h
      obtain ⟨rfl, ⟨status, rfl⟩ | ⟨rfl, rfl⟩⟩ := FatData.readBlocks_cases hread
      . cases h
        exact .inr ⟨hmiss, .inl ⟨status, buf, rfl, rfl⟩⟩
      . cases h
        exact .inr ⟨hmiss, .inr ⟨rfl, rfl⟩⟩

end CacheCall

/--
A mounted volume, and how many sectors the last read of the device into each of the buffers has put
there. There are none if that read failed, or if there was no read since the volume was mounted.
-/
structure CacheState where
  data : FatData
  fatFilled : Nat
  dataFilled : Nat

namespace CacheState

def filled (s : CacheState) : CacheCall → Nat
  | .readFat _ => s.fatFilled
  | .readSector _ | .readCluster _ => s.dataFilled

/--
The volume after a read of the device that has put `n` sectors into the buffer.
-/
def fill (s : CacheState) (d : FatData) (n : Nat) : CacheCall → CacheState
  | .readFat _ => { s with data := d, fatFilled := n }
  | .readSector _ | .readCluster _ => { s with data := d, dataFilled := n }

/--
A call does not always lead to a read of the device.
-/
def step (s : CacheState) (call : CacheCall) : Run CacheState := do
  match ← call.run s.data with
  | ⟨.error _, d⟩ => .ok (s.fill d 0 call)
  | ⟨.ok _, d⟩ =>
    if d.readCount = s.data.readCount then
      .ok { s with data := d }
    else
      .ok (s.fill d (call.count s.data) call)

/--
The call returns, and if it succeeds, then all sectors that are wanted are in the buffer.
-/
def Served (s : CacheState) (call : CacheCall) : Prop :=
  ∃ r d, call.run s.data = .ok ⟨r, d⟩
    ∧ (r = .ok () → ∀ i, i < call.count s.data * s.data.geometry.sectorSize
      → call.buffer d i = s.data.sectorBytes (call.lba s.data) i)

/--
Sectors are the blocks of the device, and a buffer that is said to start with the right sector was
filled by a read that succeeded and was not for less.
-/
def Trusted (s : CacheState) (call : CacheCall) : Prop :=
  s.data.geometry.sectorSize = fatSectorSize
    ∧ (call.tag s.data = call.lba s.data → call.count s.data ≤ s.filled call)

instance (s : CacheState) (call : CacheCall) : Decidable (s.Trusted call) := instDecidableAnd

/--
Both buffers have what was put there, and the one of the data has room for a cluster.
-/
structure Filled (s : CacheState) : Prop where
  sectorsPerCluster : 0 < s.data.geometry.sectorsPerCluster
  clusterSize : s.data.geometry.clusterSize
    = s.data.geometry.sectorSize * s.data.geometry.sectorsPerCluster
  fatbuf : ∀ lba : Nat, s.data.fatbufLba = lba
    → ∀ i < s.fatFilled * fatSectorSize, s.data.fatbuf i = s.data.blkdev.bytesFrom lba i
  databuf : ∀ lba : Nat, s.data.databufLbaStart = lba
    → ∀ i < s.dataFilled * fatSectorSize, s.data.databuf i = s.data.blkdev.bytesFrom lba i

variable {s s' : CacheState} {call : CacheCall} {d : FatData}

theorem overwrite_bytesFrom (buf : Bytes) (dev : BlockDevice) (lba : Nat) {i n : Nat} (hi : i < n)
    : overwrite buf (dev.bytesFrom lba) n i = dev.bytesFrom lba i := by
  unfold overwrite
  rw [if_pos hi]

theorem Filled.of_mount {dev : BlockDevice} {blockSize : Except Status Nat} {create : Option Status}
    {data : Option FatMemory} {databuf : Option Bytes}
    (h : mount dev blockSize create data databuf = .ok (.ok d))
    : Filled ⟨d, 0, 0⟩ := by
  obtain ⟨rootCluster, count, hgeometry, -⟩ := mount_geometry h
  obtain ⟨-, hpos, hspc, -, -, -, -, hss, hcs⟩ := mountGeometry_eq_ok hgeometry
  refine ⟨by rw [hspc]; exact hpos, by rw [hcs, hss, hspc], ?_, ?_⟩
  . intro lba hlba i hi
    simp at hi
  . intro lba hlba i hi
    simp at hi

theorem Filled.buffer (h : s.Filled) (htag : call.tag s.data = call.lba s.data) {i : Nat}
    (hi : i < s.filled call * fatSectorSize)
    : call.buffer s.data i = s.data.blkdev.bytesFrom (call.lba s.data) i := by
  cases call with
  | readFat fatSector => exact h.fatbuf _ htag i hi
  | readSector lba => exact h.databuf _ htag i hi
  | readCluster cluster => exact h.databuf _ htag i hi

theorem Filled.fill (h : s.Filled) {readCount n : Nat} {buf : Bytes} {tag : Int}
    (hbuf : ∀ lba : Nat, tag = lba
      → ∀ i < n * fatSectorSize, buf i = s.data.blkdev.bytesFrom lba i)
    : (s.fill (call.store { s.data with readCount } buf tag) n call).Filled := by
  cases call with
  | readFat fatSector => exact ⟨h.sectorsPerCluster, h.clusterSize, hbuf, h.databuf⟩
  | readSector lba => exact ⟨h.sectorsPerCluster, h.clusterSize, h.fatbuf, hbuf⟩
  | readCluster cluster => exact ⟨h.sectorsPerCluster, h.clusterSize, h.fatbuf, hbuf⟩

theorem store_readCount (buf : Bytes) (tag : Int) : (call.store d buf tag).readCount = d.readCount := by
  cases call with
  | readFat fatSector => rfl
  | readSector lba => rfl
  | readCluster cluster => rfl

theorem step_filled (h : s.Filled) (hstep : s.step call = .ok s') : s'.Filled := by
  unfold step at hstep
  rw [bind_eq_ok] at hstep
  obtain ⟨⟨r, d⟩, hrun, hstep⟩ := hstep
  obtain ⟨-, rfl, rfl⟩ | ⟨-, ⟨status, buf, rfl, rfl⟩ | ⟨rfl, rfl⟩⟩ := CacheCall.run_cases hrun
  . simp only [if_true] at hstep
    cases hstep
    exact h
  -- nothing is asked of the buffer after a failure
  . cases hstep
    apply h.fill
    intro lba hlba i hi
    simp at hi
  . simp only [store_readCount] at hstep
    rw [if_neg (by omega)] at hstep
    cases hstep
    apply h.fill
    intro lba hlba i hi
    rw [← Int.ofNat_inj.mp hlba]
    exact overwrite_bytesFrom _ _ _ hi

theorem run_returns (h : s.Filled) (hsize : s.data.geometry.sectorSize = fatSectorSize)
    (call : CacheCall)
    : ∃ r d, call.run s.data = .ok ⟨r, d⟩ := by
  have hblocks : ∀ lba count capacity buf, count * fatSectorSize ≤ capacity
      → ∃ r buf' d, s.data.readBlocks lba count capacity buf = .ok ⟨r, buf', d⟩ := by
    intro lba count capacity buf hcapacity
    unfold FatData.readBlocks
    rw [if_neg (by omega)]
    split
    . exact ⟨_, _, _, rfl⟩
    . exact ⟨_, _, _, rfl⟩
  have hdata : ∀ lba count, count ≤ s.data.geometry.sectorsPerCluster
      → ∃ r d, s.data.readData lba count = .ok ⟨r, d⟩ := by
    intro lba count hcount
    unfold FatData.readData
    split
    . exact ⟨_, _, rfl⟩
    . obtain ⟨r, buf, d, hread⟩ := hblocks lba count s.data.geometry.clusterSize s.data.databuf (by
        rw [h.clusterSize, hsize, Nat.mul_comm]
        exact Nat.mul_le_mul_left _ hcount)
      rw [hread]
      cases r with
      | error status => exact ⟨_, _, rfl⟩
      | ok _ => exact ⟨_, _, rfl⟩
  cases call with
  | readSector lba => exact hdata lba 1 h.sectorsPerCluster
  | readCluster cluster => exact hdata _ _ (Nat.le_refl _)
  | readFat fatSector =>
    unfold CacheCall.run FatData.readFat
    dsimp only
    split
    . exact ⟨_, _, rfl⟩
    . obtain ⟨r, buf, d, hread⟩ := hblocks (u32 (s.data.geometry.reservedSectors + fatSector)) 1
        fatSectorSize s.data.fatbuf (Nat.le_refl _)
      rw [hread]
      cases r with
      | error status => exact ⟨_, _, rfl⟩
      | ok _ => exact ⟨_, _, rfl⟩

theorem served_of_trusted (h : s.Filled) (htrusted : s.Trusted call) : s.Served call := by
  obtain ⟨hsize, hhit⟩ := htrusted
  obtain ⟨r, d, hrun⟩ := run_returns h hsize call
  refine ⟨r, d, hrun, ?_⟩
  intro hr i hi
  rw [hsize] at hi
  rw [FatData.sectorBytes_eq hsize]
  obtain ⟨htag, -, rfl⟩ | ⟨-, ⟨status, buf, hfail, -⟩ | ⟨-, rfl⟩⟩ := CacheCall.run_cases hrun
  . have := Nat.mul_le_mul_right fatSectorSize (hhit htag)
    exact h.buffer htag (by omega)
  . rw [hr] at hfail
    cases hfail
  . have hbuffer := overwrite_bytesFrom (call.buffer s.data) s.data.blkdev (call.lba s.data) hi
    cases call with
    | readFat fatSector => exact hbuffer
    | readSector lba => exact hbuffer
    | readCluster cluster => exact hbuffer

/--
In every run on a mounted volume whose hits are on buffers that were filled for as much, every call
that succeeds has what is wanted in its buffer.
-/
theorem caches_serve {dev : BlockDevice} {blockSize : Except Status Nat} {create : Option Status}
    {data : Option FatMemory} {databuf : Option Bytes}
    (hmount : mount dev blockSize create data databuf = .ok (.ok d))
    (calls : List CacheCall) (h : Along step Trusted ⟨d, 0, 0⟩ calls)
    : Along step Served ⟨d, 0, 0⟩ calls := by
  have hfilled : Throughout step Filled ⟨d, 0, 0⟩ calls := by
    apply Throughout.of_step _ (Filled.of_mount hmount) h
    intro s call t hs _ hstep
    exact step_filled hs hstep
  apply Along.and_throughout _ hfilled h
  intro s call hs htrusted
  exact served_of_trusted hs htrusted

/--
A device with clusters of two sectors, where the bytes of every other sector are its address.
-/
def numberedDevice (fails : Nat → Option (Status × Bytes)) (sectorSize : List Nat) : BlockDevice where
  block lba :=
    if lba = 0 then
      sectorOf [(11, sectorSize), (13, [2, 1, 0, 2, 224, 0, 0x40, 0x0B, 0xF0, 9, 0]),
        (54, [0x46, 0x41, 0x54, 0x31, 0x32, 0x20, 0x20, 0x20]), (510, [0x55, 0xAA])]
    else
      fun _ => .ofNat 8 lba
  fails

def mountNumbered (fails : Nat → Option (Status × Bytes)) (sectorSize : List Nat) (fatbufLba : Int)
    : Run (Except Status FatData) :=
  mount (numberedDevice fails sectorSize) (.ok 512) none (some ⟨0, fatbufLba, fun _ => 0⟩)
    (some fun _ => 0)

theorem caches_serve_numbered
    : ∃ d, mountNumbered (fun k => if k = 3 then some ⟨.unknownError, fun _ => 0xFF⟩ else none) [0, 2] 0
          = .ok (.ok d)
        ∧ Along step Served ⟨d, 0, 0⟩
            [.readFat 0, .readCluster 2, .readSector 5, .readSector 5, .readFat 0, .readCluster 2,
              .readSector 33] := by
  obtain ⟨d, hd⟩ : ∃ d, mountNumbered
      (fun k => if k = 3 then some ⟨.unknownError, fun _ => 0xFF⟩ else none) [0, 2] 0 = .ok (.ok d) :=
    ⟨_, rfl⟩
  refine ⟨d, hd, ?_⟩
  apply caches_serve hd
  cases hd
  decide

/--
The call succeeds, and a byte that is wanted is not in the buffer.
-/
def Misserved (s : CacheState) (call : CacheCall) : Prop :=
  ∃ d, call.run s.data = .ok ⟨.ok (), d⟩
    ∧ ∃ i, i < call.count s.data * s.data.geometry.sectorSize
      ∧ call.buffer d i ≠ s.data.sectorBytes (call.lba s.data) i

/--
Four ways to the wrong bytes: the address in the fresh memory is the wanted one, a read that failed
has overwritten the buffer of an earlier one, only the first sector of a cluster was read before, and
the sectors of the volume are not the blocks of the device.
-/
theorem caches_misserve
    : (∃ d, mountNumbered (fun _ => none) [0, 2] 1 = .ok (.ok d)
          ∧ Misserved ⟨d, 0, 0⟩ (.readFat 0))
        ∧ (∃ d s, mountNumbered
              (fun k => if k = 2 then some ⟨.unknownError, fun _ => 0xFF⟩ else none) [0, 2] 0 = .ok (.ok d)
            ∧ [CacheCall.readSector 5, .readSector 6].foldlM step ⟨d, 0, 0⟩ = .ok s
            ∧ s.Misserved (.readSector 5))
        ∧ (∃ d s, mountNumbered (fun _ => none) [0, 2] 0 = .ok (.ok d)
            ∧ [CacheCall.readSector 33].foldlM step ⟨d, 0, 0⟩ = .ok s
            ∧ s.Misserved (.readCluster 2))
        ∧ (∃ d, mountNumbered (fun _ => none) [0, 4] 0 = .ok (.ok d)
            ∧ Misserved ⟨d, 0, 0⟩ (.readFat 0)) := by
  refine ⟨⟨_, rfl, _, rfl, 0, by decide, by decide⟩, ⟨_, _, rfl, rfl, _, rfl, 0, by decide, by decide⟩,
    ⟨_, _, rfl, rfl, _, rfl, 512, by decide, by decide⟩, ⟨_, rfl, _, rfl, 0, by decide, by decide⟩⟩

end CacheState

end Emos.Boot
