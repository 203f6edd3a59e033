import Emos.Boot.Fat.Impl.Mount
import Emos.Boot.Fat.Lemmas.Fat
import Emos.Kernel.Fat.Impl.Mount
import Emos.Kernel.Fat.Lemmas.Discipline
import Emos.Kernel.Fat.Lemmas.Util

/-!
This module contains that the FAT drivers of the boot loader and of the kernel read the same links from a file
allocation table, and where they place the clusters of a volume.
-/

open Lib

namespace Emos

namespace Boot.FatData

variable {d : FatData}

end Boot.FatData

/--
The kernel's driver works on the volume that the boot loader's driver has mounted.
-/
structure SameImage (d : Boot.FatData) (k : FatData) (c : BlockCache) : Prop where
  sectorSize : k.sectorSize = Boot.fatSectorSize
  reservedSectors : k.reservedSectors = d.geometry.reservedSectors
  fatCount : 0 < k.fatCount
  block : ∀ lba, ∀ i < Boot.fatSectorSize, c.block lba i = d.blkdev.block lba i

variable {d : Boot.FatData} {k : FatData} {c : BlockCache}

theorem SameImage.table (h : SameImage d k c) (hg : d.geometry.WellFormed) {i : Nat}
    (hi : i < 2 ^ 31)
    : k.table c 0 i = d.table i := by
  have hreserved := hg.reservedSectors
  have hdiv := Nat.div_le_self i Boot.fatSectorSize
  unfold FatData.table Boot.FatData.table Boot.BlockDevice.bytesFrom Blocks.flatten FatData.fatLba
  rw [h.sectorSize, h.reservedSectors]
  dsimp only
  rw [h.block _ _ (Nat.mod_lt _ (by decide))]
  simp only [Int.toNat_natCast, Nat.zero_mul, Nat.add_zero]
  rw [u32_of_lt (by omega)]

theorem SameImage.aligned (h : SameImage d k c) (w : FatType) : w.Aligned k := by
  cases w with
  | fat12 => trivial
  | fat16 =>
    simp only [FatType.Aligned, h.sectorSize]
    decide
  | fat32 =>
    simp only [FatType.Aligned, h.sectorSize]
    decide

theorem FatType.entryEnd_lt (w : FatType) {entry : Nat} (h : entry ≤ w.maxCluster)
    : w.entryEnd entry ≤ 2 ^ 31 := by
  cases w with
  | fat12 =>
    simp only [maxCluster, fat12MaxCluster] at h
    simp only [entryEnd, Packed12.index]
    omega
  | fat16 =>
    simp only [maxCluster, fat16MaxCluster] at h
    simp only [entryEnd]
    omega
  | fat32 =>
    simp only [maxCluster, fat32MaxCluster] at h
    simp only [entryEnd]
    omega

theorem SameImage.readFatEntry (h : SameImage d k c) (hg : d.geometry.WellFormed) (hc : c.Reliable)
    {cluster : Nat} (hcluster : cluster ≤ d.geometry.fatType.maxCluster)
    : ∃ c', d.geometry.fatType.readFatEntry k c 0 cluster = .ok ⟨.ok (d.next cluster), c'⟩ := by
  have hpos : 2 ≤ k.sectorSize := by
    rw [h.sectorSize]
    decide
  obtain ⟨c', hread⟩ :=
    d.geometry.fatType.readFatEntry_eq hpos (h.aligned _) hc h.fatCount hcluster
  refine ⟨c', hread.trans ?_⟩
  have hentry : d.geometry.fatType.entryAt (k.table c 0) cluster
      = d.geometry.fatType.entryAt d.table cluster :=
    FatType.entryAt_congr (fun i hi => h.table hg hi) (d.geometry.fatType.entryEnd_lt hcluster)
  rw [hentry]
  unfold Boot.FatData.next
  cases d.geometry.fatType with
  | fat12 => rfl
  | fat16 => rfl
  | fat32 => rfl

end Emos

namespace Emos

namespace Bpb

variable (bpb : Bpb)

def areaBegin : Nat := bpb.reservedSectorCount + bpb.fatCount * bpb.fatSize

/--
The number of sectors that the entries of the root directory take.
-/
def rootDirSectors : Nat := (bpb.rootEntryCount * 32 + bpb.bytesPerSector - 1) / bpb.bytesPerSector

/--
The number of clusters behind the root directory, of whose sectors 16 bits are counted.
-/
def clusterCount : Nat :=
  (bpb.totalSectorCount - bpb.areaBegin - bpb.rootDirSectors % 2 ^ 16) / bpb.sectorsPerCluster

end Bpb

namespace Boot

theorem mount_geometry {dev : BlockDevice} {blockSize : Except Status Nat} {create : Option Status}
    {data : Option FatMemory} {databuf : Option Bytes} {d : FatData}
    (h : mount dev blockSize create data databuf = .ok (.ok d))
    : ∃ rootCluster count, mountGeometry ⟨dev.block 0⟩ rootCluster = .ok ⟨d.geometry, count⟩
        ∧ d.blkdev = dev ∧ d.databufLbaStart = -1 := by
  unfold mount at h
  cases blockSize with
  | error status => cases h
  | ok blockSize =>
    dsimp only at h
    split at h
    . cases h
    cases create with
    | some status => cases h
    | none =>
      cases data with
      | none => cases h
      | some data =>
        dsimp only at h
        unfold BlockDevice.readBlock at h
        cases h0 : dev.fails 0 with
        | some failure => simp [h0] at h
        | none =>
          simp only [h0] at h
          split at h
          . cases h
          rw [bind_eq_ok] at h
          obtain ⟨⟨geometry, count⟩, hgeometry, h⟩ := h
          refine ⟨data.rootCluster, count, ?_⟩
          cases databuf with
          | none => cases h
          | some databuf =>
            dsimp only at h
            split at h
            . cases h1 : dev.fails 1 with
              | some failure => simp [h1] at h
              | none =>
                simp only [h1] at h
                cases h
                exact ⟨hgeometry, rfl, rfl⟩
            . cases h
              exact ⟨hgeometry, rfl, rfl⟩

end Boot

namespace Kernel

end Kernel

variable {bpb : Bpb} {count : Nat}

/--
The clusters that both drivers count at mounting, in numbers of 32 bits.
-/
def Bpb.clusterCount32 (bpb : Bpb) : Nat :=
  sub32 (sub32 bpb.totalSectorCount (u32 bpb.areaBegin)) (bpb.rootDirSectors % 2 ^ 16)
    / bpb.sectorsPerCluster

theorem Boot.mountGeometry_eq_ok {rootCluster : Nat} {g : FatGeometry}
    (h : mountGeometry bpb rootCluster = .ok ⟨g, count⟩)
    : 0 < bpb.bytesPerSector ∧ 0 < bpb.sectorsPerCluster
        ∧ g.sectorsPerCluster = bpb.sectorsPerCluster
        ∧ g.dataAreaBegin = u32 bpb.areaBegin
        ∧ g.rootSectorCount = bpb.rootDirSectors % 2 ^ 16
        ∧ g.fatType = .ofClusterCount bpb.clusterCount32
        ∧ g.reservedSectors = bpb.reservedSectorCount
        ∧ g.sectorSize = bpb.bytesPerSector
        ∧ g.clusterSize = bpb.bytesPerSector * bpb.sectorsPerCluster := by
  unfold mountGeometry at h
  dsimp only at h
  rw [bind_eq_ok] at h
  obtain ⟨rootSectors, hroot, h⟩ := h
  rw [bind_eq_ok] at h
  obtain ⟨clusters, hclusters, h⟩ := h
  obtain ⟨hss, rfl⟩ := divide_eq_ok hroot
  obtain ⟨hspc, rfl⟩ := divide_eq_ok hclusters
  cases h
  exact ⟨hss, hspc, rfl, rfl, rfl, rfl, rfl, rfl, rfl⟩

/--
Where the clusters start in both drivers.
-/
def Bpb.clusterStart (bpb : Bpb) (fatType : FatType) : Nat :=
  bpb.areaBegin + if fatType = .fat32 then 0 else bpb.rootDirSectors % 2 ^ 16

/--
A sector that has lists of bytes at some offsets and zeros elsewhere.
-/
def sectorOf (parts : List (Nat × List Nat)) : Bytes := fun i =>
  match parts.find? fun part => part.1 ≤ i ∧ i < part.1 + part.2.length with
  | none => 0
  | some part => BitVec.ofNat 8 (part.2.getD (i - part.1) 0)

def floppy : Bytes :=
  sectorOf [(11, [0, 2, 1, 1, 0, 2, 224, 0, 0x40, 0x0B, 0xF0, 9, 0]),
    (54, [0x46, 0x41, 0x54, 0x31, 0x32, 0x20, 0x20, 0x20]), (510, [0x55, 0xAA])]

end Emos
