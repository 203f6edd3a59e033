import Emos.Fat.Basic
import Emos.Kernel.Fat.Impl.Util

/-!
This module contains how the kernel's FAT driver recognises and mounts a volume.
-/

open Lib

namespace Emos

structure FatVolume extends FatData where
  sectorsPerCluster : Nat
  fatType : FatType
  rootEntryCount : Nat
  rootSectorCount : Nat
  fsinfoSector : Nat
  clusterSize : Nat
  dataAreaBegin : Nat
  freeClusters : Nat
  nextFreeCluster : Nat
  totalSectorCount : Nat
  rootCluster : Nat
  deriving DecidableEq, Repr

namespace FatVolume

end FatVolume

namespace Kernel

/--
The checks of the signatures of FSINFO. The last one is shifted to the upper half of four bytes.
-/
def fsinfoSigned (fsinfo : Fsinfo) : Bool :=
  fsinfo.signature1 = 0x41615252 && fsinfo.signature2 = 0x61417272
    && fsinfo.signature3Wide = 0xAA550000

/--
The local variable `cluster_count` of `probe`. The other variables are unsigned as well.
-/
def probeClusterCount (bpb : Bpb) : Run Nat := do
  let sectorSize := bpb.bytesPerSector
  let rootSectorCount ← divide (u32 (bpb.rootEntryCount * 32 + sub32 sectorSize 1)) sectorSize
  let dataAreaBegin := u32 (bpb.reservedSectorCount + bpb.fatCount * bpb.fatSize)
  divide (sub32 (sub32 bpb.totalSectorCount dataAreaBegin) rootSectorCount) bpb.sectorsPerCluster

/--
`probe`, where `interface` is how the driver of the device fails to give its block interface, if it
does.
-/
def probe (c : BlockCache) (interface : Option Status) : Run (Except Status Unit × BlockCache) :=
  match interface with
  | some status => .ok ⟨.error status, c⟩
  | none =>
    match c.fetch 0 with
    | ⟨.error status, c⟩ => .ok ⟨.error status, c⟩
    | ⟨.ok _, c⟩ =>
      let bpb : Bpb := ⟨c.block 0⟩
      if !bpb.signed then
        .ok ⟨.error .invalidSignature, c.release 0 false⟩
      else do
        let clusterCount ← probeClusterCount bpb
        if clusterCount > fat16MaxCluster then
          match c.fetch bpb.fsinfoSector with
          | ⟨.error status, c⟩ => .ok ⟨.error status, c.release 0 false⟩
          | ⟨.ok _, c⟩ =>
            let released := (c.release bpb.fsinfoSector false).release 0 false
            if fsinfoSigned ⟨c.block bpb.fsinfoSector⟩ then
              .ok ⟨.ok (), released⟩
            else
              .ok ⟨.error .invalidSignature, released⟩
        else
          .ok ⟨.ok (), c.release 0 false⟩

/--
What `mount` finds out from the first sector, and its variable `cluster_count`. The number of
sectors of the root directory has 16 bits, and it is cleared for a FAT32 volume once the clusters
were counted. `mem` is what the fields had that are left as they are.
-/
def mountVolume (bpb : Bpb) (mem : FatVolume) : Run (FatVolume × Nat) := do
  let sectorSize := bpb.bytesPerSector
  let sectorsPerCluster := bpb.sectorsPerCluster
  let rootSectors ← divide (bpb.rootEntryCount * 32 + sectorSize - 1) sectorSize
  let rootSectorCount := rootSectors % 2 ^ 16
  let dataAreaBegin := u32 (bpb.reservedSectorCount + bpb.fatCount * bpb.fatSize)
  let clusterCount ←
    divide (sub32 (sub32 bpb.totalSectorCount dataAreaBegin) rootSectorCount) sectorsPerCluster
  let fatType := FatType.ofClusterCount clusterCount
  let isFat32 := decide (fatType = .fat32)
  let volume : FatVolume :=
    { fatCount := bpb.fatCount
      reservedSectors := bpb.reservedSectorCount
      sectorSize
      fatSize := bpb.fatSize
      sectorsPerCluster
      fatType
      rootEntryCount := bpb.rootEntryCount
      rootSectorCount := if isFat32 then 0 else rootSectorCount
      fsinfoSector := if isFat32 then bpb.fsinfoSector else mem.fsinfoSector
      clusterSize := sectorSize * sectorsPerCluster
      dataAreaBegin
      freeClusters := mem.freeClusters
      nextFreeCluster := mem.nextFreeCluster
      totalSectorCount := bpb.totalSectorCount
      rootCluster := if isFat32 then bpb.rootCluster else mem.rootCluster }
  .ok ⟨volume, clusterCount⟩

/--
`mount`. `create`, `allocate` and `interface` are how the calls before the first access to the device
fail, if they do, and `mem` is what the allocated memory had.
-/
def mount (c : BlockCache) (create allocate interface : Option Status) (mem : FatVolume)
    : Run (Except Status FatVolume × BlockCache) :=
  match create, allocate, interface with
  | some status, _, _ => .ok ⟨.error status, c⟩
  | none, some status, _ => .ok ⟨.error status, c⟩
  | none, none, some status => .ok ⟨.error status, c⟩
  | none, none, none =>
    match c.fetch 0 with
    | ⟨.error status, c⟩ => .ok ⟨.error status, c⟩
    | ⟨.ok _, c⟩ =>
      let bpb : Bpb := ⟨c.block 0⟩
      if !bpb.signed then
        .ok ⟨.error .invalidSignature, c.release 0 false⟩
      else do
        let ⟨volume, _⟩ ← mountVolume bpb mem
        if volume.fatType = .fat32 then
          match c.fetch volume.fsinfoSector with
          | ⟨.error status, c⟩ => .ok ⟨.error status, c.release 0 false⟩
          | ⟨.ok _, c⟩ =>
            let fsinfo : Fsinfo := ⟨c.block volume.fsinfoSector⟩
            let released := (c.release volume.fsinfoSector false).release 0 false
            if fsinfoSigned fsinfo then
              .ok ⟨.ok { volume with
                freeClusters := fsinfo.freeClusters
                nextFreeCluster := fsinfo.nextFreeCluster }, released⟩
            else
              .ok ⟨.error .invalidSignature, released⟩
        else
          .ok ⟨.ok volume, c.release 0 false⟩

end Kernel

end Emos
