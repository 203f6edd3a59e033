import Emos.Boot.Fat.Impl.Fat
import Emos.Fat.Basic

/-!
This module contains how the boot loader's FAT driver recognises and mounts a volume.
-/

open Lib

namespace Emos.Boot

/--
What the call number `k` of the device's `read` gives for one block.
-/
def BlockDevice.readBlock (dev : BlockDevice) (k lba : Nat) : Except Status Bytes :=
  match dev.fails k with
  | some ⟨status, _⟩ => .error status
  | none => .ok (dev.block lba)

/--
The checks of the signatures of FSINFO, which only `probe` makes.
-/
def fsinfoSigned (fsinfo : Fsinfo) : Bool :=
  fsinfo.signature1 = 0x41615252 && fsinfo.signature2 = 0x61417272 && fsinfo.signature3 = 0xAA55

/--
The local variable `cluster_count` of `probe`. The other variables are unsigned as well.
-/
def probeClusterCount (bpb : Bpb) : Run Nat := do
  let sectorSize := bpb.bytesPerSector
  let rootSectorCount ← divide (u32 (bpb.rootEntryCount * 32 + sub32 sectorSize 1)) sectorSize
  let dataAreaBegin := u32 (bpb.reservedSectorCount + bpb.fatCount * bpb.fatSize)
  divide (sub32 (sub32 bpb.totalSectorCount dataAreaBegin) rootSectorCount) bpb.sectorsPerCluster

/--
`probe`, where `blockSize` is what the device says about its blocks.
-/
def probe (dev : BlockDevice) (blockSize : Except Status Nat) : Run Status :=
  match blockSize with
  | .error status => .ok status
  | .ok blockSize =>
    if blockSize ≠ 512 then
      .ok .sizeCheckFailure
    else
      match dev.readBlock 0 0 with
      | .error status => .ok status
      | .ok sector =>
        let bpb : Bpb := ⟨sector⟩
        if !bpb.signed then
          .ok .invalidSignature
        else do
          let clusterCount ← probeClusterCount bpb
          if clusterCount > fat16MaxCluster then
            match dev.readBlock 1 bpb.fsinfoSector with
            | .error status => .ok status
            | .ok sector =>
              if fsinfoSigned ⟨sector⟩ then .ok .success else .ok .invalidSignature
          else
            .ok .success

/--
What `mount` finds out from the first sector, and its variable `cluster_count`. The field of the root
cluster keeps what it had unless the volume is a FAT32 one, and the number of sectors of the root
directory has 16 bits.
-/
def mountGeometry (bpb : Bpb) (rootCluster : Nat) : Run (FatGeometry × Nat) := do
  let sectorSize := bpb.bytesPerSector
  let sectorsPerCluster := bpb.sectorsPerCluster
  let clusterSize := sectorSize * sectorsPerCluster
  let rootSectors ← divide (bpb.rootEntryCount * 32 + sectorSize - 1) sectorSize
  let rootSectorCount := rootSectors % 2 ^ 16
  let dataAreaBegin := u32 (bpb.reservedSectorCount + bpb.fatCount * bpb.fatSize)
  let dataSectors := sub32 (sub32 bpb.totalSectorCount dataAreaBegin) rootSectorCount
  let clusterCount ← divide dataSectors sectorsPerCluster
  let fatType := FatType.ofClusterCount clusterCount
  let geometry : FatGeometry :=
    { reservedSectors := bpb.reservedSectorCount
      sectorSize
      clusterSize
      sectorsPerCluster
      fatType
      dataAreaBegin
      rootCluster := if fatType = .fat32 then bpb.rootCluster else rootCluster
      rootSectorCount }
  .ok ⟨geometry, clusterCount⟩

/--
What `malloc` returned for `struct fat_data`. Only the fields that `mount` leaves as they are
matter.
-/
structure FatMemory where
  rootCluster : Nat
  fatbufLba : Int
  fatbuf : Bytes

/--
`mount`. Next to the device, its result depends on whether the file system object is created and on
what `malloc` returns, first for `struct fat_data` and then for the data buffer.
-/
def mount (dev : BlockDevice) (blockSize : Except Status Nat) (create : Option Status)
    (data : Option FatMemory) (databuf : Option Bytes)
    : Run (Except Status FatData) :=
  match blockSize with
  | .error status => .ok (.error status)
  | .ok blockSize =>
    if blockSize ≠ 512 then
      .ok (.error .sizeCheckFailure)
    else
      match create, data with
      | some status, _ => .ok (.error status)
      | none, none => .ok (.error .unknownError)
      | none, some data =>
        match dev.readBlock 0 0 with
        | .error status => .ok (.error status)
        | .ok sector =>
          let bpb : Bpb := ⟨sector⟩
          if !bpb.signed then
            .ok (.error .invalidSignature)
          else do
            let ⟨geometry, _⟩ ← mountGeometry bpb data.rootCluster
            match databuf with
            | none => .ok (.error .unknownError)
            | some databuf =>
              let mounted (readCount : Nat) : FatData :=
                { blkdev := dev
                  geometry
                  readCount
                  fatbufLba := data.fatbufLba
                  fatbuf := data.fatbuf
                  databufLbaStart := -1
                  databuf }
              if geometry.fatType = .fat32 then
                match dev.readBlock 1 bpb.fsinfoSector with
                | .error status => .ok (.error status)
                | .ok _ => .ok (.ok (mounted 2))
              else
                .ok (.ok (mounted 1))

end Emos.Boot
