import Emos.Boot.Fat.Impl.Mount

/-!
This module contains the boot loader's AFS driver: how a volume is mounted, and the buffer it keeps of
one block.
-/

open Lib

namespace Emos.Boot

/--
`struct afs_first_sector`.
-/
structure AfsFirstSector where
  sector : Bytes

namespace AfsFirstSector

variable (lba0 : AfsFirstSector)

def filesystemSignature : Nat := Bytes.read lba0.sector 504 4
def reservedSectors : Nat := Bytes.read lba0.sector 508 2
def vbrSignature : Nat := Bytes.read lba0.sector 510 2

/--
`"AFS\0"` as a number.
-/
def signed : Bool := lba0.vbrSignature = 0xAA55 && lba0.filesystemSignature = 0x00534641

end AfsFirstSector

/--
`struct afs_rdb`.
-/
structure AfsRdb where
  bytes : Bytes

namespace AfsRdb

variable (rdb : AfsRdb)

def sectorsPerBlock : Nat := Bytes.read rdb.bytes 16 1
def bytesPerSector : Nat := Bytes.read rdb.bytes 18 2
def rootMdbPointer : Nat := Bytes.read rdb.bytes 24 8
def udbPointer : Nat := Bytes.read rdb.bytes 32 8
def jbbPointer : Nat := Bytes.read rdb.bytes 40 8
def rbbPointer : Nat := Bytes.read rdb.bytes 48 8
def group0GbbPointer : Nat := Bytes.read rdb.bytes 56 8

/--
Where the last of the pointers ends.
-/
def pointersEnd : Nat := 64

end AfsRdb

/--
`struct afs_data`, and how often the device was read. There is no `blkbuf` if `malloc` did not return
one.
-/
structure AfsData where
  blkdev : BlockDevice
  readCount : Nat
  reservedSectors : Nat
  sectorsPerBlock : Nat
  sectorSize : Nat
  blockSize : Nat
  udbPointer : Nat
  jbbPointer : Nat
  rbbPointer : Nat
  group0GbbPointer : Nat
  rootMdbPointer : Nat
  blkbufNum : BitVec 64
  blkbuf : Option Bytes

namespace AfsData

/--
Addresses of sectors have 64 bits.
-/
def blockToSector (d : AfsData) (block : BitVec 64) : BitVec 64 :=
  .ofNat 64 d.reservedSectors + block * .ofNat 64 d.sectorsPerBlock

/--
`blkif->read` of the sectors of one block into `blkbuf`.
-/
def readSectors (d : AfsData) (lba : BitVec 64) : Run (Except Status Unit × AfsData) :=
  let len := d.sectorsPerBlock * fatSectorSize
  match d.blkbuf with
  | none => .error .access
  | some buf =>
    if d.blockSize < len then
      .error .access
    else
      match d.blkdev.fails d.readCount with
      | some ⟨status, junk⟩ =>
        .ok ⟨.error status, { d with readCount := d.readCount + 1, blkbuf := some (overwrite buf junk len) }⟩
      | none =>
        .ok ⟨.ok (), { d with
          readCount := d.readCount + 1
          blkbuf := some (overwrite buf (d.blkdev.bytesFrom lba.toNat) len) }⟩

def readBlock (d : AfsData) (block : BitVec 64) : Run (Except Status Unit × AfsData) :=
  let lba := d.blockToSector block
  if d.blkbufNum = lba then
    .ok ⟨.ok (), d⟩
  else do
    match ← d.readSectors lba with
    | ⟨.error status, d⟩ => .ok ⟨.error status, d⟩
    | ⟨.ok _, d⟩ => .ok ⟨.ok (), { d with blkbufNum := block }⟩

/--
What is read through `rdbp` once the first block was read.
-/
def setPointers (d : AfsData) : Run AfsData :=
  match d.blkbuf with
  | none => .error .access
  | some buf =>
    if d.blockSize < AfsRdb.pointersEnd then
      .error .access
    else
      let rdb : AfsRdb := ⟨buf⟩
      .ok { d with
        udbPointer := rdb.udbPointer
        jbbPointer := rdb.jbbPointer
        rbbPointer := rdb.rbbPointer
        group0GbbPointer := rdb.group0GbbPointer
        rootMdbPointer := rdb.rootMdbPointer }

end AfsData

/--
`mount`. Next to the device, its result depends on whether the file system object is created, on whether
`malloc` returns memory for `struct afs_data`, and on what it returns for the buffer.
-/
def afsMount (dev : BlockDevice) (blockSize : Except Status Nat) (create : Option Status) (hasData : Bool)
    (blkbuf : Option Bytes)
    : Run (Except Status AfsData) :=
  match blockSize with
  | .error status => .ok (.error status)
  | .ok blockSize =>
    if blockSize ≠ 512 then
      .ok (.error .sizeCheckFailure)
    else
      match create with
      | some status => .ok (.error status)
      | none =>
        if !hasData then
          .ok (.error .unknownError)
        else
          match dev.readBlock 0 0 with
          | .error status => .ok (.error status)
          | .ok sector =>
            let lba0 : AfsFirstSector := ⟨sector⟩
            if !lba0.signed then
              .ok (.error .invalidSignature)
            else
              match dev.readBlock 1 lba0.reservedSectors with
              | .error status => .ok (.error status)
              | .ok sector => do
                let rdb : AfsRdb := ⟨sector⟩
                let data : AfsData :=
                  { blkdev := dev
                    readCount := 2
                    reservedSectors := lba0.reservedSectors
                    sectorsPerBlock := rdb.sectorsPerBlock
                    sectorSize := rdb.bytesPerSector
                    blockSize := rdb.bytesPerSector * rdb.sectorsPerBlock
                    udbPointer := 0
                    jbbPointer := 0
                    rbbPointer := 0
                    group0GbbPointer := 0
                    rootMdbPointer := 0
                    blkbufNum := -1
                    blkbuf }
                match ← data.readBlock 0 with
                | ⟨.error status, _⟩ => .ok (.error status)
                | ⟨.ok _, data⟩ => do .ok (.ok (← data.setPointers))

end Emos.Boot
