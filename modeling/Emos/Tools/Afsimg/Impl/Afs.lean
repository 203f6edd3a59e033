import Emos.Tools.MkfsAfs.Impl.Main

/-!
This module contains how `afsimg` opens a volume and reads blocks from it, and the checksum of
`tools/afsimg/crc32.c` as it is without `CRC32_FAST`.
-/

open Lib

namespace Emos.Tools.Afsimg

/--
The inner loop, which takes one bit after the other.
-/
def crc32Bits : Nat → BitVec 32 → BitVec 32
  | 0, crc => crc
  | j + 1, crc =>
    let mask := -(crc &&& 1)
    crc32Bits j ((crc >>> 1) ^^^ (0xEDB88320 &&& mask))

def crc32.go (message : Bytes) : Nat → Nat → BitVec 32 → BitVec 32
  | 0, _, crc => crc
  | len + 1, i, crc => go message len (i + 1) (crc32Bits 8 (crc ^^^ (message i).setWidth 32))

def crc32 (message : Bytes) (len : Nat) : BitVec 32 := ~~~(crc32.go message len 0 0xFFFFFFFF)

/--
The file of an image.
-/
structure Image where
  bytes : Bytes
  len : Nat

/--
`fread` of `count` sectors over `buf`, which tells how many of them were there.
-/
def Image.read (image : Image) (buf : Bytes) (lba count : Nat) : Nat × Bytes :=
  if count < 1 then
    (0, buf)
  else
    (min count ((image.len - lba * 512) / 512), fun i =>
      if i < count * 512 ∧ lba * 512 + i < image.len then image.bytes (lba * 512 + i) else buf i)

/--
`Afs`. There is no field for the version of the file system, which is not set.
-/
structure Afs where
  offset : Nat
  reservedSectors : Nat
  totalSectorCount : Nat
  totalBlockCount : Nat
  sectorsPerBlock : Nat
  rdbCopyCount : Nat
  bytesPerSector : Nat
  flags : Nat
  rootMdbPointer : Nat
  udbPointer : Nat
  jbbPointer : Nat
  rbbPointer : Nat
  group0GbbPointer : Nat
  volumeUuid : List (BitVec 8)
  formattedOs : List (BitVec 8)
  bytesPerBlock : Nat
  deriving DecidableEq, Repr

/--
Whether `readBlock` is content with the checksum at the end of a block.
-/
def checksumMatches (bytesPerBlock : Nat) (buf : Bytes) : Bool :=
  (Tools.crc32 buf (bytesPerBlock - 4)).toNat = buf.read (bytesPerBlock - 4) 4

/--
What `readBlock` returns, copies and complains about. It reads the same block in each round.
-/
structure ReadResult where
  readCount : Nat
  blocks : List Bytes
  crcErrors : Nat

/--
`readBlock`. The sectors of a block are read into memory of `bytes_per_block` bytes.
-/
def Afs.readBlock (afs : Afs) (image : Image) (blk : Nat) (checkCrc : Bool) : Nat → ReadResult → Run ReadResult
  | 0, r => .ok r
  | n + 1, r =>
    let lba := afs.offset + afs.reservedSectors + blk * afs.sectorsPerBlock
    if afs.bytesPerBlock < min (afs.sectorsPerBlock * 512) (image.len - lba * 512) then
      .error .access
    else
      let ⟨count, buf⟩ := image.read (fun _ => 0) lba afs.sectorsPerBlock
      if count ≠ afs.sectorsPerBlock then
        .ok r
      else if checkCrc ∧ afs.bytesPerBlock < 4 then
        .error .access
      else
        let crcErrors :=
          if checkCrc ∧ checksumMatches afs.bytesPerBlock buf = false then r.crcErrors + 1 else r.crcErrors
        afs.readBlock image blk checkCrc n ⟨r.readCount + 1, r.blocks ++ [buf], crcErrors⟩

/--
The bytes of an array in a structure.
-/
def bytesFrom (buf : Bytes) (p n : Nat) : List (BitVec 8) := (List.range n).map fun i => buf (p + i)

/--
The constructor, with what it complains about. It exits where a signature is not right.
-/
def Afs.open (image : Image) (offset : Nat) : Run (Option (Afs × Nat)) :=
  let ⟨_, firstSector⟩ := image.read (fun _ => 0) offset 1
  if bytesFrom firstSector 504 4 ≠ [0x41, 0x46, 0x53, 0x00] then
    .ok none
  else if firstSector.read 510 2 ≠ 0xAA55 then
    .ok none
  else do
    let reservedSectors := firstSector.read 508 2
    let ⟨_, rdb⟩ := image.read firstSector (offset + reservedSectors) 1
    let bytesPerSector := rdb.read 18 2
    let sectorsPerBlock := rdb.read 16 1
    let bytesPerBlock := bytesPerSector * sectorsPerBlock % 2 ^ 16
    let afs : Afs := ⟨offset, reservedSectors, 0, 0, sectorsPerBlock, 0, bytesPerSector, 0, 0, 0, 0, 0, 0, [], [],
      bytesPerBlock⟩
    let r ← afs.readBlock image 0 true 1 ⟨0, [], 0⟩
    let rdb := r.blocks.headD fun _ => 0
    if bytesPerBlock < 96 then
      .error .access
    else
      .ok (some ({ afs with
        totalSectorCount := rdb.read 0 8
        totalBlockCount := rdb.read 8 8
        rdbCopyCount := rdb.read 17 1
        flags := rdb.read 20 4
        rootMdbPointer := rdb.read 24 8
        udbPointer := rdb.read 32 8
        jbbPointer := rdb.read 40 8
        rbbPointer := rdb.read 48 8
        group0GbbPointer := rdb.read 56 8
        volumeUuid := bytesFrom rdb 64 16
        formattedOs := bytesFrom rdb 80 16
      }, r.crcErrors))

end Emos.Tools.Afsimg
