import Emos.Basic
import Emos.Lib.Bytes
import Emos.Lib.Record

/-!
This module contains the checksum of `tools/mkfs.afs/crc32.c`, and `make_fs` of `tools/mkfs.afs/main.c`, which
writes the first blocks of a volume. Positions in the file are computed with 64 bits, as on the machine that the tool
runs on.
-/

open Lib

namespace Emos.Tools

def crcTable : Array (BitVec 32) := #[
  0x00000000, 0x77073096, 0xee0e612c, 0x990951ba, 0x076dc419, 0x706af48f, 0xe963a535, 0x9e6495a3,
  0x0edb8832, 0x79dcb8a4, 0xe0d5e91e, 0x97d2d988, 0x09b64c2b, 0x7eb17cbd, 0xe7b82d07, 0x90bf1d91,
  0x1db71064, 0x6ab020f2, 0xf3b97148, 0x84be41de, 0x1adad47d, 0x6ddde4eb, 0xf4d4b551, 0x83d385c7,
  0x136c9856, 0x646ba8c0, 0xfd62f97a, 0x8a65c9ec, 0x14015c4f, 0x63066cd9, 0xfa0f3d63, 0x8d080df5,
  0x3b6e20c8, 0x4c69105e, 0xd56041e4, 0xa2677172, 0x3c03e4d1, 0x4b04d447, 0xd20d85fd, 0xa50ab56b,
  0x35b5a8fa, 0x42b2986c, 0xdbbbc9d6, 0xacbcf940, 0x32d86ce3, 0x45df5c75, 0xdcd60dcf, 0xabd13d59,
  0x26d930ac, 0x51de003a, 0xc8d75180, 0xbfd06116, 0x21b4f4b5, 0x56b3c423, 0xcfba9599, 0xb8bda50f,
  0x2802b89e, 0x5f058808, 0xc60cd9b2, 0xb10be924, 0x2f6f7c87, 0x58684c11, 0xc1611dab, 0xb6662d3d,
  0x76dc4190, 0x01db7106, 0x98d220bc, 0xefd5102a, 0x71b18589, 0x06b6b51f, 0x9fbfe4a5, 0xe8b8d433,
  0x7807c9a2, 0x0f00f934, 0x9609a88e, 0xe10e9818, 0x7f6a0dbb, 0x086d3d2d, 0x91646c97, 0xe6635c01,
  0x6b6b51f4, 0x1c6c6162, 0x856530d8, 0xf262004e, 0x6c0695ed, 0x1b01a57b, 0x8208f4c1, 0xf50fc457,
  0x65b0d9c6, 0x12b7e950, 0x8bbeb8ea, 0xfcb9887c, 0x62dd1ddf, 0x15da2d49, 0x8cd37cf3, 0xfbd44c65,
  0x4db26158, 0x3ab551ce, 0xa3bc0074, 0xd4bb30e2, 0x4adfa541, 0x3dd895d7, 0xa4d1c46d, 0xd3d6f4fb,
  0x4369e96a, 0x346ed9fc, 0xad678846, 0xda60b8d0, 0x44042d73, 0x33031de5, 0xaa0a4c5f, 0xdd0d7cc9,
  0x5005713c, 0x270241aa, 0xbe0b1010, 0xc90c2086, 0x5768b525, 0x206f85b3, 0xb966d409, 0xce61e49f,
  0x5edef90e, 0x29d9c998, 0xb0d09822, 0xc7d7a8b4, 0x59b33d17, 0x2eb40d81, 0xb7bd5c3b, 0xc0ba6cad,
  0xedb88320, 0x9abfb3b6, 0x03b6e20c, 0x74b1d29a, 0xead54739, 0x9dd277af, 0x04db2615, 0x73dc1683,
  0xe3630b12, 0x94643b84, 0x0d6d6a3e, 0x7a6a5aa8, 0xe40ecf0b, 0x9309ff9d, 0x0a00ae27, 0x7d079eb1,
  0xf00f9344, 0x8708a3d2, 0x1e01f268, 0x6906c2fe, 0xf762575d, 0x806567cb, 0x196c3671, 0x6e6b06e7,
  0xfed41b76, 0x89d32be0, 0x10da7a5a, 0x67dd4acc, 0xf9b9df6f, 0x8ebeeff9, 0x17b7be43, 0x60b08ed5,
  0xd6d6a3e8, 0xa1d1937e, 0x38d8c2c4, 0x4fdff252, 0xd1bb67f1, 0xa6bc5767, 0x3fb506dd, 0x48b2364b,
  0xd80d2bda, 0xaf0a1b4c, 0x36034af6, 0x41047a60, 0xdf60efc3, 0xa867df55, 0x316e8eef, 0x4669be79,
  0xcb61b38c, 0xbc66831a, 0x256fd2a0, 0x5268e236, 0xcc0c7795, 0xbb0b4703, 0x220216b9, 0x5505262f,
  0xc5ba3bbe, 0xb2bd0b28, 0x2bb45a92, 0x5cb36a04, 0xc2d7ffa7, 0xb5d0cf31, 0x2cd99e8b, 0x5bdeae1d,
  0x9b64c2b0, 0xec63f226, 0x756aa39c, 0x026d930a, 0x9c0906a9, 0xeb0e363f, 0x72076785, 0x05005713,
  0x95bf4a82, 0xe2b87a14, 0x7bb12bae, 0x0cb61b38, 0x92d28e9b, 0xe5d5be0d, 0x7cdcefb7, 0x0bdbdf21,
  0x86d3d2d4, 0xf1d4e242, 0x68ddb3f8, 0x1fda836e, 0x81be16cd, 0xf6b9265b, 0x6fb077e1, 0x18b74777,
  0x88085ae6, 0xff0f6a70, 0x66063bca, 0x11010b5c, 0x8f659eff, 0xf862ae69, 0x616bffd3, 0x166ccf45,
  0xa00ae278, 0xd70dd2ee, 0x4e048354, 0x3903b3c2, 0xa7672661, 0xd06016f7, 0x4969474d, 0x3e6e77db,
  0xaed16a4a, 0xd9d65adc, 0x40df0b66, 0x37d83bf0, 0xa9bcae53, 0xdebb9ec5, 0x47b2cf7f, 0x30b5ffe9,
  0xbdbdf21c, 0xcabac28a, 0x53b39330, 0x24b4a3a6, 0xbad03605, 0xcdd70693, 0x54de5729, 0x23d967bf,
  0xb3667a2e, 0xc4614ab8, 0x5d681b02, 0x2a6f2b94, 0xb40bbe37, 0xc30c8ea1, 0x5a05df1b, 0x2d02ef8d]

/--
The two loops of `crc32`, which take one byte after the other.
-/
def crc32.go (buffer : Bytes) : Nat → Nat → BitVec 32 → BitVec 32
  | 0, _, crc => crc
  | len + 1, i, crc =>
    go buffer len (i + 1) (crcTable[((crc ^^^ (buffer i).setWidth 32) &&& 0xFF).toNat]! ^^^ (crc >>> 8))

def crc32 (buffer : Bytes) (len : Nat) : BitVec 32 :=
  crc32.go buffer len 0 (0 ^^^ 0xFFFFFFFF) ^^^ 0xFFFFFFFF

end Emos.Tools

namespace Emos.Tools.MkfsAfs

def u64 (n : Nat) : Nat := n % 2 ^ 64

/--
The arguments of `make_fs`, the flag `dry_run`, the two files, and what `time` returns in its three
calls.
-/
structure FormatInput where
  /-- what is in the file of the volume, and its length as an `off_t` -/
  image : Bytes
  fileLen : Nat
  fileLen_lt : fileLen < 2 ^ 63
  /-- the file with the boot code if there is one, and what is in it if it can be opened -/
  bootCodeFile : Option (Option (List (BitVec 8)))
  osName : CString
  label : Option CString
  offset : UInt64
  rdbCount : UInt8
  sectorsPerBlock : UInt8
  reservedSectors : UInt16
  uuid : Fin 16 → BitVec 8
  times : UInt64 × UInt64 × UInt64
  dryRun : Bool

namespace FormatInput

variable (c : FormatInput)

def bytesPerSector : Nat := 512

def totalSectorCount : Nat := c.fileLen / bytesPerSector

/--
The difference is a `uint64_t`, which wraps around if the file is smaller than the reserved sectors.
-/
def totalBlockCount : Nat :=
  u64 (c.totalSectorCount + 2 ^ 64 - c.reservedSectors.toNat) / c.sectorsPerBlock.toNat

def bytesPerBlock : Nat := bytesPerSector * c.sectorsPerBlock.toNat

def blocksPerBlockGroup : Nat := u32 (c.bytesPerBlock * 8 + 2 ^ 32 - 32)

def totalBlockGroupCount : Nat := c.totalBlockCount / c.blocksPerBlockGroup

def rbbCount : Nat := u64 (c.totalBlockGroupCount + c.blocksPerBlockGroup - 1) / c.blocksPerBlockGroup

end FormatInput

def putBytes (m : Bytes) (p : Nat) : List (BitVec 8) → Bytes
  | [] => m
  | b :: bs => putBytes (Function.update m p b) (p + 1) bs

inductive BlockKind where
  | bootCode
  | firstSector
  | rdb
  | rbb
  | gbb
  | rootMdb
  | rootDhb
  deriving DecidableEq, Repr

/--
A call of `afs_fwrite`: where in the file, and which bytes.
-/
structure Write where
  kind : BlockKind
  position : Nat
  bytes : Bytes
  length : Nat

/--
The stores of the loop that sets the bits from `i` up to `limit` byte by byte: the index of each byte
and its value. `fuel` bounds the rounds.
-/
def bitmapStores (limit : Nat) : Nat → Nat → List (Nat × BitVec 8)
  | 0, _ => []
  | fuel + 1, i =>
    if i < limit then
      let left := limit - i
      let mask := (if left < 8 then (1 <<< left) - 1 else 0xFF) &&& (0xFF <<< (i % 8))
      (i / 8, BitVec.ofNat 8 mask) :: bitmapStores limit fuel (i / 8 * 8 + 8)
    else
      []

def storeBytes (size : Nat) (buf : Bytes) : List (Nat × BitVec 8) → Run Bytes
  | [] => .ok buf
  | ⟨i, b⟩ :: rest =>
    if size ≤ i then .error .access else storeBytes size (Function.update buf i b) rest

namespace FormatInput

variable (c : FormatInput)

/--
The last bytes of a block are the checksum of the others.
-/
def addChecksum (buf : Bytes) : Bytes :=
  buf.write (c.bytesPerBlock - 4) 4 (crc32 buf (c.bytesPerBlock - 4)).toNat

/--
The position of a block whose index is a `uint32_t`.
-/
def position32 (index : Nat) : Nat :=
  u32 (bytesPerSector * c.reservedSectors.toNat + u32 (c.bytesPerBlock * index))

/--
The position of a block whose index is a `uint64_t`.
-/
def position64 (index : Nat) : Nat :=
  u64 (bytesPerSector * c.reservedSectors.toNat + u64 (c.bytesPerBlock * index))

def firstSector : Bytes :=
  let boot := match c.bootCodeFile with
    | some (some code) => putBytes c.image 0 code
    | _ => c.image
  let buf := boot.write 496 8 c.offset.toNat
  let buf := putBytes buf 504 [0x41, 0x46, 0x53, 0x00]
  let buf := buf.write 508 2 c.reservedSectors.toNat
  buf.write 510 2 0xAA55

def rootMdbPointer : Nat := u64 (c.rdbCount.toNat + c.rbbCount + 1)

def rbbPointer : Nat := 1

def group0GbbPointer : Nat := u64 (c.rdbCount.toNat + c.rbbCount)

def rdb : Bytes :=
  let buf := Bytes.write (fun _ => 0) 0 8 c.totalSectorCount
  let buf := buf.write 8 8 c.totalBlockCount
  let buf := buf.write 16 1 c.sectorsPerBlock.toNat
  let buf := buf.write 17 1 c.rdbCount.toNat
  let buf := buf.write 18 2 bytesPerSector
  let buf := buf.write 20 4 0
  let buf := buf.write 24 8 c.rootMdbPointer
  let buf := buf.write 32 8 0
  let buf := buf.write 40 8 0
  let buf := buf.write 48 8 rbbPointer
  let buf := buf.write 56 8 c.group0GbbPointer
  let buf := putBytes buf 64 (List.ofFn c.uuid)
  let buf := putBytes buf 80 (c.osName.bytes.take 16)
  let buf := buf.write 96 2 0x0001
  c.addChecksum buf

def rbbStores : List (Nat × BitVec 8) := bitmapStores c.totalBlockGroupCount c.totalBlockGroupCount 1

def rbb : Run Bytes := do
  let buf ← storeBytes c.bytesPerBlock (fun _ => 0) c.rbbStores
  .ok (c.addChecksum buf)

/--
The first block that the bitmap of group 0 says to be free.
-/
def firstFree : Nat := u64 (c.rdbCount.toNat + 2 + c.rbbCount)

def gbbStores : List (Nat × BitVec 8) :=
  bitmapStores c.blocksPerBlockGroup c.blocksPerBlockGroup c.firstFree

def gbb : Run Bytes := do
  let buf ← storeBytes c.bytesPerBlock (fun _ => 0) c.gbbStores
  .ok (c.addChecksum buf)

def dhbDdbPointer : Nat := u64 (c.rdbCount.toNat + c.rbbCount + 2)

/--
The entry with the label of the volume, at `p`.
-/
def putFae (buf : Bytes) (p : Nat) (label : CString) : Bytes :=
  let name := label.bytes.take 255
  let buf := buf.write p 4 272
  let buf := buf.write (p + 4) 1 1
  let buf := buf.write (p + 16) 1 name.length
  let buf := buf.write (p + 8) 4 (crc32 (putBytes (fun _ => 0) 0 name) name.length).toNat
  putBytes buf (p + 17) name

/--
The entry with the times, at `p`.
-/
def putTae (buf : Bytes) (p : Nat) : Bytes :=
  let buf := buf.write p 4 32
  let buf := buf.write (p + 4) 1 2
  let buf := buf.write (p + 8) 8 c.times.1.toNat
  let buf := buf.write (p + 16) 8 c.times.2.1.toNat
  buf.write (p + 24) 8 c.times.2.2.toNat

def rootMdb : Bytes :=
  let buf := Bytes.write (fun _ => 0) 0 8 0
  let buf := buf.write 8 8 0
  let buf := buf.write 16 4 1
  let buf := buf.write 20 4 ((if c.label.isSome then 1 <<< 0 else 0) ||| 1 <<< 1)
  let buf := buf.write 24 8 0
  let buf := buf.write 32 8 c.dhbDdbPointer
  match c.label with
  | none => c.addChecksum (c.putTae buf 48)
  | some label => c.addChecksum (c.putTae (putFae buf 48 label) (48 + 272))

def rootDhb : Bytes := c.addChecksum (fun _ => 0)

def blockWrite (kind : BlockKind) (position : Nat) (bytes : Bytes) : Write :=
  ⟨kind, position, bytes, c.bytesPerBlock⟩

/--
The calls of `afs_fwrite`, where `rbb` and `gbb` are the blocks with the bitmaps.
-/
def writeList (rbb gbb : Bytes) : List Write :=
  (match c.bootCodeFile with
    | some (some code) => [⟨.bootCode, 0, putBytes (fun _ => 0) 0 code, code.length⟩]
    | _ => [])
  ++ [⟨.firstSector, 0, c.firstSector, 512⟩]
  ++ (List.range c.rdbCount.toNat).map (fun i => c.blockWrite .rdb (c.position32 i) c.rdb)
  ++ [c.blockWrite .rbb (c.position32 c.rdbCount.toNat) rbb,
    c.blockWrite .gbb (c.position64 (c.rdbCount.toNat + c.rbbCount)) gbb,
    c.blockWrite .rootMdb (c.position64 (c.rdbCount.toNat + 1 + c.rbbCount)) c.rootMdb,
    c.blockWrite .rootDhb (c.position64 (c.rdbCount.toNat + 2 + c.rbbCount)) c.rootDhb]

/--
The file sizes that are accepted.
-/
def Fits : Prop :=
  c.fileLen % bytesPerSector = 0 ∧ c.totalBlockCount ≠ 0 ∧ c.bytesPerBlock ≠ 0
    ∧ c.blocksPerBlockGroup ≠ 0 ∧ c.totalBlockGroupCount ≠ 0 ∧ c.rbbCount ≠ 0

instance : Decidable c.Fits := by
  unfold Fits
  infer_instance

/--
Whether the boot code can be read and fits into the reserved sectors.
-/
def bootCodeFits : Bool :=
  match c.bootCodeFile with
  | none => true
  | some none => false
  | some (some code) => code.length ≤ c.reservedSectors.toNat * bytesPerSector

end FormatInput

/--
What is written to the file, nothing if the arguments are not accepted.
-/
def makeFs (c : FormatInput) : Run (Option (List Write)) :=
  if c.fileLen % FormatInput.bytesPerSector ≠ 0 then
    .ok none
  else if c.sectorsPerBlock = 0 then
    .error .divide
  else if ¬ c.Fits ∨ c.bootCodeFits = false then
    .ok none
  else do
    let rbb ← c.rbb
    let gbb ← c.gbb
    .ok (some (if c.dryRun then [] else c.writeList rbb gbb))

end Emos.Tools.MkfsAfs
