import Emos.Basic
import Emos.Lib.Bytes

/-!
This module contains the driver of the boot loader that makes a device of a partition, by passing requests on to
the device with all partitions, and the scans for the partitions of a disk with a master boot record and of one
with a GUID partition table. The partitions are devices, of which only the sectors they are made of are of interest
here.
-/

namespace Emos.Boot.Part

inductive ResourceType where
  | ioport
  | memory
  | irq
  | dma
  | bus
  | lba
  deriving DecidableEq, Repr

structure Resource where
  type : ResourceType
  base : UInt64
  limit : UInt64

/--
`lba_t` is a signed type of 64 bits.
-/
def IsLba (n : Int) : Prop := -2 ^ 63 ≤ n ∧ n < 2 ^ 63

instance (n : Int) : Decidable (IsLba n) := by
  unfold IsLba
  infer_instance

/--
The result of arithmetic with `lba_t`, which is undefined if it overflows.
-/
def lba? (n : Int) : Option Int := if IsLba n then some n else none

structure PartData where
  partBase : Int
  partLimit : Int
  deriving DecidableEq, Repr

/--
What `probe` stores if the parent has a block interface and memory can be allocated.
-/
def probe (rsrc : List Resource) : Except Status PartData :=
  match rsrc with
  | [r] =>
    if r.type ≠ .lba ∨ r.base > r.limit then
      .error .invalidResource
    else
      .ok { partBase := r.base.toBitVec.toInt, partLimit := r.limit.toBitVec.toInt }
  | _ => .error .invalidResource

/--
What the driver returns, and the sectors that it asks its parent for: the first one and their number.
-/
structure PartResult where
  status : Status
  passed : Option (Int × Nat)
  deriving DecidableEq, Repr

variable (data : PartData)

/--
The common body of `read` and `write`, where `blkif` is what the parent returns for a request.
-/
def transfer (blkif : Int → Nat → Status) (lba : Int) (count : Nat) : Option PartResult := do
  if lba > data.partLimit then
    return { status := .invalidValue, passed := none }
  let start ← lba? (data.partBase + lba)
  let last ← lba? (start + count)
  let count ←
    if last > data.partLimit then do
      let excess ← lba? (last - data.partLimit)
      let rest ← lba? (count - excess)
      pure (rest % 2 ^ 32).toNat
    else
      pure count
  if count < 1 then
    return { status := .success, passed := none }
  return { status := blkif start count, passed := some ⟨start, count⟩ }

def read (blkif : Int → Nat → Status) (lba : Int) (count : Nat) : Option PartResult :=
  transfer data blkif lba count

def write (blkif : Int → Nat → Status) (lba : Int) (count : Nat) : Option PartResult :=
  transfer data blkif lba count

end Emos.Boot.Part

open Lib

namespace Emos.Boot.Part

/--
A disk with sectors of 512 bytes, each of which can be read or not. A read that fails may leave
anything in the buffer.
-/
structure Disk where
  sectorCount : Nat
  read : Int → Except (Status × Bytes) Bytes
  sectorCount_le : sectorCount ≤ 2 ^ 63
  read_outside : ∀ lba : Int, lba < 0 ∨ sectorCount ≤ lba → ∃ e, read lba = .error e

/--
The value of an expression of type `lba_t`, which wraps around.
-/
def toLba (n : Int) : Int := n.bmod (2 ^ 64)

def toUInt64 (n : Int) : UInt64 := .ofNat (n % 2 ^ 64).toNat

def mbrSignature : Nat := 0xAA55

def mbrPartTypeGpt : BitVec 8 := 0xEE

def mbrPartTypeExtended : BitVec 8 := 0x05

/--
The fields of `struct mbr_partition_entry` that are read.
-/
structure MbrPartitionEntry where
  type : BitVec 8
  baseLba : BitVec 32
  sectorCount : BitVec 32
  deriving DecidableEq, Repr

namespace MbrPartitionEntry

def get (m : Bytes) (p : Nat) : MbrPartitionEntry where
  type := .ofNat 8 (m.read (p + 4) 1)
  baseLba := .ofNat 32 (m.read (p + 8) 4)
  sectorCount := .ofNat 32 (m.read (p + 12) 4)

def resource (e : MbrPartitionEntry) (base : Int) : Resource where
  type := .lba
  base := toUInt64 (toLba (base + e.baseLba.toNat))
  limit := toUInt64 (toLba (base + e.baseLba.toNat + e.sectorCount.toNat - 1))

end MbrPartitionEntry

/--
The four entries of the record in a sector, if there is one.
-/
def Disk.partitionEntries (disk : Disk) (base : Int) : Except Status (List MbrPartitionEntry) :=
  match disk.read base with
  | .error ⟨status, _⟩ => .error status
  | .ok buf =>
    if buf.read 510 2 ≠ mbrSignature then
      .error .invalidSignature
    else if (MbrPartitionEntry.get buf 446).type = mbrPartTypeGpt then
      .error .invalidValue
    else
      .ok [.get buf 446, .get buf 462, .get buf 478, .get buf 494]

/--
What a scan returns, and the partitions that it has registered.
-/
structure Scan where
  result : Except Status Unit
  partitions : List PartData

/--
The loop over the entries, where `inner` is the scan of another sector.
-/
def registerEntries (inner : Int → Run Scan) (base : Int) : List MbrPartitionEntry → Run Scan
  | [] => .ok ⟨.ok (), []⟩
  | e :: es =>
    if e.type = 0 then
      registerEntries inner base es
    else if e.type = mbrPartTypeExtended then do
      let scan ← inner (toLba (base + e.baseLba.toNat))
      match scan.result with
      | .error _ => .ok scan
      | .ok () => do
        let rest ← registerEntries inner base es
        .ok ⟨rest.result, scan.partitions ++ rest.partitions⟩
    else
      match probe [e.resource base] with
      | .error status => .ok ⟨.error status, []⟩
      | .ok part => do
        let rest ← registerEntries inner base es
        .ok ⟨rest.result, part :: rest.partitions⟩

/--
`fuel` bounds the depth of the recursion.
-/
def registerPartitions (disk : Disk) : Nat → Int → Run Scan
  | 0, _ => .error .hang
  | fuel + 1, base =>
    match disk.partitionEntries base with
    | .error status => .ok ⟨.error status, []⟩
    | .ok entries => registerEntries (registerPartitions disk fuel) base entries

end Emos.Boot.Part

namespace Emos.Boot.Part

def gptHeaderSignature : List (BitVec 8) := [0x45, 0x46, 0x49, 0x20, 0x50, 0x41, 0x52, 0x54]

def sectBufSize : Nat := 512

/--
Read `n` bytes at an offset in the buffer.
-/
def sectBufAt (buf : Bytes) (offset n : Nat) : Run Nat :=
  if sectBufSize < offset + n then .error .access else .ok (buf.read offset n)

/--
The loop over the entries, of which `n` are left.
-/
def gptScan (disk : Disk) (bytesPerEntry : Nat) : Nat → Bytes → Nat → Nat → Run Scan
  | 0, _, _, _ => .ok ⟨.ok (), []⟩
  | n + 1, buf, offset, lba => do
    let type ← sectBufAt buf offset 16
    if type = 0 then
      .ok ⟨.ok (), []⟩
    else do
      let base ← sectBufAt buf (offset + 32) 8
      let limit ← sectBufAt buf (offset + 40) 8
      match probe [⟨.lba, .ofNat base, .ofNat limit⟩] with
      | .error status => .ok ⟨.error status, []⟩
      | .ok part => do
        let offset := u32 (offset + bytesPerEntry)
        let rest ←
          if sectBufSize ≤ offset then
            let lba : Nat := (lba + 1) % 2 ^ 64
            -- the status is not checked
            let buf := match disk.read (toLba lba) with
              | .error ⟨_, junk⟩ => junk
              | .ok sector => sector
            gptScan disk bytesPerEntry n buf (offset - sectBufSize) lba
          else
            gptScan disk bytesPerEntry n buf offset lba
        .ok ⟨rest.result, part :: rest.partitions⟩

/--
What `probe` registers once the device for the whole disk has been made.
-/
def gptProbe (disk : Disk) : Run Scan :=
  match disk.read 0 with
  | .error ⟨status, _⟩ => .ok ⟨.error status, []⟩
  | .ok mbr =>
    if mbr.read 510 2 ≠ mbrSignature then
      .ok ⟨.error .invalidSignature, []⟩
    else if (MbrPartitionEntry.get mbr 446).type ≠ mbrPartTypeGpt then
      .ok ⟨.error .invalidValue, []⟩
    else
      match disk.read (MbrPartitionEntry.get mbr 446).baseLba.toNat with
      | .error ⟨status, _⟩ => .ok ⟨.error status, []⟩
      | .ok header =>
        if (List.range 8).map header ≠ gptHeaderSignature then
          .ok ⟨.error .invalidSignature, []⟩
        else
          let bytesPerEntry := header.read 84 4
          let entryCount := header.read 80 4
          let entryListLba := header.read 72 8
          match disk.read (toLba entryListLba) with
          | .error ⟨status, _⟩ => .ok ⟨.error status, []⟩
          | .ok buf => gptScan disk bytesPerEntry entryCount buf 0 entryListLba

end Emos.Boot.Part
