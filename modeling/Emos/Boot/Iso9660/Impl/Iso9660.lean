import Emos.Boot.Fat.Impl.Directory

/-!
This module contains the boot loader's ISO 9660 driver: the buffer it keeps of the device, mounting,
the enumeration of directories, and access to open files.
-/

open Lib

namespace Emos.Boot.Iso9660

/--
The block size of the devices that can be mounted, and the size of the buffer.
-/
def databufSize : Nat := 2048

/--
The fields of `struct iso9660_data` that are used once the volume is mounted, and how often the device
was read.
-/
structure Data where
  blkdev : BlockDevice
  readCount : Nat
  databuf : Bytes
  databufLba : Int
  rootdirLba : Nat
  sectorSize : Nat

abbrev DirEntryHeader := Fin 33 → BitVec 8

namespace DirEntryHeader

/--
A number in a header. Those with both byte orders start with the one that has the lowest byte first.
-/
def number (header : DirEntryHeader) (i n : Nat) : Nat :=
  Bytes.read (fun k => if h : k < 33 then header ⟨k, h⟩ else 0) i n

def entrySize (header : DirEntryHeader) : Nat := header.number 0 1

def attribRecordSize (header : DirEntryHeader) : Nat := header.number 1 1

def lbaDataLocation (header : DirEntryHeader) : Nat := header.number 2 4

def dataSize (header : DirEntryHeader) : Nat := header.number 10 4

def directory (header : DirEntryHeader) : Bool := header.number 25 1 &&& 2 ≠ 0

def filenameLen (header : DirEntryHeader) : Nat := header.number 32 1

end DirEntryHeader

/--
`struct iso9660_dir_data` without the size of the previous entry, which nothing reads.
-/
structure DirData where
  direntry : DirEntryHeader
  dataStartLba : Nat
  currentLba : Nat
  currentEntryOffset : Nat

structure FileData where
  direntry : DirEntryHeader
  cursor : Nat
  dataStartLba : Nat

namespace Data

def readSector (d : Data) (lba : Nat) : Except Status Unit × Data :=
  if d.databufLba = lba then
    ⟨.ok (), d⟩
  else
    match d.blkdev.fails d.readCount with
    | some ⟨status, junk⟩ =>
      ⟨.error status,
        { d with readCount := d.readCount + 1, databuf := overwrite d.databuf junk databufSize }⟩
    | none =>
      ⟨.ok (), { d with
        readCount := d.readCount + 1
        databuf := overwrite d.databuf (d.blkdev.block lba) databufSize
        databufLba := lba }⟩

def databufAt (d : Data) (i : Nat) : Run (BitVec 8) :=
  if i < databufSize then .ok (d.databuf i) else .error .access

def headerAt (d : Data) (offset : Nat) : Run DirEntryHeader :=
  if offset + 33 ≤ databufSize then .ok fun i => d.databuf (offset + i) else .error .access

end Data

/--
The characters before the first semicolon, or all `len` of them.
-/
def beforeVersion (m : Bytes) (p : Nat) : Nat → List (BitVec 8)
  | 0 => []
  | len + 1 => if m p = 0x3B then [] else m p :: beforeVersion m (p + 1) len

/--
What is written to `entry->name` for the `len` characters at `p`.
-/
def entryName (m : Bytes) (p len : Nat) : List (BitVec 8) :=
  if m p = 0 ∨ len = 0 then [0x2E, 0]
  else if m p = 1 then [0x2E, 0x2E, 0]
  else (beforeVersion m p len).takeWhile (· ≠ 0) ++ [0]

/--
The name at an offset in the buffer. The loop stops reading with a semicolon.
-/
def Data.nameAt (d : Data) (p len : Nat) : Run (List (BitVec 8)) := do
  let first ← d.databufAt p
  if first = 0 ∨ len = 0 ∨ first = 1 then
    .ok (entryName d.databuf p len)
  else if p + min ((beforeVersion d.databuf p len).length + 1) len ≤ databufSize then
    .ok (entryName d.databuf p len)
  else
    .error .access

def rewindDirectory (dir : DirData) : DirData :=
  { dir with currentLba := dir.dataStartLba, currentEntryOffset := 0, direntry := fun _ => 0 }

/--
The position behind an entry. It is the start of the directory that is advanced at the end of a
sector.
-/
def DirData.advance (dir : DirData) (header : DirEntryHeader) (sectorSize : Nat) : DirData :=
  let offset := u32 (dir.currentEntryOffset + (header.entrySize + header.attribRecordSize))
  if offset ≥ sectorSize then
    { dir with direntry := header, currentEntryOffset := 0, dataStartLba := dir.dataStartLba + 1 }
  else
    { dir with direntry := header, currentEntryOffset := offset }

def iterDirectory (d : Data) (dir : DirData) : Run (Except Status DirectoryEntry × Data × DirData) :=
  match d.readSector dir.currentLba with
  | ⟨.error status, d⟩ => .ok ⟨.error status, d, dir⟩
  | ⟨.ok _, d⟩ => do
    let entrySize ← d.databufAt dir.currentEntryOffset
    if entrySize = 0 then
      .ok ⟨.error .endOfList, d, dir⟩
    else
      let header ← d.headerAt dir.currentEntryOffset
      let name ← d.nameAt (dir.currentEntryOffset + 33) header.filenameLen
      .ok ⟨.ok ⟨name, header.dataSize⟩, d, dir.advance header d.sectorSize⟩

/--
`toupper` of a `char`, for which a table with 128 entries is looked up.
-/
def toupper (c : BitVec 8) : Run (BitVec 8) :=
  if c.toNat ≥ 128 then .error .access
  else if 0x61 ≤ c.toNat ∧ c.toNat ≤ 0x7A then .ok (c - 0x20)
  else .ok c

/--
`strncasecmp` of strings that may go on behind their terminator. The last pair of characters is
compared as it is.
-/
def strncasecmp (p1 p2 : List (BitVec 8)) (maxlen : Nat) : Run Int :=
  go p1 p2 (maxlen - 1)
where
  go (p1 p2 : List (BitVec 8)) : Nat → Run Int
    | 0 => .ok ((p1.headD 0).toNat - (p2.headD 0).toNat)
    | n + 1 =>
      if p1.headD 0 = 0 then
        .ok ((p1.headD 0).toNat - (p2.headD 0).toNat)
      else do
        let c1 ← toupper (p1.headD 0)
        let c2 ← toupper (p2.headD 0)
        if c1 ≠ c2 then
          .ok ((p1.headD 0).toNat - (p2.headD 0).toNat)
        else
          go p1.tail p2.tail n

def filenameMax : Nat := 256

/--
The loop of `match_name`, which ends with any status that is not a success.
-/
def matchLoop (name : List (BitVec 8))
    : Nat → Data → DirData → Run (Except Status DirectoryEntry × Data × DirData)
  | 0, _, _ => .error .hang
  | fuel + 1, d, dir => do
    match ← iterDirectory d dir with
    | ⟨.error _, d, dir⟩ => .ok ⟨.error .entryNotFound, d, dir⟩
    | ⟨.ok entry, d, dir⟩ =>
      let difference ← strncasecmp name entry.name filenameMax
      if difference = 0 then
        .ok ⟨.ok entry, d, dir⟩
      else
        matchLoop name fuel d dir

def matchName (fuel : Nat) (d : Data) (dir : DirData) (name : List (BitVec 8))
    : Run (Except Status DirectoryEntry × Data × DirData) :=
  matchLoop name fuel d (rewindDirectory dir)

/--
`open`, where `allocated` tells whether there is memory for the file.
-/
def openFile (fuel : Nat) (d : Data) (dir : DirData) (name : List (BitVec 8)) (allocated : Bool)
    : Run (Except Status FileData × Data × DirData) := do
  match ← matchName fuel d dir name with
  | ⟨.error status, d, dir⟩ => .ok ⟨.error status, d, dir⟩
  | ⟨.ok _, d, dir⟩ =>
    if dir.direntry.directory then
      .ok ⟨.error .wrongElementType, d, dir⟩
    else if !allocated then
      .ok ⟨.error .unknownError, d, dir⟩
    else
      .ok ⟨.ok ⟨dir.direntry, 0, dir.direntry.lbaDataLocation⟩, d, dir⟩

def openRootDirectory (d : Data) (allocated : Bool) : Except Status DirData :=
  if allocated then .ok ⟨fun _ => 0, d.rootdirLba, d.rootdirLba, 0⟩ else .error .unknownError

def openDirectory (fuel : Nat) (d : Data) (dir : DirData) (name : List (BitVec 8)) (allocated : Bool)
    : Run (Except Status DirData × Data × DirData) :=
  let chars := name.takeWhile (· ≠ 0)
  if dir.dataStartLba = d.rootdirLba ∧ (chars = [0x2E] ∨ chars = [0x2E, 0x2E]) then
    .ok ⟨openRootDirectory d allocated, d, dir⟩
  else do
    match ← matchName fuel d dir name with
    | ⟨.error status, d, dir⟩ => .ok ⟨.error status, d, dir⟩
    | ⟨.ok _, d, dir⟩ =>
      if !dir.direntry.directory then
        .ok ⟨.error .wrongElementType, d, dir⟩
      else if !allocated then
        .ok ⟨.error .unknownError, d, dir⟩
      else
        let start := dir.direntry.lbaDataLocation
        .ok ⟨.ok ⟨fun _ => 0, start, start, 0⟩, d, dir⟩

structure ReadResult where
  status : Status
  /-- `*result`, if it was set -/
  result : Option Nat
  /-- the bytes that were copied to the caller's buffer -/
  buf : List (BitVec 8)
  data : Data
  file : FileData

def readLoop : Nat → Data → FileData → (len : Nat) → (buf : List (BitVec 8)) → (total : Nat)
    → Run ReadResult
  | 0, _, _, _, _, _ => .error .hang
  | fuel + 1, d, file, len, buf, total =>
    if len = 0 then
      .ok ⟨.success, some total, buf, d, file⟩
    else if d.sectorSize = 0 then
      .error .divide
    else
      let sectorOffset := file.cursor % d.sectorSize
      let readLen := if d.sectorSize - sectorOffset > len then len else d.sectorSize - sectorOffset
      match d.readSector (file.dataStartLba + file.cursor / d.sectorSize) with
      | ⟨.error status, d⟩ => .ok ⟨status, none, buf, d, file⟩
      | ⟨.ok _, d⟩ =>
        if sectorOffset + readLen > databufSize then
          .error .access
        else
          let buf := buf ++ (List.range readLen).map fun i => d.databuf (sectorOffset + i)
          let file := { file with cursor := u32 (file.cursor + readLen) }
          readLoop fuel d file (len - readLen) buf (u32 (total + readLen))

def read (d : Data) (file : FileData) (len : Nat) : Run ReadResult :=
  let size := file.direntry.dataSize
  if file.cursor ≥ size then
    .ok ⟨.endOfFile, none, [], d, file⟩
  else
    let len := if u32 (file.cursor + len) ≥ size then size - file.cursor else len
    readLoop (len + 1) d file len [] 0

/--
The position that an offset is about, if the origin is known.
-/
def FileData.seekTarget (file : FileData) (offset : Int) : Origin → Option Int
  | .set => some offset
  | .cur => some (file.cursor + offset)
  | .end => some (file.direntry.dataSize + offset)
  | .other _ => none

def seek (file : FileData) (offset : Int) (origin : Origin) : Status × FileData :=
  match file.seekTarget offset origin with
  | none => ⟨.invalidValue, file⟩
  | some target =>
    let newCursor := i64 target
    if newCursor < 0 then
      ⟨.invalidValue, file⟩
    else
      let newCursor :=
        if newCursor > file.direntry.dataSize then file.direntry.dataSize else newCursor.toNat
      ⟨.success, { file with cursor := u32 newCursor }⟩

def tell (file : FileData) : Int := file.cursor

/--
The signature of the volume descriptor in the buffer is `CD001`.
-/
def signed (m : Bytes) : Bool :=
  (List.range 5).map (fun i => m (1 + i)) = [0x43, 0x44, 0x30, 0x30, 0x31]

def vdtypePrivoldesc : BitVec 8 := 1
def vdtypeVdsetterm : BitVec 8 := 255

/--
The loop of `probe` over the volume descriptors, where `primary` is the first primary one so far. The
set of descriptors may have no end, here for `fuel` of them.
-/
def probeLoop (dev : BlockDevice) : Nat → (k lba : Nat) → (primary : Option Nat) → Run Status
  | 0, _, _, _ => .error .hang
  | fuel + 1, k, lba, primary =>
    match dev.fails k with
    | some ⟨status, _⟩ => .ok status
    | none =>
      let voldesc := dev.block lba
      if !signed voldesc then
        .ok .invalidSignature
      else
        let primary := if voldesc 0 = vdtypePrivoldesc && primary.isNone then some lba else primary
        if voldesc 0 ≠ vdtypeVdsetterm then
          probeLoop dev fuel (k + 1) (lba + 1) primary
        else if primary.isNone then
          .ok .entryNotFound
        else
          .ok .success

def probe (fuel : Nat) (dev : BlockDevice) (blockSize : Except Status Nat) : Run Status :=
  match blockSize with
  | .error status => .ok status
  | .ok blockSize =>
    if blockSize ≠ 2048 then .ok .sizeCheckFailure else probeLoop dev fuel 0 16 none

def mountLoop : Nat → Data → (lba : Nat) → (primary : Option Nat)
    → Run (Except Status (Option Nat) × Data)
  | 0, _, _, _ => .error .hang
  | fuel + 1, d, lba, primary =>
    match d.readSector lba with
    | ⟨.error status, d⟩ => .ok ⟨.error status, d⟩
    | ⟨.ok _, d⟩ =>
      if !signed d.databuf then
        .ok ⟨.error .invalidSignature, d⟩
      else
        let primary :=
          if d.databuf 0 = vdtypePrivoldesc && primary.isNone then some lba else primary
        if d.databuf 0 ≠ vdtypeVdsetterm then
          mountLoop fuel d (lba + 1) primary
        else
          .ok ⟨.ok primary, d⟩

/--
`mount`. Next to the device, its result depends on whether the file system object is created and on
what `malloc` returns for `struct iso9660_data`, whose bytes are the ones of the buffer.
-/
def mount (fuel : Nat) (dev : BlockDevice) (blockSize : Except Status Nat) (create : Option Status)
    (memory : Option Bytes) : Run (Except Status Data) :=
  match blockSize with
  | .error status => .ok (.error status)
  | .ok blockSize =>
    if blockSize ≠ 2048 then
      .ok (.error .sizeCheckFailure)
    else
      match create, memory with
      | some status, _ => .ok (.error status)
      | none, none => .ok (.error .unknownError)
      | none, some memory => do
        match ← mountLoop fuel ⟨dev, 0, memory, -1, 0, 0⟩ 16 none with
        | ⟨.error status, _⟩ => .ok (.error status)
        | ⟨.ok none, _⟩ => .ok (.error .entryNotFound)
        | ⟨.ok (some primary), d⟩ =>
          match d.readSector primary with
          | ⟨.error status, _⟩ => .ok (.error status)
          | ⟨.ok _, d⟩ =>
            let d := { d with sectorSize := Bytes.read d.databuf 128 2 }
            match d.readSector (Bytes.read d.databuf 140 4) with
            | ⟨.error status, _⟩ => .ok (.error status)
            | ⟨.ok _, d⟩ => .ok (.ok { d with rootdirLba := Bytes.read d.databuf 2 4 })

end Emos.Boot.Iso9660
