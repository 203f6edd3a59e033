import Emos.Basic
import Emos.Fat.Basic

/-!
This module contains the access of the kernel's FAT driver to entries of the file allocation tables,
through a cache of blocks that lends out its buffers. At the end are the functions of `fat.h` that keep the copies of
the file allocation table alike, which call the access functions that mounting selected, if it did.
-/

open Lib

namespace Emos

inductive BlockEvent where
  | fetch (lba : Nat)
  | release (lba : Nat) (dirty : Bool)
  deriving DecidableEq, Repr

structure BlockCache where
  /-- the bytes of the block at each address -/
  block : Nat → Bytes
  /-- how each call of `fetch` is going to fail, if it does -/
  fails : Nat → Option Status
  fetchCount : Nat
  /-- what has been fetched and released, the last call first -/
  events : List BlockEvent

namespace BlockCache

def fetch (c : BlockCache) (lba : Nat) : Except Status Unit × BlockCache :=
  match c.fails c.fetchCount with
  | some status => ⟨.error status, { c with fetchCount := c.fetchCount + 1 }⟩
  | none =>
    ⟨.ok (), { c with fetchCount := c.fetchCount + 1, events := .fetch lba :: c.events }⟩

def release (c : BlockCache) (lba : Nat) (dirty : Bool) : BlockCache :=
  { c with events := .release lba dirty :: c.events }

def put (c : BlockCache) (lba i : Nat) (byte : Nat) : BlockCache :=
  let buf := Function.update (c.block lba) i (BitVec.ofNat 8 byte)
  { c with block := Function.update c.block lba buf }

/--
Write a number of `n` bytes to the buffer of a block.
-/
def putWord (c : BlockCache) (lba i n : Nat) (v : Nat) : BlockCache :=
  let buf := Bytes.write (c.block lba) i n v
  { c with block := Function.update c.block lba buf }

end BlockCache

/--
The fields of `struct filesystem_data` that the access to the tables depends on.
-/
structure FatData where
  fatCount : Nat
  reservedSectors : Nat
  sectorSize : Nat
  fatSize : Nat
  deriving DecidableEq, Repr

def FatData.fatLba (d : FatData) (fat : Int) (sectorIdx : Nat) : Nat :=
  u32 (d.reservedSectors + fat.toNat * d.fatSize + sectorIdx)

/--
The checks that all functions make, `maxCluster` depends on the width of entries.
-/
def FatData.accepts (d : FatData) (maxCluster : Nat) (fat : Int) (entry : Nat) : Bool :=
  !(entry > maxCluster) && !(fat < 0 || fat ≥ d.fatCount)

def readFatEntry12 (d : FatData) (c : BlockCache) (fat : Int) (entry : Nat)
    : Run (Except Status Nat × BlockCache) :=
  if !d.accepts fat12MaxCluster fat entry then
    .ok ⟨.error .invalidValue, c⟩
  else do
    let byteIdx := u32 (entry + entry >>> 1)
    let sectorIdx ← divide byteIdx d.sectorSize
    let byteIdx := byteIdx % d.sectorSize
    let lba := d.fatLba fat sectorIdx
    let lba2 := d.fatLba fat (sectorIdx + 1)
    match c.fetch lba with
    | ⟨.error status, c⟩ => .ok ⟨.error status, c⟩
    | ⟨.ok _, c⟩ =>
      let byte0 := c.block lba byteIdx
      if byteIdx < d.sectorSize - 1 then
        let byte1 := c.block lba (byteIdx + 1)
        .ok ⟨.ok (fat12Value entry byte0 byte1), c.release lba false⟩
      else
        match c.fetch lba2 with
        | ⟨.error status, c⟩ => .ok ⟨.error status, c.release lba false⟩
        | ⟨.ok _, c⟩ =>
          let byte1 := c.block lba2 0
          .ok ⟨.ok (fat12Value entry byte0 byte1), (c.release lba2 false).release lba false⟩

/--
The second byte of a twelve bit entry, from the byte that was there.
-/
def fat12Second (entry value : Nat) (byte : BitVec 8) : Nat :=
  if entry &&& 1 = 1 then
    (value &&& 0xFF0) >>> 4
  else
    (byte.toNat &&& 0xF0) ||| ((value &&& 0xF00) >>> 8)

/--
The first byte of a twelve bit entry, from the byte that was there.
-/
def fat12First (entry value : Nat) (byte : BitVec 8) : Nat :=
  if entry &&& 1 = 1 then
    (byte.toNat &&& 0x0F) ||| ((value &&& 0xF) <<< 4)
  else
    value &&& 0xFF

def writeFatEntry12 (d : FatData) (c : BlockCache) (fat : Int) (entry value : Nat)
    : Run (Except Status Unit × BlockCache) :=
  if value > fat12EndCluster then
    .ok ⟨.error .invalidValue, c⟩
  else if !d.accepts fat12MaxCluster fat entry then
    .ok ⟨.error .invalidValue, c⟩
  else do
    let byteIdx := u32 (entry + entry >>> 1)
    let sectorIdx ← divide byteIdx d.sectorSize
    let byteIdx := byteIdx % d.sectorSize
    let lba := d.fatLba fat sectorIdx
    let lba2 := d.fatLba fat (sectorIdx + 1)
    match c.fetch lba with
    | ⟨.error status, c⟩ => .ok ⟨.error status, c⟩
    | ⟨.ok _, c⟩ =>
      if byteIdx = d.sectorSize - 1 then
        match c.fetch lba2 with
        | ⟨.error status, c⟩ => .ok ⟨.error status, c.release lba false⟩
        | ⟨.ok _, c⟩ =>
          let c := (c.put lba2 0 (fat12Second entry value (c.block lba2 0))).release lba2 true
          let c := c.put lba byteIdx (fat12First entry value (c.block lba byteIdx))
          .ok ⟨.ok (), c.release lba true⟩
      else
        let c := c.put lba (byteIdx + 1) (fat12Second entry value (c.block lba (byteIdx + 1)))
        let c := c.put lba byteIdx (fat12First entry value (c.block lba byteIdx))
        .ok ⟨.ok (), c.release lba true⟩

/--
The sector of an entry of `width` bytes and where the entry is in its buffer.
-/
def fetchFatWord (maxCluster width : Nat) (d : FatData) (c : BlockCache) (fat : Int) (entry : Nat)
    : Run (Except Status (Nat × Nat) × BlockCache) :=
  if !d.accepts maxCluster fat entry then
    .ok ⟨.error .invalidValue, c⟩
  else do
    let sectorIdx ← divide entry (d.sectorSize / width)
    let entryIdx := entry % (d.sectorSize / width)
    let lba := d.fatLba fat sectorIdx
    match c.fetch lba with
    | ⟨.error status, c⟩ => .ok ⟨.error status, c⟩
    | ⟨.ok _, c⟩ => .ok ⟨.ok ⟨lba, entryIdx * width⟩, c⟩

/--
Reads an entry of `width` bytes, from which `f` takes the value.
-/
def readFatWord (maxCluster width : Nat) (f : Nat → Nat) (d : FatData) (c : BlockCache) (fat : Int)
    (entry : Nat) : Run (Except Status Nat × BlockCache) := do
  match ← fetchFatWord maxCluster width d c fat entry with
  | ⟨.error status, c⟩ => .ok ⟨.error status, c⟩
  | ⟨.ok ⟨lba, pos⟩, c⟩ =>
    .ok ⟨.ok (f (Bytes.read (c.block lba) pos width)), c.release lba false⟩

/--
Writes an entry of `width` bytes, `f` combines what was there with the value.
-/
def writeFatWord (maxCluster endCluster width : Nat) (f : Nat → Nat → Nat) (d : FatData)
    (c : BlockCache) (fat : Int) (entry value : Nat) : Run (Except Status Unit × BlockCache) :=
  if value > endCluster then
    .ok ⟨.error .invalidValue, c⟩
  else do
    match ← fetchFatWord maxCluster width d c fat entry with
    | ⟨.error status, c⟩ => .ok ⟨.error status, c⟩
    | ⟨.ok ⟨lba, pos⟩, c⟩ =>
      let c := c.putWord lba pos width (f (Bytes.read (c.block lba) pos width) value)
      .ok ⟨.ok (), c.release lba true⟩

def readFatEntry16 := readFatWord fat16MaxCluster 2 fun word => word

def writeFatEntry16 := writeFatWord fat16MaxCluster fat16EndCluster 2 fun _ value => value

def readFatEntry32 := readFatWord fat32MaxCluster 4 fun word => word &&& 0x0FFFFFFF

def writeFatEntry32 :=
  writeFatWord fat32MaxCluster fat32EndCluster 4 fun word value =>
    (word &&& 0xF0000000) ||| (value &&& 0x0FFFFFFF)

/--
The functions that mounting selects.
-/
def FatType.readFatEntry
    : FatType → FatData → BlockCache → Int → Nat → Run (Except Status Nat × BlockCache)
  | .fat12 => readFatEntry12
  | .fat16 => readFatEntry16
  | .fat32 => readFatEntry32

def FatType.writeFatEntry
    : FatType → FatData → BlockCache → Int → Nat → Nat → Run (Except Status Unit × BlockCache)
  | .fat12 => writeFatEntry12
  | .fat16 => writeFatEntry16
  | .fat32 => writeFatEntry32

end Emos

namespace Emos.FatData

def readFatEntry (d : FatData) (w : Option FatType) (c : BlockCache) (entry : Nat)
    : Run (Except Status Nat × BlockCache) :=
  match w with
  | none => .ok ⟨.error .invalidValue, c⟩
  | some w => w.readFatEntry d c 0 entry

/--
The loop of `write_fat_entry`, which has `n` more copies to write.
-/
def writeCopies (d : FatData) (w : FatType) (entry value : Nat)
    : (n i : Nat) → BlockCache → Run (Except Status Unit × BlockCache)
  | 0, _, c => .ok ⟨.ok (), c⟩
  | n + 1, i, c => do
    let r ← w.writeFatEntry d c i entry value
    match r with
    | ⟨.error _, c⟩ => .ok ⟨.error .fsInconsistent, c⟩
    | ⟨.ok _, c⟩ => d.writeCopies w entry value n (i + 1) c

def writeFatEntry (d : FatData) (w : Option FatType) (c : BlockCache) (entry value : Nat)
    : Run (Except Status Unit × BlockCache) :=
  match w with
  | none => .ok ⟨.error .invalidValue, c⟩
  | some w => do
    let r ← w.writeFatEntry d c 0 entry value
    match r with
    | ⟨.error status, c⟩ => .ok ⟨.error status, c⟩
    | ⟨.ok _, c⟩ => d.writeCopies w entry value (d.fatCount - 1) 1 c

end Emos.FatData
