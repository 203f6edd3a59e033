import Emos.Basic
import Emos.Fat.Basic
import Emos.Lib.Bytes

/-!
This module contains the boot loader's FAT driver: the buffers it keeps of the device, the steps along
a chain of clusters, and access to open files.
-/

open Lib

namespace Emos.Boot

/--
The block size of the devices that can be mounted.
-/
def fatSectorSize : Nat := 512

structure BlockDevice where
  /-- the bytes of the block at each address -/
  block : Nat → Bytes
  /-- how each call of `read` is going to fail, if it does, and what it leaves in the buffer -/
  fails : Nat → Option (Status × Bytes)

/--
The fields of `struct fat_data` that mounting sets once and for all.
-/
structure FatGeometry where
  reservedSectors : Nat
  sectorSize : Nat
  clusterSize : Nat
  sectorsPerCluster : Nat
  fatType : FatType
  dataAreaBegin : Nat
  rootCluster : Nat
  rootSectorCount : Nat
  deriving DecidableEq, Repr

/--
`struct fat_data`, and how often the device was read.
-/
structure FatData where
  blkdev : BlockDevice
  geometry : FatGeometry
  readCount : Nat
  fatbufLba : Int
  fatbuf : Bytes
  databufLbaStart : Int
  databuf : Bytes

/--
The contents of a buffer once `bytes` were copied to its start.
-/
def overwrite (buf bytes : Bytes) (n : Nat) : Bytes := fun i => if i < n then bytes i else buf i

def BlockDevice.bytesFrom (dev : BlockDevice) (lba : Nat) : Bytes :=
  Blocks.flatten (fun k => dev.block (lba + k)) fatSectorSize

namespace FatData

/--
`blkif->read` of `count` blocks into a buffer of `capacity` bytes.
-/
def readBlocks (d : FatData) (lba count capacity : Nat) (buf : Bytes)
    : Run (Except Status Unit × Bytes × FatData) :=
  if capacity < count * fatSectorSize then
    .error .access
  else
    match d.blkdev.fails d.readCount with
    | some ⟨status, junk⟩ =>
      .ok ⟨.error status, overwrite buf junk (count * fatSectorSize),
        { d with readCount := d.readCount + 1 }⟩
    | none =>
      .ok ⟨.ok (), overwrite buf (d.blkdev.bytesFrom lba) (count * fatSectorSize),
        { d with readCount := d.readCount + 1 }⟩

def readFat (d : FatData) (fatSector : Nat) : Run (Except Status Unit × FatData) :=
  let lba := u32 (d.geometry.reservedSectors + fatSector)
  if d.fatbufLba = lba then
    .ok ⟨.ok (), d⟩
  else do
    match ← d.readBlocks lba 1 fatSectorSize d.fatbuf with
    | ⟨.error status, buf, d⟩ => .ok ⟨.error status, { d with fatbuf := buf }⟩
    | ⟨.ok _, buf, d⟩ => .ok ⟨.ok (), { d with fatbuf := buf, fatbufLba := lba }⟩

/--
`fatcluster_to_sector12_16` and `fatcluster_to_sector32`.
-/
def fatclusterToSector (d : FatData) (cluster : Nat) : Nat :=
  let g := d.geometry
  match g.fatType with
  | .fat12 | .fat16 =>
    u32 (sub32 cluster 2 * g.sectorsPerCluster + g.dataAreaBegin + g.rootSectorCount)
  | .fat32 => u32 (sub32 cluster 2 * g.sectorsPerCluster + g.dataAreaBegin)

/--
Have `count` blocks in the data buffer. Their number is not remembered.
-/
def readData (d : FatData) (lba count : Nat) : Run (Except Status Unit × FatData) :=
  if d.databufLbaStart = lba then
    .ok ⟨.ok (), d⟩
  else do
    match ← d.readBlocks lba count d.geometry.clusterSize d.databuf with
    | ⟨.error status, buf, d⟩ => .ok ⟨.error status, { d with databuf := buf }⟩
    | ⟨.ok _, buf, d⟩ => .ok ⟨.ok (), { d with databuf := buf, databufLbaStart := lba }⟩

def readSector (d : FatData) (lba : Nat) : Run (Except Status Unit × FatData) :=
  d.readData lba 1

def readCluster (d : FatData) (cluster : Nat) : Run (Except Status Unit × FatData) :=
  d.readData (d.fatclusterToSector cluster) d.geometry.sectorsPerCluster

/--
A number of `n` bytes in the buffer of the table.
-/
def fatbufAt (d : FatData) (i n : Nat) : Run Nat :=
  if i + n ≤ fatSectorSize then .ok (Bytes.read d.fatbuf i n) else .error .access

/--
The entry that the loop of `get_next_cluster12` reads.
-/
def fatEntry12 (d : FatData) (cluster : Nat) : Run (Except Status Nat × FatData) := do
  let byteIdx := (cluster + cluster >>> 1) % 2 ^ 16
  let sectorIdx ← divide byteIdx d.geometry.sectorSize
  let byteIdx := byteIdx % d.geometry.sectorSize
  match ← d.readFat sectorIdx with
  | ⟨.error status, d⟩ => .ok ⟨.error status, d⟩
  | ⟨.ok _, d⟩ =>
    let byte0 ← d.fatbufAt byteIdx 1
    if byteIdx = d.geometry.sectorSize - 1 then
      match ← d.readFat (sectorIdx + 1) with
      | ⟨.error status, d⟩ => .ok ⟨.error status, d⟩
      | ⟨.ok _, d⟩ =>
        let byte1 ← d.fatbufAt 0 1
        .ok ⟨.ok (fat12Value cluster (.ofNat 8 byte0) (.ofNat 8 byte1)), d⟩
    else
      let byte1 ← d.fatbufAt (byteIdx + 1) 1
      .ok ⟨.ok (fat12Value cluster (.ofNat 8 byte0) (.ofNat 8 byte1)), d⟩

/--
The entry of `width` bytes that the loops of the other widths read.
-/
def fatEntryWord (width : Nat) (d : FatData) (cluster : Nat) : Run (Except Status Nat × FatData) := do
  let sectorIdx ← divide cluster (d.geometry.sectorSize / width)
  let fatentryIdx := cluster % (d.geometry.sectorSize / width)
  match ← d.readFat sectorIdx with
  | ⟨.error status, d⟩ => .ok ⟨.error status, d⟩
  | ⟨.ok _, d⟩ =>
    let word ← d.fatbufAt (fatentryIdx * width) width
    .ok ⟨.ok word, d⟩

def fatEntry16 := fatEntryWord 2

def fatEntry32 (d : FatData) (cluster : Nat) : Run (Except Status Nat × FatData) := do
  match ← d.fatEntryWord 4 cluster with
  | ⟨.error status, d⟩ => .ok ⟨.error status, d⟩
  | ⟨.ok word, d⟩ => .ok ⟨.ok (word &&& 0x0FFFFFFF), d⟩

def fatEntry (d : FatData) (cluster : Nat) : Run (Except Status Nat × FatData) :=
  match d.geometry.fatType with
  | .fat12 => d.fatEntry12 cluster
  | .fat16 => d.fatEntry16 cluster
  | .fat32 => d.fatEntry32 cluster

/--
The loop of `get_next_cluster`. It leaves the cluster it has got to, even when that is not a cluster.
-/
def nextClusters (d : FatData) (cluster : Nat) : Nat → Run (Status × Nat × FatData)
  | 0 => .ok ⟨.success, cluster, d⟩
  | count + 1 => do
    match ← d.fatEntry cluster with
    | ⟨.error status, d⟩ => .ok ⟨status, cluster, d⟩
    | ⟨.ok cluster, d⟩ =>
      if cluster > d.geometry.fatType.maxCluster then
        .ok ⟨.endOfList, cluster, d⟩
      else
        d.nextClusters cluster count

def getNextCluster (d : FatData) (cluster count : Nat) : Run (Status × Nat × FatData) :=
  if cluster > d.geometry.fatType.maxCluster then
    .ok ⟨.invalidValue, cluster, d⟩
  else
    d.nextClusters cluster count

end FatData

abbrev Direntry := Fin 32 → BitVec 8

namespace Direntry

instance : NeZero 32 := ⟨by decide⟩

def number (e : Direntry) (i n : Nat) : Nat :=
  Bytes.read (fun k => if h : k < 32 then e ⟨k, h⟩ else 0) i n

def attr (e : Direntry) : Nat := (e 11).toNat

def attr2 (e : Direntry) : Nat := (e 12).toNat

def clusterLocationHigh (e : Direntry) : Nat := e.number 20 2

def clusterLocation (e : Direntry) : Nat := e.number 26 2

def size (e : Direntry) : Nat := e.number 28 4

end Direntry

structure FatFile where
  direntry : Direntry
  headCluster : Nat
  currentCluster : Nat
  cursor : Nat

def openFile (e : Direntry) : FatFile :=
  let headCluster := (e.clusterLocationHigh <<< 16) ||| e.clusterLocation
  { direntry := e, headCluster := headCluster, currentCluster := headCluster, cursor := 0 }

structure ReadResult where
  status : Status
  /-- `*result`, if it was set -/
  result : Option Nat
  /-- the bytes that were copied to the caller's buffer -/
  buf : List (BitVec 8)
  data : FatData
  file : FatFile

def readLoop : Nat → FatData → FatFile → (len : Nat) → (buf : List (BitVec 8)) → (total : Nat)
    → Run ReadResult
  | 0, _, _, _, _, _ => .error .hang
  | fuel + 1, d, file, len, buf, total =>
    if len = 0 then
      .ok ⟨.success, some total, buf, d, file⟩
    else if d.geometry.clusterSize = 0 then
      .error .divide
    else do
      let clusterOffset := file.cursor % d.geometry.clusterSize
      let readLen :=
        if d.geometry.clusterSize - clusterOffset > len then len
        else d.geometry.clusterSize - clusterOffset
      match ← d.readCluster file.currentCluster with
      | ⟨.error status, d⟩ => .ok ⟨status, none, buf, d, file⟩
      | ⟨.ok _, d⟩ =>
        let buf := buf ++ (List.range readLen).map fun i => d.databuf (clusterOffset + i)
        let len := len - readLen
        let total := u32 (total + readLen)
        let file := { file with cursor := u32 (file.cursor + readLen) }
        if clusterOffset + readLen < d.geometry.clusterSize then
          readLoop fuel d file len buf total
        else
          let ⟨status, cluster, d⟩ ← d.getNextCluster file.currentCluster 1
          let file := { file with currentCluster := cluster }
          if status ≠ .success then
            .ok ⟨.success, some total, buf, d, file⟩
          else
            readLoop fuel d file len buf total

def read (d : FatData) (file : FatFile) (len : Nat) : Run ReadResult :=
  let size := file.direntry.size
  if file.cursor ≥ size then
    .ok ⟨.endOfFile, none, [], d, file⟩
  else
    let len := if u32 (file.cursor + len) ≥ size then size - file.cursor else len
    readLoop (len + 1) d file len [] 0

/--
`SEEK_SET`, `SEEK_CUR`, `SEEK_END` or something else.
-/
inductive Origin where
  | set
  | cur
  | end
  | other (origin : Int)
  deriving DecidableEq, Repr

def i64 (n : Int) : Int := (n + 2 ^ 63) % 2 ^ 64 - 2 ^ 63

/--
The position that an offset is about, if the origin is known.
-/
def FatFile.seekTarget (file : FatFile) (offset : Int) : Origin → Option Int
  | .set => some offset
  | .cur => some (file.cursor + offset)
  | .end => some (file.direntry.size + offset)
  | .other _ => none

def seek (d : FatData) (file : FatFile) (offset : Int) (origin : Origin)
    : Run (Status × FatData × FatFile) :=
  match file.seekTarget offset origin with
  | none => .ok ⟨.invalidValue, d, file⟩
  | some target =>
    let newCursor := i64 target
    if newCursor < 0 then
      .ok ⟨.invalidValue, d, file⟩
    else do
      let newCursor :=
        if newCursor > file.direntry.size then file.direntry.size else newCursor.toNat
      let count ← divide newCursor d.geometry.clusterSize
      let ⟨status, cluster, d⟩ ← d.getNextCluster file.headCluster (u32 count)
      if status ≠ .success then
        .ok ⟨status, d, file⟩
      else
        .ok ⟨.success, d, { file with currentCluster := cluster, cursor := u32 newCursor }⟩

end Emos.Boot
