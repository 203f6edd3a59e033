import Emos.Basic
import Emos.Lib.Packed12

/-!
This module contains what the FAT drivers of the boot loader and of the kernel have in common, with the two
sectors that describe a volume, as both drivers declare them.
-/

open Lib

namespace Emos

inductive FatType where
  | fat12
  | fat16
  | fat32
  deriving DecidableEq, Repr

def fat12MaxCluster : Nat := 0xFF4
def fat16MaxCluster : Nat := 0xFFF4
def fat32MaxCluster : Nat := 0x0FFFFFF6

def fat12BadCluster : Nat := 0xFF7
def fat16BadCluster : Nat := 0xFFF7
def fat32BadCluster : Nat := 0x0FFFFFF7

def fat12EndCluster : Nat := 0xFFF
def fat16EndCluster : Nat := 0xFFFF
def fat32EndCluster : Nat := 0x0FFFFFFF

def fat12Value (entry : Nat) (byte0 byte1 : BitVec 8) : Nat :=
  if entry &&& 1 = 1 then
    ((byte0.toNat &&& 0xF0) >>> 4) ||| (byte1.toNat <<< 4)
  else
    byte0.toNat ||| ((byte1.toNat &&& 0x0F) <<< 8)

theorem fat12Value_eq (entry : Nat) (byte0 byte1 : BitVec 8)
    : fat12Value entry byte0 byte1
        =
      if entry % 2 = 1 then byte0.toNat / 16 + 16 * byte1.toNat
      else byte0.toNat + 256 * (byte1.toNat % 16) := by
  have h0 := byte0.isLt
  unfold fat12Value
  rw [Nat.and_one_is_mod]
  split
  . have hmask := land_mask_shiftRight byte0.toNat 4 4
    rw [show (2 ^ 4 - 1) <<< 4 = 0xF0 by decide] at hmask
    rw [hmask, lor_shiftLeft (by omega)]
    lia
  . have hmask := land_mask byte1.toNat 4
    rw [show 2 ^ 4 - 1 = 0x0F by decide] at hmask
    rw [hmask, lor_shiftLeft (by omega)]
    omega

namespace FatType

def maxCluster : FatType → Nat
  | .fat12 => fat12MaxCluster
  | .fat16 => fat16MaxCluster
  | .fat32 => fat32MaxCluster

def badCluster : FatType → Nat
  | .fat12 => fat12BadCluster
  | .fat16 => fat16BadCluster
  | .fat32 => fat32BadCluster

theorem maxCluster_lt_badCluster (w : FatType) : w.maxCluster < w.badCluster := by
  cases w with
  | fat12 => decide
  | fat16 => decide
  | fat32 => decide

def endCluster : FatType → Nat
  | .fat12 => fat12EndCluster
  | .fat16 => fat16EndCluster
  | .fat32 => fat32EndCluster

def entryAt : FatType → Bytes → Nat → Nat
  | .fat12, t, entry => Packed12.get t entry
  | .fat16, t, entry => Bytes.read t (entry * 2) 2
  | .fat32, t, entry => Bytes.read t (entry * 4) 4

end FatType

end Emos

namespace Emos

structure Bpb where
  sector : Bytes

namespace Bpb

variable (bpb : Bpb)

def bytesPerSector : Nat := Bytes.read bpb.sector 11 2

def sectorsPerCluster : Nat := Bytes.read bpb.sector 13 1

def reservedSectorCount : Nat := Bytes.read bpb.sector 14 2

def fatCount : Nat := Bytes.read bpb.sector 16 1

def rootEntryCount : Nat := Bytes.read bpb.sector 17 2

def totalSectorCount16 : Nat := Bytes.read bpb.sector 19 2

def fatSize16 : Nat := Bytes.read bpb.sector 22 2

def totalSectorCount32 : Nat := Bytes.read bpb.sector 32 4

def fatSize32 : Nat := Bytes.read bpb.sector 36 4

def rootCluster : Nat := Bytes.read bpb.sector 44 4

def fsinfoSector : Nat := Bytes.read bpb.sector 48 2

def signature : Nat := Bytes.read bpb.sector 510 2

/--
`bpb.fat_size16 ? bpb.fat_size16 : bpb.fat32.fat_size32`.
-/
def fatSize : Nat := if bpb.fatSize16 ≠ 0 then bpb.fatSize16 else bpb.fatSize32

/--
`bpb.total_sector_count16 ? bpb.total_sector_count16 : bpb.total_sector_count32`.
-/
def totalSectorCount : Nat :=
  if bpb.totalSectorCount16 ≠ 0 then bpb.totalSectorCount16 else bpb.totalSectorCount32

/--
The bytes at `offset` are the eight characters, which `strncmp` compares.
-/
def fsTypeIs (offset : Nat) (fstype : List Char) : Bool :=
  fstype.zipIdx.all fun (ch, i) => (bpb.sector (offset + i)).toNat = ch.toNat

def fat12FstypeStr : List Char := ['F', 'A', 'T', '1', '2', ' ', ' ', ' ']
def fat16FstypeStr : List Char := ['F', 'A', 'T', '1', '6', ' ', ' ', ' ']
def fat32FstypeStr : List Char := ['F', 'A', 'T', '3', '2', ' ', ' ', ' ']

/--
The checks of the signature and of the names of the file system.
-/
def signed : Bool :=
  bpb.signature = 0xAA55
    && (bpb.fsTypeIs 54 fat12FstypeStr || bpb.fsTypeIs 54 fat16FstypeStr
      || bpb.fsTypeIs 82 fat32FstypeStr)

end Bpb

structure Fsinfo where
  sector : Bytes

namespace Fsinfo

variable (fsinfo : Fsinfo)

def signature1 : Nat := Bytes.read fsinfo.sector 0 4

def signature2 : Nat := Bytes.read fsinfo.sector 484 4

def freeClusters : Nat := Bytes.read fsinfo.sector 488 4

def nextFreeCluster : Nat := Bytes.read fsinfo.sector 492 4

/--
The last signature as the boot loader declares it.
-/
def signature3 : Nat := Bytes.read fsinfo.sector 510 2

/--
The last signature as the kernel declares it, which takes in the two bytes before.
-/
def signature3Wide : Nat := Bytes.read fsinfo.sector 508 4

end Fsinfo

/--
`cluster_count <= FAT12_MAX_CLUSTER` and so on.
-/
def FatType.ofClusterCount (clusterCount : Nat) : FatType :=
  if clusterCount ≤ fat12MaxCluster then .fat12
  else if clusterCount ≤ fat16MaxCluster then .fat16
  else .fat32

end Emos
