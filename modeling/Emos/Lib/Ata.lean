import Mathlib.Algebra.Ring.Nat
import Mathlib.Data.List.Range

/-!
This module contains a disk with the registers of the ATA command block. A register of an address or a count
holds the last byte that was written to it and the one before. The disk knows the commands that read sectors
with an address of 28 and of 48 bits; a command that it does not know ends with an error.
-/

namespace Lib

namespace Ata

inductive Reg where
  | features
  | count
  | lbaLow
  | lbaMid
  | lbaHigh
  | device
  | command
  deriving DecidableEq, Repr

structure Pair where
  current : BitVec 8
  previous : BitVec 8
  deriving DecidableEq, Repr

def Pair.push (p : Pair) (v : BitVec 8) : Pair := ⟨v, p.current⟩

/--
`pending` are the sectors that are still to be read from the data port. If `failed`, the command ends with an
error after them.
-/
structure Disk where
  features : Pair
  count : Pair
  lbaLow : Pair
  lbaMid : Pair
  lbaHigh : Pair
  device : BitVec 8
  pending : List Nat
  failed : Bool
  deriving DecidableEq, Repr

namespace Disk

variable (d : Disk)

def lba28 : Nat :=
  d.device.toNat % 16 * 2 ^ 24 + d.lbaHigh.current.toNat * 2 ^ 16 + d.lbaMid.current.toNat * 2 ^ 8
    + d.lbaLow.current.toNat

def lba48 : Nat :=
  d.lbaHigh.previous.toNat * 2 ^ 40 + d.lbaMid.previous.toNat * 2 ^ 32 + d.lbaLow.previous.toNat * 2 ^ 24
    + d.lbaHigh.current.toNat * 2 ^ 16 + d.lbaMid.current.toNat * 2 ^ 8 + d.lbaLow.current.toNat

/--
Zero stands for the largest count.
-/
def count8 : Nat := if d.count.current = 0 then 256 else d.count.current.toNat

def count16 : Nat :=
  let n := d.count.previous.toNat * 2 ^ 8 + d.count.current.toNat
  if n = 0 then 65536 else n

/--
Read `n` sectors from `first` on. There is none at `limit` and beyond.
-/
def start (first n limit : Nat) : Disk :=
  { d with pending := List.range' first (min n (limit - first)), failed := limit < first + n }

def abort : Disk := { d with pending := [], failed := true }

/--
Bit 6 of the device register tells that the address is the number of a sector.
-/
def execute (command : BitVec 8) : Disk :=
  if d.device.getLsbD 6 then
    if command = 0x20#8 then
      d.start d.lba28 d.count8 (2 ^ 28)
    else if command = 0x24#8 then
      d.start d.lba48 d.count16 (2 ^ 48)
    else
      d.abort
  else
    d.abort

def out (r : Reg) (v : BitVec 8) : Disk :=
  match r with
  | .features => { d with features := d.features.push v }
  | .count => { d with count := d.count.push v }
  | .lbaLow => { d with lbaLow := d.lbaLow.push v }
  | .lbaMid => { d with lbaMid := d.lbaMid.push v }
  | .lbaHigh => { d with lbaHigh := d.lbaHigh.push v }
  | .device => { d with device := v }
  | .command => d.execute v

/--
The status register: ready, with bit 3 for data to read and bit 0 for an error.
-/
def status : BitVec 8 :=
  if d.pending ≠ [] then
    0x58#8
  else if d.failed then
    0x51#8
  else
    0x50#8

/--
What one sector's worth of reads from the data port gives. If there is no data to read, no sector is known.
-/
def takeSector : Option Nat × Disk := (d.pending.head?, { d with pending := d.pending.tail })

theorem pending_start_iff {first n limit : Nat} (hfirst : first < limit) (hn : 0 < n) (lba m : Nat)
    : (d.start first n limit).pending = List.range' lba m ↔ first = lba ∧ min n (limit - first) = m := by
  have hpos : 0 < min n (limit - first) := by lia
  constructor
  . intro h
    have hlength := congrArg List.length h
    have hhead := congrArg List.head? h
    simp only [start, List.length_range', List.head?_range'] at hlength hhead
    rw [if_neg (by omega), if_neg (by omega), Option.some.injEq] at hhead
    exact ⟨hhead, hlength⟩
  . intro ⟨hlba, hlength⟩
    simp only [start]
    rw [hlba] at hlength ⊢
    rw [hlength]

end Disk

end Ata

end Lib
