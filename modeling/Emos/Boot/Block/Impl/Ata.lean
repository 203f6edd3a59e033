import Emos.Lib.Ata

/-!
This module contains how the boot loader reads sectors from an ATA disk: the registers that it writes for a
command, and what it then reads from the data port. The disk is not busy when its status is read.
-/

open Lib.Ata

namespace Emos.Boot

inductive IdeStatus where
  | success
  | hardwareFailed
  deriving DecidableEq, Repr

structure AtaCommand where
  extended : Bool
  command : BitVec 8
  features : BitVec 16
  count : BitVec 16
  sector : BitVec 16
  cylinderLow : BitVec 16
  cylinderHigh : BitVec 16
  driveHead : BitVec 8
  deriving DecidableEq, Repr

def switchDevice (d : Disk) (slave : BitVec 8) : Disk :=
  let bit := if slave ≠ 0 then 0x10#8 else 0x00#8
  if d.device &&& 0x10#8 ≠ bit then
    d.out .device (0xA0#8 ||| bit)
  else
    d

/--
`(v >> 8) & 0xFF`
-/
def highByte (v : BitVec 16) : BitVec 8 := ((v >>> 8) &&& 0xFF#16).setWidth 8

def lowByte (v : BitVec 16) : BitVec 8 := (v &&& 0xFF#16).setWidth 8

def fillRegisters (d : Disk) (cmd : AtaCommand) : Disk :=
  let d := d.out .device cmd.driveHead
  let d :=
    if cmd.extended then
      let d := d.out .features (highByte cmd.features)
      let d := d.out .count (highByte cmd.count)
      let d := d.out .lbaLow (highByte cmd.sector)
      let d := d.out .lbaMid (highByte cmd.cylinderLow)
      d.out .lbaHigh (highByte cmd.cylinderHigh)
    else
      d
  let d := d.out .features (lowByte cmd.features)
  let d := d.out .count (lowByte cmd.count)
  let d := d.out .lbaLow (lowByte cmd.sector)
  let d := d.out .lbaMid (lowByte cmd.cylinderLow)
  d.out .lbaHigh (lowByte cmd.cylinderHigh)

/--
The registers that are read back after the command are not modelled, as no caller uses them.
-/
def sendCommand (d : Disk) (cmd : AtaCommand) : IdeStatus × Disk :=
  let d := switchDevice d (cmd.driveHead &&& 0x10#8)
  let d := fillRegisters d cmd
  let d := d.out .command cmd.command
  if d.status &&& 0x01#8 ≠ 0 then
    (.hardwareFailed, d)
  else if d.status &&& 0x21#8 ≠ 0 then
    (.hardwareFailed, d)
  else
    (.success, d)

/--
`n` rounds of the loop that reads the data port. The blocks are the sectors that the disk sends.
-/
def sendCommandPioInput.go : Nat → Disk → List (Option Nat) × Disk
  | 0, d => ([], d)
  | n + 1, d =>
    if d.status &&& 0x21#8 ≠ 0 then
      ([], d)
    else
      let (block, d) := d.takeSector
      let (rest, d) := sendCommandPioInput.go n d
      (block :: rest, d)

/--
The loop has at least one round.
-/
def sendCommandPioInput (d : Disk) (cmd : AtaCommand) (count : Nat) : IdeStatus × List (Option Nat) × Disk :=
  let (status, d) := sendCommand d cmd
  if status ≠ .success then
    (status, [], d)
  else
    let (blocks, d) := sendCommandPioInput.go (max count 1) d
    if d.status &&& 0x21#8 ≠ 0 then
      (.hardwareFailed, blocks, d)
    else
      (.success, blocks, d)

/--
`(lba >> k) & 0xFF`
-/
def lbaByte (lba : BitVec 64) (k : Nat) : BitVec 64 := lba.sshiftRight k &&& 0xFF#64

/--
The command for `count` sectors, where `count` is at most `UINT16_MAX`.
-/
def readCommand (slave : Bool) (lba : BitVec 64) (count : Nat) : AtaCommand :=
  let drive := 0x40#8 ||| if slave then 0x10#8 else 0x00#8
  if lba.slt (1#64 <<< 28) then
    { extended := false
      command := 0x20#8
      features := 0
      count := BitVec.ofNat 16 count
      sector := (lbaByte lba 0).setWidth 16
      cylinderLow := (lbaByte lba 8).setWidth 16
      cylinderHigh := (lbaByte lba 16).setWidth 16
      driveHead := drive ||| (lba.sshiftRight 24 &&& 0xF#64).setWidth 8 }
  else
    { extended := true
      command := 0x24#8
      features := 0
      count := BitVec.ofNat 16 count
      sector := (lbaByte lba 24 <<< 8 ||| lbaByte lba 0).setWidth 16
      cylinderLow := (lbaByte lba 32 <<< 8 ||| lbaByte lba 8).setWidth 16
      cylinderHigh := (lbaByte lba 40 <<< 8 ||| lbaByte lba 16).setWidth 16
      driveHead := drive }

def ataRead (d : Disk) (slave : Bool) (lba : BitVec 64) (count : Nat) : IdeStatus × List (Option Nat) × Disk :=
  let count := if count > 65535 then 65535 else count
  sendCommandPioInput d (readCommand slave lba count) count

end Emos.Boot
