import Emos.Basic
import Emos.Lib.Fifo

/-!
This module contains what the drivers of input devices have in common: events, and a device that is driven
by interrupts and polls. After that is the driver of the PS/2 mouse.
-/

open Lib

namespace Emos.Boot

/--
A key and its flags, as an event of an input device.
-/
structure HidEvent where
  key : BitVec 16
  flags : BitVec 16
  deriving DecidableEq, Repr

inductive HidPoll where
  | noEvent
  | bufferUnderflow
  | event (e : HidEvent)
  deriving DecidableEq, Repr

def keyFlagBreak : BitVec 16 := 0x0001

/--
An interrupt with a byte, or a call of `poll_event`.
-/
inductive HidAction where
  | isr (byte : BitVec 8)
  | poll
  deriving DecidableEq, Repr

/--
A device, how many bytes it has stored and consumed, and the events that were delivered.
-/
structure HidRun (Dev : Type) where
  dev : Dev
  produced : Nat
  consumed : Nat
  delivered : List HidEvent

namespace HidRun

variable {Dev : Type} (seqbuf : Dev → Fifo (BitVec 8) 64) (isr : Dev → BitVec 8 → Dev)
  (pollEvent : Dev → Run (HidPoll × Dev))

def start (dev : Dev) : HidRun Dev := ⟨dev, 0, 0, []⟩

/--
How far an index of the buffer has moved.
-/
def moved (old new : Nat) : Nat := (new + 64 - old) % 64

def deliver (delivered : List HidEvent) : HidPoll → List HidEvent
  | .event e => delivered ++ [e]
  | _ => delivered

def step (s : HidRun Dev) : HidAction → Run (HidRun Dev)
  | .isr byte =>
    let dev := isr s.dev byte
    .ok { s with dev := dev, produced := s.produced + moved (seqbuf s.dev).stop (seqbuf dev).stop }
  | .poll => do
    let ⟨result, dev⟩ ← pollEvent s.dev
    .ok {
      dev := dev,
      produced := s.produced,
      consumed := s.consumed + moved (seqbuf s.dev).start (seqbuf dev).start,
      delivered := deliver s.delivered result }

def steps (s : HidRun Dev) : List HidAction → Run (HidRun Dev)
  | [] => .ok s
  | a :: as => do
    let s ← s.step seqbuf isr pollEvent a
    s.steps as

end HidRun

def keyFlagNegative : BitVec 16 := 0x0001

def keyFlagXMove : BitVec 16 := 0x1000

def keyFlagYMove : BitVec 16 := 0x2000

def keyMouseBtnL : BitVec 16 := 0xF000

def keyMouseBtnM : BitVec 16 := 0xF001

def keyMouseBtnR : BitVec 16 := 0xF002

namespace Ps2Mouse

inductive SequenceState where
  | default
  | xMovement
  | yMovement
  | zMovement
  deriving DecidableEq, Repr

end Ps2Mouse

open Ps2Mouse

structure Ps2Mouse where
  seqbuf : Fifo (BitVec 8) 64
  seqState : SequenceState
  prevButtonState : BitVec 8
  byte0 : BitVec 8

namespace Ps2Mouse

/--
The state of the buttons with the one of a mask taken from a byte.
-/
def setButton (prev byte mask : BitVec 8) : BitVec 8 := (prev &&& ~~~mask) ||| (byte &&& mask)

def buttonFlags (byte mask : BitVec 8) : BitVec 16 := if byte &&& mask ≠ 0 then 0 else keyFlagBreak

/--
A button whose state has changed, which does not consume the byte.
-/
def pollButton (dev : Ps2Mouse) (byte mask : BitVec 8) (key : BitVec 16) : HidPoll × Ps2Mouse :=
  (.event ⟨key, buttonFlags byte mask⟩, { dev with prevButtonState := setButton dev.prevButtonState byte mask })

def pollDefault (dev : Ps2Mouse) (byte : BitVec 8) : HidPoll × Ps2Mouse :=
  if byte &&& 0x08 ≠ 0 ∧ byte &&& 0xC0 = 0 then
    if byte &&& 0x04 ≠ dev.prevButtonState &&& 0x04 then
      dev.pollButton byte 0x04 keyMouseBtnM
    else if byte &&& 0x02 ≠ dev.prevButtonState &&& 0x02 then
      dev.pollButton byte 0x02 keyMouseBtnR
    else if byte &&& 0x01 ≠ dev.prevButtonState &&& 0x01 then
      dev.pollButton byte 0x01 keyMouseBtnL
    else
      (.bufferUnderflow, { dev with byte0 := byte, seqState := .xMovement, seqbuf := dev.seqbuf.advance 1 })
  else
    (.bufferUnderflow, { dev with seqbuf := dev.seqbuf.advance 1 })

/--
A movement whose sign is in the first byte of the packet. With the overflow bit there is an event without a
key, which does not consume the byte.
-/
def pollMovement (dev : Ps2Mouse) (byte overflow sign : BitVec 8) (flag : BitVec 16) (next : SequenceState)
    : HidPoll × Ps2Mouse :=
  if dev.byte0 &&& overflow ≠ 0 then
    (.event ⟨0, 0⟩, dev)
  else
    let event : HidEvent :=
      if dev.byte0 &&& sign ≠ 0 then
        ⟨0x100 - byte.setWidth 16, flag ||| keyFlagNegative⟩
      else
        ⟨byte.setWidth 16, flag⟩
    (.event event, { dev with seqState := next, seqbuf := dev.seqbuf.advance 1 })

def pollEvent (dev : Ps2Mouse) : Run (HidPoll × Ps2Mouse) :=
  if dev.seqbuf.start = dev.seqbuf.stop then
    .ok (.noEvent, dev)
  else
    let byte := dev.seqbuf.front
    match dev.seqState with
    | .default => .ok (dev.pollDefault byte)
    | .xMovement => .ok (dev.pollMovement byte 0x40 0x10 keyFlagXMove .yMovement)
    | .yMovement => .ok (dev.pollMovement byte 0x80 0x20 keyFlagYMove .default)
    | .zMovement => .ok (.event ⟨0, 0⟩, dev)

def mouseIsr (dev : Ps2Mouse) (byte : BitVec 8) : Ps2Mouse := { dev with seqbuf := dev.seqbuf.push byte }

/--
The mouse that `probe` leaves, which does not set the last two members.
-/
def probe (slots : Nat → BitVec 8) (prevButtonState byte0 : BitVec 8) : Ps2Mouse :=
  ⟨⟨0, 0, slots⟩, .default, prevButtonState, byte0⟩

def step : HidRun Ps2Mouse → HidAction → Run (HidRun Ps2Mouse) := HidRun.step seqbuf mouseIsr pollEvent

def steps : HidRun Ps2Mouse → List HidAction → Run (HidRun Ps2Mouse) := HidRun.steps seqbuf mouseIsr pollEvent

end Ps2Mouse

end Emos.Boot
