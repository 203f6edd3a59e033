import Emos.Boot.Hid.Impl.Hid

/-!
This module contains the driver of the PS/2 keyboard: what an interrupt stores, and what a poll makes of it.
-/

open Lib

namespace Emos.Boot

def keyNone : BitVec 16 := 0x00

def keyPause : BitVec 16 := 0x48

namespace Ps2Keyboard

inductive SequenceState where
  | default
  | extended
  | break
  | breakExtended
  | pause1
  | pause2
  | pause3
  | pause4
  | pause5
  | pause6
  | pause7
  | ctrlPause1
  | ctrlPause2
  | ctrlPause3
  deriving DecidableEq, Repr

inductive ScancodeSet where
  | set1
  | set2
  deriving DecidableEq, Repr

end Ps2Keyboard

open Ps2Keyboard

structure Ps2Keyboard where
  seqbuf : Fifo (BitVec 8) 64
  seqState : SequenceState
  scancodeSet : ScancodeSet

namespace Ps2Keyboard

/--
The values of the `KEY_` constants.
-/
def codeTableSet1NoextLow : Array (BitVec 16) := #[
  0x00, 0x29, 0x1E, 0x1F, 0x20, 0x21, 0x22, 0x23, 0x24, 0x25, 0x26, 0x27,
  0x2D, 0x2E, 0x2A, 0x2B, 0x14, 0x1A, 0x08, 0x15, 0x17, 0x1C, 0x18, 0x0C,
  0x12, 0x13, 0x2F, 0x30, 0x28, 0xE0, 0x04, 0x16, 0x07, 0x09, 0x0A, 0x0B,
  0x0D, 0x0E, 0x0F, 0x33, 0x34, 0x35, 0xE1, 0x31, 0x1D, 0x1B, 0x06, 0x19,
  0x05, 0x11, 0x10, 0x36, 0x37, 0x38, 0xE5, 0x55, 0xE2, 0x2C, 0x39, 0x3A,
  0x3B, 0x3C, 0x3D, 0x3E, 0x3F, 0x40, 0x41, 0x42, 0x43, 0x53, 0x47, 0x5F,
  0x60, 0x61, 0x56, 0x5C, 0x5D, 0x5E, 0x57, 0x59, 0x5A, 0x5B, 0x62, 0x63,
  0x00, 0x00, 0x00, 0x44, 0x45, 0x67, 0x00, 0x00, 0x00, 0x00, 0x00, 0x00,
  0x00, 0x00, 0x00, 0x00, 0x68, 0x69, 0x6A, 0x6B, 0x6C, 0x6D, 0x6E, 0x6F,
  0x70, 0x71, 0x72, 0x00, 0x00, 0x00, 0x00, 0x00, 0x00, 0x00, 0x73, 0x00,
  0x00, 0x00, 0x00, 0x00, 0x00, 0x00, 0x00, 0x00
]

def codeTableSet1ExtLow : Array (BitVec 16) := #[
  0x00, 0x00, 0x00, 0x00, 0x00, 0x00, 0x00, 0x00, 0x00, 0x00, 0x00, 0x00,
  0x00, 0x00, 0x00, 0x00, 0x00, 0x00, 0x00, 0x00, 0x00, 0x00, 0x00, 0x00,
  0x00, 0x00, 0x00, 0x00, 0x00, 0x00, 0x00, 0x00, 0x00, 0x00, 0x00, 0x00,
  0x00, 0x00, 0x00, 0x00, 0x00, 0x00, 0x00, 0x00, 0x00, 0x00, 0x00, 0x00,
  0x00, 0x00, 0x00, 0x00, 0x00, 0x00, 0x00, 0x00, 0x00, 0x00, 0x00, 0x00,
  0x00, 0x00, 0x00, 0x00, 0x00, 0x00, 0x00, 0x00, 0x00, 0x00, 0x00, 0x00,
  0x00, 0x00, 0x00, 0x00, 0x00, 0x00, 0x00, 0x00, 0x00, 0x00, 0x00, 0x00,
  0x00, 0x00, 0x00, 0x00, 0x00, 0x00, 0x00, 0x00, 0x00, 0x00, 0x00, 0x00,
  0x00, 0x00, 0x00, 0x00, 0x00, 0x00, 0x00, 0x00, 0x00, 0x00, 0x00, 0x00,
  0x00, 0x00, 0x00, 0x00, 0x00, 0x00, 0x00, 0x00, 0x00, 0x00, 0x00, 0x00,
  0x00, 0x00, 0x00, 0x00, 0x00, 0x00, 0x00, 0x00
]

def codeTableSet2NoextLow : Array (BitVec 16) := #[
  0x01, 0x42, 0x00, 0x3E, 0x3C, 0x3A, 0x3B, 0x45, 0x68, 0x43, 0x41, 0x3F,
  0x3D, 0x2B, 0x35, 0x67, 0x69, 0xE2, 0xE1, 0x00, 0xE0, 0x14, 0x1E, 0x00,
  0x6A, 0x00, 0x1D, 0x16, 0x04, 0x1A, 0x1F, 0x00, 0x6B, 0x06, 0x1B, 0x07,
  0x08, 0x21, 0x20, 0x00, 0x6C, 0x2C, 0x19, 0x09, 0x17, 0x15, 0x22, 0x00,
  0x6D, 0x11, 0x05, 0x0B, 0x0A, 0x1C, 0x23, 0x00, 0x6E, 0x00, 0x10, 0x0D,
  0x18, 0x24, 0x25, 0x00, 0x6F, 0x36, 0x0E, 0x0C, 0x12, 0x27, 0x26, 0x00,
  0x70, 0x37, 0x38, 0x0F, 0x33, 0x13, 0x2D, 0x00, 0x71, 0x00, 0x34, 0x00,
  0x2F, 0x2E, 0x00, 0x72, 0x39, 0xE5, 0x28, 0x30, 0x00, 0x31, 0x00, 0x73,
  0x00, 0x00, 0x00, 0x00, 0x00, 0x00, 0x2A, 0x00, 0x00, 0x59, 0x00, 0x5C,
  0x5F, 0x85, 0x00, 0x00, 0x62, 0x63, 0x5A, 0x5D, 0x5E, 0x60, 0x29, 0x53,
  0x44, 0x57, 0x5B, 0x56, 0x55, 0x61, 0x47, 0x00, 0x00, 0x00, 0x00, 0x40
]

def codeTableSet2ExtLow : Array (BitVec 16) := #[
  0x00, 0x00, 0x00, 0x00, 0x00, 0x00, 0x00, 0x00, 0x00, 0x00, 0x00, 0x00,
  0x00, 0x00, 0x00, 0x00, 0x00, 0xE6, 0x00, 0x00, 0xE4, 0x00, 0x00, 0x00,
  0x00, 0x00, 0x00, 0x00, 0x00, 0x00, 0x00, 0xE3, 0x00, 0x00, 0x00, 0x00,
  0x00, 0x00, 0x00, 0xE7, 0x00, 0x00, 0x00, 0x00, 0x00, 0x00, 0x00, 0x00,
  0x00, 0x00, 0x00, 0x00, 0x00, 0x00, 0x00, 0x66, 0x00, 0x00, 0x00, 0x00,
  0x00, 0x00, 0x00, 0xF8, 0x00, 0x00, 0x00, 0x00, 0x00, 0x00, 0x00, 0x00,
  0x00, 0x00, 0x00, 0x00, 0x00, 0x00, 0x00, 0x00, 0x00, 0x00, 0x00, 0x00,
  0x00, 0x00, 0x00, 0x00, 0x00, 0x00, 0x58, 0x00, 0x00, 0x00, 0xF9, 0x00,
  0x00, 0x00, 0x00, 0x00, 0x00, 0x00, 0x00, 0x00, 0x00, 0x4D, 0x00, 0x50,
  0x4A, 0x00, 0x00, 0x00, 0x49, 0x4C, 0x51, 0x00, 0x4F, 0x52, 0x00, 0x00,
  0x00, 0x00, 0x4E, 0x00, 0x00, 0x4B, 0x00, 0x00
]

/--
The size of a table in bytes, of which each entry takes two.
-/
def sizeof (table : Array (BitVec 16)) : Nat := 2 * table.size

def entry (table : Array (BitVec 16)) (i : Nat) : Run (BitVec 16) :=
  match table[i]? with
  | none => .error .access
  | some keycode => .ok keycode

/--
The state after a byte, and the event that is returned.
-/
def translateScancodeSet1 (state : SequenceState) (byte : BitVec 8) : Run (SequenceState × HidEvent) :=
  let i := byte.toNat
  if byte = 0xE0 then
    .ok (.extended, ⟨keyNone, 0⟩)
  else if byte = 0xE1 then
    .ok (.pause1, ⟨keyNone, 0⟩)
  else
    match state with
    | .default =>
      if byte = 0xF1 ∨ byte = 0xF2 ∨ byte = 0xFC then
        .ok (.default, ⟨keyNone, 0⟩)
      else if i < sizeof codeTableSet1NoextLow then do
        let keycode ← entry codeTableSet1NoextLow i
        .ok (.default, ⟨keycode, 0⟩)
      else if i < 128 + sizeof codeTableSet1NoextLow then do
        let keycode ← entry codeTableSet1NoextLow (i - 128)
        .ok (.default, ⟨keycode, keyFlagBreak⟩)
      else
        .ok (.default, ⟨keyNone, 0⟩)
    | .extended =>
      if byte = 0x46 then
        .ok (.ctrlPause1, ⟨keyNone, 0⟩)
      else if i < sizeof codeTableSet1ExtLow then do
        let keycode ← entry codeTableSet1ExtLow i
        .ok (.default, ⟨keycode, 0⟩)
      else if i < 128 + sizeof codeTableSet1ExtLow then do
        let keycode ← entry codeTableSet1ExtLow (i - 128)
        .ok (.default, ⟨keycode, keyFlagBreak⟩)
      else
        .ok (.extended, ⟨keyNone, 0⟩)
    | .pause1 => .ok (if byte = 0x1D then .pause2 else .default, ⟨keyNone, 0⟩)
    | .pause2 => .ok (if byte = 0x45 then .pause3 else .default, ⟨keyNone, 0⟩)
    | .pause3 => .ok (if byte = 0xE1 then .pause4 else .default, ⟨keyNone, 0⟩)
    | .pause4 => .ok (if byte = 0x9D then .pause5 else .default, ⟨keyNone, 0⟩)
    | .pause5 => .ok (.default, ⟨if byte = 0xC5 then keyPause else keyNone, 0⟩)
    | .ctrlPause1 => .ok (if byte = 0xE0 then .ctrlPause2 else .default, ⟨keyNone, 0⟩)
    | .ctrlPause2 => .ok (.default, if byte = 0xC6 then ⟨keyPause, keyFlagBreak⟩ else ⟨keyNone, 0⟩)
    | _ => .ok (.default, ⟨keyNone, 0⟩)

/--
The branch of a byte that is not behind an extend prefix.
-/
def translatePlain (flags : BitVec 16) (byte : BitVec 8) : Run (SequenceState × Option HidEvent) :=
  if byte = 0xF1 ∨ byte = 0xF2 ∨ byte = 0xFC then
    .ok (.default, none)
  else if byte.toNat < sizeof codeTableSet2NoextLow then do
    let keycode ← entry codeTableSet2NoextLow byte.toNat
    .ok (.default, some ⟨keycode, flags⟩)
  else
    .ok (.default, none)

/--
The branch of a byte that is behind an extend prefix. A state that is set for the byte of the pause key is
replaced at once.
-/
def translateExtended (state : SequenceState) (flags : BitVec 16) (byte : BitVec 8)
    : Run (SequenceState × Option HidEvent) :=
  let state := if byte = 0x7E then .ctrlPause1 else state
  if byte.toNat < sizeof codeTableSet2ExtLow then do
    let keycode ← entry codeTableSet2ExtLow byte.toNat
    .ok (.default, some ⟨keycode, flags⟩)
  else
    .ok (state, none)

def translateScancodeSet2 (state : SequenceState) (byte : BitVec 8) : Run (SequenceState × Option HidEvent) :=
  if byte = 0xF0 then
    .ok (if state = .extended then .breakExtended else .break, none)
  else if byte = 0xE0 then
    .ok (.extended, none)
  else if byte = 0xE1 then
    .ok (.pause1, none)
  else
    match state with
    | .break => translatePlain keyFlagBreak byte
    | .default => translatePlain 0 byte
    | .breakExtended => translateExtended state keyFlagBreak byte
    | .extended => translateExtended state 0 byte
    | .pause1 => .ok (if byte = 0x14 then .pause2 else .default, none)
    | .pause2 => .ok (if byte = 0x77 then .pause3 else .default, none)
    | .pause3 => .ok (if byte = 0xE1 then .pause4 else .default, none)
    | .pause4 => .ok (if byte = 0xF0 then .pause5 else .default, none)
    | .pause5 => .ok (if byte = 0x14 then .pause6 else .default, none)
    | .pause6 => .ok (if byte = 0xF0 then .pause7 else .default, none)
    | .pause7 => .ok (.default, if byte = 0x77 then some ⟨keyPause, 0⟩ else none)
    | .ctrlPause1 => .ok (if byte = 0xE0 then .ctrlPause2 else .default, none)
    | .ctrlPause2 => .ok (if byte = 0xF0 then .ctrlPause3 else .default, none)
    | .ctrlPause3 => .ok (.default, if byte = 0x7E then some ⟨keyPause, keyFlagBreak⟩ else none)

def consume (dev : Ps2Keyboard) (state : SequenceState) : Ps2Keyboard :=
  { dev with seqState := state, seqbuf := dev.seqbuf.advance 1 }

/--
The case of set 1 falls through to the one of set 2, which replaces the status.
-/
def pollEvent (dev : Ps2Keyboard) : Run (HidPoll × Ps2Keyboard) :=
  if dev.seqbuf.start = dev.seqbuf.stop then
    .ok (.noEvent, dev)
  else do
    let dev ← match dev.scancodeSet with
      | .set1 => do
        let ⟨state, _⟩ ← translateScancodeSet1 dev.seqState dev.seqbuf.front
        .ok (dev.consume state)
      | .set2 => .ok dev
    let ⟨state, event⟩ ← translateScancodeSet2 dev.seqState dev.seqbuf.front
    .ok (match event with | none => .bufferUnderflow | some e => .event e, dev.consume state)

def keyboardIsr (dev : Ps2Keyboard) (byte : BitVec 8) : Ps2Keyboard := { dev with seqbuf := dev.seqbuf.push byte }

/--
The keyboard that `probe` leaves.
-/
def probe (slots : Nat → BitVec 8) (scancodeSet : ScancodeSet) : Ps2Keyboard :=
  ⟨⟨0, 0, slots⟩, .default, scancodeSet⟩

end Ps2Keyboard

namespace Ps2Keyboard

def step : HidRun Ps2Keyboard → HidAction → Run (HidRun Ps2Keyboard) := HidRun.step seqbuf keyboardIsr pollEvent

def steps : HidRun Ps2Keyboard → List HidAction → Run (HidRun Ps2Keyboard) :=
  HidRun.steps seqbuf keyboardIsr pollEvent

end Ps2Keyboard

end Emos.Boot
