import Emos.Boot.Stdc.Impl.Stdio
import Emos.Boot.Stdc.Impl.String
import Mathlib.Data.Nat.Digits.Defs

/-!
This module contains `boot/font/font.c`. Memory that `malloc` returns is known by its address, and an offset into
it may be outside of it.
-/

open Lib

namespace Emos.Boot

/--
The number in bytes, lowest byte first.
-/
def littleEndian (bytes : List (BitVec 8)) : Nat := Nat.ofDigits 256 (bytes.map BitVec.toNat)

/--
What `fopen` returns, where the object behind the stream is in state `start` after `fseek` has gone to the end and
back, and `fileSize` is what `ftell` returns in between.
-/
structure FontFile (σ : Type) where
  read : Stdc.ReadFn σ Status
  start : σ
  /-- `fseek(fp, 0, SEEK_SET)` -/
  rewind : σ → σ
  fileSize : Nat

/--
Memory that is allocated, and what has been stored in it.
-/
structure FontBlock where
  size : Nat
  data : Stdc.Stored

structure FontState where
  fontFileData : Option Nat
  heap : Nat → Option FontBlock

/--
A call of `font_use`, and what the functions that it calls return. The array `signature` is on the stack and not
initialized.
-/
inductive FontCall (σ : Type) where
  | reset
  | notFound
  | file (fp : FontFile σ) (signature : Nat → BitVec 8) (malloc : Option Nat)

namespace FontState

def byte (st : FontState) (p offset : Nat) : Run (BitVec 8) :=
  match st.heap p with
  -- the memory was freed
  | none => .error .access
  | some block =>
    match if offset < block.size then block.data offset else none with
    | none => .error .access
    | some b => .ok b

def bytes (st : FontState) (p offset : Nat) : Nat → Run (List (BitVec 8))
  | 0 => .ok []
  | n + 1 => do
    let b ← st.byte p offset
    let rest ← st.bytes p (offset + 1) n
    .ok (b :: rest)

/--
`free`, also of a null pointer.
-/
def free (st : FontState) : Option Nat → FontState
  | none => st
  | some p => { st with heap := Function.update st.heap p none }

end FontState

end Emos.Boot
