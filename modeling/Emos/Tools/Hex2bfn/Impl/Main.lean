import Emos.Lib.Sparse
import Mathlib.Algebra.Ring.Int.Defs
import Mathlib.Data.BitVec

/-!
This module contains `hex2bfn.py`, which makes a font of the boot loader from one whose glyphs are lines of text. An
exception is `none`. Text is ASCII.
-/

open Lib

namespace Emos.Tools.Hex2bfn

def hexDigit (c : Char) : Option Nat :=
  if '0' ≤ c ∧ c ≤ '9' then
    some (c.toNat - '0'.toNat)
  else if 'a' ≤ c ∧ c ≤ 'f' then
    some (c.toNat - 'a'.toNat + 10)
  else if 'A' ≤ c ∧ c ≤ 'F' then
    some (c.toNat - 'A'.toNat + 10)
  else
    none

namespace int16

/--
The digits behind a number `n`. There may be an underscore in front of each of them.
-/
def digits (n : Nat) : List Char → Option Nat
  | [] => some n
  | '_' :: c :: s => do
    let d ← hexDigit c
    digits (16 * n + d) s
  | c :: s => do
    let d ← hexDigit c
    digits (16 * n + d) s

def magnitude : List Char → Option Nat
  | '0' :: 'x' :: '_' :: s | '0' :: 'X' :: '_' :: s | '0' :: 'x' :: s | '0' :: 'X' :: s | s =>
    match s with
    | [] | '_' :: _ => none
    | s => digits 0 s

end int16

def bytes4 (n : Nat) : List (BitVec 8) := (List.range 4).map fun i => BitVec.ofNat 8 (n / 256 ^ i)

structure BinFile where
  content : List (BitVec 8)
  pos : Nat

def BinFile.seek (file : BinFile) (pos : Int) : Option BinFile :=
  if pos < 0 then none else some { file with pos := pos.toNat }

def BinFile.write (file : BinFile) (data : List (BitVec 8)) : BinFile :=
  ⟨Sparse.writeAt 0#8 file.content file.pos data, file.pos + data.length⟩

end Emos.Tools.Hex2bfn
