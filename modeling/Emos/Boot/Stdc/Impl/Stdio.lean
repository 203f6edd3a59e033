import Emos.Basic

/-!
This module contains `fread` of the boot loader's library, over the functions with which the object behind a stream
is read, and how strings and numbers are printed. Such a function gets the state of the object and a number of bytes,
and returns what it stores in the caller's memory. A width and a precision are taken from the format, not from the
arguments.
-/

namespace Emos.Boot.Stdc

variable {σ : Type}

abbrev ReadFn (σ β : Type) := σ → Nat → Run (β × List (BitVec 8) × σ)

inductive Stream (σ : Type) where
  | file (read : ReadFn σ Status)
  | dev (read : ReadFn σ Status)
  | cookie (read : ReadFn σ Int)
  | other

/--
What has been stored from the caller's pointer on.
-/
abbrev Stored := Nat → Option (BitVec 8)

def Stored.put (m : Stored) (ptr : Nat) (data : List (BitVec 8)) : Stored :=
  fun i => if ptr ≤ i ∧ i < ptr + data.length then data[i - ptr]? else m i

namespace fread

/--
The loop, `rounds` before its end. A cookie leaves the `switch` through its last branch.
-/
def go (stream : Stream σ) (size count : Nat) : Nat → Nat → Nat → Stored → σ → Run (Nat × Stored × σ)
  | 0, readCount, _, m, s => .ok (readCount, m, s)
  | rounds + 1, readCount, ptr, m, s =>
    match stream with
    | .file read | .dev read => do
      let (status, data, s) ← read s size
      let m := m.put ptr data
      if status ≠ .success then
        .ok (readCount, m, s)
      else
        go stream size count rounds (readCount + 1) (ptr + size) m s
    | .cookie read => do
      let (result, data, s) ← read s size
      let m := m.put ptr data
      if result % 2 ^ 32 ≠ count then
        .ok (readCount, m, s)
      else
        .ok (2 ^ 32 - 1, m, s)
    | .other => .ok (2 ^ 32 - 1, m, s)

end fread

def fread (stream : Stream σ) (size count : Nat) (m : Stored) (s : σ) : Run (Nat × Stored × σ) :=
  fread.go stream size count count 0 0 m s

end Emos.Boot.Stdc

namespace Emos.Boot

def sfLeft : BitVec 8 := 0x01

def sfPlus : BitVec 8 := 0x02

def sfSpace : BitVec 8 := 0x04

def sfZero : BitVec 8 := 0x08

def sfLower : BitVec 8 := 0x10

structure FmtSpec where
  flags : BitVec 8
  width : Int
  precision : Int
  base : Nat
  deriving DecidableEq, Repr

def FmtSpec.has (spec : FmtSpec) (flags : BitVec 8) : Bool := spec.flags &&& flags ≠ 0

/--
`count` times the same character, and none if `count` is negative.
-/
def padding (count : Int) (ch : BitVec 8) : List (BitVec 8) := List.replicate count.toNat ch

/--
The characters that `print_str` writes.
-/
def printStr (spec : FmtSpec) (str : List (BitVec 8)) : List (BitVec 8) :=
  let slen : Int := str.length
  let prec := if spec.precision = 0 then 2 ^ 31 - 1 else spec.precision
  let width := if spec.width < slen then slen else spec.width
  let width := if prec < slen then prec else width
  let padLen := if slen < width then width - slen else 0
  if spec.has sfLeft then
    str.take width.toNat ++ padding padLen 0x20
  else
    padding padLen 0x20 ++ str.take (width - padLen).toNat

def hexTable (spec : FmtSpec) (digit : Nat) : BitVec 8 :=
  if digit < 10 then
    BitVec.ofNat 8 (0x30 + digit)
  else if spec.has sfLower then
    BitVec.ofNat 8 (0x61 + digit - 10)
  else
    BitVec.ofNat 8 (0x41 + digit - 10)

/--
The digits of a number, the last one first. The buffer for them has 22 characters.
-/
def reversedDigits (spec : FmtSpec) : Nat → Nat → List (BitVec 8)
  | 0, _ => []
  | room + 1, num =>
    if num = 0 then
      []
    else
      hexTable spec (num % spec.base) :: reversedDigits spec room (num / spec.base)

/--
The characters that `do_print_int` writes.
-/
def doPrintInt (num : BitVec 64) (spec : FmtSpec) (isSigned : Bool) : List (BitVec 8) :=
  let negative := isSigned && spec.base = 10 && num.msb
  let num := if negative then -num else num
  let sign := if negative || spec.has (sfSpace ||| sfPlus) then
    [if negative then 0x2d else if spec.has sfSpace then 0x20 else 0x2b] else []
  let digits := reversedDigits spec 22 num.toNat
  let rbuf := if digits = [] then [0x30] else digits
  let padLen := if spec.has sfZero then 0 else spec.width - max spec.precision rbuf.length
  let precision := if spec.has sfZero then max spec.width spec.precision else spec.precision
  let pad := padding (padLen - sign.length) 0x20
  let zeroes := padding (precision - rbuf.length) 0x30
  if spec.has sfLeft then
    sign ++ zeroes ++ rbuf.reverse ++ pad
  else
    sign ++ pad ++ zeroes ++ rbuf.reverse

/--
The characters that `vsnprintf` puts into a buffer of this length, with the terminating zero. What
does not fit is left out.
-/
def vsnprintf (len : Nat) (chars : List (BitVec 8)) : List (BitVec 8) := (chars ++ [0]).take len

/--
`snprintf(buf, len, "%s%d", str, num)`
-/
def snprintfStrInt (len : Nat) (str : List (BitVec 8)) (num : BitVec 32) : List (BitVec 8) :=
  vsnprintf len (printStr ⟨0, 0, 0, 0⟩ str ++ doPrintInt (num.signExtend 64) ⟨0, 0, 0, 10⟩ true)

end Emos.Boot
