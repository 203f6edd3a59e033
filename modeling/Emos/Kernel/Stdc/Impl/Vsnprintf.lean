import Emos.Kernel.Stdc.Impl.Spec

/-!
This module contains `vcprintf`, which emits characters to a function that never stops it, and `vsnprintf`. A byte
that is stored behind the end of the buffer is a fault, and the buffer does not reach beyond the end of the address
space.
-/

open Lib

namespace Emos.Kernel

namespace vcprintf

def printChar (spec : FmtSpec) (args : VaList) : List (BitVec 8) × VaList :=
  let left := spec.has sfLeft
  let ⟨width, args⟩ : BitVec 32 × VaList :=
    if spec.width = 0 then
      (1, args)
    else if spec.width = widthArg then
      (args.int, args.next)
    else
      (spec.width.signExtend 32, args)
  let args := if spec.precision = precArg then args.next else args
  let ch := args.int.setWidth 8
  -- a width that is not positive wraps around
  let pad := List.replicate (width - 1).toNat 0x20
  (if left then ch :: pad else pad ++ [ch], args.next)

def printStr (spec : FmtSpec) (args : VaList) : List (BitVec 8) × VaList :=
  let left := spec.has sfLeft
  let ⟨width, args⟩ : Int × VaList := if spec.width = widthArg then (max args.int.toInt 0, args.next) else (0, args)
  let ⟨prec, args⟩ : Int × VaList :=
    if spec.precision = precArg then (args.int.toInt, args.next) else (2 ^ 31 - 1, args)
  let str := (args 0).str.getD nullFallback
  let slen : Int := str.strlen
  let width := if width < slen then slen else width
  let width := if prec < slen then prec else width
  let padLen := if slen < width then width - slen else 0
  let pad := List.replicate padLen.toNat 0x20
  let chars :=
    if left then
      str.bytes.take width.toNat ++ pad
    else
      pad ++ str.bytes.take (width - padLen).toNat
  (chars, args.next)

def doPrintInt (num : BitVec 64) (spec : FmtSpec) (isSigned : Bool) : Run (List (BitVec 8)) := do
  let negative := isSigned && spec.base = 10 && num.msb
  let num := if negative then -num else num
  let signChar := if negative then 0x2d else if spec.has sfSpace then 0x20 else 0x2b
  let digits ← storeDigits spec 22 num.toNat
  let rbuf := if digits = [] then [0x30] else digits
  let left := spec.has sfLeft
  let padLen := if spec.has sfZero then 0 else spec.width.toInt - max spec.precision.toInt rbuf.length
  let precision : BitVec 16 :=
    if spec.has sfZero then BitVec.ofInt 16 (max spec.width.toInt spec.precision.toInt) else spec.precision
  let sign := if negative || spec.has (sfSpace ||| sfPlus) then [signChar] else []
  let padLen := padLen - sign.length
  let pad := List.replicate padLen.toNat 0x20
  let zeroes := List.replicate (precision.toInt - rbuf.length).toNat 0x30
  .ok (sign ++ (if left then [] else pad) ++ zeroes ++ rbuf.reverse ++ (if left then pad else []))

def printInt (spec : FmtSpec) (args : VaList) : Run (List (BitVec 8) × VaList) := do
  let ⟨num, isSigned⟩ := fetchNumber spec.type args
  let args := args.next
  let ⟨width, args⟩ : BitVec 24 × VaList :=
    if spec.width = widthArg then (args.int.setWidth 24, args.next) else (spec.width, args)
  let ⟨precision, args⟩ : BitVec 16 × VaList :=
    if spec.precision = precArg then (args.int.setWidth 16, args.next) else (spec.precision, args)
  let hasPrefix := spec.has sfPrefix && spec.base ≠ 10
  let ⟨zero, width⟩ : List (BitVec 8) × BitVec 24 :=
    if hasPrefix && 0 < width.toInt then ([0x30], width - 1) else ([], width)
  let ⟨x, width⟩ : List (BitVec 8) × BitVec 24 :=
    if hasPrefix && 0 < width.toInt && spec.base = 16 then
      ([if spec.has sfLower then 0x78 else 0x58], width - 1)
    else
      ([], width)
  let chars ← doPrintInt num { spec with width := width, precision := precision } isSigned
  .ok (zero ++ x ++ chars, args)

/--
One conversion.
-/
def printSpec (spec : FmtSpec) (args : VaList) : Run (List (BitVec 8) × VaList) :=
  match spec.type with
  | .percent => .ok ([0x25], args)
  | .wchar => .ok (printWchar spec args)
  | .char => .ok (printChar spec args)
  | .wstr => .ok (printWstr spec args)
  | .str => .ok (printStr spec args)
  | .double | .longDouble => .ok (printFloat spec args)
  | .invalid => .ok ([], args)
  | _ => printInt spec args

/--
The loop over the format, with what is emitted so far. `fuel` bounds the rounds.
-/
def go : Nat → List (BitVec 8) → VaList → List (BitVec 8) → Run (List (BitVec 8))
  | _, [], _, out => .ok out
  | 0, _ :: _, _, _ => .error .hang
  | fuel + 1, c :: fmt, args, out =>
    if c ≠ 0x25 then
      go fuel fmt args (out ++ [c])
    else do
      let ⟨spec, fmt⟩ := decodeSpec fmt
      let ⟨chars, args⟩ ← printSpec spec args
      go fuel fmt args (out ++ chars)

end vcprintf

/--
Each round of the loop takes at least one character of the format.
-/
def vcprintf (fmt : CString) (args : VaList) : Run PrintfResult := do
  let out ← vcprintf.go fmt.bytes.length fmt.bytes args []
  .ok ⟨out ++ [0], BitVec.ofNat 32 out.length⟩

end Emos.Kernel

namespace Emos.Kernel

def strnlen (str : CString) (maxlen : Nat) : Nat := min str.strlen (maxlen + 1)

namespace vsnprintf

/--
The loops that store the same character as long as `count` is positive and there is room.
-/
def fill (count : Int) (len : Nat) (ch : BitVec 8) : List (BitVec 8) := List.replicate (min count.toNat len) ch

def printChar (len : Nat) (spec : FmtSpec) (args : VaList) : Run (List (BitVec 8) × VaList) :=
  let left := spec.has sfLeft
  let width := if spec.width = 0 then 1 else spec.width
  let ⟨width, args⟩ : BitVec 24 × VaList :=
    if width = widthArg then (args.int.setWidth 24, args.next) else (width, args)
  let args := if spec.precision = precArg then args.next else args
  let ch := args.int.setWidth 8
  -- the width is compared as an unsigned number
  let width := (width.signExtend 32).toNat
  let room := len
  let len := if width < len then width else len
  let chars :=
    if left then
      if len = 0 then [] else ch :: List.replicate (len - 1) 0x20
    else
      List.replicate (sub32 len 1) 0x20 ++ [ch]
  if room < chars.length then .error .access else .ok (chars, args.next)

def printStr (len : Nat) (spec : FmtSpec) (args : VaList) : List (BitVec 8) × VaList :=
  let left := spec.has sfLeft
  let ⟨width, args⟩ : BitVec 24 × VaList :=
    if spec.width = widthArg then (args.int.setWidth 24, args.next) else (spec.width, args)
  let args := if spec.precision = precArg then args.next else args
  let str := (args 0).str.getD nullFallback
  let slen : Int := if 0 < width.toInt then width.toInt else strnlen str len
  let padLen := width.toInt - slen
  let padLeft := if left then [] else fill padLen len 0x20
  let len := len - padLeft.length
  let body := str.bytes.take (min slen.toNat len)
  let len := len - body.length
  let padRight := if left then fill padLen len 0x20 else []
  (padLeft ++ body ++ padRight, args.next)

def doPrintInt (len : Nat) (num : BitVec 64) (spec : FmtSpec) (isSigned : Bool) : Run (List (BitVec 8)) := do
  let negative := isSigned && spec.base = 10 && num.msb
  let num := if negative then -num else num
  let signChar := if negative then 0x2d else if spec.has sfSpace then 0x20 else 0x2b
  let digits ← storeDigits spec 22 num.toNat
  let rbuf := if digits = [] then [0x30] else digits
  let left := spec.has sfLeft
  let padLen := if spec.has sfZero then 0 else spec.width.toInt - max spec.precision.toInt rbuf.length
  let precision : BitVec 16 :=
    if spec.has sfZero then BitVec.ofInt 16 (max spec.width.toInt spec.precision.toInt) else spec.precision
  let sign := if (negative || spec.has (sfSpace ||| sfPlus)) && 0 < len then [signChar] else []
  let padLen := padLen - sign.length
  let len := len - sign.length
  let padLeft := if left then [] else fill padLen len 0x20
  let len := len - padLeft.length
  let zeroes := fill (precision.toInt - rbuf.length) len 0x30
  let len := len - zeroes.length
  let body := rbuf.reverse.take len
  let len := len - body.length
  let padRight := if left then fill padLen len 0x20 else []
  .ok (sign ++ padLeft ++ zeroes ++ body ++ padRight)

def printInt (len : Nat) (spec : FmtSpec) (args : VaList) : Run (List (BitVec 8) × VaList) := do
  let ⟨num, isSigned⟩ := fetchNumber spec.type args
  let args := args.next
  let ⟨width, args⟩ : BitVec 24 × VaList :=
    if spec.width = widthArg then (args.int.setWidth 24, args.next) else (spec.width, args)
  let ⟨precision, args⟩ : BitVec 16 × VaList :=
    if spec.precision = precArg then (args.int.setWidth 16, args.next) else (spec.precision, args)
  let width := if len < (width.signExtend 32).toNat then BitVec.ofNat 24 len else width
  let hasPrefix := spec.has sfPrefix && spec.base ≠ 10
  let ⟨zero, width⟩ : List (BitVec 8) × BitVec 24 :=
    if hasPrefix && 0 < width.toInt then ([0x30], width - 1) else ([], width)
  let ⟨x, width⟩ : List (BitVec 8) × BitVec 24 :=
    if hasPrefix && 0 < width.toInt && spec.base = 16 then
      ([if spec.has sfLower then 0x78 else 0x58], width - 1)
    else
      ([], width)
  if len < (zero ++ x).length then
    .error .access
  else
    let chars ← doPrintInt (len - (zero ++ x).length) num { spec with width := width, precision := precision } isSigned
    .ok (zero ++ x ++ chars, args)

/--
One conversion.
-/
def printSpec (len : Nat) (spec : FmtSpec) (args : VaList) : Run (List (BitVec 8) × VaList) :=
  match spec.type with
  | .percent => .ok ([0x25], args)
  | .wchar => .ok (printWchar spec args)
  | .char => printChar len spec args
  | .wstr => .ok (printWstr spec args)
  | .str => .ok (printStr len spec args)
  | .double | .longDouble => .ok (printFloat spec args)
  | .invalid => .ok ([], args)
  | _ => printInt len spec args

/--
The loop over the format, with what is stored so far and the length that is left.
-/
def go : Nat → Nat → List (BitVec 8) → VaList → List (BitVec 8) → Run (List (BitVec 8) × Nat)
  | _, len, [], _, out => .ok (out, len)
  | _, 0, _, _, out => .ok (out, 0)
  | 0, _ + 1, _ :: _, _, _ => .error .hang
  | fuel + 1, len + 1, c :: fmt, args, out =>
    if c ≠ 0x25 then
      go fuel len fmt args (out ++ [c])
    else do
      let ⟨spec, fmt⟩ := decodeSpec fmt
      let ⟨chars, args⟩ ← printSpec (len + 1) spec args
      go fuel (len + 1 - chars.length) fmt args (out ++ chars)

end vsnprintf

def intMax : Nat := 2 ^ 31 - 1

/--
Each round of the loop takes at least one character of the format.
-/
def vsnprintf (len : Nat) (fmt : CString) (args : VaList) : Run PrintfResult :=
  if intMax < len then
    .ok ⟨[], 0⟩
  else do
    let ⟨out, left⟩ ← vsnprintf.go fmt.bytes.length len fmt.bytes args []
    .ok ⟨if 0 < left then out ++ [0] else out, BitVec.ofNat 32 out.length⟩

end Emos.Kernel
