import Emos.Basic
import Emos.Lib.Record

/-!
This module contains what `vsnprintf` and `vcprintf` of the kernel have in common, word for word: the
conversions of a format, how arguments are fetched for them, and the digits of a number.
-/

open Lib

namespace Emos.Kernel

def sfLeft : BitVec 8 := 0x01

def sfPlus : BitVec 8 := 0x02

def sfSpace : BitVec 8 := 0x04

def sfZero : BitVec 8 := 0x08

def sfLower : BitVec 8 := 0x10

def sfPrefix : BitVec 8 := 0x20

def sfPtr : BitVec 8 := 0x40

inductive FmtSpecType where
  | invalid
  | percent
  | wchar
  | char
  | wstr
  | str
  | ptr
  | ulongLong
  | longLong
  | ulong
  | long
  | ubyte
  | byte
  | ushort
  | short
  | uint
  | int
  | uintmaxT
  | intmaxT
  | sizeT
  | ptrdiffT
  | double
  | longDouble
  deriving DecidableEq, Repr

/--
`struct fmt_spec` without `next`. The width and the precision are signed bit fields.
-/
structure FmtSpec where
  type : FmtSpecType
  width : BitVec 24
  flags : BitVec 8
  base : Nat
  precision : BitVec 16
  deriving DecidableEq, Repr

def FmtSpec.has (spec : FmtSpec) (flags : BitVec 8) : Bool := spec.flags &&& flags ≠ 0

def widthArg : BitVec 24 := -1

def precArg : BitVec 16 := -1

/--
The compiler's builtin, which compares.
-/
def isdigit (c : BitVec 8) : Bool := 0x30 ≤ c ∧ c ≤ 0x39

def decodeFlags (flags : BitVec 8) : List (BitVec 8) → BitVec 8 × List (BitVec 8)
  | [] => (flags, [])
  | c :: fmt =>
    if c = 0x2d then
      decodeFlags (flags ||| sfLeft) fmt
    else if c = 0x2b then
      decodeFlags (flags ||| sfPlus) fmt
    else if c = 0x20 then
      decodeFlags (flags ||| sfSpace) fmt
    else if c = 0x23 then
      decodeFlags (flags ||| sfPrefix) fmt
    else if c = 0x30 then
      decodeFlags (flags ||| sfZero) fmt
    else
      (flags, c :: fmt)

/--
The loops over the digits of a width and of a precision.
-/
def decodeNumber {w : Nat} (n : BitVec w) : List (BitVec 8) → BitVec w × List (BitVec 8)
  | [] => (n, [])
  | c :: fmt =>
    if isdigit c then
      decodeNumber (n * 10 + (c - 0x30).setWidth w) fmt
    else
      (n, c :: fmt)

def decodeWidth : List (BitVec 8) → BitVec 24 × List (BitVec 8)
  | [] => (0, [])
  | c :: fmt => if c = 0x2a then (widthArg, fmt) else decodeNumber 0 (c :: fmt)

def decodePrecision : List (BitVec 8) → BitVec 16 × List (BitVec 8)
  | [] => (0, [])
  | c :: fmt =>
    if c = 0x2e then
      match fmt with
      | [] => (0, [])
      | d :: rest => if d = 0x2a then (precArg, rest) else decodeNumber 0 (d :: rest)
    else
      (0, c :: fmt)

def decodeLength : List (BitVec 8) → FmtSpecType × List (BitVec 8)
  | [] => (.int, [])
  | c :: fmt =>
    if c = 0x68 then
      match fmt with
      | [] => (.short, [])
      | d :: rest => if d = 0x68 then (.byte, rest) else (.short, fmt)
    else if c = 0x6c then
      match fmt with
      | [] => (.long, [])
      | d :: rest => if d = 0x6c then (.longLong, rest) else (.long, fmt)
    else if c = 0x6a then
      (.intmaxT, fmt)
    else if c = 0x7a then
      (.sizeT, fmt)
    else if c = 0x74 then
      (.ptrdiffT, fmt)
    else if c = 0x4c then
      (.longDouble, fmt)
    else
      (.int, c :: fmt)

/--
The type of an unsigned number of this length.
-/
def unsignedType : FmtSpecType → FmtSpecType
  | .byte => .ubyte
  | .short => .ushort
  | .int => .uint
  | .long => .ulong
  | .longLong => .ulongLong
  | .longDouble => .invalid
  | type => type

def floatType : FmtSpecType → FmtSpecType
  | .int => .double
  | .longDouble => .longDouble
  | _ => .invalid

def charType : FmtSpecType → FmtSpecType
  | .int => .char
  | .long => .wchar
  | _ => .invalid

def strType : FmtSpecType → FmtSpecType
  | .int => .str
  | .long => .wstr
  | _ => .invalid

/--
The conversion that a character stands for, where `spec` has what comes in front of it.
-/
def decodeSpecifier (spec : FmtSpec) (c : BitVec 8) : Option FmtSpec :=
  if c = 0x25 then
    some { spec with type := .percent }
  else if c = 0x64 ∨ c = 0x69 then
    some { spec with type := if spec.type = .longDouble then .invalid else spec.type, base := 10 }
  else if c = 0x75 then
    some { spec with type := unsignedType spec.type, flags := spec.flags ||| sfLower, base := 10 }
  else if c = 0x6f then
    some { spec with type := unsignedType spec.type, flags := spec.flags ||| sfLower, base := 8 }
  else if c = 0x78 then
    some { spec with type := unsignedType spec.type, flags := spec.flags ||| sfLower, base := 16 }
  else if c = 0x58 then
    some { spec with type := unsignedType spec.type, base := 16 }
  else if c = 0x66 ∨ c = 0x46 ∨ c = 0x65 ∨ c = 0x45 ∨ c = 0x67 ∨ c = 0x47 ∨ c = 0x61 ∨ c = 0x41 then
    some { spec with type := floatType spec.type }
  else if c = 0x63 then
    some { spec with type := charType spec.type }
  else if c = 0x73 then
    some { spec with type := strType spec.type }
  else if c = 0x70 then
    if spec.type = .int then
      some { spec with type := .ptr, base := 16, precision := if spec.precision = 0 then 8 else spec.precision }
    else
      some { spec with type := .invalid }
  else if c = 0x6e then
    some { spec with flags := spec.flags ||| sfPtr }
  else
    none

/--
A conversion, and the format behind it.
-/
def decodeSpec (fmt : List (BitVec 8)) : FmtSpec × List (BitVec 8) :=
  let ⟨flags, fmt⟩ := decodeFlags 0 fmt
  let ⟨width, fmt⟩ := decodeWidth fmt
  let ⟨precision, fmt⟩ := decodePrecision fmt
  let ⟨type, fmt⟩ := decodeLength fmt
  let spec : FmtSpec := ⟨type, width, flags, 0, precision⟩
  match fmt with
  | [] => (spec, [])
  | c :: rest =>
    match decodeSpecifier spec c with
    | none => (spec, c :: rest)
    | some spec => (spec, rest)

/--
An argument: a number, or a pointer to a string, where `none` is a null pointer. A number that is read as
one of fewer bits is truncated.
-/
structure VaArg where
  word : BitVec 64
  str : Option CString

/--
The arguments that are not fetched yet.
-/
abbrev VaList := Nat → VaArg

namespace VaList

/--
`va_arg(args, int)`
-/
def int (args : VaList) : BitVec 32 := (args 0).word.setWidth 32

def next (args : VaList) : VaList := fun n => args (n + 1)

end VaList

def nullFallback : CString := ⟨[0x28, 0x6e, 0x75, 0x6c, 0x6c, 0x29], by decide⟩

/--
The functions that print nothing: they fetch the argument, and the ones of the width and the precision.
-/
def printNothing (spec : FmtSpec) (args : VaList) : List (BitVec 8) × VaList :=
  let args := args.next
  let args := if spec.width = widthArg then args.next else args
  let args := if spec.precision = precArg then args.next else args
  ([], args)

def printWchar : FmtSpec → VaList → List (BitVec 8) × VaList := printNothing

def printWstr : FmtSpec → VaList → List (BitVec 8) × VaList := printNothing

def printFloat : FmtSpec → VaList → List (BitVec 8) × VaList := printNothing

/--
The number that `print_int` fetches, and whether its type is signed.
-/
def fetchNumber (type : FmtSpecType) (args : VaList) : BitVec 64 × Bool :=
  let word := (args 0).word
  match type with
  | .ulongLong | .uintmaxT => (word, false)
  | .longLong | .intmaxT => (word, true)
  | .ulong | .uint | .sizeT | .ptr => ((word.setWidth 32).setWidth 64, false)
  | .long | .int | .ptrdiffT => ((word.setWidth 32).signExtend 64, true)
  | .ubyte => ((word.setWidth 8).setWidth 64, false)
  | .byte => ((word.setWidth 8).signExtend 64, true)
  | .ushort => ((word.setWidth 16).setWidth 64, false)
  | .short => ((word.setWidth 16).signExtend 64, true)
  | _ => (0, false)

def hexTable (spec : FmtSpec) (digit : Nat) : BitVec 8 :=
  if digit < 10 then
    BitVec.ofNat 8 (0x30 + digit)
  else if spec.has sfLower then
    BitVec.ofNat 8 (0x61 + digit - 10)
  else
    BitVec.ofNat 8 (0x41 + digit - 10)

/--
The loop of `do_print_int` that stores the digits of a number in a buffer with room for so many, the
last digit first.
-/
def storeDigits (spec : FmtSpec) : Nat → Nat → Run (List (BitVec 8))
  | 0, num => if num = 0 then .ok [] else if spec.base = 0 then .error .divide else .error .access
  | room + 1, num =>
    if num = 0 then
      .ok []
    else if spec.base = 0 then
      .error .divide
    else do
      let rest ← storeDigits spec room (num / spec.base)
      .ok (hexTable spec (num % spec.base) :: rest)

/--
The bytes that are stored or emitted, with the terminating zero, and the value that is returned.
-/
structure PrintfResult where
  written : List (BitVec 8)
  writeCount : BitVec 32
  deriving DecidableEq, Repr

end Emos.Kernel
