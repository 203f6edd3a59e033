import Emos.Basic
import Emos.Lib.Buffer
import Emos.Lib.Record

/-!
This module contains string functions of the boot loader's library, and how it reads numbers. For those that only
read strings, memory is what `read` returns at each address. The string that a number is read from has no
terminating zero, and a pointer into it is what is left of the string from there on.
-/

open Lib

namespace Emos.Boot.Stdc

/--
One more character than `maxlen` can be counted, and the one behind it is read.
-/
def strnlen (read : Nat → Run (BitVec 8)) (str maxlen : Nat) : Run Nat :=
  go str (maxlen + 1)
where
  go : Nat → Nat → Run Nat
    | str, 0 => do
      let _ ← read str
      .ok 0
    | str, n + 1 => do
      let c ← read str
      if c = 0 then
        .ok 0
      else do
        let len ← go (str + 1) n
        .ok (len + 1)

/--
The difference of the last characters that are compared, where `p1` is a string without its terminating
zero. The length is counted down before it is tested, so that 0 is no limit.
-/
def strncmp : List (BitVec 8) → (Nat → Run (BitVec 8)) → Nat → Nat → Run Int
  | [], read, p2, _ => do
    let c2 ← read p2
    .ok (0 - c2.toNat)
  | c1 :: p1, read, p2, maxlen => do
    let c2 ← read p2
    if sub32 maxlen 1 ≠ 0 ∧ c1 = c2 then
      strncmp p1 read (p2 + 1) (sub32 maxlen 1)
    else
      .ok (c1.toNat - c2.toNat)

/--
There is a terminating zero unless that of `src` is the last character that may be copied. If all of them
were copied, it is behind them.
-/
def strncpy (read : Nat → Run (BitVec 8)) (dest : Buffer (BitVec 8)) (d src : Nat) : Nat → Run (Buffer (BitVec 8))
  | 0 => dest.set .access d 0
  | maxlen + 1 => do
    let c ← read src
    if c = 0 then
      if maxlen = 0 then .ok dest else dest.set .access d 0
    else do
      let dest ← dest.set .access d c
      strncpy read dest (d + 1) (src + 1) maxlen

/--
`memory` is what is in the memory that `malloc` returns.
-/
def strndup (read : Nat → Run (BitVec 8)) (memory : Option (Nat → BitVec 8)) (str size : Nat)
    : Run (Option (Buffer (BitVec 8))) := do
  let slen ← strnlen read str size
  let slen := min (u32 (slen + 1)) size
  match memory with
  | none => .ok none
  | some bytes => do
    let result ← strncpy read ⟨slen, bytes⟩ 0 str slen
    .ok (some result)

/--
A search for `c` up to the end of a string, for at most as many characters as there is memory.
-/
def strchr (m : Buffer (BitVec 8)) (str : Nat) (c : BitVec 8) : Run (Option Nat) :=
  go (m.size + 1) str
where
  go : Nat → Nat → Run (Option Nat)
    | 0, _ => .error .hang
    | n + 1, str => do
      let x ← m.get .access str
      if x = c then
        .ok (some str)
      else if x = 0 then
        .ok none
      else
        go n (str + 1)

/--
A string without its terminating zero is copied, and one is stored behind it.
-/
def strcpy (dest : Buffer (BitVec 8)) (d : Nat) : List (BitVec 8) → Run (Buffer (BitVec 8))
  | [] => dest.set .access d 0
  | c :: src => do
    let dest ← dest.set .access d c
    strcpy dest (d + 1) src

/--
`toupper` of a `char`, for which a table with 128 entries is looked up.
-/
def toupper (c : BitVec 8) : Run (BitVec 8) :=
  if c.toNat ≥ 128 then .error .access
  else if 0x61 ≤ c.toNat ∧ c.toNat ≤ 0x7A then .ok (c - 0x20)
  else .ok c

/--
The difference of the last characters that are looked at, which is one of characters as they are. The length is
counted down before it is tested, so that 0 is no limit.
-/
def strncasecmp (m1 m2 : Buffer (BitVec 8)) (p1 p2 : Nat) (maxlen : BitVec 32) : Run Int :=
  go p1 p2 (maxlen - 1).toNat
where
  difference (p1 p2 : Nat) : Run Int := do
    let c1 ← m1.get .access p1
    let c2 ← m2.get .access p2
    .ok (c1.toNat - c2.toNat)
  go (p1 p2 : Nat) : Nat → Run Int
    | 0 => difference p1 p2
    | maxlen + 1 => do
      let c1 ← m1.get .access p1
      if c1 = 0 then
        difference p1 p2
      else do
        let u1 ← toupper c1
        let c2 ← m2.get .access p2
        let u2 ← toupper c2
        if u1 ≠ u2 then
          difference p1 p2
        else
          go (p1 + 1) (p2 + 1) maxlen

/--
The memory of a string, and where `strtok` goes on if it is called without one.
-/
structure StrtokState where
  memory : Buffer (BitVec 8)
  last : Option Nat

namespace strtok

/--
The loop over leading delimiters.
-/
def trim (m : Buffer (BitVec 8)) (delim : CString) : Nat → Nat → Run Nat
  | 0, _ => .error .hang
  | n + 1, str => do
    let c ← m.get .access str
    if delim.bytes.contains c then
      trim m delim n (str + 1)
    else
      .ok str

/--
The loop over the characters of a token.
-/
def tokenize (m : Buffer (BitVec 8)) (delim : CString) : Nat → Nat → Run StrtokState
  | 0, _ => .error .hang
  | n + 1, str => do
    let c ← m.get .access str
    if c = 0 then
      .ok ⟨m, none⟩
    else if delim.bytes.contains c then do
      let m ← m.set .access str 0
      .ok ⟨m, some (str + 1)⟩
    else
      tokenize m delim n (str + 1)

end strtok

/--
A pointer is an index into the memory of the string. Each loop moves on with every round, so that it has left
the memory after as many rounds as there are characters.
-/
def strtok (st : StrtokState) (str : Option Nat) (delim : CString) : Run (Option Nat × StrtokState) :=
  match str <|> st.last with
  | none => .ok (none, st)
  | some str => do
    let token ← strtok.trim st.memory delim (st.memory.size + 1) str
    let st ← strtok.tokenize st.memory delim (st.memory.size + 1) token
    .ok (some token, st)

/--
The content of the address space.
-/
abbrev Memory := BitVec 32 → BitVec 8

namespace memmove

/--
`while (len--) *dest_c++ = *src_c++;`
-/
def forward (m : Memory) (dest src : BitVec 32) : Nat → Memory
  | 0 => m
  | len + 1 => forward (Function.update m dest (m src)) (dest + 1) (src + 1) len

/--
`while (len--) *--dest_c = *--src_c;`
-/
def backward (m : Memory) (dest src : BitVec 32) : Nat → Memory
  | 0 => m
  | len + 1 => backward (Function.update m (dest - 1) (m (src - 1))) (dest - 1) (src - 1) len

end memmove

/--
Addresses are compared as numbers of type `long`.
-/
def memmove (m : Memory) (dest src len : BitVec 32) : BitVec 32 × Memory :=
  if dest.toInt > src.toInt then
    (dest, memmove.backward m (dest + len) (src + len) len.toNat)
  else
    (dest, memmove.forward m dest src len.toNat)

end Emos.Boot.Stdc

namespace Emos.Boot

/--
The character that a pointer into a string leads to.
-/
def charAt (str : List (BitVec 8)) : BitVec 8 := str.headD 0

def skipBlanks (str : List (BitVec 8)) : List (BitVec 8) := str.dropWhile (· = 0x20)

/--
Whether there is a minus sign, and what follows the sign.
-/
def skipSign (str : List (BitVec 8)) : Bool × List (BitVec 8) :=
  if charAt str = 0x2b then
    (false, str.tail)
  else if charAt str = 0x2d then
    (true, str.tail)
  else
    (false, str)

/--
What follows a leading `0` or `0x`, and the base that they stand for if none was given.
-/
def skipPrefix (str : List (BitVec 8)) (base : Nat) : List (BitVec 8) × Nat :=
  if charAt str = 0x30 then
    if charAt str.tail ≠ 0x78 ∧ charAt str.tail ≠ 0x58 then
      (str.tail, if base = 0 then 8 else base)
    else
      (str.tail.tail, if base = 0 then 16 else base)
  else
    (str, base)

def digitOf (c : BitVec 8) : Option Nat :=
  if 0x30 ≤ c ∧ c ≤ 0x39 then
    some (c.toNat - 0x30)
  else if 0x61 ≤ c ∧ c ≤ 0x7a then
    some (c.toNat - 0x61 + 10)
  else if 0x41 ≤ c ∧ c ≤ 0x5a then
    some (c.toNat - 0x41 + 10)
  else
    none

/--
The number that the digits from `str` on give, and what follows them. There is none if a number
is negative after a digit, where `long` has 32 bits.
-/
def readDigits (base : Nat) (ret : BitVec 32) : List (BitVec 8) → Option (BitVec 32 × List (BitVec 8))
  | [] => some (ret, [])
  | c :: str =>
    match digitOf c with
    | none => some (ret, c :: str)
    | some digit =>
      if base ≤ digit then
        some (ret, c :: str)
      else
        let ret := ret * BitVec.ofNat 32 base + BitVec.ofNat 32 digit
        if ret.msb then
          none
        else
          readDigits base ret str

/--
The number, and what is stored to `*endptr`.
-/
def strtol (str : List (BitVec 8)) (base : Int) : BitVec 32 × Option (List (BitVec 8)) :=
  if base < 0 ∨ base = 1 ∨ base > 36 then
    (0, none)
  else
    let ⟨sign, str⟩ := skipSign (skipBlanks str)
    let ⟨str, base⟩ := skipPrefix str base.toNat
    match readDigits base 0 str with
    | none => (if sign then BitVec.intMin 32 else BitVec.intMax 32, none)
    | some (ret, str) => (if sign then -ret else ret, some str)

end Emos.Boot
