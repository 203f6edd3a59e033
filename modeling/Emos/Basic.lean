import Mathlib.Algebra.Ring.Int.Defs
import Mathlib.Algebra.Ring.Nat
import Mathlib.Data.Nat.Basic

/-!
This module contains what the boot loader and the kernel share: status codes, the ways in which a
call fails to return, and the arithmetic of the 32 bit types of the i686 port.
-/

namespace Emos

/--
The status codes of `status.h` that the modelled functions return.
-/
inductive Status where
  | success
  | noEvent
  | mutexLocked
  | unknownError
  | unimplemented
  | unsupported
  | invalidSignature
  | invalidValue
  | invalidResource
  | entryNotFound
  | conflictingState
  | endOfList
  | endOfFile
  | sizeCheckFailure
  | bufferTooSmall
  | wrongElementType
  | duplicateEntry
  | pageNotPresent
  | insufficientMemory
  | threadNotFinished
  | invalidThread
  | fsInconsistent
  | systemCorrupted
  deriving DecidableEq, Repr

inductive Fault where
  /-- `panic` was called with this status -/
  | panic (status : Status)
  /-- an endless loop such as `for (;;) {}` was entered -/
  | hang
  /-- memory outside of the object was accessed -/
  | access
  /-- a number was divided by zero -/
  | divide
  deriving DecidableEq, Repr

abbrev Run (α : Type) := Except Fault α

/--
Truncation to `uint32_t`, which is also `size_t` and `uintptr_t`.
-/
def u32 (n : Nat) : Nat := n % 2 ^ 32

def sub32 (a b : Nat) : Nat := u32 (a + (2 ^ 32 - u32 b))

def alignDiv (v a : Nat) : Nat := u32 (v + a - 1) / a

/--
`ALIGN(v, a)` of `macros.h`, where `a` is a power of two.
-/
def align (v a : Nat) : Nat := u32 (v + a - 1) / a * a

def pageSize : Nat := 4096

def divide (a b : Nat) : Run Nat := if b = 0 then .error .divide else .ok (a / b)

theorem u32_lt (n : Nat) : u32 n < 2 ^ 32 := by
  unfold u32
  omega

theorem u32_of_lt {n : Nat} (h : n < 2 ^ 32) : u32 n = n := by
  unfold u32
  lia

theorem sub32_of_le {a b : Nat} (h : b ≤ a) (ha : a < 2 ^ 32) : sub32 a b = a - b := by
  unfold sub32 u32
  lia

theorem sub32_of_lt {a b : Nat} (h : a < b) (hb : b < 2 ^ 32) : sub32 a b = 2 ^ 32 - (b - a) := by
  unfold sub32 u32
  lia

end Emos

namespace Emos.Boot

/--
A value of an `int` or a `long`.
-/
def checked32 (n : Int) : Option Int := if -2 ^ 31 ≤ n ∧ n < 2 ^ 31 then some n else none

theorem checked32_bind {α : Type} {n : Int} {k : Int → Option α} (h : -2 ^ 31 ≤ n ∧ n < 2 ^ 31)
    : checked32 n >>= k = k n := by
  rw [checked32, if_pos h]
  rfl

theorem checked32_bind_none {α : Type} {n : Int} {k : Int → Option α} (h : ¬ (-2 ^ 31 ≤ n ∧ n < 2 ^ 31))
    : checked32 n >>= k = none := by
  rw [checked32, if_neg h]
  rfl

end Emos.Boot
