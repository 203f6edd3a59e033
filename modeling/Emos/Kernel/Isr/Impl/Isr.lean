import Emos.Basic
import Emos.Lib.Loop
import Mathlib.Logic.Function.Basic

/-!
This module contains the handlers of interrupts of `kernel/arch/i686/pc/isr.c`. The entries are
objects of the heap: an address that is not allocated has none.
-/

open Lib

namespace Emos

/--
`struct isr_handler`. The two function pointers share their place, and 0 is the null pointer.
-/
structure IsrHandler (α : Type) where
  next : Option α
  irqNum : Int
  isInterrupt : Bool
  data : Nat
  func : Nat
  deriving DecidableEq, Repr

structure IsrSystem (α : Type) where
  /-- `_pc_isr_table` -/
  table : Nat → Option α
  entry : α → Option (IsrHandler α)
  irqDepth : Int
  irqCount : Nat
  /-- the bytes that were written to I/O ports -/
  outs : List (Nat × Nat)

namespace IsrSystem

variable {α : Type} [DecidableEq α]

/--
Access to an entry. Memory that was freed must not be read.
-/
def read (s : IsrSystem α) (p : α) : Run (IsrHandler α) :=
  match s.entry p with
  | none => .error .access
  | some e => .ok e

def setEntry (s : IsrSystem α) (p : α) (e : Option (IsrHandler α)) : IsrSystem α :=
  { s with entry := Function.update s.entry p e }

def setTable (s : IsrSystem α) (num : Nat) (p : Option α) : IsrSystem α :=
  { s with table := Function.update s.table num p }

/--
The last entry of the list from `p` on. `fuel` bounds the rounds of the loop.
-/
def lastEntry (s : IsrSystem α) : α → Nat → Run α
  | _, 0 => .error .hang
  | p, fuel + 1 => do
    let e ← s.read p
    match e.next with
    | none => .ok p
    | some q => s.lastEntry q fuel

def setNext (s : IsrSystem α) (p : α) (next : Option α) : Run (IsrSystem α) := do
  let e ← s.read p
  .ok (s.setEntry p (some { e with next }))

def tableAt (s : IsrSystem α) (num : Int) : Run (Option α) :=
  if num < 0 ∨ 0xFF < num then .error .access else .ok (s.table num.toNat)

def append (s : IsrSystem α) (num : Int) (newentry : α) (fuel : Nat) : Run (IsrSystem α) := do
  let head ← s.tableAt num
  match head with
  | none => .ok (s.setTable num.toNat (some newentry))
  | some head => do
    let last ← s.lastEntry head fuel
    s.setNext last (some newentry)

/--
What both functions that add a handler do. `newentry` is what `malloc` returned, and the second part
of the result is what was stored to `*handler`.
-/
def addHandler (s : IsrSystem α) (e : IsrHandler α) (newentry : Option α) (fuel : Nat)
    : Run (Status × Option α × IsrSystem α) :=
  if e.irqNum > 0xFF then
    .ok (.invalidValue, none, s)
  else
    match newentry with
    | none => .ok (.unknownError, none, s)
    | some p => do
      let t ← (s.setEntry p (some e)).append e.irqNum p fuel
      .ok (.success, some p, t)

def pcIsrAddInterruptHandler (s : IsrSystem α) (num : Int) (data func : Nat) (newentry : Option α)
    (fuel : Nat)
    : Run (Status × Option α × IsrSystem α) :=
  s.addHandler ⟨none, num, true, data, func⟩ newentry fuel

def pcIsrAddTrapHandler (s : IsrSystem α) (num : Int) (func : Nat) (newentry : Option α)
    (fuel : Nat)
    : Run (Status × Option α × IsrSystem α) :=
  s.addHandler ⟨none, num, false, 0, func⟩ newentry fuel

def prevEntry (s : IsrSystem α) (handler : α) (prev : Option α) : α → Nat → Run (Option α)
  | _, 0 => .error .hang
  | current, fuel + 1 => do
    let e ← s.read current
    match e.next with
    | none => .ok prev
    | some next => s.prevEntry handler (if next = handler then some current else prev) next fuel

/--
The entry that is freed is the one before the handler.
-/
def unlink (s : IsrSystem α) (handler : α) : Option α → Run (IsrSystem α)
  | none => .ok s
  | some prev => do
    let h ← s.read handler
    let t ← s.setNext prev h.next
    .ok (t.setEntry prev none)

def pcIsrRemoveHandler (s : IsrSystem α) (handler : α) (fuel : Nat) : Run (IsrSystem α) := do
  let h ← s.read handler
  let head ← s.tableAt h.irqNum
  match head with
  | none => .ok s
  | some head => do
    let prev ← s.prevEntry handler none head fuel
    s.unlink handler prev

/--
The loop of `_pc_isr_common`. `call` is what the function of an entry returns.
-/
def callHandlers (s : IsrSystem α) (call : IsrHandler α → Nat) : Option α → Nat → Run Nat
  | none, _ => .ok 0
  | some _, 0 => .error .hang
  | some current, fuel + 1 => do
    let e ← s.read current
    let newEsp := if e.func ≠ 0 then call e else 0
    if newEsp ≠ 0 then .ok newEsp else s.callHandlers call e.next fuel

/--
Tell the interrupt controllers that the interrupt was taken.
-/
def endOfInterrupt (s : IsrSystem α) (num : Nat) : IsrSystem α :=
  if num < 0x20 ∨ 0x30 ≤ num then
    s
  else if 0x28 ≤ num then
    { s with outs := s.outs ++ [(0x00A0, 0x20), (0x0020, 0x20)] }
  else
    { s with outs := s.outs ++ [(0x0020, 0x20)] }

def isFault (num : Nat) : Bool := num < 0x20 && (0x603B7FE1 >>> num) % 2 = 1

def pcIsrCommon (s : IsrSystem α) (num : Nat) (call : IsrHandler α → Nat) (fuel : Nat)
    : Run (Nat × IsrSystem α) :=
  let t := ({ s with irqCount := (s.irqCount + 1) % 2 ^ 64 }).endOfInterrupt num
  if s.table num = none ∧ isFault num then
    .error (.panic .unknownError)
  else do
    let newEsp ← s.callHandlers call (s.table num) fuel
    -- the depth is not counted down where a handler changes the stack
    if newEsp ≠ 0 then
      .ok (newEsp, { t with irqDepth := t.irqDepth + 1 })
    else
      .ok (0, t)

end IsrSystem

/--
The calls of the registry, each with what `malloc` returns in it.
-/
inductive IsrCall (α : Type) where
  | addInterrupt (num : Int) (data func : Nat) (newentry : Option α)
  | addTrap (num : Int) (func : Nat) (newentry : Option α)
  | remove (handler : α)
  deriving DecidableEq, Repr

/--
The registry, and for each number the handlers that were added and not removed, in the order in
which they were added.
-/
structure IsrHistory (α : Type) where
  isr : IsrSystem α
  handlers : Nat → List α

namespace IsrHistory

variable {α : Type} [DecidableEq α]

def added (s : IsrHistory α) (num : Int) : Status × Option α × IsrSystem α → IsrHistory α
  | (_, none, isr) => ⟨isr, s.handlers⟩
  | (_, some p, isr) =>
    ⟨isr, Function.update s.handlers num.toNat (s.handlers num.toNat ++ [p])⟩

def step (fuel : Nat) (s : IsrHistory α) : IsrCall α → Run (IsrHistory α)
  | .addInterrupt num data func newentry => do
    let r ← s.isr.pcIsrAddInterruptHandler num data func newentry fuel
    .ok (s.added num r)
  | .addTrap num func newentry => do
    let r ← s.isr.pcIsrAddTrapHandler num func newentry fuel
    .ok (s.added num r)
  | .remove handler => do
    let isr ← s.isr.pcIsrRemoveHandler handler fuel
    .ok ⟨isr, fun num => (s.handlers num).erase handler⟩

end IsrHistory

end Emos
