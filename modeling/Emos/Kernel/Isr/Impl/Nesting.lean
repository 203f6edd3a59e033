import Emos.Kernel.Isr.Impl.Isr

/-!
This module contains interrupts that arrive while others are handled. A call of `_pc_isr_common` is taken
apart at the places where its handlers run, and a handler that returns a stack pointer makes the processor
go on with another stack.
-/

open Lib

namespace Emos

/--
A call of `_pc_isr_common` that has not returned.
-/
structure IsrFrame (α : Type) where
  num : Nat
  currentIsr : Option α
  /-- the function of `currentIsr` has been called and has not returned -/
  calling : Bool
  /-- `_pc_irq_depth` when the function was entered -/
  depth : Int
  deriving DecidableEq, Repr

/--
The calls on the stack in use, the innermost one first, and those on the stacks of other threads.
-/
structure IsrState (α : Type) where
  isr : IsrSystem α
  running : List (IsrFrame α)
  waiting : List (List (IsrFrame α))

inductive IsrAct (α : Type) where
  /-- interrupt `num` arrives -/
  | enter (num : Nat)
  /-- the loop of the innermost call comes to an entry -/
  | call
  /-- the function returns `newEsp`; if it is a stack pointer then it is the one of stack `k` -/
  | ret (newEsp k : Nat)
  /-- the innermost call is behind its loop -/
  | leave
  /-- a handler is added or removed -/
  | registry (c : IsrCall α)
  deriving DecidableEq, Repr

variable {α : Type} [DecidableEq α]

def IsrSystem.exec (s : IsrSystem α) (fuel : Nat) : IsrCall α → Run (IsrSystem α)
  | .addInterrupt num data func newentry => do
    let ⟨_, _, s⟩ ← s.pcIsrAddInterruptHandler num data func newentry fuel
    .ok s
  | .addTrap num func newentry => do
    let ⟨_, _, s⟩ ← s.pcIsrAddTrapHandler num func newentry fuel
    .ok s
  | .remove handler => s.pcIsrRemoveHandler handler fuel

namespace IsrState

/--
`_pc_isr_common` in front of its loop.
-/
def enter (s : IsrState α) (num : Nat) : Run (IsrState α) :=
  let isr := ({ s.isr with irqCount := (s.isr.irqCount + 1) % 2 ^ 64 }).endOfInterrupt num
  let isr := { isr with irqDepth := isr.irqDepth + 1 }
  if 0xFF < num then
    .error .access
  else if s.isr.table num = none ∧ IsrSystem.isFault num then
    .error (.panic .unknownError)
  else
    .ok { s with isr, running := ⟨num, s.isr.table num, false, s.isr.irqDepth⟩ :: s.running }

/--
An entry without a function is passed over.
-/
def call (s : IsrState α) : Run (IsrState α) :=
  match s.running with
  | [] => .ok s
  | f :: rest =>
    match f.currentIsr with
    | none => .ok s
    | some p =>
      if f.calling then
        .ok s
      else do
        let e ← s.isr.read p
        if e.func ≠ 0 then
          .ok { s with running := { f with calling := true } :: rest }
        else
          .ok { s with running := { f with currentIsr := e.next } :: rest }

/--
`_pc_isr_common` returns from its loop if the function has returned a stack pointer.
-/
def ret (s : IsrState α) (newEsp k : Nat) : Run (IsrState α) :=
  match s.running with
  | [] => .ok s
  | f :: rest =>
    if !f.calling then
      .ok s
    else if newEsp ≠ 0 then
      let threads := rest :: s.waiting
      .ok { s with running := (threads[k]?).getD [], waiting := threads.eraseIdx k }
    else
      match f.currentIsr with
      | none => .ok s
      | some p => do
        let e ← s.isr.read p
        .ok { s with running := { f with currentIsr := e.next, calling := false } :: rest }

/--
`_pc_isr_common` behind its loop.
-/
def leave (s : IsrState α) : IsrState α :=
  match s.running with
  | [] => s
  | f :: rest =>
    if f.currentIsr = none then
      { s with isr := { s.isr with irqDepth := s.isr.irqDepth - 1 }, running := rest }
    else
      s

/--
An action that is not possible changes nothing. `fuel` bounds the loops over the entries of a number.
-/
def step (fuel : Nat) (s : IsrState α) : IsrAct α → Run (IsrState α)
  | .enter num => s.enter num
  | .call => s.call
  | .ret newEsp k => s.ret newEsp k
  | .leave => .ok s.leave
  | .registry c => do
    let isr ← s.isr.exec fuel c
    .ok { s with isr }

end IsrState

end Emos
