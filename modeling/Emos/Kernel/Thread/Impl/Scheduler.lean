import Emos.Basic
import Mathlib.Logic.Function.Basic

/-!
This module contains the thread objects of the kernel and the choice of the next thread from the
scheduler's list. Pointers to thread objects are values of an arbitrary type.
-/

namespace Emos

inductive ThreadStatus where
  | pending
  | running
  | blocking
  | waiting
  | finished
  deriving DecidableEq, Repr

inductive ThreadType where
  | main
  | kernel
  | user
  deriving DecidableEq, Repr

structure Thread (τ : Type) where
  next : Option τ
  status : ThreadStatus
  type : ThreadType
  kmodeStackPageCount : Nat
  kmodeStackBaseVpn : Nat
  kmodeStackPtr : Nat
  detached : Bool
  /-- the index of the first cell of the array that belongs to the caller of `thread_wait` -/
  waitList : Option Nat
  waitCount : Int
  mutexBlockingNext : Option τ
  deriving DecidableEq, Repr

namespace ThreadStatus

def runnable (status : ThreadStatus) : Bool := status = .running ∨ status = .pending

end ThreadStatus

/--
The static variables of `scheduler.c` and the thread objects.
-/
structure Scheduler (τ : Type) where
  firstThread : Option τ
  currentThread : Option τ
  thread : τ → Thread τ

namespace Scheduler

variable {τ : Type} [DecidableEq τ]

def setStatus (s : Scheduler τ) (th : τ) (status : ThreadStatus) : Scheduler τ :=
  { s with thread := Function.update s.thread th { s.thread th with status } }

def setMutexBlockingNext (s : Scheduler τ) (th : τ) (next : Option τ) : Scheduler τ :=
  { s with
    thread := Function.update s.thread th { s.thread th with mutexBlockingNext := next } }

end Scheduler

variable {τ : Type} [DecidableEq τ]

/--
`fuel` bounds the rounds of the loop, which does not end if no thread is runnable.
-/
def schedulerGetNextThread (s : Scheduler τ) (fuel : Nat) : Run τ :=
  match s.currentThread with
  | none => .error .access
  | some current => go fuel current
where
  go : Nat → τ → Run τ
    | 0, _ => .error .hang
    | fuel + 1, th =>
      match (s.thread th).next.or s.firstThread with
      | none => .error .access
      | some next => if (s.thread next).status.runnable then .ok next else go fuel next

def switchThread (s : Scheduler τ) (fuel : Nat) : Run (Scheduler τ) := do
  let next ← schedulerGetNextThread s fuel
  let s := if (s.thread next).status = .pending then s.setStatus next .running else s
  .ok { s with currentThread := some next }

def isrRegsSize : Nat := 48

/--
`switch_thread` together with the stacks: `esp` is the one of the interrupted thread, the one to go on
with is returned.
-/
def switchThreadStack (s : Scheduler τ) (esp fuel : Nat) : Run (Nat × Scheduler τ) := do
  let next ← schedulerGetNextThread s fuel
  let s ← start s next
  match s.currentThread with
  | none => .error .access
  | some current =>
    let kmodeStackPtr := sub32 (sub32 esp isrRegsSize) 4
    let thread := Function.update s.thread current { s.thread current with kmodeStackPtr }
    .ok ⟨(thread next).kmodeStackPtr, { s with thread, currentThread := some next }⟩
where
  /-- the check of the status of the next thread -/
  start (s : Scheduler τ) (next : τ) : Run (Scheduler τ) :=
    match (s.thread next).status with
    | .pending => .ok (s.setStatus next .running)
    | .running => .ok s
    | .blocking => .ok s
    | .finished => .ok s
    | .waiting => .error (.panic .systemCorrupted)

end Emos
