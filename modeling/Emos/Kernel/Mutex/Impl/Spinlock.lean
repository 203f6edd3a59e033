import Emos.Kernel.Thread.Impl.Scheduler

/-!
This module contains the spinlock of `kernel/mutex/spinlock.c` as a system of threads that share one
lock. As for the mutex, a step is one access to memory that the threads share.
-/

namespace Emos

structure Spinlock (τ : Type) where
  locked : Bool
  owner : Option τ
  deriving DecidableEq, Repr

def spinlockInit {τ : Type} : Spinlock τ := ⟨false, none⟩

inductive SpinlockPc (τ : Type) where
  /-- outside of the functions of the spinlock -/
  | idle
  -- `spinlock_lock`
  | lockGetCurrent
  | lockDisable (th : τ)
  | lockTest (th : τ)
  | lockSetLocked (th : τ)
  | lockSetOwner (th : τ)
  | lockEnable (th : τ)
  -- `spinlock_try_lock`
  | tryGetCurrent
  | tryDisable (th : τ)
  | tryTest (th : τ)
  | tryEnableToFail (th : τ)
  | trySetLocked (th : τ)
  | trySetOwner (th : τ)
  | tryEnable (th : τ)
  -- `spinlock_unlock`
  | unlockGetCurrent
  | unlockDisable (th : τ)
  | unlockTest (th : τ)
  | unlockEnableToFail (th : τ)
  | unlockClearLocked (th : τ)
  | unlockClearOwner (th : τ)
  | unlockEnable (th : τ)
  deriving DecidableEq, Repr

inductive SpinlockOp where
  | lock
  | tryLock
  | unlock
  deriving DecidableEq, Repr

def SpinlockOp.entry {τ : Type} : SpinlockOp → SpinlockPc τ
  | .lock => .lockGetCurrent
  | .tryLock => .tryGetCurrent
  | .unlock => .unlockGetCurrent

structure SpinlockSystem (τ : Type) where
  sched : Scheduler τ
  preemptionEnabled : Bool
  lock : Spinlock τ
  pc : τ → SpinlockPc τ

namespace SpinlockSystem

variable {τ : Type} [DecidableEq τ]

def goto (s : SpinlockSystem τ) (c : τ) (pc : SpinlockPc τ) : SpinlockSystem τ :=
  { s with pc := Function.update s.pc c pc }

def setPreemption (s : SpinlockSystem τ) (enabled : Bool) : SpinlockSystem τ :=
  { s with preemptionEnabled := enabled }

def setLocked (s : SpinlockSystem τ) (locked : Bool) : SpinlockSystem τ :=
  { s with lock := { s.lock with locked } }

def setOwner (s : SpinlockSystem τ) (owner : Option τ) : SpinlockSystem τ :=
  { s with lock := { s.lock with owner } }

def getCurrent (s : SpinlockSystem τ) (c : τ) (pc : τ → SpinlockPc τ) : Run (SpinlockSystem τ) :=
  match s.sched.currentThread with
  | none => .error .access
  | some th => .ok (s.goto c (pc th))

def pitIsr (s : SpinlockSystem τ) (fuel : Nat) : Run (SpinlockSystem τ) :=
  if s.preemptionEnabled then do
    let sched ← switchThread s.sched fuel
    .ok { s with sched }
  else
    .ok s

/--
One step of thread `c`, which calls `op` if it is outside of the functions of the spinlock.
-/
def exec (s : SpinlockSystem τ) (c : τ) (op : SpinlockOp) : Run (SpinlockSystem τ) :=
  match s.pc c with
  | .idle => .ok (s.goto c op.entry)
  | .lockGetCurrent => s.getCurrent c .lockDisable
  | .lockDisable th => .ok ((s.setPreemption false).goto c (.lockTest th))
  -- the busy wait
  | .lockTest th => .ok (s.goto c (if s.lock.locked then .lockTest th else .lockSetLocked th))
  | .lockSetLocked th => .ok ((s.setLocked true).goto c (.lockSetOwner th))
  | .lockSetOwner th => .ok ((s.setOwner (some th)).goto c (.lockEnable th))
  | .lockEnable _ => .ok ((s.setPreemption true).goto c .idle)
  | .tryGetCurrent => s.getCurrent c .tryDisable
  | .tryDisable th => .ok ((s.setPreemption false).goto c (.tryTest th))
  | .tryTest th => .ok (s.goto c (if s.lock.locked then .tryEnableToFail th else .trySetLocked th))
  | .tryEnableToFail _ => .ok ((s.setPreemption true).goto c .idle)
  | .trySetLocked th => .ok ((s.setLocked true).goto c (.trySetOwner th))
  | .trySetOwner th => .ok ((s.setOwner (some th)).goto c (.tryEnable th))
  | .tryEnable _ => .ok ((s.setPreemption true).goto c .idle)
  | .unlockGetCurrent => s.getCurrent c .unlockDisable
  | .unlockDisable th => .ok ((s.setPreemption false).goto c (.unlockTest th))
  | .unlockTest th =>
    .ok (s.goto c
      (if s.lock.owner ≠ some th then .unlockEnableToFail th else .unlockClearLocked th))
  | .unlockEnableToFail _ => .ok ((s.setPreemption true).goto c .idle)
  | .unlockClearLocked th => .ok ((s.setLocked false).goto c (.unlockClearOwner th))
  | .unlockClearOwner th => .ok ((s.setOwner none).goto c (.unlockEnable th))
  | .unlockEnable _ => .ok ((s.setPreemption true).goto c .idle)

end SpinlockSystem

/--
What happens next: the current thread takes a step, or the timer interrupts it.
-/
inductive SpinlockAction where
  | run (op : SpinlockOp)
  | timer (fuel : Nat)
  deriving DecidableEq, Repr

namespace SpinlockSystem

variable {τ : Type} [DecidableEq τ]

def step (s : SpinlockSystem τ) : SpinlockAction → Run (SpinlockSystem τ)
  | .run op =>
    match s.sched.currentThread with
    | none => .error .access
    | some c => s.exec c op
  | .timer fuel => s.pitIsr fuel

def steps (s : SpinlockSystem τ) : List SpinlockAction → Run (SpinlockSystem τ)
  | [] => .ok s
  | a :: as => do
    let s ← s.step a
    s.steps as

structure Initial (s : SpinlockSystem τ) : Prop where
  lock : s.lock = spinlockInit
  pc : ∀ t, s.pc t = .idle

end SpinlockSystem

end Emos
