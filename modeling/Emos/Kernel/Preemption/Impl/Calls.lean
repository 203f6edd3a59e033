import Emos.Kernel.Mutex.Impl.Mutex
import Emos.Kernel.Mutex.Impl.Spinlock
import Emos.Kernel.Thread.Impl.Calls

/-!
This module contains all functions that turn preemption off as one system: threads that share any number
of mutexes and spinlocks, create threads and wait for them, and turn preemption on and off themselves.
-/

namespace Emos

inductive CallPc (τ μ κ : Type) where
  | outside
  | mutex (m : μ) (pc : MutexPc τ)
  | spinlock (k : κ) (pc : SpinlockPc τ)
  | thread (pc : ThreadPc τ)
  deriving DecidableEq, Repr

namespace CallPc

variable {τ μ κ : Type}

def ofMutex (m : μ) : MutexPc τ → CallPc τ μ κ
  | .idle => .outside
  | pc => .mutex m pc

def ofSpinlock (k : κ) : SpinlockPc τ → CallPc τ μ κ
  | .idle => .outside
  | pc => .spinlock k pc

def ofThread : ThreadPc τ → CallPc τ μ κ
  | .idle => .outside
  | pc => .thread pc

end CallPc

inductive KernelOp (τ μ κ : Type) where
  /-- `thread_enable_preemption` -/
  | enablePreemption
  /-- `thread_disable_preemption` -/
  | disablePreemption
  | mutex (m : μ) (op : MutexOp)
  | spinlock (k : κ) (op : SpinlockOp)
  | thread (op : ThreadOp τ)
  deriving DecidableEq, Repr

structure KernelCalls (τ μ κ : Type) where
  sys : ThreadSystem τ
  preemptionEnabled : Bool
  heap : List τ
  mtx : μ → Mutex τ
  holds : μ → τ → Bool
  lock : κ → Spinlock τ
  pc : τ → CallPc τ μ κ
  result : τ → Option Status
  /-- the value of `preemption_enabled` at the beginning of the last call of a thread -/
  entry : τ → Bool

namespace KernelCalls

variable {τ μ κ : Type} [DecidableEq τ] [DecidableEq μ] [DecidableEq κ]

def mutexSystem (s : KernelCalls τ μ κ) (m : μ) (pc : MutexPc τ) : MutexSystem τ where
  sched := s.sys.sched
  preemptionEnabled := s.preemptionEnabled
  mtx := s.mtx m
  pc := fun _ => pc
  holds := s.holds m

/--
The state after a step that thread `c` has taken in a function of mutex `m`.
-/
def ofMutexSystem (s : KernelCalls τ μ κ) (c : τ) (m : μ) (r : MutexSystem τ) : KernelCalls τ μ κ :=
  { s with
    sys := { s.sys with sched := r.sched }
    preemptionEnabled := r.preemptionEnabled
    mtx := Function.update s.mtx m r.mtx
    holds := Function.update s.holds m r.holds
    pc := Function.update s.pc c (.ofMutex m (r.pc c)) }

def spinlockSystem (s : KernelCalls τ μ κ) (k : κ) (pc : SpinlockPc τ) : SpinlockSystem τ where
  sched := s.sys.sched
  preemptionEnabled := s.preemptionEnabled
  lock := s.lock k
  pc := fun _ => pc

def ofSpinlockSystem (s : KernelCalls τ μ κ) (c : τ) (k : κ) (r : SpinlockSystem τ)
    : KernelCalls τ μ κ :=
  { s with
    sys := { s.sys with sched := r.sched }
    preemptionEnabled := r.preemptionEnabled
    lock := Function.update s.lock k r.lock
    pc := Function.update s.pc c (.ofSpinlock k (r.pc c)) }

def threadCalls (s : KernelCalls τ μ κ) (pc : ThreadPc τ) : ThreadCalls τ where
  sys := s.sys
  preemptionEnabled := s.preemptionEnabled
  heap := s.heap
  pc := fun _ => pc
  result := s.result

/--
A step of `thread_create` lets another thread begin as well, the one that it creates.
-/
def ofThreadCalls (s : KernelCalls τ μ κ) (c : τ) (pc : ThreadPc τ) (r : ThreadCalls τ)
    : KernelCalls τ μ κ :=
  { s with
    sys := r.sys
    preemptionEnabled := r.preemptionEnabled
    heap := r.heap
    pc := fun t =>
      if t = c then .ofThread (r.pc c)
      else if r.pc t = pc then s.pc t
      else .outside
    result := r.result }

def enter (s : KernelCalls τ μ κ) (c : τ) (pc : CallPc τ μ κ) : KernelCalls τ μ κ :=
  { s with
    pc := Function.update s.pc c pc
    entry := Function.update s.entry c s.preemptionEnabled }

def call (s : KernelCalls τ μ κ) (c : τ) : KernelOp τ μ κ → KernelCalls τ μ κ
  | .enablePreemption => { s with preemptionEnabled := true }
  | .disablePreemption => { s with preemptionEnabled := false }
  | .mutex m op => s.enter c (.mutex m op.entry)
  | .spinlock k op => s.enter c (.spinlock k op.entry)
  | .thread op => s.enter c (.thread op.entry)

/--
One step of thread `c`, which calls `op` if it is in no call.
-/
def exec (s : KernelCalls τ μ κ) (c : τ) (op : KernelOp τ μ κ) (fuel : Nat)
    : Run (KernelCalls τ μ κ) :=
  match s.pc c with
  | .outside => .ok (s.call c op)
  -- inside of a call it does not matter which function the thread would call
  | .mutex m pc => do
    let r ← (s.mutexSystem m pc).exec c .lock fuel
    .ok (s.ofMutexSystem c m r)
  | .spinlock k pc => do
    let r ← (s.spinlockSystem k pc).exec c .lock
    .ok (s.ofSpinlockSystem c k r)
  | .thread pc => do
    let r ← (s.threadCalls pc).exec c .maintain fuel
    .ok (s.ofThreadCalls c pc r)

def pitIsr (s : KernelCalls τ μ κ) (fuel : Nat) : Run (KernelCalls τ μ κ) :=
  if s.preemptionEnabled then do
    let sched ← switchThread s.sys.sched fuel
    .ok { s with sys := { s.sys with sched } }
  else
    .ok s

end KernelCalls

/--
What happens next: the current thread takes a step, or the timer interrupts it.
-/
inductive KernelAction (τ μ κ : Type) where
  | run (op : KernelOp τ μ κ) (fuel : Nat)
  | timer (fuel : Nat)
  deriving DecidableEq, Repr

namespace KernelCalls

variable {τ μ κ : Type} [DecidableEq τ] [DecidableEq μ] [DecidableEq κ]

def step (s : KernelCalls τ μ κ) : KernelAction τ μ κ → Run (KernelCalls τ μ κ)
  | .run op fuel =>
    match s.sys.sched.currentThread with
    | none => .error .access
    | some c => s.exec c op fuel
  | .timer fuel => s.pitIsr fuel

def steps (s : KernelCalls τ μ κ) : List (KernelAction τ μ κ) → Run (KernelCalls τ μ κ)
  | [] => .ok s
  | a :: as => do
    let s ← s.step a
    s.steps as

end KernelCalls

end Emos
