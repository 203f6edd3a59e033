import Emos.Kernel.Thread.Impl.Scheduler

/-!
This module contains the mutex of `kernel/mutex/mutex.c` as a system of threads that share one
mutex, and its queues of waiting threads. In the first a step is one access to memory that the threads share, so that
the timer can come between any two of them. In the second each call is done as a whole, and the links of the queues
are in the threads, so that all mutexes share them.
-/

namespace Emos

structure Mutex (τ : Type) where
  locked : Bool
  owner : Option τ
  blockingThreads : Option τ
  deriving DecidableEq, Repr

/--
What a thread does next. `th` is the variable of that name, which every function of the mutex reads
from the scheduler first.
-/
inductive MutexPc (τ : Type) where
  /-- outside of the functions of the mutex -/
  | idle
  -- `mutex_lock`
  | lockGetCurrent
  | lockDisable (th : τ)
  | lockTest (th : τ)
  | lockEnableToWait (th : τ)
  | lockBlock (th : τ)
  -- `add_blocking_thread`
  | addTestHead (th : τ)
  | addTestEmpty (th : τ)
  | addSetHead (th : τ)
  | addClearHead (th : τ)
  | addReadHead (th : τ)
  | addTestLast (th : τ) (last : Option τ)
  | addTestNext (th last : τ)
  | addReadNext (th last : τ)
  | addLink (th : τ) (last : Option τ)
  | addClearNext (th : τ)
  -- the rest of `mutex_lock`
  | lockYield (th : τ)
  | lockDisableAgain (th : τ)
  | lockSetLocked (th : τ)
  | lockSetOwner (th : τ)
  | lockEnable (th : τ)
  -- `mutex_try_lock`
  | tryGetCurrent
  | tryDisable (th : τ)
  | tryTest (th : τ)
  | tryEnableToFail (th : τ)
  | trySetLocked (th : τ)
  | trySetOwner (th : τ)
  | tryEnable (th : τ)
  -- `mutex_unlock`
  | unlockGetCurrent
  | unlockDisable (th : τ)
  | unlockTest (th : τ)
  | unlockEnableToFail (th : τ)
  | unlockClearLocked (th : τ)
  | unlockClearOwner (th : τ)
  -- `unblock_blocking_thread`
  | unblockTestEmpty (th : τ)
  | unblockReadHead (th : τ)
  | unblockSetHead (th unblock : τ)
  | unblockClearNext (th unblock : τ)
  | unblockTestStatus (th unblock : τ)
  | unblockSetStatus (th unblock : τ)
  -- the rest of `mutex_unlock`
  | unlockEnable (th : τ)
  deriving DecidableEq, Repr

/--
The functions that a thread can call next.
-/
inductive MutexOp where
  | lock
  | tryLock
  | unlock
  deriving DecidableEq, Repr

def MutexOp.entry {τ : Type} : MutexOp → MutexPc τ
  | .lock => .lockGetCurrent
  | .tryLock => .tryGetCurrent
  | .unlock => .unlockGetCurrent

structure MutexSystem (τ : Type) where
  sched : Scheduler τ
  preemptionEnabled : Bool
  mtx : Mutex τ
  pc : τ → MutexPc τ
  /-- the threads between a successful lock and the moment at which their unlock takes effect -/
  holds : τ → Bool

namespace MutexSystem

variable {τ : Type} [DecidableEq τ]

def goto (s : MutexSystem τ) (c : τ) (pc : MutexPc τ) : MutexSystem τ :=
  { s with pc := Function.update s.pc c pc }

def setPreemption (s : MutexSystem τ) (enabled : Bool) : MutexSystem τ :=
  { s with preemptionEnabled := enabled }

def setHolds (s : MutexSystem τ) (c : τ) (holds : Bool) : MutexSystem τ :=
  { s with holds := Function.update s.holds c holds }

def setLocked (s : MutexSystem τ) (locked : Bool) : MutexSystem τ :=
  { s with mtx := { s.mtx with locked } }

def setOwner (s : MutexSystem τ) (owner : Option τ) : MutexSystem τ :=
  { s with mtx := { s.mtx with owner } }

def setBlockingThreads (s : MutexSystem τ) (th : Option τ) : MutexSystem τ :=
  { s with mtx := { s.mtx with blockingThreads := th } }

def setStatus (s : MutexSystem τ) (th : τ) (status : ThreadStatus) : MutexSystem τ :=
  { s with sched := s.sched.setStatus th status }

def setNext (s : MutexSystem τ) (th : τ) (next : Option τ) : MutexSystem τ :=
  { s with sched := s.sched.setMutexBlockingNext th next }

def status (s : MutexSystem τ) (th : τ) : ThreadStatus := (s.sched.thread th).status

def next (s : MutexSystem τ) (th : τ) : Option τ := (s.sched.thread th).mutexBlockingNext

/--
The timer interrupt, which `scheduler_yield` raises as well.
-/
def pitIsr (s : MutexSystem τ) (fuel : Nat) : Run (MutexSystem τ) :=
  if s.preemptionEnabled then do
    let sched ← switchThread s.sched fuel
    .ok { s with sched }
  else
    .ok s

/--
One step of thread `c`, which calls `op` if it is outside of the functions of the mutex.
-/
def exec (s : MutexSystem τ) (c : τ) (op : MutexOp) (fuel : Nat) : Run (MutexSystem τ) :=
  match s.pc c with
  | .idle => .ok (s.goto c op.entry)
  | .lockGetCurrent =>
    match s.sched.currentThread with
    | none => .error .access
    | some th => .ok (s.goto c (.lockDisable th))
  | .lockDisable th => .ok ((s.setPreemption false).goto c (.lockTest th))
  | .lockTest th =>
    .ok (s.goto c (if s.mtx.locked then .lockEnableToWait th else .lockSetLocked th))
  | .lockEnableToWait th => .ok ((s.setPreemption true).goto c (.lockBlock th))
  | .lockBlock th => .ok ((s.setStatus th .blocking).goto c (.addTestHead th))
  | .addTestHead th =>
    .ok (s.goto c (if s.mtx.blockingThreads = some th then .lockYield th else .addTestEmpty th))
  | .addTestEmpty th =>
    .ok (s.goto c (if s.mtx.blockingThreads = none then .addSetHead th else .addReadHead th))
  | .addSetHead th => .ok ((s.setBlockingThreads (some th)).goto c (.addClearHead th))
  | .addClearHead th => .ok ((s.setNext th none).goto c (.lockYield th))
  | .addReadHead th => .ok (s.goto c (.addTestLast th s.mtx.blockingThreads))
  | .addTestLast th none => .ok (s.goto c (.addLink th none))
  | .addTestLast th (some last) =>
    .ok (s.goto c (if last = th then .lockYield th else .addTestNext th last))
  | .addTestNext th last =>
    .ok (s.goto c (if s.next last = none then .addLink th (some last) else .addReadNext th last))
  | .addReadNext th last => .ok (s.goto c (.addTestLast th (s.next last)))
  -- the loop ended at a null pointer, which is not checked
  | .addLink _ none => .error .access
  | .addLink th (some last) => .ok ((s.setNext last (some th)).goto c (.addClearNext th))
  | .addClearNext th => .ok ((s.setNext th none).goto c (.lockYield th))
  | .lockYield th => (s.goto c (.lockDisableAgain th)).pitIsr fuel
  | .lockDisableAgain th => .ok ((s.setPreemption false).goto c (.lockTest th))
  | .lockSetLocked th => .ok ((s.setLocked true).goto c (.lockSetOwner th))
  | .lockSetOwner th => .ok ((s.setOwner (some th)).goto c (.lockEnable th))
  | .lockEnable _ => .ok (((s.setPreemption true).setHolds c true).goto c .idle)
  | .tryGetCurrent =>
    match s.sched.currentThread with
    | none => .error .access
    | some th => .ok (s.goto c (.tryDisable th))
  | .tryDisable th => .ok ((s.setPreemption false).goto c (.tryTest th))
  | .tryTest th =>
    .ok (s.goto c (if s.mtx.locked then .tryEnableToFail th else .trySetLocked th))
  | .tryEnableToFail _ => .ok ((s.setPreemption true).goto c .idle)
  | .trySetLocked th => .ok ((s.setLocked true).goto c (.trySetOwner th))
  | .trySetOwner th => .ok ((s.setOwner (some th)).goto c (.tryEnable th))
  | .tryEnable _ => .ok (((s.setPreemption true).setHolds c true).goto c .idle)
  | .unlockGetCurrent =>
    match s.sched.currentThread with
    | none => .error .access
    | some th => .ok (s.goto c (.unlockDisable th))
  | .unlockDisable th => .ok ((s.setPreemption false).goto c (.unlockTest th))
  | .unlockTest th =>
    .ok (s.goto c (if s.mtx.owner ≠ some th then .unlockEnableToFail th else .unlockClearLocked th))
  | .unlockEnableToFail _ => .ok ((s.setPreemption true).goto c .idle)
  | .unlockClearLocked th =>
    .ok (((s.setLocked false).setHolds c false).goto c (.unlockClearOwner th))
  | .unlockClearOwner th => .ok ((s.setOwner none).goto c (.unblockTestEmpty th))
  | .unblockTestEmpty th =>
    .ok (s.goto c (if s.mtx.blockingThreads = none then .unlockEnable th else .unblockReadHead th))
  | .unblockReadHead th =>
    match s.mtx.blockingThreads with
    | none => .error .access
    | some unblock => .ok (s.goto c (.unblockSetHead th unblock))
  | .unblockSetHead th unblock =>
    .ok ((s.setBlockingThreads (s.next unblock)).goto c (.unblockClearNext th unblock))
  | .unblockClearNext th unblock =>
    .ok ((s.setNext unblock none).goto c (.unblockTestStatus th unblock))
  | .unblockTestStatus th unblock =>
    .ok (s.goto c (if s.status unblock = .blocking then .unblockSetStatus th unblock
      else .unlockEnable th))
  | .unblockSetStatus th unblock =>
    .ok ((s.setStatus unblock .running).goto c (.unlockEnable th))
  | .unlockEnable _ => .ok ((s.setPreemption true).goto c .idle)

end MutexSystem

/--
What happens next: the current thread takes a step, or the timer interrupts it.
-/
inductive MutexAction where
  | run (op : MutexOp) (fuel : Nat)
  | timer (fuel : Nat)
  deriving DecidableEq, Repr

namespace MutexSystem

variable {τ : Type} [DecidableEq τ]

def step (s : MutexSystem τ) : MutexAction → Run (MutexSystem τ)
  | .run op fuel =>
    match s.sched.currentThread with
    | none => .error .access
    | some c => s.exec c op fuel
  | .timer fuel => s.pitIsr fuel

def steps (s : MutexSystem τ) : List MutexAction → Run (MutexSystem τ)
  | [] => .ok s
  | a :: as => do
    let s ← s.step a
    s.steps as

structure Initial (s : MutexSystem τ) : Prop where
  mtx : s.mtx = ⟨false, none, none⟩
  pc : ∀ t, s.pc t = .idle
  holds : ∀ t, s.holds t = false

def Step (s t : MutexSystem τ) : Prop := ∃ a, s.step a = .ok t

end MutexSystem

end Emos

namespace Emos

structure WaitQueues (μ τ : Type) where
  mtx : μ → Mutex τ
  thread : τ → Thread τ

namespace WaitQueues

variable {μ τ : Type} [DecidableEq μ] [DecidableEq τ]

def head (s : WaitQueues μ τ) (m : μ) : Option τ := (s.mtx m).blockingThreads

def next (s : WaitQueues μ τ) (th : τ) : Option τ := (s.thread th).mutexBlockingNext

def setHead (s : WaitQueues μ τ) (m : μ) (th : Option τ) : WaitQueues μ τ :=
  { s with mtx := Function.update s.mtx m { s.mtx m with blockingThreads := th } }

def setNext (s : WaitQueues μ τ) (th : τ) (next : Option τ) : WaitQueues μ τ :=
  { s with
    thread := Function.update s.thread th { s.thread th with mutexBlockingNext := next } }

def setStatus (s : WaitQueues μ τ) (th : τ) (status : ThreadStatus) : WaitQueues μ τ :=
  { s with thread := Function.update s.thread th { s.thread th with status } }

/--
The loop of `add_blocking_thread` and what follows it. `fuel` bounds the rounds.
-/
def addBlockingThread.link (s : WaitQueues μ τ) (th : τ) : Option τ → Nat → Run (WaitQueues μ τ)
  -- the loop ended at a null pointer, which is not checked
  | none, _ => .error .access
  | some _, 0 => .error .hang
  | some last, fuel + 1 =>
    if last = th then
      .ok s
    else if s.next last = none then
      .ok ((s.setNext last (some th)).setNext th none)
    else
      link s th (s.next last) fuel

def addBlockingThread (s : WaitQueues μ τ) (m : μ) (th : τ) (fuel : Nat) : Run (WaitQueues μ τ) :=
  if s.head m = some th then
    .ok s
  else if s.head m = none then
    .ok ((s.setHead m (some th)).setNext th none)
  else
    addBlockingThread.link s th (s.head m) fuel

/--
The last lines of `unblock_blocking_thread`.
-/
def wake (s : WaitQueues μ τ) (th : τ) : WaitQueues μ τ :=
  if (s.thread th).status = .blocking then s.setStatus th .running else s

def unblockBlockingThread (s : WaitQueues μ τ) (m : μ) : WaitQueues μ τ :=
  match s.head m with
  | none => s
  | some th => ((s.setHead m (s.next th)).setNext th none).wake th

end WaitQueues

inductive WaitCall (μ τ : Type) where
  | add (m : μ) (th : τ)
  | unblock (m : μ)
  deriving DecidableEq, Repr

/--
What a call did: it was asked to add a thread, or it took a thread off a queue.
-/
inductive WaitEvent (μ τ : Type) where
  | added (m : μ) (th : τ)
  | unblocked (m : μ) (th : τ)
  deriving DecidableEq, Repr

/--
The queues, and what happened to them since they were empty.
-/
structure WaitHistory (μ τ : Type) where
  queues : WaitQueues μ τ
  events : List (WaitEvent μ τ)

namespace WaitHistory

variable {μ τ : Type} [DecidableEq μ] [DecidableEq τ]

def step (fuel : Nat) (s : WaitHistory μ τ) : WaitCall μ τ → Run (WaitHistory μ τ)
  | .add m th => do
    let queues ← s.queues.addBlockingThread m th fuel
    .ok ⟨queues, s.events ++ [.added m th]⟩
  | .unblock m =>
    let unblocked := (s.queues.head m).toList.map (.unblocked m)
    .ok ⟨s.queues.unblockBlockingThread m, s.events ++ unblocked⟩

end WaitHistory

end Emos
