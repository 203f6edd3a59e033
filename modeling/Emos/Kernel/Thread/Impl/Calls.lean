import Emos.Kernel.Thread.Impl.Maintain

/-!
This module contains the functions of `kernel/thread/thread.c` as a system of threads that call them. A
step is one access to what the threads share, so that the timer can come between any two of them. The
body of `thread_create` is one step, no other thread runs while preemption is off.
-/

namespace Emos

inductive ThreadPc (τ : Type) where
  /-- outside of these functions -/
  | idle
  -- `thread_create`, `object` is what the heap has to offer
  | createSave (object : Option τ) (stackSize : Nat)
  | createDisable (object : Option τ) (stackSize : Nat) (prev : Bool)
  | createBody (object : Option τ) (stackSize : Nat) (prev : Bool)
  | createRestore (status : Status) (prev : Bool)
  -- `thread_wait`
  | waitGetCurrent (list : Option Nat) (count : Int)
  | waitCheck (th : τ) (list : Option Nat) (count : Int) (i : Nat)
  | waitDisable (th : τ) (list : Option Nat) (count : Int)
  | waitSetList (th : τ) (list : Option Nat) (count : Int)
  | waitSetCount (th : τ) (list : Option Nat) (count : Int)
  | waitSetStatus (th : τ) (list : Option Nat) (count : Int)
  | waitEnable (th : τ)
  | waitYield (th : τ)
  /-- the interrupt of `scheduler_yield` has returned -/
  | waitReturn (th : τ)
  -- `thread_detach`
  | detachTest (target : τ)
  | detachSet (target : τ)
  -- `thread_exit`
  | exitGetCurrent
  | exitTestType (th : τ)
  | exitSetStatus (th : τ)
  | exitYield (th : τ)
  | exitLoop (th : τ)
  /-- `scheduler_maintain` -/
  | maintain
  deriving DecidableEq, Repr

inductive ThreadOp (τ : Type) where
  | create (object : Option τ) (stackSize : Nat)
  | wait (list : Option Nat) (count : Int)
  | detach (target : τ)
  | exit
  | maintain
  deriving DecidableEq, Repr

def ThreadOp.entry {τ : Type} : ThreadOp τ → ThreadPc τ
  | .create object stackSize => .createSave object stackSize
  | .wait list count => .waitGetCurrent list count
  | .detach target => .detachTest target
  | .exit => .exitGetCurrent
  | .maintain => .maintain

structure ThreadCalls (τ : Type) where
  sys : ThreadSystem τ
  preemptionEnabled : Bool
  /-- the thread objects that the heap has handed out, whether or not they were given back -/
  heap : List τ
  pc : τ → ThreadPc τ
  /-- what the last call of a thread returned -/
  result : τ → Option Status

namespace ThreadCalls

variable {τ : Type} [DecidableEq τ]

def goto (s : ThreadCalls τ) (c : τ) (pc : ThreadPc τ) : ThreadCalls τ :=
  { s with pc := Function.update s.pc c pc }

def setPreemption (s : ThreadCalls τ) (enabled : Bool) : ThreadCalls τ :=
  { s with preemptionEnabled := enabled }

def setThread (s : ThreadCalls τ) (th : τ) (v : Thread τ) : ThreadCalls τ :=
  { s with sys := s.sys.setThread th v }

def ret (s : ThreadCalls τ) (c : τ) (status : Status) : ThreadCalls τ :=
  { s with pc := Function.update s.pc c .idle, result := Function.update s.result c (some status) }

/--
The object that `calloc` returns if the heap has `object` to offer. An object that is in use is not
handed out.
-/
def calloc (s : ThreadCalls τ) : Option τ → Option τ
  | none => none
  | some th => if th ∈ s.heap ∧ th ∉ s.sys.freed then none else some th

def createBody (s : ThreadCalls τ) (object : Option τ) (stackSize : Nat)
    : Run (Status × ThreadCalls τ) :=
  match s.calloc object with
  | none => .ok ⟨.unknownError, s⟩
  | some th => do
    let v : Thread τ := {
      next := none
      status := .pending
      type := .kernel
      kmodeStackPageCount := alignDiv stackSize pageSize
      kmodeStackBaseVpn := 0
      kmodeStackPtr := 0
      detached := false
      waitList := none
      waitCount := 0
      mutexBlockingNext := none
    }
    let ⟨status, v, mm⟩ ← pcThreadAllocateKthreadStack s.sys.mm v
    let s := { s with heap := th :: s.heap, pc := Function.update s.pc th .idle }
    if status ≠ .success then
      let sys := { s.sys with mm, freed := th :: s.sys.freed }
      .ok ⟨status, { s with sys := sys.setThread th v }⟩
    else
      let v := pcThreadSetupKthreadStack v
      let sys := { s.sys with mm, freed := s.sys.freed.filter (· ≠ th) }
      -- `scheduler_add_thread`
      let sys := sys.setThread th { v with next := sys.sched.firstThread }
      .ok ⟨.success, { s with sys := sys.setFirstThread (some th) }⟩

/--
The timer interrupt, which `scheduler_yield` raises as well.
-/
def pitIsr (s : ThreadCalls τ) (fuel : Nat) : Run (ThreadCalls τ) :=
  if s.preemptionEnabled then do
    let sched ← switchThread s.sys.sched fuel
    .ok { s with sys := { s.sys with sched } }
  else
    .ok s

/--
The test of `list[i]->detached`, or the end of the loop.
-/
def waitCheck (s : ThreadCalls τ) (c th : τ) (list : Option Nat) (count : Int) (i : Nat)
    : Run (ThreadCalls τ) :=
  if i < count then
    match list with
    | none => .error .access
    | some first =>
      match s.sys.cell (first + i) with
      | none => .error .access
      | some u => do
        let v ← s.sys.deref u
        if v.detached then
          .ok (s.ret c .conflictingState)
        else
          .ok (s.goto c (.waitCheck th list count (i + 1)))
  else
    .ok (s.goto c (.waitDisable th list count))

/--
One step of thread `c`, which calls `op` if it is outside of these functions.
-/
def exec (s : ThreadCalls τ) (c : τ) (op : ThreadOp τ) (fuel : Nat) : Run (ThreadCalls τ) :=
  match s.pc c with
  | .idle => .ok (s.goto c op.entry)
  | .createSave object stackSize =>
    .ok (s.goto c (.createDisable object stackSize s.preemptionEnabled))
  | .createDisable object stackSize prev =>
    .ok ((s.setPreemption false).goto c (.createBody object stackSize prev))
  | .createBody object stackSize prev => do
    let ⟨status, s⟩ ← s.createBody object stackSize
    .ok (s.goto c (.createRestore status prev))
  | .createRestore status prev =>
    .ok ((if prev then s.setPreemption true else s).ret c status)
  | .waitGetCurrent list count =>
    match s.sys.sched.currentThread with
    | none => .error .access
    | some th => .ok (s.goto c (.waitCheck th list count 0))
  | .waitCheck th list count i => s.waitCheck c th list count i
  | .waitDisable th list count =>
    .ok ((s.setPreemption false).goto c (.waitSetList th list count))
  | .waitSetList th list count => do
    let v ← s.sys.deref th
    .ok ((s.setThread th { v with waitList := list }).goto c (.waitSetCount th list count))
  | .waitSetCount th list count => do
    let v ← s.sys.deref th
    .ok ((s.setThread th { v with waitCount := count }).goto c (.waitSetStatus th list count))
  | .waitSetStatus th _ _ => do
    let v ← s.sys.deref th
    .ok ((s.setThread th { v with status := .waiting }).goto c (.waitEnable th))
  | .waitEnable th => .ok ((s.setPreemption true).goto c (.waitYield th))
  | .waitYield th => (s.goto c (.waitReturn th)).pitIsr fuel
  | .waitReturn _ => .ok (s.ret c .success)
  | .detachTest target => do
    let v ← s.sys.deref target
    if v.waitList ≠ none then
      .ok (s.ret c .conflictingState)
    else
      .ok (s.goto c (.detachSet target))
  | .detachSet target => do
    let v ← s.sys.deref target
    .ok ((s.setThread target { v with detached := true }).ret c .success)
  | .exitGetCurrent =>
    match s.sys.sched.currentThread with
    | none => .error .access
    | some th => .ok (s.goto c (.exitTestType th))
  | .exitTestType th => do
    let v ← s.sys.deref th
    if v.type = .main then
      .error (.panic .invalidThread)
    else
      .ok (s.goto c (.exitSetStatus th))
  | .exitSetStatus th => do
    let v ← s.sys.deref th
    .ok ((s.setThread th { v with status := .finished }).goto c (.exitYield th))
  | .exitYield th => (s.goto c (.exitLoop th)).pitIsr fuel
  | .exitLoop _ => .ok s
  | .maintain => do
    let ⟨status, sys⟩ ← schedulerMaintain fuel s.sys
    .ok ({ s with sys }.ret c status)

end ThreadCalls

/--
What happens next: the current thread takes a step, or the timer interrupts it.
-/
inductive ThreadAction (τ : Type) where
  | run (op : ThreadOp τ) (fuel : Nat)
  | timer (fuel : Nat)
  deriving DecidableEq, Repr

namespace ThreadCalls

variable {τ : Type} [DecidableEq τ]

def step (s : ThreadCalls τ) : ThreadAction τ → Run (ThreadCalls τ)
  | .run op fuel =>
    match s.sys.sched.currentThread with
    | none => .error .access
    | some c => s.exec c op fuel
  | .timer fuel => s.pitIsr fuel

def steps (s : ThreadCalls τ) : List (ThreadAction τ) → Run (ThreadCalls τ)
  | [] => .ok s
  | a :: as => do
    let s ← s.step a
    s.steps as

/--
No thread has called one of the functions yet, and none is detached or waits.
-/
structure Initial (s : ThreadCalls τ) : Prop where
  pc : ∀ t, s.pc t = .idle
  detached : ∀ t, (s.sys.sched.thread t).detached = false
  status : ∀ t, (s.sys.sched.thread t).status ≠ .waiting

end ThreadCalls

end Emos
