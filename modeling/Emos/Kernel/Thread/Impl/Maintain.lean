import Emos.Kernel.Mm.Impl.Mm
import Emos.Kernel.Thread.Impl.Scheduler

/-!
This module contains the allocation and the release of the kernel mode stack of a thread, the removal of threads
from the scheduler's list and the maintenance of that list. Loops over the list take fuel, since nothing in the
code bounds the length of the list.
-/

open Lib

namespace Emos

variable {τ : Type}

def pcThreadAllocateKthreadStack (m : Mm) (th : Thread τ) : Run (Status × Thread τ × Mm) := do
  let ⟨res, pma⟩ ← mmPmaAllocateFrame m.pma th.kmodeStackPageCount
  let m := { m with pma }
  match res with
  | .error status => .ok ⟨status, th, m⟩
  | .ok pfn =>
    let ⟨res, vma⟩ := mmVmaAllocatePage m.vma th.kmodeStackPageCount true
    let m := { m with vma }
    match res with
    | .error status => hasError m pfn status
    | .ok vpn =>
      let ⟨status, m⟩ ← mmMap m pfn vpn th.kmodeStackPageCount pmfDefault
      if status ≠ .success then
        hasError m pfn status
      else
        let th := {
          th with
          kmodeStackBaseVpn := u32 (vpn * pageSize)
          kmodeStackPtr := u32 ((vpn + th.kmodeStackPageCount) * pageSize)
        }
        .ok ⟨.success, th, m⟩
where
  /-- pages are not released, they are only counted upwards -/
  hasError (m : Mm) (pfn : Nat) (status : Status) : Run (Status × Thread τ × Mm) := do
    if pfn ≠ 0 then
      let pma ← mmPmaFreeFrame m.pma pfn th.kmodeStackPageCount
      .ok ⟨status, th, { m with pma }⟩
    else
      .ok ⟨status, th, m⟩

def pcThreadFreeKthreadStack (m : Mm) (th : Thread τ) : Run Mm := do
  let res ← mmVpnToPfn m.page th.kmodeStackBaseVpn
  match res with
  | .error status => .error (.panic status)
  | .ok pfn =>
    let page ← mmUnmap m.page th.kmodeStackBaseVpn th.kmodeStackPageCount
    let pma ← mmPmaFreeFrame m.pma pfn th.kmodeStackPageCount
    .ok { m with page, pma }

/--
The initial frame is pushed on the stack, of which only the size matters here.
-/
def pcThreadSetupKthreadStack (th : Thread τ) : Thread τ :=
  { th with kmodeStackPtr := sub32 (sub32 (sub32 th.kmodeStackPtr 16) isrRegsSize) 4 }

end Emos

namespace Emos

/--
The scheduler together with what the removal of a thread reaches: the arrays that threads wait on,
memory management and the heap.
-/
structure ThreadSystem (τ : Type) where
  sched : Scheduler τ
  /-- the elements of the arrays that were passed to `thread_wait` -/
  cell : Nat → Option τ
  mm : Mm
  /-- the thread objects that were given back to the heap -/
  freed : List τ

namespace ThreadSystem

variable {τ : Type} [DecidableEq τ]

def deref (s : ThreadSystem τ) (th : τ) : Run (Thread τ) :=
  if th ∈ s.freed then .error .access else .ok (s.sched.thread th)

def setThread (s : ThreadSystem τ) (th : τ) (v : Thread τ) : ThreadSystem τ :=
  { s with sched := { s.sched with thread := Function.update s.sched.thread th v } }

def setFirstThread (s : ThreadSystem τ) (th : Option τ) : ThreadSystem τ :=
  { s with sched := { s.sched with firstThread := th } }

def setCurrentThread (s : ThreadSystem τ) (th : Option τ) : ThreadSystem τ :=
  { s with sched := { s.sched with currentThread := th } }

def clearCell (s : ThreadSystem τ) (i : Nat) : ThreadSystem τ :=
  { s with cell := Function.update s.cell i none }

end ThreadSystem

variable {τ : Type} [DecidableEq τ]

def schedulerRemoveThread (fuel : Nat) (s : ThreadSystem τ) (th : τ)
    : Run (Status × ThreadSystem τ) := do
  let v ← s.deref th
  if v.status ≠ .finished then
    .ok ⟨.threadNotFinished, s⟩
  else
    let s := if s.sched.firstThread = some th then s.setCurrentThread v.next else s
    match s.sched.firstThread with
    -- `current->next` is read before `current` is checked
    | none => .error .access
    | some first =>
      let s ← go fuel first s
      .ok ⟨.success, s⟩
where
  go : Nat → τ → ThreadSystem τ → Run (ThreadSystem τ)
    | 0, _, _ => .error .hang
    | fuel + 1, current, s => do
      let v ← s.deref current
      match v.next with
      | none => .ok s
      | some next =>
        if next = th then
          let w ← s.deref th
          .ok (s.setThread current { v with next := w.next })
        else
          go fuel next s

def threadRemove (fuel : Nat) (s : ThreadSystem τ) (th : τ) : Run (Status × ThreadSystem τ) := do
  let v ← s.deref th
  if v.type = .main then
    .ok ⟨.invalidThread, s⟩
  else if v.status ≠ .finished then
    .ok ⟨.threadNotFinished, s⟩
  else
    let ⟨_, s⟩ ← schedulerRemoveThread fuel s th
    let v ← s.deref th
    let mm ← pcThreadFreeKthreadStack s.mm v
    .ok ⟨.success, { s with mm, freed := th :: s.freed }⟩

namespace schedulerMaintain

/--
The loop over the entries of a wait list, `n` entries from index `i` on are left. Returns
`unwait_thread`.
-/
def unwait : Nat → Nat → ThreadSystem τ → Run (Bool × ThreadSystem τ)
  | 0, _, s => .ok ⟨true, s⟩
  | n + 1, i, s =>
    match s.cell i with
    | none => unwait n (i + 1) s
    | some th => do
      let v ← s.deref th
      if v.status ≠ .finished then
        .ok ⟨false, s⟩
      else
        unwait n (i + 1) (s.clearCell i)

def wake (s : ThreadSystem τ) (current : τ) : Run (ThreadSystem τ) := do
  let v ← s.deref current
  if v.status ≠ .waiting then
    .ok s
  else
    match v.waitList with
    | none => .ok s
    | some list =>
      let ⟨unwaitThread, s⟩ ← unwait v.waitCount.toNat list s
      if unwaitThread then
        let v ← s.deref current
        .ok (s.setThread current { v with waitList := none, status := .running })
      else
        .ok s

def wakeAll : Nat → Option τ → ThreadSystem τ → Run (ThreadSystem τ)
  | _, none, s => .ok s
  | 0, some _, _ => .error .hang
  | fuel + 1, some current, s => do
    let s ← wake s current
    let v ← s.deref current
    wakeAll fuel v.next s

/--
The second loop, which removes finished threads. The last argument bounds the loop inside of
`scheduler_remove_thread`.
-/
def removeFinished (removeFuel : Nat) : Nat → Option τ → Option τ → ThreadSystem τ
    → Run (ThreadSystem τ)
  | _, _, none, s => .ok s
  | 0, _, some _, _ => .error .hang
  | fuel + 1, prev, some current, s => do
    let v ← s.deref current
    if v.status ≠ .finished then
      removeFinished removeFuel fuel (some current) v.next s
    else
      let s ← unlink prev v.next s
      if v.detached then
        let ⟨_, s⟩ ← threadRemove removeFuel s current
        removeFinished removeFuel fuel prev v.next s
      else
        removeFinished removeFuel fuel prev v.next s
where
  unlink (prev next : Option τ) (s : ThreadSystem τ) : Run (ThreadSystem τ) :=
    match prev with
    | none => .ok (s.setFirstThread next)
    | some prev => do
      let v ← s.deref prev
      .ok (s.setThread prev { v with next })

end schedulerMaintain

def schedulerMaintain (fuel : Nat) (s : ThreadSystem τ) : Run (Status × ThreadSystem τ) := do
  let isMain ← currentIsMain
  if isMain then
    .ok ⟨.invalidThread, s⟩
  else
    let s ← schedulerMaintain.wakeAll fuel s.sched.firstThread s
    let s ← schedulerMaintain.removeFinished fuel fuel none s.sched.firstThread s
    .ok ⟨.success, s⟩
where
  /-- `current_thread && current_thread->type == TT_MAIN` -/
  currentIsMain : Run Bool :=
    match s.sched.currentThread with
    | none => .ok false
    | some current => do
      let v ← s.deref current
      .ok (v.type = .main)

end Emos
