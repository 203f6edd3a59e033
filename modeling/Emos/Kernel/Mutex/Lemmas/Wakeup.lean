import Emos.Kernel.Mutex.Lemmas.Exclusion
import Emos.Kernel.Thread.Lemmas.RoundRobin
import Emos.Lib.Chain

/-!
This module contains where threads wait for the mutex: in its queue, from which every unlock takes
one thread that tests the mutex again.
-/

open Lib

namespace Emos

variable {τ : Type} [DecidableEq τ]

namespace MutexPc

/--
On the way into the queue, with preemption turned on.
-/
def queueing : MutexPc τ → Bool
  | .lockBlock _ | .addTestHead _ | .addTestEmpty _ | .addSetHead _ | .addClearHead _
  | .addReadHead _ | .addTestLast _ _ | .addTestNext _ _ | .addReadNext _ _ | .addLink _ _
  | .addClearNext _ => true
  | _ => false

/--
Where a thread that has been put into the queue stops.
-/
def parked : MutexPc τ → Bool
  | .lockYield _ | .lockDisableAgain _ => true
  | _ => false

/--
The thread that has been taken off the queue and is not running yet.
-/
def waking? : MutexPc τ → Option τ
  | .unblockClearNext _ unblock | .unblockTestStatus _ unblock | .unblockSetStatus _ unblock =>
    some unblock
  | _ => none

/--
Inside of `mutex_unlock`, after the mutex was unlocked and before a thread is woken up.
-/
def unlocking : MutexPc τ → Bool
  | .unlockClearOwner _ | .unblockTestEmpty _ | .unblockReadHead _ | .unblockSetHead _ _
  | .unblockClearNext _ _ | .unblockTestStatus _ _ | .unblockSetStatus _ _ => true
  | _ => false

/--
On the way from the end of the wait to the test of the mutex and from there to its lock.
-/
def rechecking : MutexPc τ → Bool
  | .lockYield _ | .lockDisableAgain _ | .lockTest _ | .lockSetLocked _ => true
  | _ => false

end MutexPc

namespace MutexSystem

/--
The timer does not switch while a thread is on its way into the queue.
-/
def Undisturbed (s : MutexSystem τ) : MutexAction → Prop
  | .run _ _ => True
  | .timer _ => ∀ c, s.sched.currentThread = some c → (s.pc c).queueing = false

def UndisturbedStep (s t : MutexSystem τ) : Prop := ∃ a, s.Undisturbed a ∧ s.step a = .ok t

/--
No thread waits and none is linked to another.
-/
structure Unblocked (s : MutexSystem τ) : Prop extends Initial s where
  current : ∃ c, s.sched.currentThread = some c
  next : ∀ t, s.next t = none
  status : ∀ t, s.status t ≠ .blocking

/--
Thread `t` has nothing to do with the queue `q`.
-/
def Clear (s : MutexSystem τ) (q : List τ) (t : τ) : Prop := t ∉ q ∧ s.status t ≠ .blocking

/--
Thread `t` is on its way into the queue `q`, and the mutex is locked.
-/
structure Joins (s : MutexSystem τ) (q : List τ) (t : τ) : Prop where
  not_mem : t ∉ q
  blocking : s.status t = .blocking
  enabled : s.preemptionEnabled = true
  locked : s.mtx.locked = true

/--
Thread `t` is in the queue and blocked, or it is neither.
-/
def Parks (s : MutexSystem τ) (q : List τ) (t : τ) : Prop :=
  (s.pc t).queueing = false
    ∧
  if (s.pc t).parked then
    (t ∈ q ∧ s.status t = .blocking) ∨ (t ∉ q ∧ s.status t = .running)
  else
    s.Clear q t

/--
The state of a thread other than the current one, which is about to wake up `w`.
-/
def Off (s : MutexSystem τ) (q : List τ) (w : Option τ) (t : τ) : Prop :=
  if w = some t then
    (s.pc t).parked = true ∧ t ∉ q ∧ s.status t = .blocking
  else
    s.Parks q t

/--
The state of the current thread.
-/
def On (s : MutexSystem τ) (q : List τ) (c : τ) : MutexPc τ → Prop
  | .lockEnableToWait _ => s.Clear q c ∧ s.mtx.locked = true
  | .lockBlock _ => c ∉ q ∧ s.preemptionEnabled = true ∧ s.mtx.locked = true
  | .addTestHead _ | .addTestEmpty _ => s.Joins q c
  | .addSetHead _ => s.Joins q c ∧ q = []
  | .addReadHead _ => s.Joins q c ∧ q ≠ []
  | .addTestLast _ last => s.Joins q c ∧ ∃ l ∈ q, last = some l
  | .addTestNext _ l => s.Joins q c ∧ l ∈ q
  | .addReadNext _ l => s.Joins q c ∧ l ∈ q ∧ s.next l ≠ none
  | .addLink _ last => s.Joins q c ∧ ∃ l ∈ q, last = some l ∧ s.next l = none
  | .addClearHead _ | .addClearNext _ =>
    c ∈ q ∧ s.status c = .blocking ∧ s.preemptionEnabled = true ∧ s.mtx.locked = true
      ∧ s.next c = none
  | .lockYield _ =>
    s.preemptionEnabled = true
      ∧ ((c ∈ q ∧ s.status c = .blocking) ∨ (c ∉ q ∧ s.status c = .running))
  | .lockDisableAgain _ => s.preemptionEnabled = true ∧ c ∉ q ∧ s.status c = .running
  | .unblockReadHead _ => s.Clear q c ∧ q ≠ []
  | .unblockSetHead _ unblock => s.Clear q c ∧ ∃ q', q = unblock :: q'
  | .unblockClearNext _ unblock | .unblockTestStatus _ unblock | .unblockSetStatus _ unblock =>
    s.Clear q c ∧ (s.pc unblock).parked = true ∧ unblock ∉ q ∧ s.status unblock = .blocking
  | _ => s.Clear q c

/--
Thread `r` was woken up and is going to find the mutex unlocked if nobody else locks it first.
-/
structure Rechecks (s : MutexSystem τ) (q : List τ) (r : τ) : Prop where
  not_mem : r ∉ q
  running : s.status r = .running
  rechecking : (s.pc r).rechecking = true

/--
The invariant, for a queue `q` and the current thread `c`.
-/
structure Waits (s : MutexSystem τ) (q : List τ) (c : τ) : Prop where
  exclusive : s.Exclusive
  current : s.sched.currentThread = some c
  chain : Chain s.next s.mtx.blockingThreads q
  unlinked : ∀ t, t ∉ q → s.next t = none ∨ ∃ th, s.pc c = .unblockClearNext th t
  off : ∀ t, t ≠ c → s.Off q (s.pc c).waking? t
  on : s.On q c (s.pc c)
  wake : s.mtx.locked = false → q ≠ [] → (s.pc c).unlocking = true ∨ ∃ r, s.Rechecks q r

/--
The invariant in a state in which the current thread can be switched away from.
-/
structure Switchable (s : MutexSystem τ) (q : List τ) : Prop where
  exclusive : s.Exclusive
  enabled : s.preemptionEnabled = true
  chain : Chain s.next s.mtx.blockingThreads q
  unlinked : ∀ t, t ∉ q → s.next t = none
  parks : ∀ t, s.Parks q t
  wake : s.mtx.locked = false → q ≠ [] → ∃ r, s.Rechecks q r

end MutexSystem

namespace MutexPc

variable {pc : MutexPc τ}

omit [DecidableEq τ] in
theorem waking?_of_not_critical (h : pc.critical = false) : pc.waking? = none := by
  cases pc <;> simp_all [critical, waking?]

omit [DecidableEq τ] in
theorem not_unlocking_of_not_critical (h : pc.critical = false) : pc.unlocking = false := by
  cases pc <;> simp_all [critical, unlocking]

end MutexPc

namespace MutexSystem

variable {s s' : MutexSystem τ} {q q' : List τ} {c : τ}

@[simp]
theorem status_goto (t : τ) (pc : MutexPc τ) : (s.goto c pc).status t = s.status t := rfl

@[simp]
theorem next_goto (t : τ) (pc : MutexPc τ) : (s.goto c pc).next t = s.next t := rfl

@[simp]
theorem status_setStatus (th t : τ) (status : ThreadStatus)
    : (s.setStatus th status).status t = if t = th then status else s.status t :=
  Scheduler.setStatus_status s.sched th t status

@[simp]
theorem next_setStatus (th t : τ) (status : ThreadStatus)
    : (s.setStatus th status).next t = s.next t :=
  Scheduler.setStatus_mutexBlockingNext s.sched th t status

omit [DecidableEq τ] in
@[simp]
theorem status_setBlockingThreads (t : τ) (th : Option τ)
    : (s.setBlockingThreads th).status t = s.status t := rfl

@[simp]
theorem status_setNext (th t : τ) (next : Option τ)
    : (s.setNext th next).status t = s.status t :=
  Scheduler.setMutexBlockingNext_status s.sched th t next

theorem next_setNext (th : τ) (next : Option τ)
    : (s.setNext th next).next = Function.update s.next th next := by
  funext t
  rw [Function.update_apply]
  exact Scheduler.setMutexBlockingNext_mutexBlockingNext s.sched th t next

theorem waits_of_unblocked (h : s.Unblocked) : ∃ c, s.Waits [] c := by
  obtain ⟨c, hc⟩ := h.current
  refine ⟨c, exclusive_of_initial h.toInitial, hc, ?_, ?_, ?_, ?_, ?_⟩
  . rw [h.mtx]
    rfl
  . intro t _
    exact .inl (h.next t)
  . intro t _
    unfold Off
    rw [h.pc c]
    rw [if_neg (by simp [MutexPc.waking?])]
    unfold Parks
    rw [h.pc t]
    refine ⟨rfl, by simp, h.status t⟩
  . rw [h.pc c]
    exact ⟨by simp, h.status c⟩
  . intro _ hne
    contradiction

theorem Off.congr {w w' : Option τ} {t : τ} (h : s.Off q w t) (hw : w' = some t ↔ w = some t)
    (hq : t ∈ q' ↔ t ∈ q) (hstatus : s'.status t = s.status t) (hpc : s'.pc t = s.pc t)
    : s'.Off q' w' t := by
  unfold Off Parks Clear at h ⊢
  rw [hstatus, hpc]
  simp only [hw, hq]
  exact h

omit [DecidableEq τ] in
theorem On.parks (hcritical : (s.pc c).critical = false) (hqueueing : (s.pc c).queueing = false)
    (hon : s.On q c (s.pc c))
    : s.Parks q c := by
  refine ⟨hqueueing, ?_⟩
  cases hpc : s.pc c
  all_goals
    rw [hpc] at hon hcritical hqueueing
  case lockYield => exact hon.2
  case lockDisableAgain => exact .inr hon.2
  all_goals first
    | contradiction
    | exact hon

theorem Waits.switchable (h : s.Waits q c) (henabled : s.preemptionEnabled = true)
    (hqueueing : (s.pc c).queueing = false)
    : s.Switchable q := by
  have hcritical : (s.pc c).critical = false := by
    by_contra hc
    have := (h.exclusive.critical c (by simpa using hc)).2
    rw [henabled] at this
    contradiction
  refine ⟨h.exclusive, henabled, h.chain, ?_, ?_, ?_⟩
  . intro t ht
    cases h.unlinked t ht with
    | inl hnone => exact hnone
    | inr hpc =>
      obtain ⟨th, hpc⟩ := hpc
      rw [hpc] at hcritical
      contradiction
  . intro t
    by_cases heq : t = c
    . subst heq
      exact On.parks hcritical hqueueing h.on
    . have := h.off t heq
      unfold Off at this
      rw [MutexPc.waking?_of_not_critical hcritical] at this
      exact this
  . intro hlocked hne
    cases h.wake hlocked hne with
    | inl hunlocking =>
      rw [MutexPc.not_unlocking_of_not_critical hcritical] at hunlocking
      contradiction
    | inr hr => exact hr

theorem Switchable.pitIsr {fuel : Nat} (h : s.Switchable q) (hstep : s.pitIsr fuel = .ok s')
    : ∃ c, s'.Waits q c := by
  have hexclusive := h.exclusive.pitIsr hstep
  unfold MutexSystem.pitIsr at hstep
  rw [if_pos h.enabled, bind_eq_ok] at hstep
  obtain ⟨sched, hsched, hstep⟩ := hstep
  cases hstep
  obtain ⟨c, hc⟩ := switchThread_spec hsched
  have hcritical : ∀ t, (s.pc t).critical = false := by
    intro t
    by_contra ht
    have := (h.exclusive.critical t (by simpa using ht)).2
    rw [h.enabled] at this
    contradiction
  have hnot : s.status c ≠ .blocking := by
    intro hblocking
    have hrunnable := hc.runnable
    rw [show (s.sched.thread c).status = .blocking from hblocking] at hrunnable
    contradiction
  refine ⟨c, hexclusive, hc.current, ?_, ?_, ?_, ?_, ?_⟩
  . exact h.chain.congr (fun t _ => hc.mutexBlockingNext t)
  . intro t ht
    left
    exact (hc.mutexBlockingNext t).trans (h.unlinked t ht)
  . intro t ht
    unfold Off
    rw [MutexPc.waking?_of_not_critical (hcritical c)]
    rw [if_neg (by simp)]
    have hparks := h.parks t
    unfold Parks Clear at hparks ⊢
    rw [show ({ s with sched } : MutexSystem τ).status t = s.status t from hc.status t ht]
    exact hparks
  . have hparks := (h.parks c).2
    have hqueueing := (h.parks c).1
    have hcrit := hcritical c
    have hrunning : (sched.thread c).status = .running := hc.running
    dsimp only
    cases hpc : s.pc c
    all_goals
      rw [hpc] at hparks hqueueing hcrit
    case lockYield =>
      have := hparks.resolve_left (fun hor => hnot hor.2)
      exact ⟨h.enabled, .inr ⟨this.1, hrunning⟩⟩
    case lockDisableAgain =>
      have := hparks.resolve_left (fun hor => hnot hor.2)
      exact ⟨h.enabled, this.1, hrunning⟩
    all_goals first
      | contradiction
      | exact ⟨hparks.1, by rw [MutexSystem.status, hrunning]; simp⟩
  . intro hlocked hne
    right
    obtain ⟨r, hr⟩ := h.wake hlocked hne
    refine ⟨r, hr.not_mem, ?_, hr.rechecking⟩
    by_cases heq : r = c
    . rw [heq]
      exact hc.running
    . exact (hc.status r heq).trans hr.running

theorem Waits.of_pc {pc : MutexPc τ} (h : s.Waits q c) (hexclusive : s'.Exclusive)
    (hsched : s'.sched = s.sched)
    (hhead : s'.mtx.blockingThreads = s.mtx.blockingThreads)
    (hpc : s'.pc = Function.update s.pc c pc)
    (hlink : ∀ th t, s.pc c ≠ .unblockClearNext th t)
    (hwaking : pc.waking? = (s.pc c).waking?)
    (hon : s'.On q c pc)
    (hwake : s'.mtx.locked = false → q ≠ [] → pc.unlocking = true
      ∨ s.mtx.locked = false ∧ (s.pc c).unlocking = false
        ∧ ((s.pc c).rechecking = true → pc.rechecking = true))
    : s'.Waits q c := by
  have hc : s'.pc c = pc := by simp [hpc]
  have hother : ∀ t, t ≠ c → s'.pc t = s.pc t := by
    intro t ht
    simp [hpc, ht]
  have hstatus : ∀ t, s'.status t = s.status t := by
    intro t
    simp [MutexSystem.status, hsched]
  have hnext : ∀ t, s'.next t = s.next t := by
    intro t
    simp [MutexSystem.next, hsched]
  refine ⟨hexclusive, by rw [hsched]; exact h.current, ?_, ?_, ?_, by rw [hc]; exact hon, ?_⟩
  . rw [hhead]
    exact h.chain.congr (fun t _ => hnext t)
  . intro t ht
    rw [hnext]
    cases h.unlinked t ht with
    | inl hnone => exact .inl hnone
    | inr hclear =>
      obtain ⟨th, hclear⟩ := hclear
      exact absurd hclear (hlink th t)
  . intro t ht
    rw [hc]
    exact (h.off t ht).congr (by rw [hwaking]) .rfl (hstatus t) (hother t ht)
  . intro hlocked hne
    rw [hc]
    cases hwake hlocked hne with
    | inl hunlocking => exact .inl hunlocking
    | inr hold =>
      obtain ⟨hlocked, hunlocking, hrechecking⟩ := hold
      right
      cases h.wake hlocked hne with
      | inl hcontra =>
        rw [hunlocking] at hcontra
        contradiction
      | inr hr =>
        obtain ⟨r, hr⟩ := hr
        refine ⟨r, hr.not_mem, by rw [hstatus]; exact hr.running, ?_⟩
        by_cases heq : r = c
        . subst heq
          rw [hc]
          exact hrechecking hr.rechecking
        . rw [hother r heq]
          exact hr.rechecking

theorem Waits.of_step {pc : MutexPc τ} (h : s.Waits q c) (hexclusive : s'.Exclusive)
    (hcurrent : s'.sched.currentThread = s.sched.currentThread)
    (hpc : s'.pc = Function.update s.pc c pc)
    (hchain : Chain s'.next s'.mtx.blockingThreads q')
    (hunlinked : ∀ t, t ∉ q' → s'.next t = none ∨ ∃ th, pc = .unblockClearNext th t)
    (hoff : ∀ t, t ≠ c → s'.pc t = s.pc t → s.Off q (s.pc c).waking? t → s'.Off q' pc.waking? t)
    (hon : s'.On q' c pc)
    (hwake : s'.mtx.locked = false → q' ≠ [] → pc.unlocking = true ∨ ∃ r, s'.Rechecks q' r)
    : s'.Waits q' c := by
  have hc : s'.pc c = pc := by simp [hpc]
  refine ⟨hexclusive, by rw [hcurrent]; exact h.current, hchain, ?_, ?_, ?_, ?_⟩
  . intro t ht
    rw [hc]
    exact hunlinked t ht
  . intro t ht
    rw [hc]
    exact hoff t ht (by simp [hpc, ht]) (h.off t ht)
  . rw [hc]
    exact hon
  . rw [hc]
    exact hwake

theorem Waits.lockBlock {th : τ} (h : s.Waits q c) (hpc : s.pc c = .lockBlock th)
    (hexclusive : ((s.setStatus c .blocking).goto c (.addTestHead th)).Exclusive)
    : ((s.setStatus c .blocking).goto c (.addTestHead th)).Waits q c := by
  have hon := h.on
  rw [hpc] at hon
  refine h.of_step hexclusive rfl rfl ?_ ?_ ?_ ?_ ?_
  . exact h.chain.congr (by simp)
  . intro t ht
    simpa [hpc] using h.unlinked t ht
  . intro t ht hsame hoff
    exact hoff.congr (by simp [hpc, MutexPc.waking?]) .rfl (by simp [ht]) hsame
  . exact ⟨hon.1, by simp, hon.2.1, hon.2.2⟩
  . intro hlocked
    exact absurd (hon.2.2.symm.trans hlocked) (by simp)

theorem Waits.next_eq_none (h : s.Waits q c) (hlink : ∀ th t, s.pc c ≠ .unblockClearNext th t)
    {t : τ} (ht : t ∉ q)
    : s.next t = none := by
  cases h.unlinked t ht with
  | inl hnone => exact hnone
  | inr hclear =>
    obtain ⟨th, hclear⟩ := hclear
    exact absurd hclear (hlink th t)

theorem Waits.addSetHead {th : τ} (h : s.Waits q c) (hpc : s.pc c = .addSetHead th)
    (hexclusive : ((s.setBlockingThreads (some c)).goto c (.addClearHead th)).Exclusive)
    : ((s.setBlockingThreads (some c)).goto c (.addClearHead th)).Waits [c] c := by
  have hon := h.on
  rw [hpc] at hon
  obtain ⟨hjoins, hempty⟩ := hon
  have hnext : ∀ t, s.next t = none := by
    intro t
    exact h.next_eq_none (by simp [hpc]) (by simp [hempty])
  refine h.of_step hexclusive rfl rfl ⟨rfl, hnext c⟩ (fun t _ => .inl (hnext t)) ?_ ?_ ?_
  . intro t ht hsame hoff
    exact hoff.congr (by simp [hpc, MutexPc.waking?]) (by simp [ht, hempty]) (by simp) hsame
  . exact ⟨by simp, hjoins.blocking, hjoins.enabled, hjoins.locked, hnext c⟩
  . intro hlocked
    exact absurd (hjoins.locked.symm.trans hlocked) (by simp)

theorem Waits.addClear {th : τ} (h : s.Waits q c)
    (hpc : s.pc c = .addClearHead th ∨ s.pc c = .addClearNext th)
    (hexclusive : ((s.setNext c none).goto c (.lockYield th)).Exclusive)
    : ((s.setNext c none).goto c (.lockYield th)).Waits q c := by
  have hon : c ∈ q ∧ s.status c = .blocking ∧ s.preemptionEnabled = true ∧ s.mtx.locked = true
      ∧ s.next c = none := by
    have hon := h.on
    cases hpc with
    | inl hpc =>
      rw [hpc] at hon
      exact hon
    | inr hpc =>
      rw [hpc] at hon
      exact hon
  have hwaking : (s.pc c).waking? = none := by
    cases hpc with
    | inl hpc => rw [hpc]; rfl
    | inr hpc => rw [hpc]; rfl
  have hlink : ∀ th t, s.pc c ≠ .unblockClearNext th t := by
    intro th t heq
    rw [heq] at hwaking
    contradiction
  obtain ⟨hmem, hblocking, henabled, hlocked, hnone⟩ := hon
  have hnext : (s.setNext c none).next = s.next := by
    rw [next_setNext]
    rw [← hnone]
    exact Function.update_eq_self c s.next
  refine h.of_step hexclusive rfl rfl ?_ ?_ ?_ ⟨henabled, .inl ⟨hmem, by simpa using hblocking⟩⟩ ?_
  . exact h.chain.congr (fun t _ => congrFun hnext t)
  . intro t ht
    left
    exact (congrFun hnext t).trans (h.next_eq_none hlink ht)
  . intro t ht hsame hoff
    exact hoff.congr (by rw [hwaking]; rfl) .rfl (by simp) hsame
  . intro hunlocked
    exact absurd (hlocked.symm.trans hunlocked) (by simp)

theorem Waits.addLink {th l : τ} (h : s.Waits q c) (hpc : s.pc c = .addLink th (some l))
    (hexclusive : ((s.setNext l (some c)).goto c (.addClearNext th)).Exclusive)
    : ((s.setNext l (some c)).goto c (.addClearNext th)).Waits (q ++ [c]) c := by
  have hon := h.on
  rw [hpc] at hon
  obtain ⟨hjoins, l, hl, heq, hlast⟩ := hon
  cases heq
  have hlink : ∀ th t, s.pc c ≠ .unblockClearNext th t := by simp [hpc]
  have hne : c ≠ l := by
    intro heq
    rw [heq] at hjoins
    exact hjoins.not_mem hl
  have hnext : ((s.setNext l (some c)).goto c (.addClearNext th)).next
      = Function.update s.next l (some c) := next_setNext l (some c)
  have hnone : s.next c = none := h.next_eq_none hlink hjoins.not_mem
  refine h.of_step hexclusive rfl rfl ?_ ?_ ?_ ?_ ?_
  . obtain ⟨pre, hpre⟩ := h.chain.eq_append_of_next_eq_none hl hlast
    have hchain := h.chain
    rw [hpre] at hchain ⊢
    rw [hnext]
    rw [List.append_assoc]
    apply hchain.relink
    refine ⟨rfl, ?_⟩
    rw [Function.update_of_ne hne]
    exact hnone
  . intro t ht
    left
    rw [List.mem_append, not_or] at ht
    rw [hnext]
    rw [Function.update_of_ne (by intro heq; rw [heq] at ht; exact ht.1 hl)]
    exact h.next_eq_none hlink ht.1
  . intro t ht hsame hoff
    exact hoff.congr (by simp [hpc, MutexPc.waking?]) (by simp [ht]) (by simp) hsame
  . refine ⟨by simp, by simpa using hjoins.blocking, hjoins.enabled, hjoins.locked, ?_⟩
    rw [hnext]
    rw [Function.update_of_ne hne]
    exact hnone
  . intro hlocked
    exact absurd (hjoins.locked.symm.trans hlocked) (by simp)

theorem Waits.unblockSetHead {th u : τ} (h : s.Waits q c) (hpc : s.pc c = .unblockSetHead th u)
    (hexclusive : ((s.setBlockingThreads (s.next u)).goto c (.unblockClearNext th u)).Exclusive)
    : ∃ q', ((s.setBlockingThreads (s.next u)).goto c (.unblockClearNext th u)).Waits q' c := by
  have hon := h.on
  rw [hpc] at hon
  obtain ⟨⟨hmem, hstatus⟩, q', hq⟩ := hon
  have hchain := h.chain
  have hnodup := h.chain.nodup
  rw [hq] at hchain hnodup hmem
  rw [List.nodup_cons] at hnodup
  rw [List.mem_cons, not_or] at hmem
  have hu : (s.pc u).parked = true ∧ s.status u = .blocking := by
    have hoff := h.off u (Ne.symm hmem.1)
    unfold Off Parks Clear at hoff
    simp only [hpc, MutexPc.waking?, hq, List.mem_cons, true_or, true_and, not_true_eq_false,
      false_and, or_false, reduceCtorEq, ↓reduceIte] at hoff
    by_cases hparked : (s.pc u).parked = true
    . rw [if_pos hparked] at hoff
      exact ⟨hparked, hoff.2⟩
    . rw [if_neg hparked] at hoff
      exact hoff.2.elim
  refine ⟨q', h.of_step hexclusive rfl rfl hchain.2 ?_ ?_ ?_ (fun _ _ => .inl rfl)⟩
  . intro t ht
    by_cases heq : t = u
    . exact .inr ⟨th, by rw [heq]⟩
    . left
      exact h.next_eq_none (by simp [hpc]) (by simp [hq, heq, ht])
  . intro t ht hsame hoff
    by_cases heq : t = u
    . subst heq
      unfold Off
      rw [if_pos (by rfl), hsame]
      exact ⟨hu.1, hnodup.1, hu.2⟩
    . refine hoff.congr ?_ (by simp [hq, heq]) (by simp) hsame
      simpa [hpc, MutexPc.waking?] using Ne.symm heq
  . refine ⟨⟨hmem.2, hstatus⟩, ?_, hnodup.1, hu.2⟩
    simpa [goto, setBlockingThreads, Ne.symm hmem.1] using hu.1

theorem Waits.unblockClearNext {th u : τ} (h : s.Waits q c)
    (hpc : s.pc c = .unblockClearNext th u)
    (hexclusive : ((s.setNext u none).goto c (.unblockTestStatus th u)).Exclusive)
    : ((s.setNext u none).goto c (.unblockTestStatus th u)).Waits q c := by
  have hon := h.on
  rw [hpc] at hon
  obtain ⟨hclear, hparked, hmem, hblocking⟩ := hon
  have hne : u ≠ c := by
    intro heq
    rw [heq, hpc] at hparked
    contradiction
  have hnext : ((s.setNext u none).goto c (.unblockTestStatus th u)).next
      = Function.update s.next u none := next_setNext u none
  refine h.of_step hexclusive rfl rfl ?_ ?_ ?_ ?_ (fun _ _ => .inl rfl)
  . apply h.chain.congr
    intro t ht
    rw [hnext]
    apply Function.update_of_ne
    intro heq
    rw [heq] at ht
    exact hmem ht
  . intro t ht
    left
    rw [hnext]
    by_cases heq : t = u
    . simp [heq]
    . rw [Function.update_of_ne heq]
      have hunlinked := h.unlinked t ht
      simp only [hpc, MutexPc.unblockClearNext.injEq, Ne.symm heq, and_false, exists_false,
        or_false] at hunlinked
      exact hunlinked
  . intro t ht hsame hoff
    exact hoff.congr (by simp [hpc, MutexPc.waking?]) .rfl (by simp) hsame
  . refine ⟨⟨hclear.1, by simpa using hclear.2⟩, ?_, hmem, by simpa using hblocking⟩
    simpa [goto, setNext, hne] using hparked

theorem Waits.unblockSetStatus {th u : τ} (h : s.Waits q c)
    (hpc : s.pc c = .unblockSetStatus th u)
    (hexclusive : ((s.setStatus u .running).goto c (.unlockEnable th)).Exclusive)
    : ((s.setStatus u .running).goto c (.unlockEnable th)).Waits q c := by
  have hon := h.on
  rw [hpc] at hon
  obtain ⟨hclear, hparked, hmem, hblocking⟩ := hon
  have hne : u ≠ c := by
    intro heq
    rw [heq, hpc] at hparked
    contradiction
  have hpark : (((s.setStatus u .running).goto c (.unlockEnable th)).pc u).parked = true := by
    simpa [goto, setStatus, hne] using hparked
  refine h.of_step hexclusive rfl rfl ?_ ?_ ?_ ?_ ?_
  . exact h.chain.congr (by simp)
  . intro t ht
    left
    rw [next_goto, next_setStatus]
    exact h.next_eq_none (by simp [hpc]) ht
  . intro t ht hsame hoff
    by_cases heq : t = u
    . subst heq
      unfold Off Parks
      rw [if_neg (by simp [MutexPc.waking?]), if_pos hpark]
      refine ⟨?_, .inr ⟨hmem, by simp⟩⟩
      rw [hsame]
      cases hpc : s.pc t <;> simp_all [MutexPc.parked, MutexPc.queueing]
    . refine hoff.congr ?_ .rfl (by simp [heq]) hsame
      simpa [hpc, MutexPc.waking?] using Ne.symm heq
  . exact ⟨hclear.1, by simpa [Ne.symm hne] using hclear.2⟩
  . intro _ _
    right
    refine ⟨u, hmem, by simp, ?_⟩
    revert hpark
    generalize MutexSystem.pc _ u = pc
    intro hpark
    cases pc <;> simp_all [MutexPc.parked, MutexPc.rechecking]

theorem Switchable.yield {th : τ} (h : s.Switchable q) (hpc : s.pc c = .lockYield th)
    (hexclusive : (s.goto c (.lockDisableAgain th)).Exclusive)
    : (s.goto c (.lockDisableAgain th)).Switchable q := by
  have hc : (s.goto c (.lockDisableAgain th)).pc c = .lockDisableAgain th := by simp [goto]
  have hother : ∀ t, t ≠ c → (s.goto c (.lockDisableAgain th)).pc t = s.pc t := by
    intro t ht
    simp [goto, ht]
  refine ⟨hexclusive, h.enabled, h.chain, h.unlinked, ?_, ?_⟩
  . intro t
    have hparks := h.parks t
    unfold Parks at hparks ⊢
    by_cases heq : t = c
    . subst heq
      rw [hpc] at hparks
      rw [hc]
      exact hparks
    . rw [hother t heq]
      exact hparks
  . intro hlocked hne
    obtain ⟨r, hr⟩ := h.wake hlocked hne
    refine ⟨r, hr.not_mem, hr.running, ?_⟩
    by_cases heq : r = c
    . subst heq
      rw [hc]
      rfl
    . rw [hother r heq]
      exact hr.rechecking

theorem Joins.goto {t : τ} {pc : MutexPc τ} (h : s.Joins q t) : (s.goto c pc).Joins q t :=
  ⟨h.not_mem, h.blocking, h.enabled, h.locked⟩

theorem Waits.blockingThreads_eq_none (h : s.Waits q c) : s.mtx.blockingThreads = none ↔ q = [] := by
  have hchain := h.chain
  cases q with
  | nil => exact iff_of_true hchain rfl
  | cons t q => simp [hchain.1]

omit [DecidableEq τ] in
theorem quiet_of_not_rechecking {pc pc' : MutexPc τ} (hl : s.mtx.locked = false)
    (hunlocking : pc.unlocking = false) (hrechecking : pc.rechecking = false)
    : pc'.unlocking = true ∨ s.mtx.locked = false ∧ pc.unlocking = false
        ∧ (pc.rechecking = true → pc'.rechecking = true) := by
  refine .inr ⟨hl, hunlocking, ?_⟩
  intro h
  rw [hrechecking] at h
  contradiction

theorem Waits.exec {op : MutexOp} {fuel : Nat} (h : s.Waits q c)
    (hstep : s.exec c op fuel = .ok s')
    : ∃ q' c', s'.Waits q' c' := by
  have hexclusive := h.exclusive.exec h.current hstep
  have hon := h.on
  have hself := h.exclusive.self c
  have hquiet := @Waits.of_pc τ _ s s' q c
  have hcurrent := h.current
  cases hpc : s.pc c
  all_goals
    rw [hpc] at hon hself hquiet
    simp only [MutexSystem.exec, hpc, hcurrent] at hstep
  -- the steps that change the queue or another thread
  case lockBlock th =>
    cases hself th rfl
    cases hstep
    exact ⟨q, _, h.lockBlock hpc hexclusive⟩
  case addSetHead th =>
    cases hself th rfl
    cases hstep
    exact ⟨_, _, h.addSetHead hpc hexclusive⟩
  case addClearHead th =>
    cases hself th rfl
    cases hstep
    exact ⟨q, _, h.addClear (.inl hpc) hexclusive⟩
  case addClearNext th =>
    cases hself th rfl
    cases hstep
    exact ⟨q, _, h.addClear (.inr hpc) hexclusive⟩
  case addLink th last =>
    cases last with
    | none => contradiction
    | some last =>
      cases hself th rfl
      cases hstep
      exact ⟨_, _, h.addLink hpc hexclusive⟩
  case unblockSetHead th unblock =>
    cases hstep
    obtain ⟨q', hq⟩ := h.unblockSetHead hpc hexclusive
    exact ⟨q', c, hq⟩
  case unblockClearNext th unblock =>
    cases hstep
    exact ⟨q, c, h.unblockClearNext hpc hexclusive⟩
  case unblockSetStatus th unblock =>
    cases hstep
    exact ⟨q, c, h.unblockSetStatus hpc hexclusive⟩
  case lockYield th =>
    have hyield : (s.goto c (.lockDisableAgain th)).Exclusive :=
      h.exclusive.of_step hcurrent hcurrent rfl hself (by simp [MutexPc.critical])
        h.exclusive.holder trivial
    have hswitchable := (h.switchable hon.1 (by rw [hpc]; rfl)).yield hpc hyield
    exact ⟨q, hswitchable.pitIsr hstep⟩
  -- the search for the end of the queue
  case addTestHead th =>
    cases hself th rfl
    have hne : s.mtx.blockingThreads ≠ some c := by
      intro heq
      cases q with
      | nil => exact absurd (h.chain.symm.trans heq) (by simp)
      | cons t q =>
        have hhead := h.chain.1.symm.trans heq
        cases hhead
        exact hon.not_mem (by simp)
    rw [if_neg hne] at hstep
    cases hstep
    exact ⟨q, c, hquiet h hexclusive rfl rfl rfl (by simp) rfl (Joins.goto hon)
      (fun hl _ => quiet_of_not_rechecking hl rfl rfl)⟩
  case addTestEmpty th =>
    cases hstep
    refine ⟨q, c, hquiet h hexclusive rfl rfl rfl (by simp) ?_ ?_ ?_⟩
    . split <;> rfl
    . split
      . next hnone => exact ⟨Joins.goto hon, h.blockingThreads_eq_none.mp hnone⟩
      . next hsome => exact ⟨Joins.goto hon, fun heq => hsome (h.blockingThreads_eq_none.mpr heq)⟩
    . intro hl _
      exact quiet_of_not_rechecking hl rfl rfl
  case addReadHead th =>
    cases hstep
    refine ⟨q, c, hquiet h hexclusive rfl rfl rfl (by simp) rfl ⟨hon.1.goto, ?_⟩
      (fun hl _ => quiet_of_not_rechecking hl rfl rfl)⟩
    cases q with
    | nil => exact absurd rfl hon.2
    | cons t q => exact ⟨t, by simp, h.chain.1⟩
  case addTestLast th last =>
    cases hself th rfl
    obtain ⟨hjoins, l, hl, heq⟩ := hon
    subst heq
    have hne : l ≠ c := by
      intro heq
      rw [heq] at hl
      exact hjoins.not_mem hl
    simp only [hne, ↓reduceIte] at hstep
    cases hstep
    exact ⟨q, c, hquiet h hexclusive rfl rfl rfl (by simp) rfl ⟨hjoins.goto, hl⟩
      (fun hl _ => quiet_of_not_rechecking hl rfl rfl)⟩
  case addTestNext th l =>
    cases hstep
    refine ⟨q, c, hquiet h hexclusive rfl rfl rfl (by simp) ?_ ?_ ?_⟩
    . split <;> rfl
    . split
      . next hnone => exact ⟨hon.1.goto, l, hon.2, rfl, hnone⟩
      . next hsome => exact ⟨hon.1.goto, hon.2, hsome⟩
    . intro hl _
      exact quiet_of_not_rechecking hl rfl rfl
  case addReadNext th l =>
    cases hstep
    obtain ⟨hjoins, hl, hsome⟩ := hon
    obtain ⟨m, hm⟩ := Option.ne_none_iff_exists'.mp hsome
    exact ⟨q, c, hquiet h hexclusive rfl rfl rfl (by simp) rfl
      ⟨hjoins.goto, m, h.chain.mem_of_next hl hm, hm⟩ (fun hl _ => quiet_of_not_rechecking hl rfl rfl)⟩
  -- the steps that test or change the mutex
  case lockTest th =>
    cases hstep
    refine ⟨q, c, hquiet h hexclusive rfl rfl rfl (by simp) ?_ ?_ ?_⟩
    . split <;> rfl
    . split
      . next hlocked => exact ⟨hon, hlocked⟩
      . exact hon
    . intro hl _
      rw [if_neg (by rw [show s.mtx.locked = false from hl]; simp)]
      exact .inr ⟨hl, rfl, fun _ => rfl⟩
  case lockEnableToWait th =>
    cases hstep
    exact ⟨q, c, hquiet h hexclusive rfl rfl rfl (by simp) rfl ⟨hon.1.1, rfl, hon.2⟩
      (fun hl _ => quiet_of_not_rechecking hl rfl rfl)⟩
  case lockDisableAgain th =>
    cases hstep
    refine ⟨q, c, hquiet h hexclusive rfl rfl rfl (by simp) rfl ⟨hon.2.1, ?_⟩
      (fun hl _ => .inr ⟨hl, rfl, fun _ => rfl⟩)⟩
    rw [status_goto]
    rw [show (s.setPreemption false).status c = .running from hon.2.2]
    simp
  case lockSetLocked th | trySetLocked th =>
    cases hstep
    exact ⟨q, c, hquiet h hexclusive rfl rfl rfl (by simp) rfl hon (fun hl _ => absurd hl.symm Bool.false_ne_true)⟩
  case tryTest th | unlockTest th =>
    cases hstep
    refine ⟨q, c, hquiet h hexclusive rfl rfl rfl (by simp) ?_ ?_ ?_⟩
    . split <;> rfl
    . split <;> exact hon
    . intro hl _
      exact quiet_of_not_rechecking hl rfl rfl
  case unlockClearLocked th | unlockClearOwner th =>
    cases hstep
    exact ⟨q, c, hquiet h hexclusive rfl rfl rfl (by simp) rfl hon (fun _ _ => .inl rfl)⟩
  case unblockTestEmpty th =>
    cases hstep
    refine ⟨q, c, hquiet h hexclusive rfl rfl rfl (by simp) ?_ ?_ ?_⟩
    . split <;> rfl
    . split
      . exact hon
      . next hsome => exact ⟨hon, fun heq => hsome (h.blockingThreads_eq_none.mpr heq)⟩
    . intro _ hne
      rw [if_neg (fun hnone => hne (h.blockingThreads_eq_none.mp hnone))]
      exact .inl rfl
  case unblockReadHead th =>
    cases q with
    | nil => exact absurd rfl hon.2
    | cons t q =>
      simp only [h.chain.1] at hstep
      cases hstep
      exact ⟨_, c, hquiet h hexclusive rfl rfl rfl (by simp) rfl ⟨hon.1, q, rfl⟩
        (fun _ _ => .inl rfl)⟩
  case unblockTestStatus th unblock =>
    rw [if_pos hon.2.2.2] at hstep
    cases hstep
    refine ⟨q, c, hquiet h hexclusive rfl rfl rfl (by simp) rfl ?_ (fun _ _ => .inl rfl)⟩
    refine ⟨hon.1, ?_, hon.2.2⟩
    have hne : unblock ≠ c := by
      intro heq
      have := hon.2.1
      rw [heq, hpc] at this
      contradiction
    simpa [goto, hne] using hon.2.1
  case idle =>
    cases hstep
    cases op <;> exact ⟨q, c, hquiet h hexclusive rfl rfl rfl (by simp) rfl hon
      (fun hl _ => quiet_of_not_rechecking hl rfl rfl)⟩
  all_goals
    cases hstep
    exact ⟨q, c, hquiet h hexclusive rfl rfl rfl (by simp) rfl hon
      (fun hl _ => quiet_of_not_rechecking hl rfl rfl)⟩

theorem Waits.step (h : s.Waits q c) (hstep : s.UndisturbedStep s')
    : ∃ q' c', s'.Waits q' c' := by
  obtain ⟨a, hundisturbed, ha⟩ := hstep
  cases a with
  | run op fuel =>
    simp only [MutexSystem.step, h.current] at ha
    exact h.exec ha
  | timer fuel =>
    by_cases henabled : s.preemptionEnabled = true
    . have hswitchable := h.switchable henabled (hundisturbed c h.current)
      exact ⟨q, hswitchable.pitIsr ha⟩
    . simp only [MutexSystem.step, MutexSystem.pitIsr, henabled] at ha
      cases ha
      exact ⟨q, c, h⟩

theorem Waits.run (h : s.Waits q c) (hrun : Relation.ReflTransGen UndisturbedStep s s')
    : ∃ q' c', s'.Waits q' c' := by
  induction hrun with
  | refl => exact ⟨q, c, h⟩
  | tail _ hstep ih =>
    obtain ⟨q', c', h'⟩ := ih
    exact h'.step hstep

omit [DecidableEq τ] in
theorem On.of_blocking (hon : s.On q c (s.pc c)) (hblocking : s.status c = .blocking)
    : c ∈ q ∨ (s.pc c).queueing = true ∧ s.mtx.locked = true := by
  cases hpc : s.pc c
  all_goals
    rw [hpc] at hon
  case lockBlock => exact .inr ⟨rfl, hon.2.2⟩
  case addTestHead | addTestEmpty => exact .inr ⟨rfl, hon.locked⟩
  case addSetHead | addReadHead | addTestLast | addTestNext | addReadNext | addLink =>
    exact .inr ⟨rfl, hon.1.locked⟩
  case addClearHead | addClearNext => exact .inl hon.1
  case lockYield =>
    cases hon.2 with
    | inl hin => exact .inl hin.1
    | inr hout => exact absurd (hblocking.symm.trans hout.2) (by simp)
  case lockDisableAgain => exact absurd (hblocking.symm.trans hon.2.2) (by simp)
  case lockEnableToWait | unblockReadHead | unblockSetHead | unblockClearNext | unblockTestStatus
      | unblockSetStatus =>
    exact absurd hblocking hon.1.2
  all_goals exact absurd hblocking hon.2

omit [DecidableEq τ] in
theorem On.of_mem (hon : s.On q c (s.pc c)) (hmem : c ∈ q) : s.status c = .blocking := by
  cases hpc : s.pc c
  all_goals
    rw [hpc] at hon
  case addTestHead | addTestEmpty => exact hon.blocking
  case addSetHead | addReadHead | addTestLast | addTestNext | addReadNext | addLink =>
    exact hon.1.blocking
  case addClearHead | addClearNext => exact hon.2.1
  case lockYield =>
    cases hon.2 with
    | inl hin => exact hin.2
    | inr hout => exact absurd hmem hout.1
  case lockDisableAgain => exact absurd hmem hon.2.1
  case lockEnableToWait | unblockReadHead | unblockSetHead | unblockClearNext | unblockTestStatus
      | unblockSetStatus =>
    exact absurd hmem hon.1.1
  all_goals exact absurd hmem hon.1

theorem Waits.critical (h : s.Waits q c) (hunlocking : (s.pc c).unlocking = true)
    : s.preemptionEnabled = false := by
  refine (h.exclusive.critical c ?_).2
  by_contra hcritical
  rw [MutexPc.not_unlocking_of_not_critical (by simpa using hcritical)] at hunlocking
  contradiction

theorem Waits.of_blocking (h : s.Waits q c) {t : τ} (hblocking : s.status t = .blocking)
    : t ∈ q
        ∨ (t = c ∧ (s.pc t).queueing = true ∧ s.mtx.locked = true)
        ∨ (s.preemptionEnabled = false ∧ (s.pc c).waking? = some t) := by
  by_cases heq : t = c
  . subst heq
    cases On.of_blocking h.on hblocking with
    | inl hmem => exact .inl hmem
    | inr hqueueing => exact .inr (.inl ⟨rfl, hqueueing⟩)
  . have hoff := h.off t heq
    unfold Off Parks Clear at hoff
    split at hoff
    . next hwaking =>
      right
      right
      refine ⟨h.critical ?_, hwaking⟩
      cases hpc : s.pc c <;> simp_all [MutexPc.waking?, MutexPc.unlocking]
    . split at hoff
      . cases hoff.2 with
        | inl hin => exact .inl hin.1
        | inr hout => exact absurd (hblocking.symm.trans hout.2) (by simp)
      . exact absurd hblocking hoff.2.2

theorem Waits.of_mem (h : s.Waits q c) {t : τ} (hmem : t ∈ q) : s.status t = .blocking := by
  by_cases heq : t = c
  . subst heq
    exact On.of_mem h.on hmem
  . have hoff := h.off t heq
    unfold Off Parks Clear at hoff
    split at hoff
    . exact hoff.2.2
    . split at hoff
      . cases hoff.2 with
        | inl hin => exact hin.2
        | inr hout => exact absurd hmem hout.1
      . exact absurd hmem hoff.2.1

/--
Nobody waits in vain, for the queue `q` and the current thread `c`. A blocked thread is in the queue,
or still running on its way there while the mutex is locked, or just being taken off the queue with
preemption turned off. If the mutex is unlocked and the queue is not empty, then an unlock is still
going on with preemption turned off, or a thread that was taken off the queue is running and about to
test the mutex again.
-/
structure Served (s : MutexSystem τ) (q : List τ) (c : τ) : Prop where
  chain : Chain s.next s.mtx.blockingThreads q
  current : s.sched.currentThread = some c
  queued : ∀ t ∈ q, s.status t = .blocking
  blocked : ∀ t, s.status t = .blocking
    → t ∈ q
      ∨ (t = c ∧ (s.pc t).queueing = true ∧ s.mtx.locked = true)
      ∨ (s.preemptionEnabled = false ∧ (s.pc c).waking? = some t)
  woken : s.mtx.locked = false → q ≠ []
    → (s.preemptionEnabled = false ∧ (s.pc c).unlocking = true)
      ∨ ∃ r, r ∉ q ∧ s.status r = .running ∧ (s.pc r).rechecking = true

/--
As long as no thread is switched away from on its way into the queue, nobody waits in vain.
-/
theorem no_lost_wakeup (s s' : MutexSystem τ) (hinit : s.Unblocked)
    (hrun : Relation.ReflTransGen UndisturbedStep s s')
    : ∃ q c, s'.Served q c := by
  obtain ⟨c, hwaits⟩ := waits_of_unblocked hinit
  obtain ⟨q, c, h⟩ := hwaits.run hrun
  refine ⟨q, c, h.chain, h.current, fun t => h.of_mem, fun t => h.of_blocking, ?_⟩
  intro hlocked hne
  cases h.wake hlocked hne with
  | inl hunlocking => exact .inl ⟨h.critical hunlocking, hunlocking⟩
  | inr hr =>
    obtain ⟨r, hr⟩ := hr
    exact .inr ⟨r, hr.not_mem, hr.running, hr.rechecking⟩

theorem undisturbed_of_runs {as : List MutexAction} (hruns : ∀ a ∈ as, ∃ op fuel, a = .run op fuel)
    (h : s.steps as = .ok s')
    : Relation.ReflTransGen UndisturbedStep s s' := by
  induction as generalizing s with
  | nil =>
    cases h
    exact .refl
  | cons a as ih =>
    rw [steps, bind_eq_ok] at h
    obtain ⟨t, ht, h⟩ := h
    obtain ⟨op, fuel, ha⟩ := hruns a (by simp)
    subst ha
    refine .head ⟨.run op fuel, trivial, ht⟩ (ih ?_ h)
    intro b hb
    exact hruns b (by simp [hb])

theorem numbered_unblocked (n : Nat) : (numbered n).Unblocked where
  toInitial := numbered_initial n
  current := ⟨0, rfl⟩
  next := fun _ => rfl
  status := fun _ => by simp [MutexSystem.status, numbered]

/--
Two threads wait for the first one, which then unlocks the mutex.
-/
def unlockWithTwoWaiting : List MutexAction :=
  List.replicate 7 (.run .lock 3) ++ [.timer 3] ++ List.replicate 25 (.run .lock 3)
    ++ List.replicate 13 (.run .unlock 3)

theorem no_lost_wakeup_twoWaiting
    : ∃ s, (numbered 3).steps unlockWithTwoWaiting = .ok s
        ∧ s.mtx = ⟨false, none, some 2⟩
        ∧ ∃ q c, s.Served q c := by
  have hparts : ∃ s1, (numbered 3).steps (List.replicate 7 (.run .lock 3)) = .ok s1
      ∧ s1.sched.currentThread = some 0
      ∧ s1.pc 0 = .idle
      ∧ ∃ s2, s1.step (.timer 3) = .ok s2
        ∧ ∃ s3, s2.steps (List.replicate 25 (.run .lock 3) ++ List.replicate 13 (.run .unlock 3))
            = .ok s3
          ∧ (numbered 3).steps unlockWithTwoWaiting = .ok s3
          ∧ s3.mtx = ⟨false, none, some 2⟩ :=
    ⟨_, rfl, rfl, rfl, _, rfl, _, rfl, rfl, rfl⟩
  obtain ⟨s1, h1, hcurrent, hidle, s2, h2, s3, h3, hall, hmtx⟩ := hparts
  have htimer : UndisturbedStep s1 s2 := by
    refine ⟨.timer 3, ?_, h2⟩
    intro c hc
    rw [hcurrent] at hc
    cases hc
    rw [hidle]
    rfl
  have hrun1 := undisturbed_of_runs (by simp) h1
  have hrun3 := undisturbed_of_runs (by simp [or_imp, forall_and]) h3
  refine ⟨s3, hall, hmtx, ?_⟩
  exact no_lost_wakeup (numbered 3) s3 (numbered_unblocked 3) ((hrun1.tail htimer).trans hrun3)

/--
An unlock wakes up one thread only, the others stay blocked.
-/
theorem blocked_while_unlocked
    : ¬ ∀ s, Relation.ReflTransGen Step (numbered 3) s → s.mtx.locked = false
        → ∀ t, s.status t ≠ .blocking := by
  have hsteps : ∃ s, (numbered 3).steps unlockWithTwoWaiting = .ok s
      ∧ s.mtx.locked = false
      ∧ s.status 2 = .blocking := ⟨_, rfl, rfl, rfl⟩
  obtain ⟨s, hs, hlocked, hblocking⟩ := hsteps
  intro h
  exact h s (reflTransGen_of_steps hs) hlocked 2 hblocking

/--
The second thread is switched away from before it is blocked, the mutex is unlocked, and then the
second thread blocks.
-/
def unlockBeforeBlock : List MutexAction :=
  List.replicate 7 (.run .lock 2) ++ [.timer 2] ++ List.replicate 5 (.run .lock 2) ++ [.timer 2]
    ++ List.replicate 8 (.run .unlock 2) ++ [.timer 2] ++ List.replicate 6 (.run .lock 2)

theorem lost_wakeup_of_disturbed
    : ∃ s, (numbered 2).steps unlockBeforeBlock = .ok s
        ∧ s.mtx = ⟨false, none, some 1⟩
        ∧ s.preemptionEnabled = true
        ∧ s.status 1 = .blocking
        ∧ s.pc 0 = .idle :=
  ⟨_, rfl, rfl, rfl, rfl, rfl⟩

end MutexSystem

end Emos
