import Emos.Kernel.Mutex.Impl.Mutex
import Emos.Lib.Loop
import Mathlib.Logic.Relation

/-!
This module contains that at most one thread holds the mutex, whatever the threads do and wherever
the timer switches between them.
-/

open Lib

namespace Emos

variable {τ : Type} [DecidableEq τ]

namespace MutexPc

/--
The value of the variable `th`, once it has been read.
-/
def th? : MutexPc τ → Option τ
  | .idle | .lockGetCurrent | .tryGetCurrent | .unlockGetCurrent => none
  | .lockDisable th | .lockTest th | .lockEnableToWait th | .lockBlock th | .addTestHead th
  | .addTestEmpty th | .addSetHead th | .addClearHead th | .addReadHead th | .addTestLast th _
  | .addTestNext th _ | .addReadNext th _ | .addLink th _ | .addClearNext th | .lockYield th
  | .lockDisableAgain th | .lockSetLocked th | .lockSetOwner th | .lockEnable th | .tryDisable th
  | .tryTest th | .tryEnableToFail th | .trySetLocked th | .trySetOwner th | .tryEnable th
  | .unlockDisable th | .unlockTest th | .unlockEnableToFail th | .unlockClearLocked th
  | .unlockClearOwner th | .unblockTestEmpty th | .unblockReadHead th | .unblockSetHead th _
  | .unblockClearNext th _ | .unblockTestStatus th _ | .unblockSetStatus th _
  | .unlockEnable th => some th

/--
Preemption has been turned off and not on again.
-/
def critical : MutexPc τ → Bool
  | .lockTest _ | .lockEnableToWait _ | .lockSetLocked _ | .lockSetOwner _ | .lockEnable _
  | .tryTest _ | .tryEnableToFail _ | .trySetLocked _ | .trySetOwner _ | .tryEnable _
  | .unlockTest _ | .unlockEnableToFail _ | .unlockClearLocked _ | .unlockClearOwner _
  | .unblockTestEmpty _ | .unblockReadHead _ | .unblockSetHead _ _ | .unblockClearNext _ _
  | .unblockTestStatus _ _ | .unblockSetStatus _ _ | .unlockEnable _ => true
  | _ => false

end MutexPc

namespace MutexSystem

/--
What is known about the mutex while thread `t` is about to change it.
-/
def Expects (s : MutexSystem τ) (t : τ) : MutexPc τ → Prop
  | .lockSetLocked _ | .trySetLocked _ => s.mtx.locked = false
  | .lockSetOwner _ | .trySetOwner _ => s.mtx.locked = true ∧ ∀ u, s.holds u = false
  | .lockEnable _ | .tryEnable _ => s.mtx.locked = true ∧ s.mtx.owner = some t
  | .unlockClearLocked _ => s.mtx.owner = some t
  | .unlockClearOwner _ => ∀ u, s.holds u = false
  | _ => True

/--
Only the current thread can be in a critical section, and nobody else changes the mutex then.
-/
structure Exclusive (s : MutexSystem τ) : Prop where
  self : ∀ t th, (s.pc t).th? = some th → th = t
  critical : ∀ t, (s.pc t).critical → s.sched.currentThread = some t ∧ s.preemptionEnabled = false
  holder : ∀ t, s.holds t → s.mtx.locked = true ∧ s.mtx.owner = some t
  expects : ∀ t, s.Expects t (s.pc t)

omit [DecidableEq τ] in
theorem expects_of_not_critical (s : MutexSystem τ) (t : τ) {pc : MutexPc τ}
    (h : pc.critical = false)
    : s.Expects t pc := by
  cases pc <;> trivial

omit [DecidableEq τ] in
theorem exclusive_of_initial {s : MutexSystem τ} (h : s.Initial) : s.Exclusive where
  self := by
    intro t th hth
    rw [h.pc t] at hth
    contradiction
  critical := by
    intro t hc
    rw [h.pc t] at hc
    contradiction
  holder := by
    intro t ht
    rw [h.holds t] at ht
    contradiction
  expects := by
    intro t
    rw [h.pc t]
    trivial

theorem Exclusive.of_step {s s' : MutexSystem τ} {c : τ} {pc : MutexPc τ} (h : s.Exclusive)
    (hcurrent : s.sched.currentThread = some c)
    (hsched : s'.sched.currentThread = some c)
    (hpc : s'.pc = Function.update s.pc c pc)
    (hself : ∀ th, pc.th? = some th → th = c)
    (hcritical : pc.critical → s'.preemptionEnabled = false)
    (hholder : ∀ t, s'.holds t → s'.mtx.locked = true ∧ s'.mtx.owner = some t)
    (hexpects : s'.Expects c pc)
    : s'.Exclusive := by
  have hother : ∀ t, t ≠ c → s'.pc t = s.pc t ∧ (s.pc t).critical = false := by
    intro t ht
    refine ⟨by simp [hpc, ht], ?_⟩
    by_contra hc
    have := (h.critical t (by simpa using hc)).1
    rw [hcurrent, Option.some.injEq] at this
    exact ht this.symm
  have hc : s'.pc c = pc := by simp [hpc]
  refine ⟨?_, ?_, hholder, ?_⟩
  . intro t th hth
    by_cases heq : t = c
    . subst heq
      rw [hc] at hth
      exact hself th hth
    . rw [(hother t heq).1] at hth
      exact h.self t th hth
  . intro t ht
    by_cases heq : t = c
    . subst heq
      rw [hc] at ht
      exact ⟨hsched, hcritical ht⟩
    . rw [(hother t heq).1, (hother t heq).2] at ht
      contradiction
  . intro t
    by_cases heq : t = c
    . subst heq
      rw [hc]
      exact hexpects
    . rw [(hother t heq).1]
      exact expects_of_not_critical s' t (hother t heq).2

theorem Exclusive.pitIsr {s s' : MutexSystem τ} {fuel : Nat} (h : s.Exclusive)
    (hstep : s.pitIsr fuel = .ok s')
    : s'.Exclusive := by
  unfold MutexSystem.pitIsr at hstep
  split at hstep
  . next henabled =>
    rw [bind_eq_ok] at hstep
    obtain ⟨sched, _, hstep⟩ := hstep
    cases hstep
    have hnot : ∀ t, (s.pc t).critical = false := by
      intro t
      by_contra hc
      have := (h.critical t (by simpa using hc)).2
      rw [henabled] at this
      contradiction
    refine ⟨h.self, ?_, h.holder, h.expects⟩
    intro t ht
    rw [hnot t] at ht
    contradiction
  . cases hstep
    exact h

theorem Exclusive.of_quiet {s s' : MutexSystem τ} {c : τ} {pc : MutexPc τ} (h : s.Exclusive)
    (hcurrent : s.sched.currentThread = some c)
    (hsched : s'.sched.currentThread = some c)
    (hpc : s'.pc = Function.update s.pc c pc)
    (hself : ∀ th, pc.th? = some th → th = c)
    (hcritical : pc.critical = (s.pc c).critical)
    (hpreemption : s'.preemptionEnabled = s.preemptionEnabled)
    (hlocked : s'.mtx.locked = s.mtx.locked) (howner : s'.mtx.owner = s.mtx.owner)
    (hholds : s'.holds = s.holds)
    (hexpects : s'.Expects c pc)
    : s'.Exclusive := by
  apply h.of_step hcurrent hsched hpc hself
  . intro hc
    rw [hpreemption]
    rw [hcritical] at hc
    exact (h.critical c hc).2
  . intro t ht
    rw [hlocked, howner]
    rw [hholds] at ht
    exact h.holder t ht
  . exact hexpects

theorem Exclusive.exec {s s' : MutexSystem τ} {c : τ} {op : MutexOp} {fuel : Nat}
    (h : s.Exclusive) (hcurrent : s.sched.currentThread = some c)
    (hstep : s.exec c op fuel = .ok s')
    : s'.Exclusive := by
  have hself := h.self c
  have hexpects := h.expects c
  have hcritical := h.critical c
  have hholder := h.holder
  have hquiet := @Exclusive.of_quiet τ _ s s' c
  cases hpc : s.pc c
  all_goals
    rw [hpc] at hself hexpects hcritical hquiet
    simp only [MutexSystem.exec, hpc, hcurrent] at hstep
  case lockYield th =>
    refine Exclusive.pitIsr ?_ hstep
    exact h.of_step hcurrent hcurrent rfl hself (by simp [MutexPc.critical]) hholder trivial
  case addLink th last =>
    cases last with
    | none => contradiction
    | some last =>
      cases hstep
      exact hquiet h hcurrent hcurrent rfl hself rfl rfl rfl rfl rfl trivial
  case addTestLast th last =>
    cases last with
    | none =>
      cases hstep
      exact hquiet h hcurrent hcurrent rfl hself rfl rfl rfl rfl rfl trivial
    | some last =>
      cases hstep
      refine hquiet h hcurrent hcurrent rfl ?_ ?_ rfl rfl rfl rfl ?_
      . split <;> exact hself
      . split <;> rfl
      . split <;> trivial
  case unblockReadHead th =>
    split at hstep
    . contradiction
    . cases hstep
      exact hquiet h hcurrent hcurrent rfl hself rfl rfl rfl rfl rfl trivial
  case idle =>
    cases hstep
    cases op <;> exact hquiet h hcurrent hcurrent rfl (by simp [MutexOp.entry, MutexPc.th?]) rfl rfl rfl rfl rfl trivial
  case lockGetCurrent | tryGetCurrent | unlockGetCurrent =>
    cases hstep
    exact hquiet h hcurrent hcurrent rfl (by simp [MutexPc.th?]) rfl rfl rfl rfl rfl trivial
  -- the steps that turn preemption off, or on again
  case lockDisable | tryDisable | unlockDisable | lockDisableAgain =>
    cases hstep
    exact h.of_step hcurrent hcurrent rfl hself (fun _ => rfl) hholder trivial
  case lockEnableToWait =>
    cases hstep
    exact h.of_step hcurrent hcurrent rfl hself (by simp [MutexPc.critical]) hholder trivial
  case tryEnableToFail | unlockEnableToFail | unlockEnable =>
    cases hstep
    exact h.of_step hcurrent hcurrent rfl (by simp [MutexPc.th?]) (by simp [MutexPc.critical])
      hholder trivial
  case lockEnable | tryEnable =>
    cases hstep
    refine h.of_step hcurrent hcurrent rfl (by simp [MutexPc.th?]) (by simp [MutexPc.critical])
      ?_ trivial
    intro t ht
    by_cases heq : t = c
    . subst heq
      exact hexpects
    . exact hholder t (by simpa [setHolds, setPreemption, goto, heq] using ht)
  -- the steps that change the mutex
  case lockTest | tryTest =>
    cases hstep
    refine hquiet h hcurrent hcurrent rfl ?_ ?_ rfl rfl rfl rfl ?_
    . split <;> exact hself
    . split <;> rfl
    . split
      . trivial
      . next hlocked => exact Bool.eq_false_iff.mpr hlocked
  case lockSetLocked | trySetLocked =>
    cases hstep
    have hnone : ∀ t, s.holds t = false := by
      intro t
      by_contra ht
      have := (hholder t (by simpa using ht)).1
      rw [hexpects] at this
      contradiction
    refine h.of_step hcurrent hcurrent rfl hself (fun _ => (hcritical rfl).2) ?_ ⟨rfl, hnone⟩
    intro t ht
    exact absurd ht (by simp [setLocked, goto, hnone])
  case lockSetOwner th | trySetOwner th =>
    cases hstep
    have hth := hself th rfl
    refine h.of_step hcurrent hcurrent rfl hself (fun _ => (hcritical rfl).2) ?_
      ⟨hexpects.1, by rw [hth]; rfl⟩
    intro t ht
    exact absurd ht (by simp [setOwner, goto, hexpects.2])
  case unlockTest th =>
    cases hstep
    refine hquiet h hcurrent hcurrent rfl ?_ ?_ rfl rfl rfl rfl ?_
    . split <;> exact hself
    . split <;> rfl
    . split
      . trivial
      . next howner =>
        simp only [ne_eq, Decidable.not_not] at howner
        rw [hself th rfl] at howner
        exact howner
  case unlockClearLocked th =>
    cases hstep
    have hnone : ∀ t, Function.update s.holds c false t = false := by
      intro t
      by_cases heq : t = c
      . simp [heq]
      . rw [Function.update_of_ne heq]
        by_contra ht
        have := (hholder t (by simpa using ht)).2
        rw [hexpects, Option.some.injEq] at this
        exact heq this.symm
    refine h.of_step hcurrent hcurrent rfl hself (fun _ => (hcritical rfl).2) ?_ hnone
    intro t ht
    rw [show (((s.setLocked false).setHolds c false).goto c _).holds t = _ from hnone t] at ht
    contradiction
  case unlockClearOwner th =>
    cases hstep
    refine h.of_step hcurrent hcurrent rfl hself (fun _ => (hcritical rfl).2) ?_ trivial
    intro t ht
    exact absurd ht (by simpa [setOwner, goto] using hexpects t)
  -- the rest works on the queue and on the status of threads
  case addTestHead | addTestEmpty | addTestNext | unblockTestEmpty | unblockTestStatus =>
    cases hstep
    refine hquiet h hcurrent hcurrent rfl ?_ ?_ rfl rfl rfl rfl ?_
    . split <;> exact hself
    . split <;> rfl
    . split <;> trivial
  all_goals
    cases hstep
    exact hquiet h hcurrent hcurrent rfl hself rfl rfl rfl rfl rfl trivial

theorem Exclusive.step {s s' : MutexSystem τ} (h : s.Exclusive) (hstep : s.Step s')
    : s'.Exclusive := by
  obtain ⟨a, ha⟩ := hstep
  cases a with
  | run op fuel =>
    unfold MutexSystem.step at ha
    dsimp only at ha
    split at ha
    . contradiction
    . next c hcurrent => exact h.exec hcurrent ha
  | timer fuel => exact h.pitIsr ha

theorem Exclusive.run {s s' : MutexSystem τ} (h : s.Exclusive)
    (hrun : Relation.ReflTransGen Step s s')
    : s'.Exclusive := by
  induction hrun with
  | refl => exact h
  | tail _ hstep ih => exact ih.step hstep

/--
In every state that is reached, the threads that hold the mutex are one thread at most, and the
mutex is locked and owned by it.
-/
theorem mutual_exclusion (s s' : MutexSystem τ) (hinit : s.Initial)
    (hrun : Relation.ReflTransGen Step s s')
    : (∀ t u, s'.holds t → s'.holds u → t = u)
        ∧ ∀ t, s'.holds t → s'.mtx.locked = true ∧ s'.mtx.owner = some t := by
  have h := (exclusive_of_initial hinit).run hrun
  refine ⟨?_, h.holder⟩
  intro t u ht hu
  have howner := (h.holder t ht).2
  rw [(h.holder u hu).2, Option.some.injEq] at howner
  exact howner.symm

theorem reflTransGen_of_steps {s s' : MutexSystem τ} {as : List MutexAction}
    (h : s.steps as = .ok s')
    : Relation.ReflTransGen Step s s' := by
  induction as generalizing s with
  | nil =>
    cases h
    exact .refl
  | cons a as ih =>
    rw [steps, bind_eq_ok] at h
    obtain ⟨t, ht, h⟩ := h
    exact .head ⟨a, ht⟩ (ih h)

/--
`n` threads in the order of their numbers, the first one runs.
-/
def numbered (n : Nat) : MutexSystem Nat where
  sched := {
    firstThread := some 0
    currentThread := some 0
    thread := fun t => {
      next := if t + 1 < n then some (t + 1) else none
      status := .running
      type := .kernel
      kmodeStackPageCount := 0
      kmodeStackBaseVpn := 0
      kmodeStackPtr := 0
      detached := false
      waitList := none
      waitCount := 0
      mutexBlockingNext := none
    }
  }
  preemptionEnabled := true
  mtx := ⟨false, none, none⟩
  pc := fun _ => .idle
  holds := fun _ => false

theorem numbered_initial (n : Nat) : (numbered n).Initial where
  mtx := rfl
  pc := fun _ => rfl
  holds := fun _ => rfl

/--
The first thread locks the mutex, the second one is switched to and waits for it.
-/
def contend : List MutexAction :=
  List.replicate 7 (.run .lock 2) ++ [.timer 2] ++ List.replicate 10 (.run .lock 2)

theorem mutual_exclusion_contend
    : ∃ s, (numbered 2).steps contend = .ok s
        ∧ s.holds 0 = true
        ∧ s.status 1 = .blocking
        ∧ (∀ t u, s.holds t → s.holds u → t = u)
        ∧ ∀ t, s.holds t → s.mtx.locked = true ∧ s.mtx.owner = some t := by
  have hcontend : ∃ s, (numbered 2).steps contend = .ok s
      ∧ s.holds 0 = true
      ∧ s.status 1 = .blocking := ⟨_, rfl, rfl, rfl⟩
  obtain ⟨s, hs, h0, h1⟩ := hcontend
  have hrun := reflTransGen_of_steps hs
  exact ⟨s, hs, h0, h1, mutual_exclusion (numbered 2) s (numbered_initial 2) hrun⟩

end MutexSystem

end Emos
