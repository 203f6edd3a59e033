import Emos.Kernel.Mutex.Impl.Spinlock
import Emos.Kernel.Thread.Lemmas.RoundRobin
import Emos.Lib.Trace

/-!
This module contains when a thread comes to wait for a spinlock forever. The lock is released only by
the thread that owns it, but preemption is turned on again as soon as the lock has been taken, and off
while another thread waits for it.
-/

open Lib

namespace Emos

variable {τ : Type} [DecidableEq τ]

namespace SpinlockPc

/--
The value of the variable `th`, once it has been read.
-/
def th? : SpinlockPc τ → Option τ
  | .idle | .lockGetCurrent | .tryGetCurrent | .unlockGetCurrent => none
  | .lockDisable th | .lockTest th | .lockSetLocked th | .lockSetOwner th | .lockEnable th
  | .tryDisable th | .tryTest th | .tryEnableToFail th | .trySetLocked th | .trySetOwner th
  | .tryEnable th | .unlockDisable th | .unlockTest th | .unlockEnableToFail th
  | .unlockClearLocked th | .unlockClearOwner th | .unlockEnable th => some th

end SpinlockPc

namespace SpinlockSystem

/--
The current thread waits for a lock that another thread owns, and nobody can interrupt it.
-/
def Wedged (s : SpinlockSystem τ) : Prop :=
  ∃ c th o, s.sched.currentThread = some c ∧ s.pc c = .lockTest th ∧ s.preemptionEnabled = false
    ∧ s.lock.locked = true ∧ s.lock.owner = some o ∧ o ≠ c

/--
The action does not let `spinlock_lock` turn preemption off while another thread owns the lock.
-/
def Careful (s : SpinlockSystem τ) (a : SpinlockAction) : Prop :=
  ∀ op c th o, a = .run op → s.sched.currentThread = some c → s.pc c = .lockDisable th
    → s.lock.locked = true → s.lock.owner = some o → o = c

/--
The action is not a switch from the thread that owns the lock to another one.
-/
def Undisturbed (s : SpinlockSystem τ) (a : SpinlockAction) : Prop :=
  ∀ fuel c, a = .timer fuel → s.preemptionEnabled = true → s.sched.currentThread = some c
    → s.lock.owner ≠ some c

variable {s t : SpinlockSystem τ} {c : τ} {op : SpinlockOp}

theorem getCurrent_eq_ok {pc : τ → SpinlockPc τ} (h : s.getCurrent c pc = .ok t)
    : ∃ th, s.sched.currentThread = some th ∧ t = s.goto c (pc th) := by
  unfold getCurrent at h
  split at h
  . contradiction
  . next th hcurrent =>
    cases h
    exact ⟨th, hcurrent, rfl⟩

theorem exec_sched (h : s.exec c op = .ok t) : t.sched = s.sched := by
  unfold exec at h
  split at h <;> first
    | (obtain ⟨_, _, rfl⟩ := getCurrent_eq_ok h; rfl)
    | (cases h; rfl)

theorem exec_lockTest {th : τ} (h : s.exec c op = .ok t) (hpc : t.pc c = .lockTest th)
    : (s.pc c = .lockDisable th ∧ t = (s.setPreemption false).goto c (.lockTest th))
        ∨
      (s.pc c = .lockTest th ∧ t = s) := by
  unfold exec at h
  cases hp : s.pc c with
  | lockDisable th' =>
    rw [hp] at h
    cases h
    simp only [goto, Function.update_self, SpinlockPc.lockTest.injEq] at hpc
    subst hpc
    exact .inl ⟨rfl, rfl⟩
  | lockTest th' =>
    rw [hp] at h
    dsimp only at h
    split at h
    . cases h
      simp only [goto, Function.update_self, SpinlockPc.lockTest.injEq] at hpc
      subst hpc
      right
      refine ⟨rfl, ?_⟩
      unfold goto
      rw [← hp, Function.update_eq_self]
    . cases h
      simp [goto] at hpc
  | idle =>
    rw [hp] at h
    cases h
    cases op <;> simp [goto, SpinlockOp.entry] at hpc
  | lockGetCurrent | tryGetCurrent | unlockGetCurrent =>
    rw [hp] at h
    obtain ⟨_, _, rfl⟩ := getCurrent_eq_ok h
    simp [goto] at hpc
  | tryTest th' | unlockTest th' =>
    rw [hp] at h
    dsimp only at h
    split at h <;> (cases h; simp [goto] at hpc)
  | _ =>
    rw [hp] at h
    cases h
    simp [goto] at hpc

theorem pitIsr_eq_ok {fuel : Nat} (h : s.pitIsr fuel = .ok t)
    : (s.preemptionEnabled = false ∧ t = s)
        ∨
      (s.preemptionEnabled = true ∧ ∃ sched, t = { s with sched }) := by
  unfold pitIsr at h
  split at h
  . next henabled =>
    rw [bind_eq_ok] at h
    obtain ⟨sched, _, h⟩ := h
    cases h
    exact .inr ⟨henabled, sched, rfl⟩
  . next hdisabled =>
    cases h
    exact .inl ⟨by simpa using hdisabled, rfl⟩

theorem wedged_of_not_careful {a : SpinlockAction} (h : ¬ s.Careful a)
    : ∃ t, s.step a = .ok t ∧ t.Wedged := by
  by_contra hnot
  apply h
  intro op c th o ha hcurrent hpc hlocked howner
  by_contra hne
  apply hnot
  refine ⟨(s.setPreemption false).goto c (.lockTest th), ?_, ?_⟩
  . subst ha
    unfold step exec
    simp only [hcurrent, hpc]
  . exact ⟨c, th, o, hcurrent, Function.update_self .., rfl, hlocked, howner, hne⟩

theorem not_wedged_of_careful {a : SpinlockAction} (hs : ¬ s.Wedged) (hcareful : s.Careful a)
    (h : s.step a = .ok t)
    : ¬ t.Wedged := by
  intro hwedged
  cases a with
  | timer fuel =>
    obtain ⟨c, th, o, hcurrent, hpc, hdisabled, hrest⟩ := hwedged
    cases pitIsr_eq_ok h with
    | inl hsame =>
      rw [hsame.2] at hcurrent hpc hdisabled hrest
      exact hs ⟨c, th, o, hcurrent, hpc, hdisabled, hrest⟩
    | inr hswitch =>
      obtain ⟨henabled, sched, rfl⟩ := hswitch
      rw [henabled] at hdisabled
      contradiction
  | run op =>
    unfold step at h
    dsimp only at h
    split at h
    . contradiction
    . next c hcurrent =>
      obtain ⟨c', th, o, hcurrent', hpc, hdisabled, hlocked, howner, hne⟩ := hwedged
      rw [exec_sched h, hcurrent] at hcurrent'
      cases hcurrent'
      cases exec_lockTest h hpc with
      | inl henter =>
        obtain ⟨hpc', rfl⟩ := henter
        exact hne (hcareful op c th o rfl hcurrent hpc' hlocked howner)
      | inr hstay =>
        obtain ⟨_, rfl⟩ := hstay
        exact hs ⟨c, th, o, hcurrent, hpc, hdisabled, hlocked, howner, hne⟩

theorem Wedged.step {a : SpinlockAction} (hs : s.Wedged) (h : s.step a = .ok t) : t = s := by
  obtain ⟨c, th, o, hcurrent, hpc, hdisabled, hlocked, _⟩ := hs
  cases a with
  | timer fuel =>
    cases pitIsr_eq_ok h with
    | inl hsame => exact hsame.2
    | inr hswitch =>
      rw [hdisabled] at hswitch
      exact absurd hswitch.1 (by decide)
  | run op =>
    unfold SpinlockSystem.step at h
    rw [hcurrent] at h
    dsimp only at h
    unfold exec at h
    rw [hpc] at h
    dsimp only at h
    rw [if_pos hlocked] at h
    cases h
    unfold goto
    rw [← hpc, Function.update_eq_self]

/--
The lock is owned by the current thread, and each thread knows which one it is.
-/
structure OwnerRuns (s : SpinlockSystem τ) : Prop where
  owner : ∀ o, s.lock.owner = some o → s.sched.currentThread = some o
  self : ∀ t th, (s.pc t).th? = some th → th = t

theorem OwnerRuns.of_exec {lock : Spinlock τ} {pc : SpinlockPc τ} {enabled : Bool} (h : s.OwnerRuns)
    (howner : lock.owner = s.lock.owner ∨ lock.owner = none ∨ s.sched.currentThread = lock.owner)
    (hself : ∀ th, pc.th? = some th → th = c)
    : ({ s with lock, preemptionEnabled := enabled, pc := Function.update s.pc c pc }
        : SpinlockSystem τ).OwnerRuns := by
  constructor
  . intro o ho
    dsimp only at ho ⊢
    obtain hsame | hnone | hcurrent := howner
    . rw [hsame] at ho
      exact h.owner o ho
    . rw [hnone] at ho
      contradiction
    . rw [hcurrent]
      exact ho
  . intro t th hth
    dsimp only at hth
    by_cases ht : t = c
    . rw [ht, Function.update_self] at hth
      rw [ht]
      exact hself th hth
    . rw [Function.update_of_ne ht] at hth
      exact h.self t th hth

theorem OwnerRuns.exec (h : s.OwnerRuns) (hcurrent : s.sched.currentThread = some c)
    (hexec : s.exec c op = .ok t)
    : t.OwnerRuns := by
  have hself : ∀ th, (s.pc c).th? = some th → th = c := h.self c
  have hsame : ∀ pc : SpinlockPc τ, pc.th? = (s.pc c).th? → ∀ th, pc.th? = some th → th = c := by
    intro pc hpc th hth
    rw [hpc] at hth
    exact hself th hth
  unfold SpinlockSystem.exec at hexec
  cases hp : s.pc c with
  | idle =>
    rw [hp] at hexec
    cases hexec
    exact h.of_exec (.inl rfl) (by cases op <;> nofun)
  | lockGetCurrent | tryGetCurrent | unlockGetCurrent =>
    rw [hp] at hexec
    obtain ⟨th, hth, rfl⟩ := getCurrent_eq_ok hexec
    rw [hcurrent] at hth
    cases hth
    exact h.of_exec (.inl rfl) (fun _ heq => (Option.some.inj heq).symm)
  | lockTest th | tryTest th | unlockTest th =>
    rw [hp] at hexec
    cases hexec
    apply h.of_exec (.inl rfl)
    apply hsame
    rw [hp]
    split <;> rfl
  | lockSetOwner th | trySetOwner th =>
    have hth : th = c := hself th (by rw [hp]; rfl)
    rw [hp] at hexec
    cases hexec
    exact h.of_exec (.inr (.inr (by rw [hcurrent, hth]; rfl))) (hsame _ (by rw [hp]; rfl))
  | unlockClearOwner th =>
    rw [hp] at hexec
    cases hexec
    exact h.of_exec (.inr (.inl rfl)) (hsame _ (by rw [hp]; rfl))
  | lockEnable th | tryEnableToFail th | tryEnable th | unlockEnableToFail th | unlockEnable th =>
    rw [hp] at hexec
    cases hexec
    exact h.of_exec (.inl rfl) nofun
  | _ th =>
    rw [hp] at hexec
    cases hexec
    exact h.of_exec (.inl rfl) (hsame _ (by rw [hp]; rfl))

theorem OwnerRuns.step {a : SpinlockAction} (h : s.OwnerRuns) (ha : s.Undisturbed a)
    (hstep : s.step a = .ok t)
    : t.OwnerRuns := by
  cases a with
  | run op =>
    unfold SpinlockSystem.step at hstep
    dsimp only at hstep
    split at hstep
    . contradiction
    . next c hcurrent => exact h.exec hcurrent hstep
  | timer fuel =>
    cases pitIsr_eq_ok hstep with
    | inl hsame =>
      rw [hsame.2]
      exact h
    | inr hswitch =>
      obtain ⟨henabled, sched, rfl⟩ := hswitch
      refine ⟨?_, h.self⟩
      intro o ho
      exact absurd ho (ha fuel o rfl henabled (h.owner o ho))

omit [DecidableEq τ] in
theorem OwnerRuns.not_wedged (h : s.OwnerRuns) : ¬ s.Wedged := by
  intro ⟨c, th, o, hcurrent, _, _, _, howner, hne⟩
  rw [h.owner o howner] at hcurrent
  cases hcurrent
  contradiction

omit [DecidableEq τ] in
theorem ownerRuns_of_initial (h : s.Initial) : s.OwnerRuns := by
  constructor
  . intro o ho
    rw [h.lock] at ho
    contradiction
  . intro t th hth
    rw [h.pc t] at hth
    contradiction

/--
A run gets the machine stuck exactly if one of its steps is not careful, and never if the timer does not
switch away from the owner of the lock.
-/
theorem never_wedged_iff_careful (s : SpinlockSystem τ) (h : s.Initial) (as : List SpinlockAction)
    : (Throughout step (fun t => ¬ t.Wedged) s as ↔ Along step Careful s as)
        ∧
      (Along step Undisturbed s as → Throughout step (fun t => ¬ t.Wedged) s as) := by
  have howner := ownerRuns_of_initial h
  refine ⟨⟨?_, ?_⟩, ?_⟩
  . apply Along.of_throughout
    intro s a _ hnext
    by_contra hcareful
    obtain ⟨t, hstep, hwedged⟩ := wedged_of_not_careful hcareful
    exact hnext t hstep hwedged
  . apply Throughout.of_step
    . intro s a t
      exact not_wedged_of_careful
    . exact howner.not_wedged
  . intro hundisturbed
    apply Throughout.mono (fun t => OwnerRuns.not_wedged)
    exact Throughout.of_step (fun _ _ _ => OwnerRuns.step) howner hundisturbed

/--
Two runnable threads, the main thread is the current one.
-/
def twoThreads : SpinlockSystem Nat where
  sched := {
    firstThread := some 1
    currentThread := some 0
    thread := fun t => {
      next := if t = 1 then some 0 else none
      status := .running
      type := if t = 0 then .main else .kernel
      kmodeStackPageCount := 1
      kmodeStackBaseVpn := 0
      kmodeStackPtr := 0
      detached := false
      waitList := none
      waitCount := 0
      mutexBlockingNext := none
    }
  }
  preemptionEnabled := true
  lock := spinlockInit
  pc := fun _ => .idle

/--
The current thread calls `spinlock_lock`, which returns if the lock is free.
-/
def lockCall : List SpinlockAction := List.replicate 7 (.run .lock)

theorem never_wedged_iff_careful_twoThreads
    : (twoThreads.steps lockCall).map (fun s => (s.preemptionEnabled, s.lock.owner)) = .ok (true, some 0)
        ∧ (Throughout step (fun t => ¬ t.Wedged) twoThreads lockCall ↔ Along step Careful twoThreads lockCall)
        ∧ (Along step Undisturbed twoThreads lockCall
          → Throughout step (fun t => ¬ t.Wedged) twoThreads lockCall) :=
  ⟨rfl, never_wedged_iff_careful twoThreads ⟨rfl, fun _ => rfl⟩ lockCall⟩

/--
The main thread takes the lock and is interrupted, then the other thread asks for the lock. No action
changes anything from then on.
-/
theorem wedged_by_timer
    : twoThreads.Initial
        ∧ ∃ s, twoThreads.steps (lockCall ++ [.timer 2, .run .lock, .run .lock, .run .lock]) = .ok s
          ∧ s.Wedged ∧ ∀ a t, s.step a = .ok t → t = s := by
  refine ⟨⟨rfl, fun _ => rfl⟩, _, rfl, ?_⟩
  have hwedged : ∀ s : SpinlockSystem Nat, s.Wedged → s.Wedged ∧ ∀ a t, s.step a = .ok t → t = s :=
    fun s hs => ⟨hs, fun _ _ => hs.step⟩
  apply hwedged
  exact ⟨1, 1, 0, rfl, rfl, rfl, rfl, rfl, by decide⟩

end SpinlockSystem

end Emos
