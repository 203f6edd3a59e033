import Emos.Kernel.Thread.Impl.Calls
import Emos.Kernel.Thread.Lemmas.Remove
import Emos.Kernel.Thread.Lemmas.RoundRobin
import Emos.Kernel.Thread.Lemmas.Settle
import Emos.Lib.Trace

/-!
This module contains when a thread that another one waits for is detached. `thread_wait` checks the
threads that it is given, but `thread_detach` looks at the threads that its target waits for instead of
those that wait for it.
-/

open Lib

namespace Emos

variable {τ : Type} [DecidableEq τ]

namespace ThreadPc

/--
The value of the variable `current_thread`, once it has been read.
-/
def th? : ThreadPc τ → Option τ
  | .waitCheck th _ _ _ | .waitDisable th _ _ | .waitSetList th _ _ | .waitSetCount th _ _
  | .waitSetStatus th _ _ | .waitEnable th | .waitYield th | .waitReturn th | .exitTestType th
  | .exitSetStatus th | .exitYield th | .exitLoop th => some th
  | _ => none

/--
Preemption has been turned off and not on again.
-/
def critical : ThreadPc τ → Bool
  | .createBody _ _ _ | .createRestore _ _ | .waitSetList _ _ _ | .waitSetCount _ _ _
  | .waitSetStatus _ _ _ | .waitEnable _ => true
  | _ => false

/--
The part of a list that has been found to hold no detached thread and is going to be waited for.
-/
def checked : ThreadPc τ → Option (Option Nat × Int)
  | .waitCheck _ list _ i => some ⟨list, i⟩
  | .waitDisable _ list count | .waitSetList _ list count | .waitSetCount _ list count
  | .waitSetStatus _ list count => some ⟨list, count⟩
  | _ => none

/--
The thread is about to give up the processor because it waits.
-/
def yields : ThreadPc τ → Bool
  | .waitEnable _ | .waitYield _ => true
  | _ => false

end ThreadPc

namespace ThreadSystem

def Lists (s : ThreadSystem τ) (list : Option Nat) (n : Int) (u : τ) : Prop :=
  ∃ first, list = some first ∧ ∃ i : Nat, i < n ∧ s.cell (first + i) = some u

/--
Thread `t` waits, and its wait list holds thread `u`.
-/
def WaitsOn (s : ThreadSystem τ) (t u : τ) : Prop :=
  (s.sched.thread t).status = .waiting
    ∧ s.Lists (s.sched.thread t).waitList (s.sched.thread t).waitCount u

variable {s s' : ThreadSystem τ}

omit [DecidableEq τ] in
theorem Lists.mono {list : Option Nat} {n n' : Int} {u : τ} (h : s'.Lists list n u)
    (hcell : ∀ i u, s'.cell i = some u → s.cell i = some u) (hn : n ≤ n')
    : s.Lists list n' u := by
  obtain ⟨first, hlist, i, hi, hu⟩ := h
  exact ⟨first, hlist, i, by omega, hcell _ _ hu⟩

omit [DecidableEq τ] in
theorem Settles.waitsOn {t u : τ} (h : s.Settles s') (hw : s'.WaitsOn t u) : s.WaitsOn t u := by
  obtain ⟨hwaiting, hlists⟩ := hw
  obtain ⟨hwaiting', hlist⟩ := h.waiting t hwaiting
  rw [hlist, h.waitCount] at hlists
  exact ⟨hwaiting', hlists.mono h.cell (Int.le_refl _)⟩

end ThreadSystem

namespace ThreadCalls

open ThreadSystem

def detached (s : ThreadCalls τ) (t : τ) : Bool := (s.sys.sched.thread t).detached

/--
A thread waits for a thread that is detached.
-/
def Meets (s : ThreadCalls τ) : Prop := ∃ t u, s.sys.WaitsOn t u ∧ s.detached u = true

/--
Thread `t` has found thread `u` not to be detached, and is going to wait for it.
-/
def Commits (s : ThreadCalls τ) (t u : τ) : Prop :=
  ∃ list n, (s.pc t).checked = some ⟨list, n⟩ ∧ s.sys.Lists list n u

/--
The action does not detach a thread that another thread waits for or is going to wait for.
-/
def Careful (s : ThreadCalls τ) (a : ThreadAction τ) : Prop :=
  ∀ op fuel c u, a = .run op fuel → s.sys.sched.currentThread = some c → s.pc c = .detachSet u
    → ∀ t, ¬ s.sys.WaitsOn t u ∧ ¬ s.Commits t u

/--
If the action is a call of `scheduler_maintain`, no thread waits for those that it frees.
-/
def FreesUnreferenced (s : ThreadCalls τ) (a : ThreadAction τ) : Prop :=
  ∀ op fuel c s', a = .run op fuel → s.sys.sched.currentThread = some c → s.pc c = .maintain
    → s.step a = .ok s' → ∀ u ∈ s'.sys.freed, u ∉ s.sys.freed → ∀ t, ¬ s'.sys.WaitsOn t u

def Stored (s : ThreadCalls τ) (t : τ) : ThreadPc τ → Prop
  | .waitSetCount _ list _ => (s.sys.sched.thread t).waitList = list
  | .waitSetStatus _ list count =>
    (s.sys.sched.thread t).waitList = list ∧ (s.sys.sched.thread t).waitCount = count
  | _ => True

/--
Threads that wait or are going to do so do it for threads that are not detached.
-/
structure Apart (s : ThreadCalls τ) : Prop where
  waits : ∀ t u, s.sys.WaitsOn t u → s.detached u = false
  commits : ∀ t u, s.Commits t u → s.detached u = false
  self : ∀ t th, (s.pc t).th? = some th → th = t
  critical : ∀ t, (s.pc t).critical → s.sys.sched.currentThread = some t ∧ s.preemptionEnabled = false
  stored : ∀ t, s.Stored t (s.pc t)
  yields : ∀ t th, s.pc t = .waitYield th → s.sys.sched.currentThread = some t
    → s.preemptionEnabled = true

/--
The current thread waits only until it has given up the processor.
-/
def Awake (s : ThreadCalls τ) : Prop :=
  ∀ t, s.sys.sched.currentThread = some t → (s.sys.sched.thread t).status = .waiting
    → (s.pc t).yields

variable {s s' : ThreadCalls τ} {c : τ}

omit [DecidableEq τ] in
theorem apart_of_initial (h : s.Initial) : s.Apart ∧ s.Awake := by
  refine ⟨⟨?_, ?_, ?_, ?_, ?_, ?_⟩, ?_⟩
  . intro t u _
    exact h.detached u
  . intro t u _
    exact h.detached u
  . intro t th hth
    rw [h.pc t] at hth
    contradiction
  . intro t hc
    rw [h.pc t] at hc
    contradiction
  . intro t
    rw [h.pc t]
    trivial
  . intro t th hth
    rw [h.pc t] at hth
    contradiction
  . intro t _ hwaiting
    exact absurd hwaiting (h.status t)

omit [DecidableEq τ] in
theorem stored_of_not_critical {t : τ} {pc : ThreadPc τ} (h : pc.critical = false)
    : s.Stored t pc := by
  cases pc <;> trivial

theorem Apart.of_step {pc : ThreadPc τ} (h : s.Apart) (hcurrent : s.sys.sched.currentThread = some c)
    (hcurrent' : s'.sys.sched.currentThread = some c) (hpc : s'.pc c = pc)
    (hother : ∀ t, t ≠ c → s'.pc t = s.pc t ∨ s'.pc t = .idle)
    (hcell : ∀ i u, s'.sys.cell i = some u → s.sys.cell i = some u)
    (hdetached : ∀ u, s.detached u = false → s'.detached u = true
      → ∀ t, ¬ s.sys.WaitsOn t u ∧ ¬ s.Commits t u)
    (hwaits : ∀ t u, s'.sys.WaitsOn t u → s.sys.WaitsOn t u ∨ s.Commits t u)
    (hcommits : ∀ list n u, pc.checked = some ⟨list, n⟩ → s.sys.Lists list n u
      → s.Commits c u ∨ s'.detached u = false)
    (hself : ∀ th, pc.th? = some th → th = c)
    (hcritical : pc.critical = true → s'.preemptionEnabled = false)
    (hstored : s'.Stored c pc)
    (hyields : ∀ th, pc = .waitYield th → s'.preemptionEnabled = true)
    : s'.Apart := by
  have hnot : ∀ t u, s.sys.WaitsOn t u ∨ s.Commits t u → s'.detached u = false := by
    intro t u hor
    cases hd : s'.detached u with
    | false => rfl
    | true =>
      have hfalse : s.detached u = false := by
        cases hor with
        | inl hwait => exact h.waits t u hwait
        | inr hcommit => exact h.commits t u hcommit
      have := hdetached u hfalse hd t
      cases hor with
      | inl hwait => exact absurd hwait this.1
      | inr hcommit => exact absurd hcommit this.2
  have hquiet : ∀ t, t ≠ c → (s'.pc t).critical = false := by
    intro t ht
    cases hother t ht with
    | inr hidle =>
      rw [hidle]
      rfl
    | inl hsame =>
      rw [hsame]
      by_contra hc
      have := (h.critical t (by simpa using hc)).1
      rw [hcurrent] at this
      exact ht (Option.some.inj this).symm
  refine ⟨?_, ?_, ?_, ?_, ?_, ?_⟩
  . intro t u hwait
    exact hnot t u (hwaits t u hwait)
  . intro t u ⟨list, n, hchecked, hlists⟩
    have hlists' := hlists.mono hcell (Int.le_refl n)
    by_cases ht : t = c
    . rw [ht, hpc] at hchecked
      cases hcommits list n u hchecked hlists' with
      | inl hcommit => exact hnot c u (.inr hcommit)
      | inr hd => exact hd
    . cases hother t ht with
      | inr hidle =>
        rw [hidle] at hchecked
        contradiction
      | inl hsame =>
        rw [hsame] at hchecked
        exact hnot t u (.inr ⟨list, n, hchecked, hlists'⟩)
  . intro t th hth
    by_cases ht : t = c
    . rw [ht, hpc] at hth
      rw [ht]
      exact hself th hth
    . cases hother t ht with
      | inr hidle =>
        rw [hidle] at hth
        contradiction
      | inl hsame =>
        rw [hsame] at hth
        exact h.self t th hth
  . intro t hc
    by_cases ht : t = c
    . rw [ht, hpc] at hc
      rw [ht]
      exact ⟨hcurrent', hcritical hc⟩
    . rw [hquiet t ht] at hc
      contradiction
  . intro t
    by_cases ht : t = c
    . rw [ht, hpc]
      exact hstored
    . exact stored_of_not_critical (hquiet t ht)
  . intro t th hth hcur
    rw [hcurrent'] at hcur
    cases hcur
    rw [hpc] at hth
    exact hyields th hth

theorem Apart.goto {pc : ThreadPc τ} {enabled : Bool} {result : τ → Option Status} (h : s.Apart)
    (hcurrent : s.sys.sched.currentThread = some c)
    (hcommits : ∀ list n u, pc.checked = some ⟨list, n⟩ → s.sys.Lists list n u
      → s.Commits c u ∨ s.detached u = false)
    (hself : ∀ th, pc.th? = some th → th = c)
    (hcritical : pc.critical = true → enabled = false)
    (hstored : s.Stored c pc)
    (hyields : ∀ th, pc = .waitYield th → enabled = true)
    : ({ s with preemptionEnabled := enabled, pc := Function.update s.pc c pc, result }
        : ThreadCalls τ).Apart := by
  refine h.of_step hcurrent ?_ (Function.update_self c pc s.pc) ?_ ?_ ?_ ?_ ?_ ?_ ?_ ?_ ?_
  . exact hcurrent
  . intro t ht
    exact .inl (Function.update_of_ne ht ..)
  . exact fun _ _ hu => hu
  . intro u hfalse htrue
    exact absurd (hfalse.symm.trans htrue) (by decide)
  . exact fun _ _ hw => .inl hw
  . exact hcommits
  . exact hself
  . exact hcritical
  . cases pc <;> exact hstored
  . exact hyields

theorem Apart.setThread {pc : ThreadPc τ} {th : τ} {v : Thread τ} {result : τ → Option Status}
    (h : s.Apart) (hcurrent : s.sys.sched.currentThread = some c)
    (hdetached : v.detached = true → s.detached th = false
      → ∀ t, ¬ s.sys.WaitsOn t th ∧ ¬ s.Commits t th)
    (hwaits : ∀ u, v.status = .waiting → s.sys.Lists v.waitList v.waitCount u
      → s.sys.WaitsOn th u ∨ s.Commits th u)
    (hcommits : ∀ list n u, pc.checked = some ⟨list, n⟩ → s.sys.Lists list n u → s.Commits c u)
    (hself : ∀ th, pc.th? = some th → th = c)
    (hcritical : pc.critical = true → s.preemptionEnabled = false)
    (hstored : ({ s with sys := s.sys.setThread th v } : ThreadCalls τ).Stored c pc)
    (hyields : ∀ th, pc ≠ .waitYield th)
    : ({ s with sys := s.sys.setThread th v, pc := Function.update s.pc c pc, result }
        : ThreadCalls τ).Apart := by
  have hsame : ∀ t, t ≠ th → (s.sys.setThread th v).sched.thread t = s.sys.sched.thread t :=
    fun t ht => Function.update_of_ne ht ..
  have hself' : (s.sys.setThread th v).sched.thread th = v := Function.update_self ..
  refine h.of_step hcurrent ?_ (Function.update_self c pc s.pc) ?_ ?_ ?_ ?_ ?_ ?_ ?_ ?_ ?_
  . exact hcurrent
  . intro t ht
    exact .inl (Function.update_of_ne ht ..)
  . exact fun _ _ hu => hu
  . intro u hfalse htrue
    unfold detached at hfalse htrue
    dsimp only at htrue
    by_cases hu : u = th
    . subst hu
      rw [hself'] at htrue
      exact hdetached htrue hfalse
    . rw [hsame u hu, hfalse] at htrue
      contradiction
  . intro t u hw
    unfold WaitsOn at hw
    dsimp only at hw
    by_cases ht : t = th
    . rw [ht, hself'] at hw
      rw [ht]
      exact hwaits u hw.1 hw.2
    . rw [hsame t ht] at hw
      exact .inl hw
  . intro list n u hchecked hlists
    exact .inl (hcommits list n u hchecked hlists)
  . exact hself
  . exact hcritical
  . cases pc <;> exact hstored
  . intro th heq
    exact absurd heq (hyields th)

omit [DecidableEq τ] in
theorem Awake.of_step (h : s.Awake) (hcurrent : s.sys.sched.currentThread = some c)
    (hcurrent' : s'.sys.sched.currentThread = some c) (hpc : (s.pc c).yields = false)
    (hstatus : (s'.sys.sched.thread c).status = .waiting → (s.sys.sched.thread c).status = .waiting)
    : s'.Awake := by
  intro t ht hwaiting
  rw [hcurrent'] at ht
  cases ht
  have := h c hcurrent (hstatus hwaiting)
  rw [hpc] at this
  contradiction

end ThreadCalls

open ThreadSystem in
theorem switchThread_settles {s : ThreadSystem τ} {sched : Scheduler τ} {fuel : Nat}
    (h : switchThread s.sched fuel = .ok sched)
    : s.Settles { s with sched } := by
  rw [switchThread, bind_eq_ok] at h
  obtain ⟨next, _, h⟩ := h
  cases h
  split
  . have hstart : s.Settles (s.setThread next { s.sched.thread next with status := .running }) :=
      settles_setThread rfl rfl (by simp)
    exact hstart.trans (settles_setCurrentThread (some next))
  . exact settles_setCurrentThread (some next)

namespace ThreadCalls

open ThreadSystem

variable {s s' : ThreadCalls τ} {c : τ}

theorem Apart.switch {fuel : Nat} {sched : Scheduler τ} (h : s.Apart)
    (henabled : s.preemptionEnabled = true) (hswitch : switchThread s.sys.sched fuel = .ok sched)
    : ({ s with sys := { s.sys with sched } } : ThreadCalls τ).Apart
        ∧ ({ s with sys := { s.sys with sched } } : ThreadCalls τ).Awake := by
  have hsettles := switchThread_settles hswitch
  obtain ⟨next, hnext⟩ := switchThread_spec hswitch
  have hquiet : ∀ t, (s.pc t).critical = false := by
    intro t
    by_contra hc
    have := (h.critical t (by simpa using hc)).2
    rw [henabled] at this
    contradiction
  have hdetached : ∀ u, (sched.thread u).detached = s.detached u := hsettles.detached
  refine ⟨⟨?_, ?_, h.self, ?_, ?_, fun _ _ _ _ => henabled⟩, ?_⟩
  . intro t u hw
    exact (hdetached u).trans (h.waits t u (hsettles.waitsOn hw))
  . intro t u hc
    exact (hdetached u).trans (h.commits t u hc)
  . intro t hc
    rw [hquiet t] at hc
    contradiction
  . intro t
    exact stored_of_not_critical (hquiet t)
  . intro t ht hwaiting
    dsimp only at ht hwaiting
    rw [hnext.current] at ht
    cases ht
    rw [hnext.running] at hwaiting
    contradiction

theorem Apart.pitIsr {fuel : Nat} (h : s.Apart) (hawake : s.preemptionEnabled = false → s.Awake)
    (hrun : s.pitIsr fuel = .ok s')
    : s'.Apart ∧ s'.Awake := by
  unfold ThreadCalls.pitIsr at hrun
  split at hrun
  . next henabled =>
    rw [bind_eq_ok] at hrun
    obtain ⟨sched, hswitch, hrun⟩ := hrun
    cases hrun
    exact h.switch henabled hswitch
  . next hdisabled =>
    cases hrun
    exact ⟨h, hawake (by simpa using hdisabled)⟩

theorem Apart.goto_plain {pc : ThreadPc τ} {enabled : Bool} {result : τ → Option Status} (h : s.Apart)
    (hcurrent : s.sys.sched.currentThread = some c) (hchecked : pc.checked = none)
    (hself : ∀ th, pc.th? = some th → th = c) (hcritical : pc.critical = true → enabled = false)
    (hyields : ∀ th, pc = .waitYield th → enabled = true)
    : ({ s with preemptionEnabled := enabled, pc := Function.update s.pc c pc, result }
        : ThreadCalls τ).Apart := by
  refine h.goto hcurrent ?_ hself hcritical ?_ hyields
  . intro list n u heq
    rw [hchecked] at heq
    contradiction
  . cases pc <;> trivial

theorem waitCheck_apart {th : τ} {list : Option Nat} {count : Int} {i : Nat} (h : s.Apart)
    (hcurrent : s.sys.sched.currentThread = some c) (hpc : s.pc c = .waitCheck th list count i)
    (hrun : s.waitCheck c th list count i = .ok s')
    : s'.Apart ∧ s'.sys = s.sys := by
  have hth : th = c := h.self c th (by rw [hpc]; rfl)
  have hchecked : (s.pc c).checked = some ⟨list, i⟩ := by
    rw [hpc]
    rfl
  unfold waitCheck at hrun
  split at hrun
  . next hlt =>
    split at hrun
    . contradiction
    . next first =>
      split at hrun
      . contradiction
      . next u hcell =>
        rw [bind_eq_ok] at hrun
        obtain ⟨v, hv, hrun⟩ := hrun
        split at hrun
        . cases hrun
          exact ⟨h.goto_plain hcurrent rfl nofun nofun nofun, rfl⟩
        . next hnot =>
          cases hrun
          rw [deref_eq_ok hv] at hnot
          refine ⟨h.goto hcurrent ?_ ?_ nofun trivial nofun, rfl⟩
          . intro list' n w heq hlists
            cases heq
            obtain ⟨first', hfirst, j, hj, hw⟩ := hlists
            cases hfirst
            by_cases hji : j = i
            . right
              rw [hji, hcell] at hw
              cases hw
              simpa [detached] using hnot
            . left
              exact ⟨_, _, hchecked, first, rfl, j, by omega, hw⟩
          . intro t ht
            cases ht
            exact hth
  . next hge =>
    cases hrun
    refine ⟨h.goto hcurrent ?_ ?_ nofun trivial nofun, rfl⟩
    . intro list' n w heq hlists
      cases heq
      left
      exact ⟨_, _, hchecked, hlists.mono (fun _ _ hu => hu) (by omega)⟩
    . intro t ht
      cases ht
      exact hth

theorem Apart.create {th : τ} {v : Thread τ} {sys : ThreadSystem τ} {heap : List τ} {status : Status}
    {prev : Bool} (h : s.Apart) (hawake : s.Awake) (hcurrent : s.sys.sched.currentThread = some c)
    (hnot : (s.pc c).yields = false) (hdisabled : s.preemptionEnabled = false)
    (hdetached : v.detached = false) (hstatus : v.status ≠ .waiting) (hcell : sys.cell = s.sys.cell)
    (hcurrent' : sys.sched.currentThread = s.sys.sched.currentThread)
    (hthread : sys.sched.thread = Function.update s.sys.sched.thread th v)
    : (({ s with sys, heap, pc := Function.update s.pc th .idle } : ThreadCalls τ).goto c
        (.createRestore status prev)).Apart
        ∧
      (({ s with sys, heap, pc := Function.update s.pc th .idle } : ThreadCalls τ).goto c
        (.createRestore status prev)).Awake := by
  have hself : sys.sched.thread th = v := by
    rw [hthread, Function.update_self]
  have hsame : ∀ t, t ≠ th → sys.sched.thread t = s.sys.sched.thread t := by
    intro t ht
    rw [hthread, Function.update_of_ne ht]
  constructor
  . refine h.of_step hcurrent ?_ (Function.update_self c _ _) ?_ ?_ ?_ ?_ ?_ nofun ?_ trivial nofun
    . exact hcurrent'.trans hcurrent
    . intro t ht
      unfold ThreadCalls.goto
      dsimp only
      rw [Function.update_of_ne ht]
      by_cases heq : t = th
      . rw [heq, Function.update_self]
        exact .inr rfl
      . rw [Function.update_of_ne heq]
        exact .inl rfl
    . intro i u hu
      rw [← hcell]
      exact hu
    . intro u hfalse htrue
      unfold detached at hfalse htrue
      by_cases hu : u = th
      . rw [hu] at htrue
        exact absurd (hself ▸ htrue) (by rw [hdetached]; decide)
      . exact absurd ((hsame u hu) ▸ htrue) (by rw [hfalse]; decide)
    . intro t u hw
      unfold WaitsOn at hw
      by_cases ht : t = th
      . rw [ht] at hw
        exact absurd (hself ▸ hw.1) hstatus
      . left
        obtain ⟨hwaiting, hlists⟩ := hw
        replace hwaiting : (sys.sched.thread t).status = .waiting := hwaiting
        replace hlists : sys.Lists (sys.sched.thread t).waitList (sys.sched.thread t).waitCount u := hlists
        rw [hsame t ht] at hwaiting hlists
        refine ⟨hwaiting, hlists.mono ?_ (Int.le_refl _)⟩
        intro i w hw
        rw [← hcell]
        exact hw
    . nofun
    . intro _
      exact hdisabled
  . refine hawake.of_step hcurrent (hcurrent'.trans hcurrent) hnot ?_
    intro hwaiting
    replace hwaiting : (sys.sched.thread c).status = .waiting := hwaiting
    by_cases hc : c = th
    . rw [hc, hself] at hwaiting
      exact absurd hwaiting hstatus
    . rw [hsame c hc] at hwaiting
      exact hwaiting

omit [DecidableEq τ] in
theorem allocateKthreadStack_thread {m m' : Mm} {v v' : Thread τ} {status : Status}
    (h : pcThreadAllocateKthreadStack m v = .ok ⟨status, v', m'⟩)
    : v'.detached = v.detached ∧ v'.status = v.status := by
  have herror : ∀ m pfn status status',
      pcThreadAllocateKthreadStack.hasError v m pfn status = .ok ⟨status', v', m'⟩
        → v'.detached = v.detached ∧ v'.status = v.status := by
    intro m pfn status status' hrun
    unfold pcThreadAllocateKthreadStack.hasError at hrun
    split at hrun
    . rw [bind_eq_ok] at hrun
      obtain ⟨pma, _, hrun⟩ := hrun
      cases hrun
      exact ⟨rfl, rfl⟩
    . cases hrun
      exact ⟨rfl, rfl⟩
  rw [pcThreadAllocateKthreadStack, bind_eq_ok] at h
  obtain ⟨⟨res, pma⟩, _, h⟩ := h
  dsimp only at h
  split at h
  . cases h
    exact ⟨rfl, rfl⟩
  . split at h
    . exact herror _ _ _ _ h
    . rw [bind_eq_ok] at h
      obtain ⟨⟨status', m1⟩, _, h⟩ := h
      dsimp only at h
      split at h
      . exact herror _ _ _ _ h
      . cases h
        exact ⟨rfl, rfl⟩

omit [DecidableEq τ] in
theorem setupKthreadStack_thread (v : Thread τ)
    : (pcThreadSetupKthreadStack v).detached = v.detached
        ∧ (pcThreadSetupKthreadStack v).status = v.status := by
  obtain ⟨_, status, _, _, _, _, detached, _, _, _⟩ := v
  exact ⟨rfl, rfl⟩

theorem createBody_apart {object : Option τ} {stackSize : Nat} {status : Status} {prev : Bool}
    (h : s.Apart) (hawake : s.Awake) (hcurrent : s.sys.sched.currentThread = some c)
    (hnot : (s.pc c).yields = false) (hdisabled : s.preemptionEnabled = false)
    (hrun : s.createBody object stackSize = .ok ⟨status, s'⟩)
    : (s'.goto c (.createRestore status prev)).Apart
        ∧ (s'.goto c (.createRestore status prev)).Awake := by
  unfold createBody at hrun
  split at hrun
  . cases hrun
    constructor
    . exact h.goto_plain hcurrent rfl nofun (fun _ => hdisabled) nofun
    . exact hawake.of_step hcurrent hcurrent hnot id
  . rw [bind_eq_ok] at hrun
    obtain ⟨⟨status', v, mm⟩, halloc, hrun⟩ := hrun
    obtain ⟨hdetached, hstatus⟩ := allocateKthreadStack_thread halloc
    have hpending : v.status ≠ .waiting := by
      rw [hstatus]
      nofun
    replace hdetached : v.detached = false := hdetached
    clear halloc hstatus
    dsimp only at hrun
    split at hrun
    . cases hrun
      exact h.create hawake hcurrent hnot hdisabled hdetached hpending rfl rfl rfl
    . have hsetup := setupKthreadStack_thread v
      generalize pcThreadSetupKthreadStack v = w at hrun hsetup
      rw [hdetached] at hsetup
      have hpending' : w.status ≠ .waiting := by
        rw [hsetup.2]
        exact hpending
      cases hrun
      exact h.create hawake hcurrent hnot hdisabled (v := { w with next := s.sys.sched.firstThread })
        hsetup.1 hpending' rfl rfl rfl

theorem Apart.store {pc : ThreadPc τ} {v : Thread τ} (h : s.Apart) (hawake : s.Awake)
    (hcurrent : s.sys.sched.currentThread = some c) (hnot : (s.pc c).yields = false)
    (hstatus : v.status = (s.sys.sched.thread c).status)
    (hdetached : v.detached = (s.sys.sched.thread c).detached)
    (hchecked : pc.checked = (s.pc c).checked) (hself : ∀ th, pc.th? = some th → th = c)
    (hcritical : pc.critical = true → s.preemptionEnabled = false)
    (hstored : ({ s with sys := s.sys.setThread c v } : ThreadCalls τ).Stored c pc)
    (hyields : ∀ th, pc ≠ .waitYield th)
    : ((s.setThread c v).goto c pc).Apart ∧ ((s.setThread c v).goto c pc).Awake := by
  have hthread : (s.sys.setThread c v).sched.thread c = v := Function.update_self ..
  have hasleep : v.status ≠ .waiting := by
    intro hwaiting
    rw [hstatus] at hwaiting
    have := hawake c hcurrent hwaiting
    rw [hnot] at this
    contradiction
  constructor
  . refine h.setThread hcurrent ?_ ?_ ?_ hself hcritical hstored hyields
    . intro htrue hfalse
      unfold detached at hfalse
      rw [hdetached, hfalse] at htrue
      contradiction
    . intro u hwaiting
      exact absurd hwaiting hasleep
    . intro list n u heq hlists
      rw [hchecked] at heq
      exact ⟨list, n, heq, hlists⟩
  . refine hawake.of_step hcurrent hcurrent hnot ?_
    intro hwaiting
    replace hwaiting : ((s.sys.setThread c v).sched.thread c).status = .waiting := hwaiting
    rw [hthread] at hwaiting
    exact absurd hwaiting hasleep

theorem exec_apart {op : ThreadOp τ} {fuel : Nat} (h : s.Apart) (hawake : s.Awake)
    (hcurrent : s.sys.sched.currentThread = some c)
    (hcareful : s.Careful (.run op fuel)) (hrun : s.exec c op fuel = .ok s')
    : s'.Apart ∧ s'.Awake := by
  have hself : ∀ th, (s.pc c).th? = some th → th = c := h.self c
  have hplain : ∀ (pc : ThreadPc τ) enabled result, (s.pc c).yields = false → pc.checked = none
      → (∀ th, pc.th? = some th → th = c) → (pc.critical = true → enabled = false)
      → (∀ th, pc = .waitYield th → enabled = true)
      → ({ s with preemptionEnabled := enabled, pc := Function.update s.pc c pc, result } : ThreadCalls τ).Apart
        ∧ ({ s with preemptionEnabled := enabled, pc := Function.update s.pc c pc, result } : ThreadCalls τ).Awake := by
    intro pc enabled result hnot hchecked hth hcritical hyields
    constructor
    . exact h.goto_plain hcurrent hchecked hth hcritical hyields
    . exact hawake.of_step hcurrent hcurrent hnot id
  unfold exec at hrun
  cases hp : s.pc c with
  | idle =>
    rw [hp] at hrun
    cases hrun
    apply hplain _ _ _ (by rw [hp]; rfl)
    . cases op <;> rfl
    . cases op <;> nofun
    . cases op <;> nofun
    . cases op <;> nofun
  | createSave object stackSize =>
    rw [hp] at hrun
    cases hrun
    exact hplain _ _ _ (by rw [hp]; rfl) rfl nofun nofun nofun
  | createDisable object stackSize prev =>
    rw [hp] at hrun
    cases hrun
    exact hplain _ _ _ (by rw [hp]; rfl) rfl nofun (fun _ => rfl) nofun
  | createBody object stackSize prev =>
    rw [hp] at hrun
    dsimp only at hrun
    rw [bind_eq_ok] at hrun
    obtain ⟨⟨status, s1⟩, hbody, hrun⟩ := hrun
    cases hrun
    have hdisabled := (h.critical c (by rw [hp]; rfl)).2
    exact createBody_apart h hawake hcurrent (by rw [hp]; rfl) hdisabled hbody
  | createRestore status prev =>
    rw [hp] at hrun
    cases hrun
    cases prev with
    | true => exact hplain _ _ _ (by rw [hp]; rfl) rfl nofun nofun nofun
    | false => exact hplain _ _ _ (by rw [hp]; rfl) rfl nofun nofun nofun
  | waitGetCurrent list count =>
    rw [hp] at hrun
    dsimp only at hrun
    split at hrun
    . contradiction
    . next th hth =>
      cases hrun
      rw [hcurrent] at hth
      cases hth
      constructor
      . refine h.goto hcurrent ?_ ?_ nofun trivial nofun
        . intro list' n u heq hlists
          cases heq
          obtain ⟨first, _, i, hi, _⟩ := hlists
          omega
        . intro t ht
          exact (Option.some.inj ht).symm
      . exact hawake.of_step hcurrent hcurrent (by rw [hp]; rfl) id
  | waitCheck th list count i =>
    rw [hp] at hrun
    obtain ⟨hapart, hkept⟩ := waitCheck_apart h hcurrent hp hrun
    constructor
    . exact hapart
    . apply hawake.of_step hcurrent _ (by rw [hp]; rfl)
      . rw [hkept]
        exact id
      . rw [hkept]
        exact hcurrent
  | waitDisable th list count =>
    have hth := hself th (by rw [hp]; rfl)
    rw [hp] at hrun
    cases hrun
    constructor
    . refine h.goto hcurrent ?_ ?_ (fun _ => rfl) trivial nofun
      . intro list' n u heq hlists
        cases heq
        exact .inl ⟨_, _, by rw [hp]; rfl, hlists⟩
      . intro t ht
        cases ht
        exact hth
    . exact hawake.of_step hcurrent hcurrent (by rw [hp]; rfl) id
  | waitSetList th list count =>
    have hth := hself th (by rw [hp]; rfl)
    subst hth
    have hdisabled := (h.critical th (by rw [hp]; rfl)).2
    rw [hp] at hrun
    dsimp only at hrun
    rw [bind_eq_ok] at hrun
    obtain ⟨v, hv, hrun⟩ := hrun
    cases hrun
    rw [deref_eq_ok hv]
    refine h.store hawake hcurrent (by rw [hp]; rfl) rfl rfl (by rw [hp]; rfl) ?_
      (fun _ => hdisabled) ?_ nofun
    . intro t ht
      exact (Option.some.inj ht).symm
    . unfold Stored ThreadSystem.setThread
      dsimp only
      rw [Function.update_self]
  | waitSetCount th list count =>
    have hth := hself th (by rw [hp]; rfl)
    subst hth
    have hdisabled := (h.critical th (by rw [hp]; rfl)).2
    have hstored := h.stored th
    rw [hp] at hrun hstored
    dsimp only at hrun
    rw [bind_eq_ok] at hrun
    obtain ⟨v, hv, hrun⟩ := hrun
    cases hrun
    rw [deref_eq_ok hv]
    refine h.store hawake hcurrent (by rw [hp]; rfl) rfl rfl (by rw [hp]; rfl) ?_
      (fun _ => hdisabled) ?_ nofun
    . intro t ht
      exact (Option.some.inj ht).symm
    . unfold Stored ThreadSystem.setThread
      dsimp only
      rw [Function.update_self]
      exact ⟨hstored, rfl⟩
  | waitSetStatus th list count =>
    have hth := hself th (by rw [hp]; rfl)
    subst hth
    have hdisabled := (h.critical th (by rw [hp]; rfl)).2
    obtain ⟨hlist, hcount⟩ : s.Stored th (.waitSetStatus th list count) := by
      rw [← hp]
      exact h.stored th
    rw [hp] at hrun
    dsimp only at hrun
    rw [bind_eq_ok] at hrun
    obtain ⟨v, hv, hrun⟩ := hrun
    cases hrun
    rw [deref_eq_ok hv]
    constructor
    . refine h.setThread hcurrent ?_ ?_ nofun ?_ (fun _ => hdisabled) trivial nofun
      . intro htrue hfalse
        exact absurd (hfalse.symm.trans htrue) (by decide)
      . intro u _ hlists
        dsimp only at hlists
        rw [hlist, hcount] at hlists
        exact .inr ⟨list, count, by rw [hp]; rfl, hlists⟩
      . intro t ht
        exact (Option.some.inj ht).symm
    . intro t ht _
      replace ht : s.sys.sched.currentThread = some t := ht
      rw [hcurrent] at ht
      cases ht
      unfold ThreadCalls.goto
      dsimp only
      rw [Function.update_self]
      rfl
  | waitEnable th =>
    have hth := hself th (by rw [hp]; rfl)
    rw [hp] at hrun
    cases hrun
    constructor
    . refine h.goto_plain hcurrent rfl ?_ nofun (fun _ _ => rfl)
      intro t ht
      cases ht
      exact hth
    . intro t ht _
      replace ht : s.sys.sched.currentThread = some t := ht
      rw [hcurrent] at ht
      cases ht
      unfold ThreadCalls.goto
      dsimp only
      rw [Function.update_self]
      rfl
  | waitYield th =>
    have hth := hself th (by rw [hp]; rfl)
    have henabled := h.yields c th hp hcurrent
    rw [hp] at hrun
    have hgoto : (s.goto c (.waitReturn th)).Apart := by
      refine h.goto_plain hcurrent rfl ?_ nofun nofun
      intro t ht
      cases ht
      exact hth
    apply hgoto.pitIsr _ hrun
    intro hdisabled
    replace hdisabled : s.preemptionEnabled = false := hdisabled
    rw [henabled] at hdisabled
    contradiction
  | waitReturn th =>
    rw [hp] at hrun
    cases hrun
    exact hplain _ _ _ (by rw [hp]; rfl) rfl nofun nofun nofun
  | detachTest target =>
    rw [hp] at hrun
    dsimp only at hrun
    rw [bind_eq_ok] at hrun
    obtain ⟨v, _, hrun⟩ := hrun
    split at hrun
    . cases hrun
      exact hplain _ _ _ (by rw [hp]; rfl) rfl nofun nofun nofun
    . cases hrun
      exact hplain _ _ _ (by rw [hp]; rfl) rfl nofun nofun nofun
  | detachSet target =>
    have hfree := hcareful op fuel c target rfl hcurrent hp
    rw [hp] at hrun
    dsimp only at hrun
    rw [bind_eq_ok] at hrun
    obtain ⟨v, hv, hrun⟩ := hrun
    cases hrun
    rw [deref_eq_ok hv]
    constructor
    . refine h.setThread hcurrent (fun _ _ => hfree) ?_ nofun nofun nofun trivial nofun
      intro u hwaiting hlists
      exact .inl ⟨hwaiting, hlists⟩
    . refine hawake.of_step hcurrent hcurrent (by rw [hp]; rfl) ?_
      intro hwaiting
      have hsame : s.sys.SameRun
          (s.sys.setThread target { s.sys.sched.thread target with detached := true }) :=
        sameRun_setThread rfl
      rw [← hsame.status c]
      exact hwaiting
  | exitGetCurrent =>
    rw [hp] at hrun
    dsimp only at hrun
    split at hrun
    . contradiction
    . next th hth =>
      cases hrun
      rw [hcurrent] at hth
      refine hplain _ _ _ (by rw [hp]; rfl) rfl ?_ nofun nofun
      intro t ht
      exact (Option.some.inj (hth.trans ht)).symm
  | exitTestType th =>
    have hth := hself th (by rw [hp]; rfl)
    rw [hp] at hrun
    dsimp only at hrun
    rw [bind_eq_ok] at hrun
    obtain ⟨v, _, hrun⟩ := hrun
    split at hrun
    . contradiction
    . cases hrun
      refine hplain _ _ _ (by rw [hp]; rfl) rfl ?_ nofun nofun
      intro t ht
      cases ht
      exact hth
  | exitSetStatus th =>
    have hth := hself th (by rw [hp]; rfl)
    rw [hp] at hrun
    dsimp only at hrun
    rw [bind_eq_ok] at hrun
    obtain ⟨v, hv, hrun⟩ := hrun
    cases hrun
    rw [deref_eq_ok hv]
    subst hth
    constructor
    . refine h.setThread hcurrent ?_ nofun nofun ?_ nofun trivial nofun
      . intro htrue hfalse
        exact absurd (hfalse.symm.trans htrue) (by decide)
      . intro t ht
        exact (Option.some.inj ht).symm
    . refine hawake.of_step hcurrent hcurrent (by rw [hp]; rfl) ?_
      intro hwaiting
      replace hwaiting : (Function.update s.sys.sched.thread th _ th).status = .waiting := hwaiting
      rw [Function.update_self] at hwaiting
      contradiction
  | exitYield th =>
    have hth := hself th (by rw [hp]; rfl)
    rw [hp] at hrun
    have hgoto := hplain (.exitLoop th) s.preemptionEnabled s.result (by rw [hp]; rfl) rfl (by
      intro t ht
      cases ht
      exact hth) nofun nofun
    exact hgoto.1.pitIsr (fun _ => hgoto.2) hrun
  | exitLoop th =>
    rw [hp] at hrun
    cases hrun
    exact ⟨h, hawake⟩
  | maintain =>
    rw [hp] at hrun
    dsimp only at hrun
    rw [bind_eq_ok] at hrun
    obtain ⟨⟨status, sys⟩, hmaintain, hrun⟩ := hrun
    cases hrun
    have hsettles := schedulerMaintain_settles hmaintain
    have hcurrent' : sys.sched.currentThread = some c :=
      (schedulerMaintain_currentThread hmaintain).trans hcurrent
    constructor
    . refine h.of_step hcurrent hcurrent' (Function.update_self c _ _) ?_ hsettles.cell ?_ ?_ nofun nofun
        nofun trivial nofun
      . intro t ht
        exact .inl (Function.update_of_ne ht ..)
      . intro u hfalse htrue
        have hsame : s.detached u = true := (hsettles.detached u).symm.trans htrue
        exact absurd (hfalse.symm.trans hsame) (by decide)
      . intro t u hw
        exact .inl (hsettles.waitsOn hw)
    . refine hawake.of_step hcurrent hcurrent' (by rw [hp]; rfl) ?_
      intro hwaiting
      exact (hsettles.waiting c hwaiting).1

theorem step_apart {a : ThreadAction τ} (h : s.Apart ∧ s.Awake) (hcareful : s.Careful a)
    (hrun : s.step a = .ok s')
    : s'.Apart ∧ s'.Awake := by
  obtain ⟨hapart, hawake⟩ := h
  cases a with
  | run op fuel =>
    unfold step at hrun
    dsimp only at hrun
    split at hrun
    . contradiction
    . next c hcurrent => exact exec_apart hapart hawake hcurrent hcareful hrun
  | timer fuel => exact hapart.pitIsr (fun _ => hawake) hrun

omit [DecidableEq τ] in
theorem Apart.not_meets (h : s.Apart) : ¬ s.Meets := by
  intro ⟨t, u, hwaits, hdetached⟩
  rw [h.waits t u hwaits] at hdetached
  contradiction

theorem Apart.freesUnreferenced (h : s.Apart) (a : ThreadAction τ) : s.FreesUnreferenced a := by
  intro op fuel c s' ha hcurrent hp hrun u hfreed hnew t hw
  subst ha
  rw [step, hcurrent] at hrun
  dsimp only at hrun
  rw [exec, hp] at hrun
  dsimp only at hrun
  rw [bind_eq_ok] at hrun
  obtain ⟨⟨status, sys⟩, hmaintain, hrun⟩ := hrun
  cases hrun
  have hsettles := schedulerMaintain_settles hmaintain
  have hwaits := h.waits t u (hsettles.waitsOn hw)
  cases hsettles.freed u hfreed with
  | inl hold => exact hnew hold
  | inr hdetached => exact absurd (hwaits.symm.trans hdetached) (by decide)

/--
In a run that never detaches a thread that another one waits for, or has checked in order to wait for it,
no thread waits for a detached thread, and `scheduler_maintain` frees no thread that another one waits for.
-/
theorem wait_and_detach_never_meet (s : ThreadCalls τ) (h : s.Initial) (as : List (ThreadAction τ))
    (hcareful : Along step Careful s as)
    : Throughout step (fun t => ¬ t.Meets) s as ∧ Along step FreesUnreferenced s as := by
  have hrun : Throughout step (fun t => t.Apart ∧ t.Awake) s as :=
    Throughout.of_step (fun _ _ _ => step_apart) (apart_of_initial h) hcareful
  constructor
  . exact hrun.mono (fun t ht => ht.1.not_meets)
  . exact Along.of_throughout (fun t a ht _ => ht.1.freesUnreferenced a) hrun

/--
Threads 2, 1 and 0 in this order, which have an array that holds threads 2 and 1. Thread 0 is the main
thread and the current one.
-/
def listedThreads : ThreadCalls Nat where
  sys := {
    finishedThread 3 with
    cell := fun i => if i = 0 then some 2 else if i = 1 then some 1 else none
  }
  preemptionEnabled := true
  heap := [2, 1, 0]
  pc := fun _ => .idle
  result := fun _ => none

theorem listedThreads_initial : listedThreads.Initial := by
  refine ⟨fun _ => rfl, fun _ => rfl, ?_⟩
  intro t
  unfold listedThreads finishedThread
  dsimp only
  split <;> nofun

def detachCall : List (ThreadAction Nat) := List.replicate 3 (.run (.detach 1) 3)

theorem wait_and_detach_never_meet_listedThreads
    : (listedThreads.steps detachCall).map (fun s => s.detached 1) = .ok true
        ∧ Throughout step (fun t => ¬ t.Meets) listedThreads detachCall
        ∧ Along step FreesUnreferenced listedThreads detachCall := by
  refine ⟨rfl, wait_and_detach_never_meet listedThreads listedThreads_initial detachCall ?_⟩
  refine ⟨nofun, ?_⟩
  intro s1 hs1
  cases hs1
  refine ⟨?_, ?_⟩
  . intro op fuel c u _ hcurrent hp
    cases hcurrent
    contradiction
  intro s2 hs2
  cases hs2
  refine ⟨?_, fun _ _ => trivial⟩
  intro op fuel c u _ _ _ t
  constructor
  . intro hw
    exact listedThreads_initial.status t hw.1
  . intro ⟨list, n, hchecked, _⟩
    by_cases ht : t = 0
    . rw [ht] at hchecked
      contradiction
    . unfold ThreadCalls.goto at hchecked
      dsimp only at hchecked
      rw [Function.update_of_ne ht, Function.update_of_ne ht] at hchecked
      contradiction

/--
The main thread waits for threads 2 and 1. Thread 2 detaches thread 1, which exits, and maintains the list.
-/
def waitThenDetach : List (ThreadAction Nat) :=
  List.replicate 11 (.run (.wait (some 0) 2) 3) ++ detachCall

def exitThenMaintain : List (ThreadAction Nat) :=
  [.timer 3] ++ List.replicate 5 (.run .exit 3) ++ List.replicate 2 (.run .maintain 3)

/--
Nothing keeps thread 1 from being detached, and it is freed while the main thread still waits for it.
-/
theorem wait_and_detach_meet
    : listedThreads.Initial
        ∧ (∃ s, listedThreads.steps waitThenDetach = .ok s ∧ s.Meets)
        ∧ ∃ s, listedThreads.steps (waitThenDetach ++ exitThenMaintain) = .ok s
          ∧ 1 ∈ s.sys.freed ∧ s.sys.WaitsOn 0 1 := by
  refine ⟨listedThreads_initial, ⟨_, rfl, ?_⟩, ⟨_, rfl, ?_, ?_⟩⟩
  . exact ⟨0, 1, ⟨rfl, 0, rfl, 1, by decide, rfl⟩, rfl⟩
  . decide
  . exact ⟨rfl, 0, rfl, 1, by decide, rfl⟩

end ThreadCalls

end Emos
