import Emos.Kernel.Preemption.Lemmas.Phase
import Emos.Kernel.Thread.Lemmas.Remove
import Emos.Lib.Trace

/-!
This module contains which calls return with `preemption_enabled` as they have found it. `thread_create`
saves and restores the flag, the other functions turn it on when their critical section ends.
-/

open Lib

namespace Emos

variable {τ μ κ : Type} [DecidableEq τ] [DecidableEq μ] [DecidableEq κ]

namespace CallPc

def phase : CallPc τ μ κ → Phase
  | .outside => .outside
  | .mutex _ pc => pc.phase
  | .spinlock _ pc => pc.phase
  | .thread pc => pc.phase

def prev? : CallPc τ μ κ → Option Bool
  | .thread pc => pc.prev?
  | _ => none

/--
A thread that is in a call is not outside of the functions of the mutex, for instance.
-/
def Proper : CallPc τ μ κ → Prop
  | .outside => True
  | .mutex _ pc => pc ≠ .idle
  | .spinlock _ pc => pc ≠ .idle
  | .thread pc => pc ≠ .idle

omit [DecidableEq τ] [DecidableEq μ] [DecidableEq κ] in
theorem Proper.phase_ne {pc : CallPc τ μ κ} (h : pc.Proper) (hpc : pc ≠ .outside)
    : pc.phase ≠ .outside := by
  cases pc with
  | outside => contradiction
  | mutex m pc => cases pc <;> first | contradiction | nofun
  | spinlock k pc => cases pc <;> first | contradiction | nofun
  | thread pc => cases pc <;> first | contradiction | nofun

omit [DecidableEq τ] [DecidableEq μ] [DecidableEq κ] in
theorem ofMutex_spec (m : μ) (pc : MutexPc τ)
    : (ofMutex m pc : CallPc τ μ κ).phase = pc.phase ∧ (ofMutex m pc : CallPc τ μ κ).Proper
        ∧ (ofMutex m pc : CallPc τ μ κ).prev? = none := by
  cases pc with
  | idle => exact ⟨rfl, trivial, rfl⟩
  | _ => exact ⟨rfl, nofun, rfl⟩

omit [DecidableEq τ] [DecidableEq μ] [DecidableEq κ] in
theorem ofSpinlock_spec (k : κ) (pc : SpinlockPc τ)
    : (ofSpinlock k pc : CallPc τ μ κ).phase = pc.phase ∧ (ofSpinlock k pc : CallPc τ μ κ).Proper
        ∧ (ofSpinlock k pc : CallPc τ μ κ).prev? = none := by
  cases pc with
  | idle => exact ⟨rfl, trivial, rfl⟩
  | _ => exact ⟨rfl, nofun, rfl⟩

omit [DecidableEq τ] [DecidableEq μ] [DecidableEq κ] in
theorem ofThread_spec (pc : ThreadPc τ)
    : (ofThread pc : CallPc τ μ κ).phase = pc.phase ∧ (ofThread pc : CallPc τ μ κ).Proper
        ∧ (ofThread pc : CallPc τ μ κ).prev? = pc.prev? := by
  cases pc with
  | idle => exact ⟨rfl, trivial, rfl⟩
  | _ => exact ⟨rfl, nofun, rfl⟩

end CallPc

namespace KernelCalls

def critical (s : KernelCalls τ μ κ) : Critical τ where
  current := s.sys.sched.currentThread
  flag := s.preemptionEnabled
  phase := fun t => (s.pc t).phase
  entry := s.entry

structure Inv (s : KernelCalls τ μ κ) : Prop where
  critical : s.critical.Inv
  proper : ∀ t, (s.pc t).Proper
  saved : ∀ t prev, (s.pc t).prev? = some prev → prev = s.entry t

/--
A step of thread `c` inside of a call.
-/
structure Moves (s t : KernelCalls τ μ κ) (c : τ) : Prop where
  flag : FlagMoves (s.entry c) (s.pc c).phase s.preemptionEnabled s.sys.sched.currentThread
    (t.pc c).phase t.preemptionEnabled t.sys.sched.currentThread
  entry : t.entry = s.entry
  other : ∀ u, u ≠ c → t.pc u = s.pc u ∨ t.pc u = .outside
  proper : (t.pc c).Proper
  saved : ∀ prev, (t.pc c).prev? = some prev → prev = s.entry c

variable {s t : KernelCalls τ μ κ} {c : τ}

omit [DecidableEq τ] [DecidableEq μ] [DecidableEq κ] in
theorem inv_of_outside (h : ∀ t, s.pc t = .outside) : s.Inv := by
  refine ⟨Critical.inv_of_outside ?_, ?_, ?_⟩
  . intro t
    unfold critical
    dsimp only
    rw [h t]
    rfl
  . intro t
    rw [h t]
    trivial
  . intro t prev hprev
    rw [h t] at hprev
    contradiction

omit [DecidableEq μ] [DecidableEq κ] in
theorem Moves.inv (hmoves : s.Moves t c) (h : s.Inv) (hcurrent : s.sys.sched.currentThread = some c)
    : t.Inv := by
  have hstill : ({ t.critical with current := some c } : Critical τ).Inv := by
    refine h.critical.move hcurrent hmoves.flag.move rfl hmoves.entry ?_
    intro u hu
    unfold critical
    dsimp only
    cases hmoves.other u hu with
    | inl hsame => exact .inl (by rw [hsame])
    | inr hout => exact .inr (by rw [hout]; rfl)
  refine ⟨?_, ?_, ?_⟩
  . cases hmoves.flag.current with
    | inl hsame =>
      have heq : t.critical = { t.critical with current := some c } := by
        unfold critical
        rw [hsame, hcurrent]
      rw [heq]
      exact hstill
    | inr henabled => exact hstill.switch henabled t.sys.sched.currentThread
  . intro u
    by_cases hu : u = c
    . rw [hu]
      exact hmoves.proper
    . cases hmoves.other u hu with
      | inl hsame =>
        rw [hsame]
        exact h.proper u
      | inr hout =>
        rw [hout]
        trivial
  . intro u prev hprev
    rw [hmoves.entry]
    by_cases hu : u = c
    . rw [hu] at hprev ⊢
      exact hmoves.saved prev hprev
    . cases hmoves.other u hu with
      | inl hsame =>
        rw [hsame] at hprev
        exact h.saved u prev hprev
      | inr hout =>
        rw [hout] at hprev
        contradiction

omit [DecidableEq τ] [DecidableEq μ] [DecidableEq κ] in
theorem moves_of_pc {pc : CallPc τ μ κ} {p : Phase} (hpc : t.pc c = pc)
    (hphase : pc.phase = p)
    (hflag : FlagMoves (s.entry c) (s.pc c).phase s.preemptionEnabled s.sys.sched.currentThread p
      t.preemptionEnabled t.sys.sched.currentThread)
    (hentry : t.entry = s.entry) (hother : ∀ u, u ≠ c → t.pc u = s.pc u ∨ t.pc u = .outside)
    (hproper : pc.Proper) (hsaved : ∀ prev, pc.prev? = some prev → prev = s.entry c)
    : s.Moves t c := by
  subst hpc
  subst hphase
  exact ⟨hflag, hentry, hother, hproper, hsaved⟩

theorem exec_moves {op : KernelOp τ μ κ} {fuel : Nat} (h : s.Inv)
    (hcurrent : s.sys.sched.currentThread = some c) (hinside : s.pc c ≠ .outside)
    (hexec : s.exec c op fuel = .ok t)
    : s.Moves t c := by
  have hproper := h.proper c
  unfold exec at hexec
  cases hp : s.pc c with
  | outside => contradiction
  | mutex m pc =>
    rw [hp] at hexec hproper
    dsimp only at hexec
    rw [bind_eq_ok] at hexec
    obtain ⟨r, hr, hexec⟩ := hexec
    cases hexec
    have hmoves : MutexSystem.Moves (s.entry c) (s.mutexSystem m pc) r c :=
      MutexSystem.exec_moves (fun heq => hproper heq) hr
    obtain ⟨hphase, hproper', hprev⟩ : _ ∧ _ ∧ (CallPc.ofMutex m (r.pc c) : CallPc τ μ κ).prev? = none :=
      CallPc.ofMutex_spec m (r.pc c)
    refine moves_of_pc (Function.update_self ..) hphase (by rw [hp]; exact hmoves) rfl ?_ hproper' ?_
    . intro u hu
      exact .inl (Function.update_of_ne hu ..)
    . intro prev heq
      rw [hprev] at heq
      contradiction
  | spinlock k pc =>
    rw [hp] at hexec hproper
    dsimp only at hexec
    rw [bind_eq_ok] at hexec
    obtain ⟨r, hr, hexec⟩ := hexec
    cases hexec
    have hmoves : SpinlockSystem.Moves (s.entry c) (s.spinlockSystem k pc) r c :=
      SpinlockSystem.exec_moves (fun heq => hproper heq) hr
    obtain ⟨hphase, hproper', hprev⟩ : _ ∧ _ ∧ (CallPc.ofSpinlock k (r.pc c) : CallPc τ μ κ).prev? = none :=
      CallPc.ofSpinlock_spec k (r.pc c)
    refine moves_of_pc (Function.update_self ..) hphase (by rw [hp]; exact hmoves) rfl ?_ hproper' ?_
    . intro u hu
      exact .inl (Function.update_of_ne hu ..)
    . intro prev heq
      rw [hprev] at heq
      contradiction
  | thread pc =>
    have hknown : ThreadCalls.FlagKnown (s.entry c) (s.threadCalls pc) c := by
      have hsame : s.critical.phase c = pc.phase := by
        unfold critical
        dsimp only
        rw [hp]
        rfl
      refine ⟨?_, ?_, ?_⟩
      . intro hphase
        apply h.critical.untouched c _ hcurrent
        rw [hsame.trans hphase]
        rfl
      . intro hphase
        refine (h.critical.critical c ?_).2
        rw [hsame.trans hphase]
        rfl
      . intro prev hprev
        apply h.saved c prev
        rw [hp]
        exact hprev
    rw [hp] at hexec hproper
    dsimp only at hexec
    rw [bind_eq_ok] at hexec
    obtain ⟨r, hr, hexec⟩ := hexec
    cases hexec
    have hstep := ThreadCalls.exec_flagStep hknown (fun heq => hproper heq) hr
    obtain ⟨hphase, hproper', hprev⟩ : _ ∧ _ ∧ (CallPc.ofThread (r.pc c) : CallPc τ μ κ).prev? = _ :=
      CallPc.ofThread_spec (r.pc c)
    refine moves_of_pc (if_pos rfl) hphase (by rw [hp]; exact hstep.moves) rfl ?_ hproper' ?_
    . intro u hu
      unfold ofThreadCalls
      dsimp only
      rw [if_neg hu]
      split
      . exact .inl rfl
      . exact .inr rfl
    . intro prev heq
      rw [hprev] at heq
      exact hstep.saved prev heq

omit [DecidableEq μ] [DecidableEq κ] in
theorem call_inv (h : s.Inv) (hcurrent : s.sys.sched.currentThread = some c)
    (hout : s.pc c = .outside) (op : KernelOp τ μ κ)
    : (s.call c op).Inv := by
  have hset : ∀ flag, ({ s with preemptionEnabled := flag } : KernelCalls τ μ κ).Inv := by
    intro flag
    refine ⟨h.critical.set hcurrent ?_ flag, h.proper, h.saved⟩
    unfold critical
    dsimp only
    rw [hout]
    rfl
  have henter : ∀ pc : CallPc τ μ κ, pc.phase = .before → pc.Proper → pc.prev? = none
      → (s.enter c pc).Inv := by
    intro pc hphase hproper hprev
    have hpc : (s.enter c pc).pc c = pc := Function.update_self ..
    have hother : ∀ t, t ≠ c → (s.enter c pc).pc t = s.pc t := fun t ht => Function.update_of_ne ht ..
    refine ⟨?_, ?_, ?_⟩
    . have heq : (s.enter c pc).critical = {
            s.critical with
            phase := Function.update s.critical.phase c .before
            entry := Function.update s.critical.entry c s.critical.flag } := by
        have hphases : (fun t => ((s.enter c pc).pc t).phase)
            = Function.update (fun t => (s.pc t).phase) c .before := by
          funext t
          by_cases ht : t = c
          . rw [ht, hpc, hphase, Function.update_self]
          . rw [hother t ht, Function.update_of_ne ht]
        unfold critical
        rw [hphases]
        rfl
      rw [heq]
      exact h.critical.enter hcurrent
    . intro t
      by_cases ht : t = c
      . rw [ht, hpc]
        exact hproper
      . rw [hother t ht]
        exact h.proper t
    . intro t prev heq
      by_cases ht : t = c
      . rw [ht, hpc, hprev] at heq
        contradiction
      . rw [hother t ht] at heq
        exact (h.saved t prev heq).trans (Function.update_of_ne ht ..).symm
  cases op with
  | enablePreemption => exact hset true
  | disablePreemption => exact hset false
  | mutex m op => cases op <;> exact henter _ rfl nofun rfl
  | spinlock k op => cases op <;> exact henter _ rfl nofun rfl
  | thread op => cases op <;> exact henter _ rfl nofun rfl

theorem step_inv {a : KernelAction τ μ κ} (h : s.Inv) (hstep : s.step a = .ok t) : t.Inv := by
  cases a with
  | run op fuel =>
    unfold step at hstep
    dsimp only at hstep
    split at hstep
    . contradiction
    . next c hcurrent =>
      by_cases hout : s.pc c = .outside
      . rw [exec, hout] at hstep
        cases hstep
        exact call_inv h hcurrent hout op
      . exact (exec_moves h hcurrent hout hstep).inv h hcurrent
  | timer fuel =>
    replace hstep : s.pitIsr fuel = .ok t := hstep
    unfold pitIsr at hstep
    split at hstep
    . next henabled =>
      rw [bind_eq_ok] at hstep
      obtain ⟨sched, _, hstep⟩ := hstep
      cases hstep
      exact ⟨h.critical.switch henabled sched.currentThread, h.proper, h.saved⟩
    . cases hstep
      exact h

theorem steps_inv {as : List (KernelAction τ μ κ)} (h : s.Inv) (hrun : s.steps as = .ok t)
    : t.Inv := by
  induction as generalizing s with
  | nil =>
    cases hrun
    exact h
  | cons a as ih =>
    rw [steps, bind_eq_ok] at hrun
    obtain ⟨s1, hstep, hrun⟩ := hrun
    exact ih (step_inv h hstep) hrun

/--
Thread `c` takes the last step of a call.
-/
structure Returns (s : KernelCalls τ μ κ) (c : τ) (op : KernelOp τ μ κ) (fuel : Nat)
    (t : KernelCalls τ μ κ) : Prop where
  current : s.sys.sched.currentThread = some c
  inside : s.pc c ≠ .outside
  step : s.step (.run op fuel) = .ok t
  outside : t.pc c = .outside

theorem Returns.exec {op : KernelOp τ μ κ} {fuel : Nat} (h : s.Returns c op fuel t)
    : s.exec c op fuel = .ok t := by
  have hstep := h.step
  rw [KernelCalls.step, h.current] at hstep
  exact hstep

theorem Inv.flag_of_returns {op : KernelOp τ μ κ} {fuel : Nat} (h : s.Inv)
    (hreturns : s.Returns c op fuel t)
    : t.preemptionEnabled = if (s.pc c).phase.keeps then s.entry c else true := by
  have hmoves := exec_moves h hreturns.current hreturns.inside hreturns.exec
  have hmove := hmoves.flag.move
  rw [hreturns.outside] at hmove
  apply hmove.returns ((h.proper c).phase_ne hreturns.inside)
  . intro hp
    exact h.critical.untouched c hp hreturns.current
  . intro hp
    exact h.critical.on c hp hreturns.current

/--
Thread `c` neither turns preemption on itself nor enters the critical section of a function that does so.
-/
def Quiet (c : τ) (s : KernelCalls τ μ κ) (a : KernelAction τ μ κ) : Prop :=
  ∀ op fuel, a = .run op fuel
    → (s.pc c = .outside → op ≠ .enablePreemption) ∧ (s.pc c).phase ≠ .aboutToDisable

/--
Thread `c` cannot be interrupted.
-/
def Alone (c : τ) (s : KernelCalls τ μ κ) : Prop :=
  s.sys.sched.currentThread = some c ∧ s.preemptionEnabled = false

/--
The calls of thread `c` began with preemption off and keep it off.
-/
structure Calm (c : τ) (s : KernelCalls τ μ κ) : Prop where
  inv : s.Inv
  alone : s.Alone c
  entry : s.pc c ≠ .outside → s.entry c = false
  keeps : s.pc c ≠ .outside → (s.pc c).phase.keeps

omit [DecidableEq μ] [DecidableEq κ] in
theorem Calm.call {op : KernelOp τ μ κ} (h : s.Calm c) (hout : s.pc c = .outside)
    (hop : op ≠ .enablePreemption)
    : (s.call c op).Calm c := by
  have hinv := call_inv h.inv h.alone.1 hout op
  have henter : ∀ pc : CallPc τ μ κ, pc.phase.keeps → (s.enter c pc).Inv → (s.enter c pc).Calm c := by
    intro pc hkeeps henter
    refine ⟨henter, h.alone, ?_, ?_⟩
    . intro _
      exact (Function.update_self ..).trans h.alone.2
    . intro _
      unfold enter
      dsimp only
      rw [Function.update_self]
      exact hkeeps
  cases op with
  | enablePreemption => contradiction
  | disablePreemption => exact ⟨hinv, ⟨h.alone.1, rfl⟩, fun hin => absurd hout hin, fun hin => absurd hout hin⟩
  | mutex m op => cases op <;> exact henter _ rfl hinv
  | spinlock k op => cases op <;> exact henter _ rfl hinv
  | thread op => cases op <;> exact henter _ rfl hinv

theorem Calm.exec {op : KernelOp τ μ κ} {fuel : Nat} (h : s.Calm c) (hinside : s.pc c ≠ .outside)
    (hne : (s.pc c).phase ≠ .aboutToDisable) (hexec : s.exec c op fuel = .ok t)
    : t.Calm c := by
  have hmoves := exec_moves h.inv h.alone.1 hinside hexec
  have hinv := hmoves.inv h.inv h.alone.1
  have hmove := hmoves.flag.move
  rw [h.entry hinside, h.alone.2] at hmove
  obtain ⟨hflag, hphase⟩ := hmove.keeps (h.keeps hinside) hne
  refine ⟨hinv, ⟨?_, hflag⟩, ?_, ?_⟩
  . cases hmoves.flag.current with
    | inl hsame => exact hsame.trans h.alone.1
    | inr henabled =>
      rw [hflag] at henabled
      contradiction
  . intro _
    rw [hmoves.entry]
    exact h.entry hinside
  . intro hin
    cases hphase with
    | inl hout => exact absurd hout (hmoves.proper.phase_ne hin)
    | inr hkeeps => exact hkeeps

theorem Calm.step {a : KernelAction τ μ κ} (h : s.Calm c) (hquiet : s.Quiet c a)
    (hstep : s.step a = .ok t)
    : t.Calm c := by
  cases a with
  | run op fuel =>
    obtain ⟨hop, hne⟩ := hquiet op fuel rfl
    rw [KernelCalls.step, h.alone.1] at hstep
    dsimp only at hstep
    by_cases hout : s.pc c = .outside
    . rw [KernelCalls.exec, hout] at hstep
      cases hstep
      exact h.call hout (hop hout)
    . exact h.exec hout hne hstep
  | timer fuel =>
    replace hstep : s.pitIsr fuel = .ok t := hstep
    rw [pitIsr, h.alone.2] at hstep
    cases hstep
    exact h

/--
A call returns with preemption as it was when the call began exactly if it was on, or if the call is one of
`thread_create` or ends before its critical section. Preemption that a thread has turned off stays off as
long as the thread gets to no critical section but that of `thread_create`.
-/
theorem returns_with_flag_iff (s : KernelCalls τ μ κ) (h : ∀ t, s.pc t = .outside)
    (as : List (KernelAction τ μ κ)) (t : KernelCalls τ μ κ) (hrun : s.steps as = .ok t) (c : τ)
    : (∀ op fuel t', t.Returns c op fuel t'
        → (t'.preemptionEnabled = t.entry c ↔ t.entry c = true ∨ (t.pc c).phase.keeps = true))
        ∧
      (t.Alone c → t.pc c = .outside
        → ∀ bs, Along step (Quiet c) t bs → Throughout step (Alone c) t bs) := by
  have hinv := steps_inv (inv_of_outside h) hrun
  constructor
  . intro op fuel t' hreturns
    rw [hinv.flag_of_returns hreturns]
    cases (t.pc c).phase.keeps with
    | true => simp
    | false => cases t.entry c <;> simp
  . intro halone hout bs hquiet
    have hcalm : t.Calm c := ⟨hinv, halone, fun hin => absurd hout hin, fun hin => absurd hout hin⟩
    apply Throughout.mono (fun _ => Calm.alone)
    exact Throughout.of_step (fun _ _ _ => Calm.step) hcalm hquiet

/--
Threads 2, 1 and 0 in this order, none of which is in a call. Thread 0 is the current one.
-/
def idleThreads : KernelCalls Nat Unit Unit where
  sys := finishedThread 3
  preemptionEnabled := true
  heap := [2, 1, 0]
  mtx := fun _ => ⟨false, none, none⟩
  holds := fun _ _ => false
  lock := fun _ => spinlockInit
  pc := fun _ => .outside
  result := fun _ => none
  entry := fun _ => false

/--
The current thread turns preemption off, then it takes `n` steps in a call of `op`.
-/
def disableThenCall (op : KernelOp Nat Unit Unit) (n : Nat) : List (KernelAction Nat Unit Unit) :=
  .run .disablePreemption 3 :: List.replicate n (.run op 3)

theorem returns_with_flag_iff_create
    : ∃ t t', idleThreads.steps (disableThenCall (.thread (.create none 0)) 4) = .ok t
        ∧ t.Returns 0 .disablePreemption 3 t'
        ∧ t.entry 0 = false ∧ t'.preemptionEnabled = t.entry 0 := by
  have hreturn : ∀ t t', idleThreads.steps (disableThenCall (.thread (.create none 0)) 4) = .ok t
      → t.Returns 0 .disablePreemption 3 t' → (t.pc 0).phase.keeps = true
      → t'.preemptionEnabled = t.entry 0 := by
    intro t t' hrun hreturns hkeeps
    have hiff := returns_with_flag_iff idleThreads (fun _ => rfl) _ t hrun 0
    exact (hiff.1 _ _ t' hreturns).mpr (.inr hkeeps)
  exact ⟨_, _, rfl, ⟨rfl, nofun, rfl, rfl⟩, rfl, hreturn _ _ rfl ⟨rfl, nofun, rfl, rfl⟩ rfl⟩

/--
`mutex_try_lock` ends the critical section of its caller, which is interrupted then.
-/
theorem tryLock_enables_preemption
    : ∃ t t' t'', idleThreads.steps (disableThenCall (.mutex () .tryLock) 6) = .ok t
        ∧ t.Returns 0 .disablePreemption 3 t'
        ∧ t.entry 0 = false ∧ t'.preemptionEnabled = true
        ∧ t'.step (.timer 3) = .ok t'' ∧ t''.sys.sched.currentThread = some 2 :=
  ⟨_, _, _, rfl, ⟨rfl, nofun, rfl, rfl⟩, rfl, rfl, rfl, rfl⟩

end KernelCalls

end Emos
