import Emos.Kernel.Preemption.Impl.Calls
import Emos.Kernel.Thread.Lemmas.Settle
import Emos.Lib.Critical

/-!
This module contains what the statements of the mutex, the spinlock and the functions on threads do to
`preemption_enabled`.
-/

open Lib

namespace Emos

variable {τ : Type} [DecidableEq τ]

/--
What a step of a call does to its phase, to the flag and to the current thread.
-/
structure FlagMoves (entry : Bool) (p : Phase) (flag : Bool) (current : Option τ) (p' : Phase)
    (flag' : Bool) (current' : Option τ) : Prop where
  move : Phase.Move entry p flag p' flag'
  current : current' = current ∨ flag' = true

namespace MutexPc

def phase : MutexPc τ → Phase
  | .idle => .outside
  | .lockGetCurrent | .tryGetCurrent | .unlockGetCurrent => .before
  | .lockDisable _ | .tryDisable _ | .unlockDisable _ => .aboutToDisable
  | .lockBlock _ | .addTestHead _ | .addTestEmpty _ | .addSetHead _ | .addClearHead _ | .addReadHead _
  | .addTestLast _ _ | .addTestNext _ _ | .addReadNext _ _ | .addLink _ _ | .addClearNext _
  | .lockYield _ | .lockDisableAgain _ => .on
  | _ => .off

end MutexPc

namespace MutexSystem

variable {s t : MutexSystem τ} {c : τ} {entry : Bool}

def Moves (entry : Bool) (s t : MutexSystem τ) (c : τ) : Prop :=
  FlagMoves entry (s.pc c).phase s.preemptionEnabled s.sched.currentThread (t.pc c).phase
    t.preemptionEnabled t.sched.currentThread

theorem moves_goto {r : MutexSystem τ} {pc : MutexPc τ}
    (hmove : Phase.Move entry (s.pc c).phase s.preemptionEnabled pc.phase r.preemptionEnabled)
    (hcurrent : r.sched.currentThread = s.sched.currentThread)
    : Moves entry s (r.goto c pc) c := by
  have hpc : (r.goto c pc).pc c = pc := Function.update_self ..
  refine ⟨?_, .inl hcurrent⟩
  rw [hpc]
  exact hmove

theorem pitIsr_flag {fuel : Nat} (h : s.pitIsr fuel = .ok t)
    : t.pc = s.pc ∧ t.preemptionEnabled = s.preemptionEnabled
        ∧ (t.sched.currentThread = s.sched.currentThread ∨ t.preemptionEnabled = true) := by
  unfold pitIsr at h
  split at h
  . next henabled =>
    rw [bind_eq_ok] at h
    obtain ⟨sched, _, h⟩ := h
    cases h
    exact ⟨rfl, rfl, .inr henabled⟩
  . cases h
    exact ⟨rfl, rfl, .inl rfl⟩

theorem exec_moves {op : MutexOp} {fuel : Nat} (hpc : s.pc c ≠ .idle)
    (h : s.exec c op fuel = .ok t)
    : Moves entry s t c := by
  have hstay : ∀ (r : MutexSystem τ) pc, r.preemptionEnabled = s.preemptionEnabled
      → r.sched.currentThread = s.sched.currentThread → pc.phase = (s.pc c).phase
      → Moves entry s (r.goto c pc) c := by
    intro r pc hflag hcurrent hphase
    apply moves_goto _ hcurrent
    rw [hflag, hphase]
    exact .stay _ _
  unfold exec at h
  cases hp : s.pc c with
  | idle => contradiction
  | lockGetCurrent | tryGetCurrent | unlockGetCurrent =>
    rw [hp] at h
    dsimp only at h
    split at h
    . contradiction
    . cases h
      exact moves_goto (by rw [hp]; exact .approach _) rfl
  | unblockReadHead th =>
    rw [hp] at h
    dsimp only at h
    split at h
    . contradiction
    . cases h
      exact hstay s _ rfl rfl (by rw [hp]; rfl)
  | lockDisable th | tryDisable th | unlockDisable th =>
    rw [hp] at h
    cases h
    exact moves_goto (by rw [hp]; exact .disable _) rfl
  | lockDisableAgain th =>
    rw [hp] at h
    cases h
    exact moves_goto (by rw [hp]; exact .disableAgain _) rfl
  | lockEnableToWait th =>
    rw [hp] at h
    cases h
    exact moves_goto (by rw [hp]; exact .enable _) rfl
  | lockEnable th | tryEnableToFail th | tryEnable th | unlockEnableToFail th | unlockEnable th =>
    rw [hp] at h
    cases h
    exact moves_goto (by rw [hp]; exact .returnOff _) rfl
  | lockYield th =>
    rw [hp] at h
    dsimp only at h
    have hgoto : Moves entry s (s.goto c (.lockDisableAgain th)) c :=
      hstay s _ rfl rfl (by rw [hp]; rfl)
    obtain ⟨hpcs, hflag, hcurrent⟩ := pitIsr_flag h
    refine ⟨?_, hcurrent⟩
    rw [hpcs, hflag]
    exact hgoto.move
  | addTestLast th last =>
    rw [hp] at h
    cases last with
    | none =>
      cases h
      exact hstay s _ rfl rfl (by rw [hp]; rfl)
    | some last =>
      dsimp only at h
      cases h
      split
      . exact hstay s _ rfl rfl (by rw [hp]; rfl)
      . exact hstay s _ rfl rfl (by rw [hp]; rfl)
  | addLink th last =>
    rw [hp] at h
    cases last with
    | none => contradiction
    | some last =>
      cases h
      exact hstay _ _ rfl rfl (by rw [hp]; rfl)
  | lockTest th | addTestHead th | addTestEmpty th | addTestNext th last | tryTest th | unlockTest th
  | unblockTestEmpty th | unblockTestStatus th unblock =>
    rw [hp] at h
    dsimp only at h
    cases h
    split
    . exact hstay s _ rfl rfl (by rw [hp]; rfl)
    . exact hstay s _ rfl rfl (by rw [hp]; rfl)
  | _ =>
    rw [hp] at h
    cases h
    exact hstay _ _ rfl rfl (by rw [hp]; rfl)

end MutexSystem

namespace SpinlockPc

def phase : SpinlockPc τ → Phase
  | .idle => .outside
  | .lockGetCurrent | .tryGetCurrent | .unlockGetCurrent => .before
  | .lockDisable _ | .tryDisable _ | .unlockDisable _ => .aboutToDisable
  | _ => .off

end SpinlockPc

namespace SpinlockSystem

variable {s t : SpinlockSystem τ} {c : τ} {entry : Bool}

def Moves (entry : Bool) (s t : SpinlockSystem τ) (c : τ) : Prop :=
  FlagMoves entry (s.pc c).phase s.preemptionEnabled s.sched.currentThread (t.pc c).phase
    t.preemptionEnabled t.sched.currentThread

theorem moves_goto {r : SpinlockSystem τ} {pc : SpinlockPc τ}
    (hmove : Phase.Move entry (s.pc c).phase s.preemptionEnabled pc.phase r.preemptionEnabled)
    (hcurrent : r.sched.currentThread = s.sched.currentThread)
    : Moves entry s (r.goto c pc) c := by
  have hpc : (r.goto c pc).pc c = pc := Function.update_self ..
  refine ⟨?_, .inl hcurrent⟩
  rw [hpc]
  exact hmove

theorem exec_moves {op : SpinlockOp} (hpc : s.pc c ≠ .idle) (h : s.exec c op = .ok t)
    : Moves entry s t c := by
  have hstay : ∀ (r : SpinlockSystem τ) pc, r.preemptionEnabled = s.preemptionEnabled
      → r.sched.currentThread = s.sched.currentThread → pc.phase = (s.pc c).phase
      → Moves entry s (r.goto c pc) c := by
    intro r pc hflag hcurrent hphase
    apply moves_goto _ hcurrent
    rw [hflag, hphase]
    exact .stay _ _
  unfold exec at h
  cases hp : s.pc c with
  | idle => contradiction
  | lockGetCurrent | tryGetCurrent | unlockGetCurrent =>
    rw [hp] at h
    dsimp only at h
    unfold getCurrent at h
    split at h
    . contradiction
    . cases h
      exact moves_goto (by rw [hp]; exact .approach _) rfl
  | lockDisable th | tryDisable th | unlockDisable th =>
    rw [hp] at h
    cases h
    exact moves_goto (by rw [hp]; exact .disable _) rfl
  | lockEnable th | tryEnableToFail th | tryEnable th | unlockEnableToFail th | unlockEnable th =>
    rw [hp] at h
    cases h
    exact moves_goto (by rw [hp]; exact .returnOff _) rfl
  | lockTest th =>
    rw [hp] at h
    dsimp only at h
    cases h
    split
    . exact hstay s _ rfl rfl (by rw [hp])
    . exact hstay s _ rfl rfl (by rw [hp]; rfl)
  | tryTest th | unlockTest th =>
    rw [hp] at h
    dsimp only at h
    cases h
    split
    . exact hstay s _ rfl rfl (by rw [hp]; rfl)
    . exact hstay s _ rfl rfl (by rw [hp]; rfl)
  | _ =>
    rw [hp] at h
    cases h
    exact hstay _ _ rfl rfl (by rw [hp]; rfl)

end SpinlockSystem

namespace ThreadPc

def phase : ThreadPc τ → Phase
  | .idle => .outside
  | .waitDisable _ _ _ => .aboutToDisable
  | .createBody _ _ _ | .createRestore _ _ => .saved
  | .waitSetList _ _ _ | .waitSetCount _ _ _ | .waitSetStatus _ _ _ | .waitEnable _ => .off
  | .waitYield _ | .waitReturn _ => .on
  | _ => .before

def prev? : ThreadPc τ → Option Bool
  | .createDisable _ _ prev | .createBody _ _ prev | .createRestore _ prev => some prev
  | _ => none

end ThreadPc

namespace ThreadCalls

variable {s t : ThreadCalls τ} {c : τ} {entry : Bool}

structure FlagStep (entry : Bool) (s t : ThreadCalls τ) (c : τ) : Prop where
  moves : FlagMoves entry (s.pc c).phase s.preemptionEnabled s.sys.sched.currentThread (t.pc c).phase
    t.preemptionEnabled t.sys.sched.currentThread
  saved : ∀ prev, (t.pc c).prev? = some prev → prev = entry

structure FlagKnown (entry : Bool) (s : ThreadCalls τ) (c : τ) : Prop where
  before : (s.pc c).phase = .before → s.preemptionEnabled = entry
  critical : (s.pc c).phase = .saved → s.preemptionEnabled = false
  saved : ∀ prev, (s.pc c).prev? = some prev → prev = entry

omit [DecidableEq τ] in
theorem flagStep_of_pc {pc : ThreadPc τ} (hpc : t.pc c = pc)
    (hmove : Phase.Move entry (s.pc c).phase s.preemptionEnabled pc.phase t.preemptionEnabled)
    (hcurrent : t.sys.sched.currentThread = s.sys.sched.currentThread ∨ t.preemptionEnabled = true)
    (hsaved : ∀ prev, pc.prev? = some prev → prev = entry)
    : FlagStep entry s t c := by
  subst hpc
  exact ⟨⟨hmove, hcurrent⟩, hsaved⟩

theorem createBody_flag {object : Option τ} {stackSize : Nat} {status : Status}
    (h : s.createBody object stackSize = .ok ⟨status, t⟩)
    : t.preemptionEnabled = s.preemptionEnabled
        ∧ t.sys.sched.currentThread = s.sys.sched.currentThread := by
  unfold createBody at h
  split at h
  . cases h
    exact ⟨rfl, rfl⟩
  . rw [bind_eq_ok] at h
    obtain ⟨⟨status', v, mm⟩, _, h⟩ := h
    dsimp only at h
    split at h
    . cases h
      exact ⟨rfl, rfl⟩
    . generalize pcThreadSetupKthreadStack v = w at h
      cases h
      exact ⟨rfl, rfl⟩

theorem pitIsr_flag {fuel : Nat} (h : s.pitIsr fuel = .ok t)
    : t.pc = s.pc ∧ t.preemptionEnabled = s.preemptionEnabled
        ∧ (t.sys.sched.currentThread = s.sys.sched.currentThread ∨ t.preemptionEnabled = true) := by
  unfold pitIsr at h
  split at h
  . next henabled =>
    rw [bind_eq_ok] at h
    obtain ⟨sched, _, h⟩ := h
    cases h
    exact ⟨rfl, rfl, .inr henabled⟩
  . cases h
    exact ⟨rfl, rfl, .inl rfl⟩

theorem exec_flagStep {op : ThreadOp τ} {fuel : Nat} (hknown : FlagKnown entry s c)
    (hpc : s.pc c ≠ .idle) (h : s.exec c op fuel = .ok t)
    : FlagStep entry s t c := by
  have hstay : ∀ (r : ThreadCalls τ) pc, r.pc c = pc → r.preemptionEnabled = s.preemptionEnabled
      → (r.sys.sched.currentThread = s.sys.sched.currentThread ∨ r.preemptionEnabled = true)
      → pc.phase = (s.pc c).phase → (∀ prev, pc.prev? = some prev → prev = entry)
      → FlagStep entry s r c := by
    intro r pc hr hflag hcurrent hphase hsaved
    apply flagStep_of_pc hr _ hcurrent hsaved
    rw [hflag, hphase]
    exact .stay _ _
  have hret : ∀ (r : ThreadCalls τ) status, (s.pc c).phase = .before
      → r.preemptionEnabled = s.preemptionEnabled
      → r.sys.sched.currentThread = s.sys.sched.currentThread
      → FlagStep entry s (r.ret c status) c := by
    intro r status hphase hflag hcurrent
    refine flagStep_of_pc (Function.update_self ..) ?_ (.inl hcurrent) nofun
    replace hflag : (r.ret c status).preemptionEnabled = s.preemptionEnabled := hflag
    rw [hphase, hflag]
    exact .returnBefore _
  unfold exec at h
  cases hp : s.pc c with
  | idle => contradiction
  | createSave object stackSize =>
    rw [hp] at h
    cases h
    refine hstay _ _ (Function.update_self ..) rfl (.inl rfl) (by rw [hp]; rfl) ?_
    intro prev hprev
    cases hprev
    exact hknown.before (by rw [hp]; rfl)
  | createDisable object stackSize prev =>
    rw [hp] at h
    cases h
    refine flagStep_of_pc (Function.update_self ..) (by rw [hp]; exact .save _) (.inl rfl) ?_
    intro prev' hprev
    exact hknown.saved prev' (by rw [hp]; exact hprev)
  | createBody object stackSize prev =>
    rw [hp] at h
    dsimp only at h
    rw [bind_eq_ok] at h
    obtain ⟨⟨status, s1⟩, hbody, h⟩ := h
    cases h
    obtain ⟨hflag, hcurrent⟩ := createBody_flag hbody
    refine hstay _ _ (Function.update_self ..) hflag (.inl hcurrent) (by rw [hp]; rfl) ?_
    intro prev' hprev
    exact hknown.saved prev' (by rw [hp]; exact hprev)
  | createRestore status prev =>
    have hsaved := hknown.saved prev (by rw [hp]; rfl)
    have hoff := hknown.critical (by rw [hp]; rfl)
    rw [hp] at h
    cases h
    have hflag : ((if prev then s.setPreemption true else s).ret c status).preemptionEnabled = entry := by
      rw [← hsaved]
      cases prev with
      | true => rfl
      | false => exact hoff
    refine flagStep_of_pc (Function.update_self ..) ?_ ?_ nofun
    . rw [hflag, hp]
      exact .returnSaved _
    . left
      cases prev <;> rfl
  | waitGetCurrent list count | exitGetCurrent =>
    rw [hp] at h
    dsimp only at h
    split at h
    . contradiction
    . cases h
      exact hstay _ _ (Function.update_self ..) rfl (.inl rfl) (by rw [hp]; rfl) nofun
  | waitCheck th list count i =>
    rw [hp] at h
    dsimp only at h
    unfold waitCheck at h
    split at h
    . split at h
      . contradiction
      . split at h
        . contradiction
        . rw [bind_eq_ok] at h
          obtain ⟨v, _, h⟩ := h
          split at h
          . cases h
            exact hret _ _ (by rw [hp]; rfl) rfl rfl
          . cases h
            exact hstay _ _ (Function.update_self ..) rfl (.inl rfl) (by rw [hp]; rfl) nofun
    . cases h
      exact flagStep_of_pc (Function.update_self ..) (by rw [hp]; exact .approach _) (.inl rfl) nofun
  | waitDisable th list count =>
    rw [hp] at h
    cases h
    exact flagStep_of_pc (Function.update_self ..) (by rw [hp]; exact .disable _) (.inl rfl) nofun
  | waitSetList th list count | waitSetCount th list count | waitSetStatus th list count
  | exitSetStatus th =>
    rw [hp] at h
    dsimp only at h
    rw [bind_eq_ok] at h
    obtain ⟨v, _, h⟩ := h
    cases h
    exact hstay _ _ (Function.update_self ..) rfl (.inl rfl) (by rw [hp]; rfl) nofun
  | waitEnable th =>
    rw [hp] at h
    cases h
    exact flagStep_of_pc (Function.update_self ..) (by rw [hp]; exact .enable _) (.inl rfl) nofun
  | waitYield th | exitYield th =>
    rw [hp] at h
    dsimp only at h
    obtain ⟨hpcs, hflag, hcurrent⟩ := pitIsr_flag h
    have hnext := (congrFun hpcs c).trans (Function.update_self ..)
    exact hstay _ _ hnext hflag hcurrent (by rw [hp]; rfl) nofun
  | waitReturn th =>
    rw [hp] at h
    cases h
    exact flagStep_of_pc (Function.update_self ..) (by rw [hp]; exact .returnOn _) (.inl rfl) nofun
  | detachTest target =>
    rw [hp] at h
    dsimp only at h
    rw [bind_eq_ok] at h
    obtain ⟨v, _, h⟩ := h
    split at h
    . cases h
      exact hret _ _ (by rw [hp]; rfl) rfl rfl
    . cases h
      exact hstay _ _ (Function.update_self ..) rfl (.inl rfl) (by rw [hp]; rfl) nofun
  | detachSet target =>
    rw [hp] at h
    dsimp only at h
    rw [bind_eq_ok] at h
    obtain ⟨v, _, h⟩ := h
    cases h
    exact hret _ _ (by rw [hp]; rfl) rfl rfl
  | exitTestType th =>
    rw [hp] at h
    dsimp only at h
    rw [bind_eq_ok] at h
    obtain ⟨v, _, h⟩ := h
    split at h
    . contradiction
    . cases h
      exact hstay _ _ (Function.update_self ..) rfl (.inl rfl) (by rw [hp]; rfl) nofun
  | exitLoop th =>
    rw [hp] at h
    cases h
    exact hstay _ _ hp rfl (.inl rfl) (by rw [hp]) nofun
  | maintain =>
    rw [hp] at h
    dsimp only at h
    rw [bind_eq_ok] at h
    obtain ⟨⟨status, sys⟩, hmaintain, h⟩ := h
    cases h
    exact hret { s with sys } status (by rw [hp]; rfl) rfl
      (schedulerMaintain_currentThread hmaintain)

end ThreadCalls

end Emos
