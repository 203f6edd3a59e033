import Emos.Kernel.Thread.Impl.Maintain
import Emos.Lib.Loop

/-!
This module contains what the maintenance of the scheduler's list leaves alone: it detaches no thread and
lets no thread wait, and it frees only threads that are detached.
-/

open Lib

namespace Emos

variable {τ : Type} [DecidableEq τ]

namespace ThreadSystem

structure Settles (s s' : ThreadSystem τ) : Prop where
  detached : ∀ t, (s'.sched.thread t).detached = (s.sched.thread t).detached
  waitCount : ∀ t, (s'.sched.thread t).waitCount = (s.sched.thread t).waitCount
  waiting : ∀ t, (s'.sched.thread t).status = .waiting
    → (s.sched.thread t).status = .waiting
      ∧ (s'.sched.thread t).waitList = (s.sched.thread t).waitList
  cell : ∀ i u, s'.cell i = some u → s.cell i = some u
  freed : ∀ u ∈ s'.freed, u ∈ s.freed ∨ (s.sched.thread u).detached = true

variable {s s' s'' : ThreadSystem τ} {th : τ} {v : Thread τ}

omit [DecidableEq τ] in
theorem Settles.refl (s : ThreadSystem τ) : s.Settles s :=
  ⟨fun _ => rfl, fun _ => rfl, fun _ h => ⟨h, rfl⟩, fun _ _ h => h, fun _ h => .inl h⟩

omit [DecidableEq τ] in
theorem Settles.trans (h1 : s.Settles s') (h2 : s'.Settles s'') : s.Settles s'' := by
  constructor
  . intro t
    exact (h2.detached t).trans (h1.detached t)
  . intro t
    exact (h2.waitCount t).trans (h1.waitCount t)
  . intro t ht
    obtain ⟨hwaiting, hlist⟩ := h2.waiting t ht
    obtain ⟨hwaiting', hlist'⟩ := h1.waiting t hwaiting
    exact ⟨hwaiting', hlist.trans hlist'⟩
  . intro i u hu
    exact h1.cell i u (h2.cell i u hu)
  . intro u hu
    cases h2.freed u hu with
    | inl hfreed => exact h1.freed u hfreed
    | inr hdetached =>
      rw [h1.detached] at hdetached
      exact .inr hdetached

theorem deref_eq_ok (h : s.deref th = .ok v) : v = s.sched.thread th := by
  unfold deref at h
  split at h
  . contradiction
  . exact (Except.ok.inj h).symm

theorem settles_setThread (hdetached : v.detached = (s.sched.thread th).detached)
    (hcount : v.waitCount = (s.sched.thread th).waitCount)
    (hwaiting : v.status = .waiting
      → (s.sched.thread th).status = .waiting ∧ v.waitList = (s.sched.thread th).waitList)
    : s.Settles (s.setThread th v) := by
  have hthread : ∀ t, (s.setThread th v).sched.thread t = if t = th then v else s.sched.thread t := by
    intro t
    unfold setThread
    dsimp only
    split
    . next ht => rw [ht, Function.update_self]
    . next ht => rw [Function.update_of_ne ht]
  constructor
  . intro t
    rw [hthread]
    split
    . next ht => rw [ht, hdetached]
    . rfl
  . intro t
    rw [hthread]
    split
    . next ht => rw [ht, hcount]
    . rfl
  . intro t
    rw [hthread]
    split
    . next ht =>
      rw [ht]
      exact hwaiting
    . intro h
      exact ⟨h, rfl⟩
  . exact fun _ _ h => h
  . exact fun _ h => .inl h

omit [DecidableEq τ] in
theorem settles_setFirstThread (first : Option τ) : s.Settles (s.setFirstThread first) :=
  ⟨fun _ => rfl, fun _ => rfl, fun _ h => ⟨h, rfl⟩, fun _ _ h => h, fun _ h => .inl h⟩

omit [DecidableEq τ] in
theorem settles_setCurrentThread (current : Option τ) : s.Settles (s.setCurrentThread current) :=
  ⟨fun _ => rfl, fun _ => rfl, fun _ h => ⟨h, rfl⟩, fun _ _ h => h, fun _ h => .inl h⟩

theorem settles_setNext (next : Option τ)
    : s.Settles (s.setThread th { s.sched.thread th with next }) :=
  settles_setThread rfl rfl (fun h => ⟨h, rfl⟩)

omit [DecidableEq τ] in
theorem settles_clearCell (i : Nat) : s.Settles (s.clearCell i) := by
  refine ⟨fun _ => rfl, fun _ => rfl, fun _ h => ⟨h, rfl⟩, ?_, fun _ h => .inl h⟩
  intro j u hu
  unfold clearCell at hu
  dsimp only at hu
  by_cases hj : j = i
  . rw [hj, Function.update_self] at hu
    contradiction
  . rw [Function.update_of_ne hj] at hu
    exact hu

end ThreadSystem

open ThreadSystem

variable {s s' : ThreadSystem τ} {th : τ}

theorem schedulerRemoveThread.go_settles {fuel : Nat} {current : τ} (h : go th fuel current s = .ok s')
    : s.Settles s' := by
  induction fuel generalizing current with
  | zero => contradiction
  | succ fuel ih =>
    rw [go, bind_eq_ok] at h
    obtain ⟨v, hv, h⟩ := h
    split at h
    . cases h
      exact Settles.refl _
    . split at h
      . rw [bind_eq_ok] at h
        obtain ⟨w, _, h⟩ := h
        cases h
        rw [deref_eq_ok hv]
        exact settles_setNext w.next
      . exact ih h

theorem schedulerRemoveThread_cases {fuel : Nat} {status : Status}
    (h : schedulerRemoveThread fuel s th = .ok ⟨status, s'⟩)
    : s' = s
        ∨ ∃ next first, schedulerRemoveThread.go th fuel first
          (if s.sched.firstThread = some th then s.setCurrentThread next else s) = .ok s' := by
  rw [schedulerRemoveThread, bind_eq_ok] at h
  obtain ⟨v, _, h⟩ := h
  split at h
  . cases h
    exact .inl rfl
  . dsimp only at h
    split at h
    . contradiction
    . next first _ =>
      rw [bind_eq_ok] at h
      obtain ⟨s1, hgo, h⟩ := h
      cases h
      exact .inr ⟨v.next, first, hgo⟩

theorem schedulerRemoveThread_settles {fuel : Nat} {status : Status}
    (h : schedulerRemoveThread fuel s th = .ok ⟨status, s'⟩)
    : s.Settles s' := by
  obtain rfl | ⟨next, first, hgo⟩ := schedulerRemoveThread_cases h
  . exact Settles.refl _
  . refine Settles.trans ?_ (schedulerRemoveThread.go_settles hgo)
    split
    . exact settles_setCurrentThread _
    . exact Settles.refl _

theorem threadRemove_cases {fuel : Nat} {status : Status}
    (h : threadRemove fuel s th = .ok ⟨status, s'⟩)
    : s' = s
        ∨ ∃ status' s1 mm, schedulerRemoveThread fuel s th = .ok ⟨status', s1⟩
          ∧ s' = { s1 with mm, freed := th :: s1.freed } := by
  rw [threadRemove, bind_eq_ok] at h
  obtain ⟨v, _, h⟩ := h
  split at h
  . cases h
    exact .inl rfl
  . split at h
    . cases h
      exact .inl rfl
    . rw [bind_eq_ok] at h
      obtain ⟨⟨status', s1⟩, hremove, h⟩ := h
      rw [bind_eq_ok] at h
      obtain ⟨w, _, h⟩ := h
      rw [bind_eq_ok] at h
      obtain ⟨mm, _, h⟩ := h
      cases h
      exact .inr ⟨status', s1, mm, hremove, rfl⟩

theorem threadRemove_settles {fuel : Nat} {status : Status}
    (h : threadRemove fuel s th = .ok ⟨status, s'⟩) (hdetached : (s.sched.thread th).detached = true)
    : s.Settles s' := by
  obtain rfl | ⟨status', s1, mm, hremove, rfl⟩ := threadRemove_cases h
  . exact Settles.refl _
  . have hsettles := schedulerRemoveThread_settles hremove
    refine ⟨hsettles.detached, hsettles.waitCount, hsettles.waiting, hsettles.cell, ?_⟩
    intro u hu
    cases List.mem_cons.mp hu with
    | inl heq =>
      rw [heq]
      exact .inr hdetached
    | inr hmem => exact hsettles.freed u hmem

namespace schedulerMaintain

theorem unwait_settles {n i : Nat} {unwaitThread : Bool} (h : unwait n i s = .ok ⟨unwaitThread, s'⟩)
    : s.Settles s' := by
  induction n generalizing i s with
  | zero =>
    cases h
    exact Settles.refl _
  | succ n ih =>
    unfold unwait at h
    split at h
    . exact ih h
    . rw [bind_eq_ok] at h
      obtain ⟨v, _, h⟩ := h
      split at h
      . cases h
        exact Settles.refl _
      . exact (settles_clearCell i).trans (ih h)

theorem wake_settles {current : τ} (h : wake s current = .ok s') : s.Settles s' := by
  rw [wake, bind_eq_ok] at h
  obtain ⟨v, _, h⟩ := h
  split at h
  . cases h
    exact Settles.refl _
  . split at h
    . cases h
      exact Settles.refl _
    . rw [bind_eq_ok] at h
      obtain ⟨⟨unwaitThread, s1⟩, hunwait, h⟩ := h
      have hsettles := unwait_settles hunwait
      dsimp only at h
      split at h
      . rw [bind_eq_ok] at h
        obtain ⟨w, hw, h⟩ := h
        cases h
        rw [deref_eq_ok hw]
        exact hsettles.trans (settles_setThread rfl rfl nofun)
      . cases h
        exact hsettles

theorem wakeAll_settles {fuel : Nat} {p : Option τ} (h : wakeAll fuel p s = .ok s')
    : s.Settles s' := by
  induction fuel generalizing p s with
  | zero =>
    cases p with
    | none =>
      cases h
      exact Settles.refl _
    | some current => contradiction
  | succ fuel ih =>
    cases p with
    | none =>
      cases h
      exact Settles.refl _
    | some current =>
      rw [wakeAll, bind_eq_ok] at h
      obtain ⟨s1, hwake, h⟩ := h
      rw [bind_eq_ok] at h
      obtain ⟨v, _, h⟩ := h
      exact (wake_settles hwake).trans (ih h)

theorem unlink_settles {prev next : Option τ} (h : removeFinished.unlink prev next s = .ok s')
    : s.Settles s' := by
  cases prev with
  | none =>
    cases h
    exact settles_setFirstThread next
  | some p =>
    rw [removeFinished.unlink, bind_eq_ok] at h
    obtain ⟨v, hv, h⟩ := h
    cases h
    rw [deref_eq_ok hv]
    exact settles_setNext next

theorem removeFinished_settles {removeFuel fuel : Nat} {prev p : Option τ}
    (h : removeFinished removeFuel fuel prev p s = .ok s')
    : s.Settles s' := by
  induction fuel generalizing prev p s with
  | zero =>
    cases p with
    | none =>
      cases h
      exact Settles.refl _
    | some current => contradiction
  | succ fuel ih =>
    cases p with
    | none =>
      cases h
      exact Settles.refl _
    | some current =>
      rw [removeFinished, bind_eq_ok] at h
      obtain ⟨v, hv, h⟩ := h
      split at h
      . exact ih h
      . rw [bind_eq_ok] at h
        obtain ⟨s1, hunlink, h⟩ := h
        have hsettles := unlink_settles hunlink
        split at h
        . next hdetached =>
          rw [bind_eq_ok] at h
          obtain ⟨⟨_, s2⟩, hremove, h⟩ := h
          rw [deref_eq_ok hv, ← hsettles.detached] at hdetached
          exact (hsettles.trans (threadRemove_settles hremove hdetached)).trans (ih h)
        . exact hsettles.trans (ih h)

end schedulerMaintain

theorem schedulerMaintain_settles {fuel : Nat} {status : Status}
    (h : schedulerMaintain fuel s = .ok ⟨status, s'⟩)
    : s.Settles s' := by
  rw [schedulerMaintain, bind_eq_ok] at h
  obtain ⟨isMain, _, h⟩ := h
  split at h
  . cases h
    exact Settles.refl _
  . rw [bind_eq_ok] at h
    obtain ⟨s1, hwake, h⟩ := h
    rw [bind_eq_ok] at h
    obtain ⟨s2, hremove, h⟩ := h
    cases h
    exact (schedulerMaintain.wakeAll_settles hwake).trans
      (schedulerMaintain.removeFinished_settles hremove)

/--
What the removal of a thread does to the variables of the scheduler.
-/
structure ThreadSystem.SameRun (s s' : ThreadSystem τ) : Prop where
  firstThread : s'.sched.firstThread = s.sched.firstThread
  currentThread : s'.sched.currentThread = s.sched.currentThread
  status : ∀ t, (s'.sched.thread t).status = (s.sched.thread t).status

theorem ThreadSystem.sameRun_setThread {v : Thread τ} (h : v.status = (s.sched.thread th).status)
    : s.SameRun (s.setThread th v) := by
  refine ⟨rfl, rfl, ?_⟩
  intro t
  unfold setThread
  dsimp only
  by_cases ht : t = th
  . rw [ht, Function.update_self]
    exact h
  . rw [Function.update_of_ne ht]

theorem schedulerRemoveThread.go_sameRun {fuel : Nat} {current : τ} (h : go th fuel current s = .ok s')
    : s.SameRun s' := by
  induction fuel generalizing current with
  | zero => contradiction
  | succ fuel ih =>
    rw [go, bind_eq_ok] at h
    obtain ⟨v, hv, h⟩ := h
    split at h
    . cases h
      exact ⟨rfl, rfl, fun _ => rfl⟩
    . split at h
      . rw [bind_eq_ok] at h
        obtain ⟨w, _, h⟩ := h
        cases h
        rw [deref_eq_ok hv]
        exact sameRun_setThread rfl
      . exact ih h

theorem threadRemove_sameRun {fuel : Nat} {status : Status}
    (h : threadRemove fuel s th = .ok ⟨status, s'⟩)
    : s.SameRun s' ∨ (s.sched.firstThread = some th ∧ th ∈ s'.freed) := by
  obtain rfl | ⟨status', s1, mm, hremove, rfl⟩ := threadRemove_cases h
  . exact .inl ⟨rfl, rfl, fun _ => rfl⟩
  . by_cases hfirst : s.sched.firstThread = some th
    . exact .inr ⟨hfirst, List.mem_cons_self⟩
    . left
      obtain rfl | ⟨next, first, hgo⟩ := schedulerRemoveThread_cases hremove
      . exact ⟨rfl, rfl, fun _ => rfl⟩
      . rw [if_neg hfirst] at hgo
        have hsame := schedulerRemoveThread.go_sameRun hgo
        exact ⟨hsame.firstThread, hsame.currentThread, hsame.status⟩

namespace schedulerMaintain

theorem unwait_currentThread {n i : Nat} {unwaitThread : Bool}
    (h : unwait n i s = .ok ⟨unwaitThread, s'⟩)
    : s'.sched = s.sched := by
  induction n generalizing i s with
  | zero =>
    cases h
    rfl
  | succ n ih =>
    unfold unwait at h
    split at h
    . exact ih h
    . rw [bind_eq_ok] at h
      obtain ⟨v, _, h⟩ := h
      split at h
      . cases h
        rfl
      . have hrest := ih h
        exact hrest

theorem wake_currentThread {current : τ} (h : wake s current = .ok s')
    : s'.sched.currentThread = s.sched.currentThread := by
  rw [wake, bind_eq_ok] at h
  obtain ⟨v, _, h⟩ := h
  split at h
  . cases h
    rfl
  . split at h
    . cases h
      rfl
    . rw [bind_eq_ok] at h
      obtain ⟨⟨unwaitThread, s1⟩, hunwait, h⟩ := h
      have hsched := unwait_currentThread hunwait
      dsimp only at h
      split at h
      . rw [bind_eq_ok] at h
        obtain ⟨w, _, h⟩ := h
        cases h
        rw [← hsched]
        rfl
      . cases h
        rw [hsched]

theorem wakeAll_currentThread {fuel : Nat} {p : Option τ} (h : wakeAll fuel p s = .ok s')
    : s'.sched.currentThread = s.sched.currentThread := by
  induction fuel generalizing p s with
  | zero =>
    cases p with
    | none =>
      cases h
      rfl
    | some current => contradiction
  | succ fuel ih =>
    cases p with
    | none =>
      cases h
      rfl
    | some current =>
      rw [wakeAll, bind_eq_ok] at h
      obtain ⟨s1, hwake, h⟩ := h
      rw [bind_eq_ok] at h
      obtain ⟨v, _, h⟩ := h
      exact (ih h).trans (wake_currentThread hwake)

/--
The head of the list is where the loop is, or it is a thread that stays.
-/
def HeadStays (s : ThreadSystem τ) (prev p : Option τ) : Prop :=
  (prev = none ∧ s.sched.firstThread = p)
    ∨ (prev ≠ none ∧ ∃ f, s.sched.firstThread = some f ∧ (s.sched.thread f).status ≠ .finished)

omit [DecidableEq τ] in
theorem HeadStays.of_sameRun {prev p : Option τ} (h : HeadStays s prev p) (hsame : s.SameRun s')
    : HeadStays s' prev p := by
  cases h with
  | inl hbegin => exact .inl ⟨hbegin.1, hsame.firstThread.trans hbegin.2⟩
  | inr hlater =>
    obtain ⟨hprev, f, hf, hkept⟩ := hlater
    refine .inr ⟨hprev, f, hsame.firstThread.trans hf, ?_⟩
    rw [hsame.status]
    exact hkept

theorem unlink_currentThread {prev next : Option τ} {current : τ}
    (h : removeFinished.unlink prev next s = .ok s') (hhead : HeadStays s prev (some current))
    : s'.sched.currentThread = s.sched.currentThread
        ∧ HeadStays s' prev next
        ∧ ∀ t, (s'.sched.thread t).status = (s.sched.thread t).status := by
  cases prev with
  | none =>
    cases h
    exact ⟨rfl, .inl ⟨rfl, rfl⟩, fun _ => rfl⟩
  | some p =>
    rw [removeFinished.unlink, bind_eq_ok] at h
    obtain ⟨v, hv, h⟩ := h
    cases h
    rw [deref_eq_ok hv]
    have hsame : s.SameRun (s.setThread p { s.sched.thread p with next }) := sameRun_setThread rfl
    refine ⟨rfl, ?_, hsame.status⟩
    cases hhead with
    | inl hbegin => exact absurd hbegin.1 nofun
    | inr hlater => exact HeadStays.of_sameRun (.inr hlater) hsame

theorem removeFinished_freed {removeFuel fuel : Nat} {prev : Option τ} {current : τ}
    (hfreed : current ∈ s.freed)
    : removeFinished removeFuel fuel prev (some current) s ≠ .ok s' := by
  intro h
  cases fuel with
  | zero => contradiction
  | succ fuel =>
    rw [removeFinished, bind_eq_ok] at h
    obtain ⟨v, hv, _⟩ := h
    rw [deref, if_pos hfreed] at hv
    contradiction

theorem removeFinished_currentThread {removeFuel fuel : Nat} {prev p : Option τ}
    (h : removeFinished removeFuel fuel prev p s = .ok s') (hhead : HeadStays s prev p)
    : s'.sched.currentThread = s.sched.currentThread := by
  induction fuel generalizing prev p s with
  | zero =>
    cases p with
    | none =>
      cases h
      rfl
    | some current => contradiction
  | succ fuel ih =>
    cases p with
    | none =>
      cases h
      rfl
    | some current =>
      rw [removeFinished, bind_eq_ok] at h
      obtain ⟨v, hv, h⟩ := h
      rw [deref_eq_ok hv] at h
      split at h
      . next hkept =>
        apply ih h
        right
        refine ⟨nofun, ?_⟩
        cases hhead with
        | inl hbegin => exact ⟨current, hbegin.2, hkept⟩
        | inr hlater => exact hlater.2
      . next hfinished =>
        simp only [ne_eq, not_not] at hfinished
        rw [bind_eq_ok] at h
        obtain ⟨s1, hunlink, h⟩ := h
        obtain ⟨hcurrent, hhead', hstatus⟩ := unlink_currentThread hunlink hhead
        rw [← hcurrent]
        split at h
        . rw [bind_eq_ok] at h
          obtain ⟨⟨_, s2⟩, hremove, h⟩ := h
          cases threadRemove_sameRun hremove with
          | inl hsame =>
            rw [← hsame.currentThread]
            exact ih h (hhead'.of_sameRun hsame)
          | inr hfirst =>
            -- the loop goes on with the thread that was freed, or the head is finished
            exfalso
            cases hhead' with
            | inl hbegin =>
              rw [← hbegin.2, hfirst.1] at h
              exact removeFinished_freed hfirst.2 h
            | inr hlater =>
              obtain ⟨f, hf, hkept⟩ := hlater.2
              rw [hfirst.1] at hf
              cases hf
              rw [hstatus] at hkept
              exact hkept hfinished
        . exact ih h hhead'

end schedulerMaintain

theorem schedulerMaintain_currentThread {fuel : Nat} {status : Status}
    (h : schedulerMaintain fuel s = .ok ⟨status, s'⟩)
    : s'.sched.currentThread = s.sched.currentThread := by
  rw [schedulerMaintain, bind_eq_ok] at h
  obtain ⟨isMain, _, h⟩ := h
  split at h
  . cases h
    rfl
  . rw [bind_eq_ok] at h
    obtain ⟨s1, hwake, h⟩ := h
    rw [bind_eq_ok] at h
    obtain ⟨s2, hremove, h⟩ := h
    cases h
    rw [← schedulerMaintain.wakeAll_currentThread hwake]
    exact schedulerMaintain.removeFinished_currentThread hremove (.inl ⟨rfl, rfl⟩)

end Emos
