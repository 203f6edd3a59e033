import Emos.Kernel.Thread.Impl.Scheduler
import Emos.Lib.Loop
import Emos.Lib.Ring

/-!
This module contains what the choice of the next thread and the switch to it do to the threads, and that the
scheduler goes round its list: it always finds the next runnable thread, and each of them is switched to once before
any of them is switched to again.
-/

open Lib

namespace Emos

variable {τ : Type} [DecidableEq τ] {s s' : Scheduler τ}

namespace Scheduler

@[simp]
theorem setStatus_status (s : Scheduler τ) (th t : τ) (status : ThreadStatus)
    : ((s.setStatus th status).thread t).status
        =
      if t = th then status else (s.thread t).status := by
  unfold setStatus
  by_cases h : t = th
  . subst h
    simp
  . simp [h]

@[simp]
theorem setStatus_mutexBlockingNext (s : Scheduler τ) (th t : τ) (status : ThreadStatus)
    : ((s.setStatus th status).thread t).mutexBlockingNext = (s.thread t).mutexBlockingNext := by
  unfold setStatus
  by_cases h : t = th
  . subst h
    simp
  . simp [h]

@[simp]
theorem setMutexBlockingNext_status (s : Scheduler τ) (th t : τ) (next : Option τ)
    : ((s.setMutexBlockingNext th next).thread t).status = (s.thread t).status := by
  unfold setMutexBlockingNext
  by_cases h : t = th
  . subst h
    simp
  . simp [h]

@[simp]
theorem setMutexBlockingNext_mutexBlockingNext (s : Scheduler τ) (th t : τ) (next : Option τ)
    : ((s.setMutexBlockingNext th next).thread t).mutexBlockingNext
        =
      if t = th then next else (s.thread t).mutexBlockingNext := by
  unfold setMutexBlockingNext
  by_cases h : t = th
  . subst h
    simp
  . simp [h]

end Scheduler

omit [DecidableEq τ] in
theorem schedulerGetNextThread.go_runnable {fuel : Nat} {th next : τ}
    (h : schedulerGetNextThread.go s fuel th = .ok next)
    : (s.thread next).status.runnable = true := by
  induction fuel generalizing th with
  | zero => contradiction
  | succ fuel ih =>
    unfold schedulerGetNextThread.go at h
    split at h
    . contradiction
    . split at h
      . next hrunnable =>
        cases h
        exact hrunnable
      . exact ih h

omit [DecidableEq τ] in
theorem schedulerGetNextThread_runnable {fuel : Nat} {next : τ}
    (h : schedulerGetNextThread s fuel = .ok next)
    : (s.thread next).status.runnable = true := by
  unfold schedulerGetNextThread at h
  split at h
  . contradiction
  . exact schedulerGetNextThread.go_runnable h

/--
A switch makes a runnable thread the current one, it is running from then on.
-/
structure SwitchesTo (s : Scheduler τ) (next : τ) (s' : Scheduler τ) : Prop where
  runnable : (s.thread next).status.runnable = true
  current : s'.currentThread = some next
  running : (s'.thread next).status = .running
  status : ∀ t, t ≠ next → (s'.thread t).status = (s.thread t).status
  mutexBlockingNext : ∀ t, (s'.thread t).mutexBlockingNext = (s.thread t).mutexBlockingNext

theorem switchThread_spec {fuel : Nat} (h : switchThread s fuel = .ok s')
    : ∃ next, SwitchesTo s next s' := by
  rw [switchThread, bind_eq_ok] at h
  obtain ⟨next, hnext, h⟩ := h
  cases h
  have hrunnable := schedulerGetNextThread_runnable hnext
  refine ⟨next, hrunnable, rfl, ?_, ?_, ?_⟩
  . split
    . simp
    . next hpending => simpa [ThreadStatus.runnable, hpending] using hrunnable
  . intro t ht
    split
    . simp [ht]
    . rfl
  . intro t
    split
    . simp
    . rfl

end Emos

namespace Emos

variable {τ : Type} [DecidableEq τ]

namespace Scheduler

def runnable (s : Scheduler τ) (t : τ) : Bool := (s.thread t).status.runnable

def succ (s : Scheduler τ) (t : τ) : Option τ := (s.thread t).next.or s.firstThread

/--
The current thread is `c`, and the threads come in this order after it.
-/
structure Order (s : Scheduler τ) (c : τ) (w : List τ) : Prop where
  current : s.currentThread = some c
  ring : Ring s.succ c w

end Scheduler

variable {s s' : Scheduler τ} {c : τ} {w : List τ}

omit [DecidableEq τ] in
theorem schedulerGetNextThread.go_eq_ok {fuel : Nat} {th next : τ}
    (h : search s.succ s.runnable fuel (s.succ th) = some next)
    : schedulerGetNextThread.go s fuel th = .ok next := by
  induction fuel generalizing th with
  | zero => contradiction
  | succ fuel ih =>
    unfold schedulerGetNextThread.go
    unfold Scheduler.succ at h
    cases hnext : (s.thread th).next.or s.firstThread with
    | none =>
      rw [hnext] at h
      contradiction
    | some t =>
      rw [hnext] at h
      dsimp only
      unfold search at h
      split at h
      . next hrunnable =>
        cases h
        exact if_pos hrunnable
      . next hrunnable =>
        exact (if_neg hrunnable).trans (ih h)

omit [DecidableEq τ] in
theorem schedulerGetNextThread_eq_find? (h : s.Order c w) {t : τ} (ht : w.find? s.runnable = some t)
    {fuel : Nat} (hfuel : w.length ≤ fuel)
    : schedulerGetNextThread s fuel = .ok t := by
  unfold schedulerGetNextThread
  rw [h.current]
  exact schedulerGetNextThread.go_eq_ok (h.ring.path.search _ ht hfuel)

/--
What a switch keeps.
-/
structure Scheduler.SameList (s s' : Scheduler τ) : Prop where
  succ : s'.succ = s.succ
  runnable : s'.runnable = s.runnable

omit [DecidableEq τ] in
theorem Scheduler.SameList.trans {s'' : Scheduler τ} (h1 : s.SameList s') (h2 : s'.SameList s'')
    : s.SameList s'' :=
  ⟨h2.succ.trans h1.succ, h2.runnable.trans h1.runnable⟩

omit [DecidableEq τ] in
theorem Scheduler.SameList.of_thread (hfirst : s'.firstThread = s.firstThread)
    (h : ∀ t, (s'.thread t).next = (s.thread t).next
      ∧ (s'.thread t).status.runnable = (s.thread t).status.runnable)
    : s.SameList s' := by
  constructor
  . funext t
    unfold Scheduler.succ
    rw [(h t).1, hfirst]
  . funext t
    exact (h t).2

theorem switchThreadStack.start_eq {next : τ} (h : (s.thread next).status.runnable = true)
    : ∃ s', start s next = .ok s' ∧ s'.currentThread = s.currentThread ∧ s.SameList s' := by
  unfold start
  cases hstatus : (s.thread next).status with
  | pending =>
    refine ⟨s.setStatus next .running, rfl, rfl, Scheduler.SameList.of_thread rfl ?_⟩
    intro t
    unfold Scheduler.setStatus
    dsimp only
    by_cases ht : t = next
    . subst ht
      rw [Function.update_self, hstatus]
      exact ⟨rfl, rfl⟩
    . rw [Function.update_of_ne ht]
      exact ⟨rfl, rfl⟩
  | running => exact ⟨s, rfl, rfl, rfl, rfl⟩
  | blocking => exact ⟨s, rfl, rfl, rfl, rfl⟩
  | finished => exact ⟨s, rfl, rfl, rfl, rfl⟩
  | waiting =>
    rw [hstatus] at h
    contradiction

theorem switchThreadStack_eq {fuel : Nat} {next : τ} (hcurrent : s.currentThread = some c)
    (hnext : schedulerGetNextThread s fuel = .ok next) (esp : Nat)
    : ∃ ptr s', switchThreadStack s esp fuel = .ok ⟨ptr, s'⟩ ∧ s'.currentThread = some next
        ∧ s.SameList s' := by
  obtain ⟨s1, hstart, hcurrent1, hsame⟩ :=
    switchThreadStack.start_eq (schedulerGetNextThread_runnable hnext)
  unfold switchThreadStack
  rw [hnext]
  dsimp only [bind, Except.bind]
  rw [hstart]
  dsimp only
  rw [hcurrent1, hcurrent]
  refine ⟨_, _, rfl, rfl, hsame.trans (Scheduler.SameList.of_thread rfl ?_)⟩
  intro t
  dsimp only
  by_cases ht : t = c
  . subst ht
    rw [Function.update_self]
    exact ⟨rfl, rfl⟩
  . rw [Function.update_of_ne ht]
    exact ⟨rfl, rfl⟩

theorem switchThreadStack_turn {fuel : Nat} (h : s.Order c w) (hex : ∃ t ∈ w, s.runnable t = true)
    (hfuel : w.length ≤ fuel) (esp : Nat)
    : ∃ u y v ptr s', w = u ++ y :: v ∧ (∀ t ∈ u, s.runnable t = false) ∧ s.runnable y = true
        ∧ switchThreadStack s esp fuel = .ok ⟨ptr, s'⟩ ∧ s'.Order y (v ++ u ++ [y])
        ∧ s.SameList s' := by
  obtain ⟨t, ht, hrunnable⟩ := hex
  cases hfind : w.find? s.runnable with
  | none =>
    rw [List.find?_eq_none] at hfind
    exact absurd hrunnable (hfind t ht)
  | some y =>
    obtain ⟨ptr, s', hswitch, hcurrent, hsame⟩ :=
      switchThreadStack_eq h.current (schedulerGetNextThread_eq_find? h hfind hfuel) esp
    rw [List.find?_eq_some_iff_append] at hfind
    obtain ⟨hy, u, v, heq, hu⟩ := hfind
    refine ⟨u, y, v, ptr, s', heq, ?_, hy, hswitch, ⟨hcurrent, ?_⟩, hsame⟩
    . intro x hx
      simpa using hu x hx
    . have hring := h.ring
      rw [heq] at hring
      rw [hsame.succ]
      exact hring.turn

/--
Several switches, one for each stack pointer at which a thread is interrupted. Returns the threads that
were switched to.
-/
def switches (fuel : Nat) : List Nat → Scheduler τ → Run (List τ × Scheduler τ)
  | [], s => .ok ⟨[], s⟩
  | esp :: esps, s => do
    let ⟨_, s⟩ ← switchThreadStack s esp fuel
    let ⟨visited, s'⟩ ← switches fuel esps s
    .ok ⟨s.currentThread.toList ++ visited, s'⟩

theorem switches_append {fuel : Nat} {esps esps' : List Nat} {visited visited' : List τ}
    {s'' : Scheduler τ} (h : switches fuel esps s = .ok ⟨visited, s'⟩)
    (h' : switches fuel esps' s' = .ok ⟨visited', s''⟩)
    : switches fuel (esps ++ esps') s = .ok ⟨visited ++ visited', s''⟩ := by
  induction esps generalizing s visited with
  | nil =>
    cases h
    exact h'
  | cons esp esps ih =>
    rw [switches, bind_eq_ok] at h
    obtain ⟨⟨ptr, s1⟩, hswitch, h⟩ := h
    rw [bind_eq_ok] at h
    obtain ⟨⟨rest, s2⟩, hrest, h⟩ := h
    cases h
    rw [List.cons_append, switches, hswitch]
    dsimp only [bind, Except.bind]
    rw [ih hrest]
    simp

theorem switches_order {fuel : Nat} (h : s.Order c w) (hex : ∃ t ∈ w, s.runnable t = true)
    (hfuel : w.length ≤ fuel) (esps : List Nat)
    : ∃ visited s' c' w', switches fuel esps s = .ok ⟨visited, s'⟩ ∧ visited.length = esps.length
        ∧ s'.Order c' w' ∧ w'.Perm w ∧ s.SameList s' := by
  induction esps generalizing s c w with
  | nil => exact ⟨[], s, c, w, rfl, rfl, h, List.Perm.refl w, rfl, rfl⟩
  | cons esp esps ih =>
    obtain ⟨u, y, v, ptr, s1, rfl, _, hy, hswitch, horder, hsame⟩ := switchThreadStack_turn h hex hfuel esp
    have hperm := Ring.perm_turn u v y
    have hex1 : ∃ t ∈ v ++ u ++ [y], s1.runnable t = true := by
      refine ⟨y, by simp, ?_⟩
      rw [hsame.runnable]
      exact hy
    have hfuel1 : (v ++ u ++ [y]).length ≤ fuel := by
      rw [hperm.length_eq]
      exact hfuel
    obtain ⟨visited, s', c', w', hrest, hlength, horder', hperm', hsame'⟩ := ih horder hex1 hfuel1
    refine ⟨y :: visited, s', c', w', ?_, by simp [hlength], horder', hperm'.trans hperm,
      hsame.trans hsame'⟩
    rw [switches, hswitch]
    dsimp only [bind, Except.bind]
    rw [hrest]
    dsimp only
    rw [horder.current]
    rfl

theorem switches_take {fuel : Nat} (h : s.Order c w) (hfuel : w.length ≤ fuel) (esps : List Nat)
    (hlength : esps.length ≤ (w.filter s.runnable).length)
    : ∃ s', switches fuel esps s = .ok ⟨(w.filter s.runnable).take esps.length, s'⟩ := by
  induction esps generalizing s c w with
  | nil => exact ⟨s, rfl⟩
  | cons esp esps ih =>
    have hex : ∃ t ∈ w, s.runnable t = true := by
      have hpos : 0 < (w.filter s.runnable).length := by
        rw [List.length_cons] at hlength
        omega
      obtain ⟨t, ht⟩ := List.exists_mem_of_length_pos hpos
      rw [List.mem_filter] at ht
      exact ⟨t, ht⟩
    obtain ⟨u, y, v, ptr, s1, rfl, hu, hy, hswitch, horder, hsame⟩ := switchThreadStack_turn h hex hfuel esp
    have hskip : u.filter s.runnable = [] := by
      rw [List.filter_eq_nil_iff]
      intro t ht
      simp [hu t ht]
    have hround : (u ++ y :: v).filter s.runnable = y :: v.filter s.runnable := by
      rw [List.filter_append, hskip, List.filter_cons_of_pos hy, List.nil_append]
    have hnext : (v ++ u ++ [y]).filter s1.runnable = v.filter s.runnable ++ [y] := by
      rw [hsame.runnable, List.filter_append, List.filter_append, hskip, List.append_nil]
      rw [List.filter_cons_of_pos hy, List.filter_nil]
    rw [hround, List.length_cons, List.length_cons] at hlength
    have hfuel1 : (v ++ u ++ [y]).length ≤ fuel := by
      rw [(Ring.perm_turn u v y).length_eq]
      exact hfuel
    obtain ⟨s', hrest⟩ := ih horder hfuel1 (by rw [hnext, List.length_append]; omega)
    refine ⟨s', ?_⟩
    rw [hnext, List.take_append_of_le_length (by omega)] at hrest
    rw [switches, hswitch]
    dsimp only [bind, Except.bind]
    rw [hrest, hround]
    dsimp only
    rw [horder.current]
    rfl

omit [DecidableEq τ] in
theorem order_of_chain {pre post : List τ} (hcurrent : s.currentThread = some c)
    (hchain : Chain (fun t => (s.thread t).next) s.firstThread (pre ++ c :: post))
    : s.Order c (post ++ pre ++ [c]) :=
  ⟨hcurrent, hchain.ring⟩

/--
`before` are switches that have already happened, so that a round may begin anywhere.
-/
theorem switchThread_round_robin (s : Scheduler τ) (pre post : List τ) (c : τ) (fuel : Nat)
    (hchain : Chain (fun t => (s.thread t).next) s.firstThread (pre ++ c :: post))
    (hcurrent : s.currentThread = some c)
    (hrunnable : ∃ t ∈ pre ++ c :: post, s.runnable t = true)
    (hfuel : (pre ++ c :: post).length ≤ fuel)
    : (∃ t, schedulerGetNextThread s fuel = .ok t
          ∧ (post ++ pre ++ [c]).find? s.runnable = some t
          ∧ (t = c → ∀ x ∈ pre ++ c :: post, s.runnable x = true → x = c))
        ∧
      ∀ before round : List Nat,
        round.length = ((pre ++ c :: post).filter s.runnable).length
          → ∃ skipped visited s', switches fuel (before ++ round) s = .ok ⟨skipped ++ visited, s'⟩
            ∧ skipped.length = before.length
            ∧ visited.Nodup
            ∧ visited.Perm ((pre ++ c :: post).filter s.runnable) := by
  have horder := order_of_chain hcurrent hchain
  have hperm := Ring.perm_turn pre post c
  have hex : ∃ t ∈ post ++ pre ++ [c], s.runnable t = true := by
    obtain ⟨t, ht, hrun⟩ := hrunnable
    exact ⟨t, hperm.mem_iff.mpr ht, hrun⟩
  have hfuel' : (post ++ pre ++ [c]).length ≤ fuel := by
    rw [hperm.length_eq]
    exact hfuel
  constructor
  . cases hfind : (post ++ pre ++ [c]).find? s.runnable with
    | none =>
      rw [List.find?_eq_none] at hfind
      obtain ⟨t, ht, hrun⟩ := hex
      exact absurd hrun (hfind t ht)
    | some t =>
      refine ⟨t, schedulerGetNextThread_eq_find? horder hfind hfuel', rfl, ?_⟩
      intro heq x hx hrun
      subst heq
      by_contra hne
      -- then the search would have ended before it came round
      have hmem : x ∈ post ++ pre := by
        rw [← hperm.mem_iff, List.mem_append, List.mem_singleton] at hx
        exact hx.resolve_right hne
      have hnodup : (post ++ pre ++ [t]).Nodup := hperm.nodup_iff.mpr hchain.nodup
      rw [List.find?_append] at hfind
      cases hearlier : (post ++ pre).find? s.runnable with
      | none =>
        rw [List.find?_eq_none] at hearlier
        exact hearlier x hmem hrun
      | some y =>
        rw [hearlier] at hfind
        cases hfind
        exact (List.nodup_append.mp hnodup).2.2 t (List.mem_of_find?_eq_some hearlier) t (by simp) rfl
  . intro before round hround
    obtain ⟨skipped, s1, c1, w1, hbefore, hlength, horder1, hperm1, hsame⟩ :=
      switches_order horder hex hfuel' before
    have hpermAll : (w1.filter s1.runnable).Perm ((pre ++ c :: post).filter s.runnable) := by
      rw [hsame.runnable]
      exact (hperm1.trans hperm).filter _
    have hlength1 : round.length = (w1.filter s1.runnable).length := by
      rw [hround, hpermAll.length_eq]
    have hfuel1 : w1.length ≤ fuel := by
      rw [hperm1.length_eq]
      exact hfuel'
    obtain ⟨s', hrun⟩ := switches_take horder1 hfuel1 round (Nat.le_of_eq hlength1)
    rw [hlength1, List.take_length] at hrun
    refine ⟨skipped, _, s', switches_append hbefore hrun, hlength, ?_, hpermAll⟩
    rw [hpermAll.nodup_iff]
    exact hchain.nodup.filter _

/--
Threads 2 and 0 are runnable, thread 1 waits. The list is 2, 1, 0 and thread 0 is the current one.
-/
def threeThreads : Scheduler Nat where
  firstThread := some 2
  currentThread := some 0
  thread := fun t => {
    next := if t = 0 then none else some (t - 1)
    status := if t = 1 then .waiting else if t = 2 then .pending else .running
    type := if t = 0 then .main else .kernel
    kmodeStackPageCount := 1
    kmodeStackBaseVpn := 0
    kmodeStackPtr := 0
    detached := false
    waitList := none
    waitCount := 0
    mutexBlockingNext := none
  }

theorem switchThread_round_robin_threeThreads
    : schedulerGetNextThread threeThreads 3 = .ok 2
        ∧ ∃ skipped visited s', switches 3 [0x1000, 0x2000, 0x3000] threeThreads = .ok ⟨skipped ++ visited, s'⟩
          ∧ skipped.length = 1 ∧ visited.Nodup ∧ visited.Perm [2, 0] := by
  have hchain : Chain (fun t => (threeThreads.thread t).next) threeThreads.firstThread ([2, 1] ++ 0 :: []) :=
    ⟨rfl, rfl, rfl, rfl⟩
  have h := switchThread_round_robin threeThreads [2, 1] [] 0 3 hchain rfl ⟨2, by decide, rfl⟩ (by decide)
  exact ⟨rfl, h.2 [0x1000] [0x2000, 0x3000] rfl⟩

end Emos
