import Emos.Kernel.Thread.Impl.Maintain
import Emos.Kernel.Thread.Lemmas.Settle
import Emos.Lib.Chain
import Mathlib.Logic.Relation

/-!
This module contains what the maintenance of the scheduler's list does, that it does nothing if the main thread
calls it, and what `thread_remove` does to the list. It unlinks every thread but the first one: there it changes
the current thread instead of the head of the list.
-/

open Lib

namespace Emos

variable {τ : Type} [DecidableEq τ]

namespace ThreadSystem

def next (s : ThreadSystem τ) (th : τ) : Option τ := (s.sched.thread th).next

def status (s : ThreadSystem τ) (th : τ) : ThreadStatus := (s.sched.thread th).status

/--
All entries of the wait list of a thread are null pointers or finished threads.
-/
def WaitsForNobody (s : ThreadSystem τ) (th : τ) : Prop :=
  ∃ list, (s.sched.thread th).waitList = some list
    ∧ ∀ i : Nat, i < (s.sched.thread th).waitCount
      → ∀ u, s.cell (list + i) = some u → s.status u = .finished

/--
What maintenance is for, where `l` is the list of threads before.
-/
structure Maintained (s : ThreadSystem τ) (l : List τ) (s' : ThreadSystem τ) : Prop where
  chain : Chain s'.next s'.sched.firstThread (l.filter fun t => s.status t ≠ .finished)
  finished : ∀ t ∈ l, s.status t ≠ .finished → s'.status t ≠ .finished
  woken : ∀ t ∈ l, s.status t = .waiting → s.WaitsForNobody t → s'.status t = .running
  waiting : ∀ t ∈ l, s.status t = .waiting → ¬ s.WaitsForNobody t → s'.status t = .waiting

end ThreadSystem

open ThreadSystem

theorem schedulerMaintain_main {fuel : Nat} {s : ThreadSystem τ} {main : τ}
    (hcurrent : s.sched.currentThread = some main) (htype : (s.sched.thread main).type = .main)
    (hlive : main ∉ s.freed)
    : schedulerMaintain fuel s = .ok ⟨.invalidThread, s⟩ := by
  simp [schedulerMaintain, schedulerMaintain.currentIsMain, hcurrent, deref, hlive, htype, bind,
    Except.bind]

/--
The main thread finds the list maintained exactly if there was nothing to do.
-/
theorem schedulerMaintain_main_iff (fuel : Nat) (s : ThreadSystem τ) (l : List τ) (main : τ)
    (hchain : Chain s.next s.sched.firstThread l)
    (hcurrent : s.sched.currentThread = some main) (htype : (s.sched.thread main).type = .main)
    (hlive : main ∉ s.freed)
    : (∃ status s', schedulerMaintain fuel s = .ok ⟨status, s'⟩ ∧ s.Maintained l s')
        ↔
      ∀ t ∈ l, s.status t ≠ .finished ∧ ¬ (s.status t = .waiting ∧ s.WaitsForNobody t) := by
  rw [schedulerMaintain_main hcurrent htype hlive]
  constructor
  . intro ⟨status, s', heq, hmaintained⟩
    cases heq
    have hfilter := hmaintained.chain.functional hchain
    rw [List.filter_eq_self] at hfilter
    intro t ht
    refine ⟨by simpa using hfilter t ht, ?_⟩
    intro ⟨hwaiting, hnobody⟩
    have hrunning := hmaintained.woken t ht hwaiting hnobody
    rw [hwaiting] at hrunning
    contradiction
  . intro h
    refine ⟨.invalidThread, s, rfl, ?_, fun t _ hne => hne, ?_, fun t _ hw _ => hw⟩
    . rw [List.filter_eq_self.mpr (by simpa using fun t ht => (h t ht).1)]
      exact hchain
    . intro t ht hwaiting hnobody
      exact absurd ⟨hwaiting, hnobody⟩ (h t ht).2

/--
The main thread and one other thread, which has status `status` and is not detached.
-/
def mainAnd (status : ThreadStatus) : ThreadSystem Nat where
  sched := {
    firstThread := some 1
    currentThread := some 0
    thread := fun t => {
      next := if t = 1 then some 0 else none
      status := if t = 1 then status else .running
      type := if t = 0 then .main else .kernel
      kmodeStackPageCount := 1
      kmodeStackBaseVpn := 0
      kmodeStackPtr := 0
      detached := false
      waitList := none
      waitCount := 0
      mutexBlockingNext := none
    }
  }
  cell := fun _ => none
  mm := {
    page := ⟨fun _ _ => 0, 0⟩
    pma := ⟨[], 0, 0, 0, 0, 0, []⟩
    vma := mmVmaInit 0x00100 0xBFFFF 0xC1000 0xFEFFF
  }
  freed := []

theorem schedulerMaintain_main_iff_mainAnd
    : ∃ status s', schedulerMaintain 3 (mainAnd .running) = .ok ⟨status, s'⟩
        ∧ (mainAnd .running).Maintained [1, 0] s' := by
  have hchain : Chain (mainAnd .running).next (mainAnd .running).sched.firstThread [1, 0] :=
    ⟨rfl, rfl, rfl⟩
  refine (schedulerMaintain_main_iff 3 _ [1, 0] 0 hchain rfl rfl (by simp [mainAnd])).mpr ?_
  simp [mainAnd, ThreadSystem.status]

theorem schedulerMaintain_keeps_finished
    : ¬ ∃ status s', schedulerMaintain 3 (mainAnd .finished) = .ok ⟨status, s'⟩
        ∧ (mainAnd .finished).Maintained [1, 0] s' := by
  intro ⟨status, s', hrun, hmaintained⟩
  rw [schedulerMaintain_main rfl rfl (by simp [mainAnd])] at hrun
  cases hrun
  have hlist : ([1, 0] : List Nat).filter (fun t => (mainAnd .finished).status t ≠ .finished)
      = [0] := by
    simp [mainAnd, ThreadSystem.status]
  have hhead := hmaintained.chain
  rw [hlist] at hhead
  exact absurd hhead.1 (by simp [mainAnd])

end Emos

namespace Emos

variable {τ : Type} [DecidableEq τ]

namespace ThreadSystem

/--
The scheduler gets to this thread by following pointers.
-/
def Reaches (s : ThreadSystem τ) (t : τ) : Prop :=
  ∃ p, (s.sched.firstThread = some p ∨ s.sched.currentThread = some p)
    ∧ Relation.ReflTransGen (fun x y => s.next x = some y) p t

structure Removed (s : ThreadSystem τ) (l : List τ) (th : τ) (s' : ThreadSystem τ) : Prop where
  chain : Chain s'.next s'.sched.firstThread (l.erase th)
  current : s'.sched.currentThread = s.sched.currentThread
  freed : s'.freed = th :: s.freed
  unreachable : ¬ s'.Reaches th

/--
Let the predecessor `p` of a thread point to the successor of the thread.
-/
def unlink (s : ThreadSystem τ) (p th : τ) : ThreadSystem τ :=
  s.setThread p { s.sched.thread p with next := s.next th }

variable {s : ThreadSystem τ} {p th : τ}

theorem unlink_next : (s.unlink p th).next = Function.update s.next p (s.next th) := by
  funext t
  unfold unlink setThread next
  dsimp only
  by_cases ht : t = p
  . subst ht
    rw [Function.update_self, Function.update_self]
  . rw [Function.update_of_ne ht, Function.update_of_ne ht]

theorem deref_of_live {t : τ} (h : t ∉ s.freed) : s.deref t = .ok (s.sched.thread t) := if_neg h

end ThreadSystem

open ThreadSystem

variable {s s' : ThreadSystem τ} {th : τ} {l : List τ}

theorem schedulerRemoveThread.go_eq {fuel : Nat} {p : τ} {pre suf : List τ} {q : Option τ}
    (hchain : Chain s.next q (pre ++ p :: th :: suf))
    (hlive : ∀ t ∈ pre ++ p :: th :: suf, t ∉ s.freed)
    (hfuel : (pre ++ p :: th :: suf).length ≤ fuel)
    : ∃ current, q = some current ∧ go th fuel current s = .ok (s.unlink p th) := by
  induction pre generalizing q fuel with
  | nil =>
    refine ⟨p, hchain.1, ?_⟩
    cases fuel with
    | zero => contradiction
    | succ fuel =>
      have hnext : (s.sched.thread p).next = some th := hchain.2.1
      rw [go, deref_of_live (hlive p (by simp))]
      dsimp only [bind, Except.bind]
      rw [hnext]
      dsimp only
      rw [if_pos rfl, deref_of_live (hlive th (by simp))]
      rfl
  | cons a pre ih =>
    refine ⟨a, hchain.1, ?_⟩
    cases fuel with
    | zero => contradiction
    | succ fuel =>
      obtain ⟨b, hnext, hrest⟩ := ih hchain.2 (fun t ht => hlive t (List.mem_cons_of_mem a ht))
        (Nat.le_of_succ_le_succ hfuel)
      have hb : b ≠ th := by
        intro heq
        subst heq
        have hnodup := hchain.2.nodup
        cases pre with
        | nil =>
          have := hchain.2.1.symm.trans hnext
          cases this
          simp at hnodup
        | cons c cs =>
          have := hchain.2.1.symm.trans hnext
          cases this
          simp at hnodup
      rw [go, deref_of_live (hlive a (by simp))]
      dsimp only [bind, Except.bind]
      have hnext' : (s.sched.thread a).next = some b := hnext
      rw [hnext']
      dsimp only
      rw [if_neg hb]
      exact hrest

theorem threadRemove_eq {fuel : Nat} {p : τ} {pre suf : List τ}
    (hchain : Chain s.next s.sched.firstThread (pre ++ p :: th :: suf))
    (hlive : ∀ t ∈ pre ++ p :: th :: suf, t ∉ s.freed)
    (hfinished : s.status th = .finished) (htype : (s.sched.thread th).type ≠ .main)
    (hfuel : (pre ++ p :: th :: suf).length ≤ fuel)
    : threadRemove fuel s th
        =
      (pcThreadFreeKthreadStack s.mm (s.sched.thread th)).map fun mm =>
        (Status.success, { s.unlink p th with mm, freed := th :: s.freed }) := by
  obtain ⟨first, hfirst, hgo⟩ := schedulerRemoveThread.go_eq hchain hlive hfuel
  have hth : th ∉ s.freed := hlive th (by simp)
  have hhead : s.sched.firstThread ≠ some th := by
    intro heq
    have hnodup := hchain.nodup
    cases pre with
    | nil =>
      have := hchain.1.symm.trans heq
      cases this
      simp at hnodup
    | cons a as =>
      have := hchain.1.symm.trans heq
      cases this
      simp at hnodup
  have hp : th ≠ p := by
    intro heq
    subst heq
    have := (List.nodup_append.mp hchain.nodup).2.1
    simp at this
  have hremove : schedulerRemoveThread fuel s th = .ok ⟨.success, s.unlink p th⟩ := by
    unfold schedulerRemoveThread
    rw [deref_of_live hth]
    dsimp only [bind, Except.bind]
    rw [if_neg (fun h => h hfinished), if_neg hhead, hfirst]
    dsimp only
    rw [hgo]
  have hderef : (s.unlink p th).deref th = .ok (s.sched.thread th) := by
    rw [deref_of_live (show th ∉ (s.unlink p th).freed from hth)]
    unfold ThreadSystem.unlink setThread
    dsimp only
    rw [Function.update_of_ne hp]
  unfold threadRemove
  rw [deref_of_live hth]
  dsimp only [bind, Except.bind]
  rw [if_neg htype, if_neg (fun h => h hfinished), hremove]
  dsimp only
  rw [hderef]
  dsimp only
  have hmm : (s.unlink p th).mm = s.mm := rfl
  rw [hmm]
  cases pcThreadFreeKthreadStack s.mm (s.sched.thread th) with
  | error fault => rfl
  | ok mm => rfl

theorem schedulerRemoveThread_firstThread {fuel : Nat} {status : Status}
    (h : schedulerRemoveThread fuel s th = .ok ⟨status, s'⟩)
    : s'.sched.firstThread = s.sched.firstThread := by
  obtain rfl | ⟨next, first, hgo⟩ := schedulerRemoveThread_cases h
  . rfl
  . rw [(schedulerRemoveThread.go_sameRun hgo).firstThread]
    split <;> rfl

theorem threadRemove_firstThread {fuel : Nat} {status : Status}
    (h : threadRemove fuel s th = .ok ⟨status, s'⟩)
    : s'.sched.firstThread = s.sched.firstThread := by
  obtain rfl | ⟨status', s1, mm, hremove, rfl⟩ := threadRemove_cases h
  . rfl
  . have hfirst := schedulerRemoveThread_firstThread hremove
    exact hfirst

namespace ThreadSystem

omit [DecidableEq τ] in
theorem Reaches.mem {t : τ} (h : s.Reaches t) (hchain : Chain s.next s.sched.firstThread l)
    (hcurrent : ∀ c, s.sched.currentThread = some c → c ∈ l)
    : t ∈ l := by
  obtain ⟨p, hp, hpath⟩ := h
  have hmem : p ∈ l := by
    cases hp with
    | inl hfirst =>
      rw [hfirst] at hchain
      cases l with
      | nil => contradiction
      | cons x xs =>
        cases hchain.1
        simp
    | inr hcur => exact hcurrent p hcur
  induction hpath with
  | refl => exact hmem
  | tail _ hnext ih => exact hchain.mem_of_next ih hnext

theorem removed_unlink {p c : τ} {pre suf : List τ} (mm : Mm)
    (hchain : Chain s.next s.sched.firstThread (pre ++ p :: th :: suf))
    (hcurrent : s.sched.currentThread = some c) (hc : c ∈ pre ++ p :: th :: suf) (hne : c ≠ th)
    : s.Removed (pre ++ p :: th :: suf) th { s.unlink p th with mm, freed := th :: s.freed } := by
  have hnodup := hchain.nodup
  have herase : (pre ++ p :: th :: suf).erase th = pre ++ p :: suf := by
    rw [List.append_cons, List.append_cons pre p suf]
    rw [List.erase_append_right, List.erase_cons_head]
    rw [List.append_cons, List.nodup_append] at hnodup
    intro hmem
    exact hnodup.2.2 th hmem th (by simp) rfl
  have hskip : Chain (s.unlink p th).next s.sched.firstThread (pre ++ p :: suf) := by
    rw [unlink_next]
    exact hchain.skip
  refine ⟨?_, rfl, rfl, ?_⟩
  . rw [herase]
    exact hskip
  . intro hreaches
    have hmem := hreaches.mem hskip (by
      intro x hx
      have : x = c := Option.some.inj (hx.symm.trans hcurrent)
      subst this
      rw [← herase]
      exact (List.mem_erase_of_ne hne).mpr hc)
    rw [← herase] at hmem
    exact hnodup.not_mem_erase hmem

end ThreadSystem

/--
Removal does what it is for exactly if the thread is not the first one, as far as its stack can be
released.
-/
theorem threadRemove_removed_iff (fuel : Nat) (s : ThreadSystem τ) (l : List τ) (th c : τ)
    (hchain : Chain s.next s.sched.firstThread l) (hlive : ∀ t ∈ l, t ∉ s.freed) (hth : th ∈ l)
    (hfinished : s.status th = .finished) (htype : (s.sched.thread th).type ≠ .main)
    (hcurrent : s.sched.currentThread = some c) (hc : c ∈ l) (hne : c ≠ th)
    (hfuel : l.length ≤ fuel)
    : (∃ s', threadRemove fuel s th = .ok ⟨.success, s'⟩ ∧ s.Removed l th s')
        ↔
      s.sched.firstThread ≠ some th
        ∧ ∃ mm, pcThreadFreeKthreadStack s.mm (s.sched.thread th) = .ok mm := by
  have hhead : (∃ s', threadRemove fuel s th = .ok ⟨.success, s'⟩ ∧ s.Removed l th s')
      → s.sched.firstThread ≠ some th := by
    intro ⟨s', hrun, hremoved⟩ heq
    apply hremoved.unreachable
    exact ⟨th, .inl ((threadRemove_firstThread hrun).trans heq), Relation.ReflTransGen.refl⟩
  by_cases hfirst : s.sched.firstThread = some th
  . constructor
    . intro hrun
      exact absurd hfirst (hhead hrun)
    . intro ⟨hnot, _⟩
      exact absurd hfirst hnot
  . obtain ⟨pre, suf, rfl⟩ := List.append_of_mem hth
    cases List.eq_nil_or_concat' pre with
    | inl hnil =>
      subst hnil
      exact absurd hchain.1 hfirst
    | inr hconcat =>
      obtain ⟨pre, p, rfl⟩ := hconcat
      rw [List.append_assoc] at hchain hlive hc hfuel ⊢
      rw [List.singleton_append] at hchain hlive hc hfuel ⊢
      rw [threadRemove_eq hchain hlive hfinished htype hfuel]
      constructor
      . intro ⟨s', hrun, _⟩
        refine ⟨hfirst, ?_⟩
        cases hfree : pcThreadFreeKthreadStack s.mm (s.sched.thread th) with
        | error fault =>
          rw [hfree] at hrun
          contradiction
        | ok mm => exact ⟨mm, rfl⟩
      . intro ⟨_, mm, hfree⟩
        rw [hfree]
        exact ⟨_, rfl, removed_unlink mm hchain hcurrent hc hne⟩

/--
Threads 2, 1 and 0 in this order. Thread 0 is the current one, thread `n` has finished. Page 0, where the
release of a stack looks for it, is mapped to a frame that is allocated.
-/
def finishedThread (n : Nat) : ThreadSystem Nat where
  sched := {
    firstThread := some 2
    currentThread := some 0
    thread := fun t => {
      next := if t = 0 then none else some (t - 1)
      status := if t = n then .finished else .running
      type := if t = 0 then .main else .kernel
      kmodeStackPageCount := 1
      kmodeStackBaseVpn := 0xC1000000
      kmodeStackPtr := 0
      detached := false
      waitList := none
      waitCount := 0
      mutexBlockingNext := none
    }
  }
  cell := fun _ => none
  mm := {
    page := {
      word := fun f j =>
        if f = 0x50 ∧ j = 1023 then 0x00050003#32
        else if f = 0x50 ∧ j = 0 then 0x00051003#32
        else if f = 0x51 ∧ j = 0 then 0x00100003#32
        else 0
      dirPfn := 0x50
    }
    pma := ⟨[1], 4, 4, 3, 0x100, 0x103, []⟩
    vma := mmVmaInit 0x00100 0xBFFFF 0xC1000 0xFEFFF
  }
  freed := []

theorem finishedThread_chain (n : Nat)
    : Chain (finishedThread n).next (finishedThread n).sched.firstThread [2, 1, 0] :=
  ⟨rfl, rfl, rfl, rfl⟩

theorem threadRemove_removed_iff_finishedThread
    : ∃ s', threadRemove 3 (finishedThread 1) 1 = .ok ⟨.success, s'⟩
        ∧ (finishedThread 1).Removed [2, 1, 0] 1 s' := by
  rw [threadRemove_removed_iff 3 (finishedThread 1) [2, 1, 0] 1 0 (finishedThread_chain 1)
    (fun _ _ => nofun) (by decide) rfl (by decide) rfl (by decide) (by decide) (by decide)]
  exact ⟨by decide, _, rfl⟩

/--
The first thread stays the first one although it has been freed, and the current thread is another one.
-/
theorem threadRemove_first
    : (threadRemove 3 (finishedThread 2) 2).map
          (fun r => (r.1, r.2.sched.firstThread, r.2.sched.currentThread, r.2.freed))
        = .ok (.success, some 2, some 1, [2])
        ∧ ¬ ∃ s', threadRemove 3 (finishedThread 2) 2 = .ok ⟨.success, s'⟩
          ∧ (finishedThread 2).Removed [2, 1, 0] 2 s' := by
  have hrun : (threadRemove 3 (finishedThread 2) 2).map
        (fun r => (r.1, r.2.sched.firstThread, r.2.sched.currentThread, r.2.freed))
      = .ok (.success, some 2, some 1, [2]) := rfl
  refine ⟨hrun, ?_⟩
  intro ⟨s', heq, hremoved⟩
  rw [heq] at hrun
  simp only [Except.map, Except.ok.injEq, Prod.mk.injEq] at hrun
  have hcurrent := hremoved.current
  rw [hrun.2.2.1] at hcurrent
  contradiction

end Emos
