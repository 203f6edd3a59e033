import Emos.Kernel.Mutex.Impl.Mutex
import Emos.Lib.Chain
import Emos.Lib.Trace
import Mathlib.Data.Fintype.Basic
import Mathlib.Data.List.Induction

/-!
This module contains what the queues of waiting threads hold in any run of the two functions that
change them.
-/

open Lib

namespace Emos

variable {μ τ : Type}

section

variable [DecidableEq μ] [DecidableEq τ]

namespace WaitEvent

/--
The threads that wait for each mutex after one more event. A thread that is added again keeps its
place.
-/
def after (w : μ → List τ) : WaitEvent μ τ → μ → List τ
  | added m th => if th ∈ w m then w else Function.update w m (w m ++ [th])
  | unblocked m th => Function.update w m ((w m).erase th)

end WaitEvent

/--
The threads that were added and not unblocked since, in the order in which they were first added.
-/
def waiting (events : List (WaitEvent μ τ)) : μ → List τ :=
  events.foldl WaitEvent.after (fun _ => [])

theorem waiting_concat (events : List (WaitEvent μ τ)) (e : WaitEvent μ τ)
    : waiting (events ++ [e]) = e.after (waiting events) := by
  simp [waiting]

theorem waiting_nodup (events : List (WaitEvent μ τ)) (m : μ) : (waiting events m).Nodup := by
  induction events using List.reverseRecOn with
  | nil => exact List.nodup_nil
  | append_singleton events e ih =>
    rw [waiting_concat]
    cases e with
    | added m' th =>
      simp only [WaitEvent.after]
      split
      . exact ih
      . next hmem =>
        by_cases hm : m = m'
        . subst hm
          rw [Function.update_self, List.nodup_append]
          refine ⟨ih, List.nodup_singleton th, ?_⟩
          intro a ha b hb heq
          rw [List.mem_singleton.mp hb] at heq
          exact hmem (heq ▸ ha)
        . rw [Function.update_of_ne hm]
          exact ih
    | unblocked m' th =>
      simp only [WaitEvent.after]
      by_cases hm : m = m'
      . subst hm
        rw [Function.update_self]
        exact ih.erase th
      . rw [Function.update_of_ne hm]
        exact ih

theorem length_waiting_le (events : List (WaitEvent μ τ)) (m : μ)
    : (waiting events m).length ≤ events.length := by
  induction events using List.reverseRecOn with
  | nil => simp [waiting]
  | append_singleton events e ih =>
    rw [waiting_concat, List.length_append, List.length_singleton]
    cases e with
    | added m' th =>
      simp only [WaitEvent.after]
      split
      . omega
      . by_cases hm : m = m'
        . subst hm
          simpa using ih
        . rw [Function.update_of_ne hm]
          omega
    | unblocked m' th =>
      simp only [WaitEvent.after]
      by_cases hm : m = m'
      . subst hm
        rw [Function.update_self]
        have := (waiting events m).length_erase_le (a := th)
        omega
      . rw [Function.update_of_ne hm]
        omega

theorem mem_after_added {w : μ → List τ} {m m' : μ} {th t : τ}
    : t ∈ (WaitEvent.added m th).after w m' ↔ t ∈ w m' ∨ m' = m ∧ t = th := by
  simp only [WaitEvent.after]
  split
  . next hmem =>
    constructor
    . exact .inl
    . rintro (h | ⟨rfl, rfl⟩)
      . exact h
      . exact hmem
  . by_cases hm : m' = m
    . subst hm
      simp
    . simp [hm]

theorem mem_after_unblocked {w : μ → List τ} {m m' : μ} {th t : τ} (hw : (w m').Nodup)
    : t ∈ (WaitEvent.unblocked m th).after w m' ↔ t ∈ w m' ∧ ¬ (m' = m ∧ t = th) := by
  simp only [WaitEvent.after]
  by_cases hm : m' = m
  . subst hm
    rw [Function.update_self, hw.mem_erase_iff]
    simp [and_comm]
  . simp [hm]

theorem mem_waiting_iff {events : List (WaitEvent μ τ)} {m : μ} {th : τ}
    : th ∈ waiting events m
        ↔
      ∃ before since, events = before ++ .added m th :: since ∧ .unblocked m th ∉ since := by
  induction events using List.reverseRecOn with
  | nil => simp [waiting]
  | append_singleton events e ih =>
    rw [waiting_concat]
    cases e with
    | added m' t =>
      rw [mem_after_added, ih]
      constructor
      . rintro (⟨before, since, rfl, hsince⟩ | ⟨rfl, rfl⟩)
        . exact ⟨before, since ++ [WaitEvent.added m' t], by simp, by simpa using hsince⟩
        . exact ⟨events, [], rfl, by simp⟩
      . intro ⟨before, since, heq, hsince⟩
        cases since using List.reverseRecOn with
        | nil =>
          have hlast := List.append_inj_right' heq rfl
          simp only [List.cons.injEq, WaitEvent.added.injEq, and_true] at hlast
          exact .inr ⟨hlast.1.symm, hlast.2.symm⟩
        | append_singleton since last =>
          rw [← List.cons_append, ← List.append_assoc] at heq
          refine .inl ⟨before, since, List.append_inj_left' heq rfl, ?_⟩
          intro hmem
          exact hsince (by simp [hmem])
    | unblocked m' t =>
      rw [mem_after_unblocked (waiting_nodup events m), ih]
      constructor
      . intro ⟨⟨before, since, heq, hsince⟩, hne⟩
        refine ⟨before, since ++ [.unblocked m' t], by simp [heq], ?_⟩
        intro hmem
        rw [List.mem_append, List.mem_singleton] at hmem
        cases hmem with
        | inl hmem => exact hsince hmem
        | inr heq =>
          cases heq
          exact hne ⟨rfl, rfl⟩
      . intro ⟨before, since, heq, hsince⟩
        cases since using List.reverseRecOn with
        | nil =>
          have hlast := List.append_inj_right' heq rfl
          simp at hlast
        | append_singleton since last =>
          rw [← List.cons_append, ← List.append_assoc] at heq
          have hlast := List.append_inj_right' heq rfl
          rw [List.singleton_inj] at hlast
          subst hlast
          refine ⟨⟨before, since, List.append_inj_left' heq rfl, ?_⟩, ?_⟩
          . intro hmem
            exact hsince (by simp [hmem])
          . rintro ⟨rfl, rfl⟩
            simp at hsince

end

namespace WaitQueues

variable {s : WaitQueues μ τ} {th : τ} {p : Option τ} {l : List τ} {fuel : Nat}

section

variable [DecidableEq μ]

@[simp]
theorem next_setHead (m : μ) (th : Option τ) : (s.setHead m th).next = s.next := rfl

@[simp]
theorem head_setHead (m : μ) (th : Option τ)
    : (s.setHead m th).head = Function.update s.head m th := by
  funext m'
  by_cases hm : m' = m
  . subst hm
    simp [setHead, head]
  . simp [setHead, head, hm]

end

variable [DecidableEq τ]

@[simp]
theorem head_setNext (t : τ) (q : Option τ) : (s.setNext t q).head = s.head := rfl

@[simp]
theorem next_setNext (t : τ) (q : Option τ)
    : (s.setNext t q).next = Function.update s.next t q := by
  funext t'
  by_cases ht : t' = t
  . subst ht
    simp [setNext, next]
  . simp [setNext, next, ht]

@[simp]
theorem head_wake (t : τ) : (s.wake t).head = s.head := by
  unfold wake
  split <;> rfl

@[simp]
theorem next_wake (t : τ) : (s.wake t).next = s.next := by
  unfold wake
  split
  . funext t'
    by_cases ht : t' = t
    . subst ht
      simp [setStatus, next]
    . simp [setStatus, next, ht]
  . rfl

theorem link_of_mem (h : Chain s.next p l) (hmem : th ∈ l) (hfuel : l.length ≤ fuel)
    : addBlockingThread.link s th p fuel = .ok s := by
  induction l generalizing p fuel with
  | nil => contradiction
  | cons x xs ih =>
    cases h.1
    cases fuel with
    | zero => contradiction
    | succ fuel =>
      unfold addBlockingThread.link
      split
      . rfl
      . next hne =>
        have hxs : th ∈ xs := by
          cases hmem with
          | head => contradiction
          | tail _ hxs => exact hxs
        have hnext : s.next x ≠ none := by
          intro hnone
          rw [h.2.eq_none_iff.mp hnone] at hxs
          contradiction
        rw [if_neg hnext]
        exact ih h.2 hxs (by simpa using hfuel)

theorem link_of_not_mem {last : τ} (h : Chain s.next p (l ++ [last])) (hmem : th ∉ l ++ [last])
    (hfuel : l.length < fuel)
    : addBlockingThread.link s th p fuel
        =
      .ok ((s.setNext last (some th)).setNext th none) := by
  induction l generalizing p fuel with
  | nil =>
    cases h.1
    cases fuel with
    | zero => contradiction
    | succ fuel =>
      unfold addBlockingThread.link
      have hnone : s.next last = none := h.2
      rw [if_neg (by simpa [eq_comm] using hmem), if_pos hnone]
  | cons x xs ih =>
    cases h.1
    rw [List.cons_append, List.mem_cons, not_or] at hmem
    cases fuel with
    | zero => contradiction
    | succ fuel =>
      have hnext : s.next x ≠ none := by
        intro hnone
        have := h.2.eq_none_iff.mp hnone
        simp at this
      unfold addBlockingThread.link
      rw [if_neg (Ne.symm hmem.1), if_neg hnext]
      exact ih h.2 hmem.2 (by simpa using hfuel)

variable [DecidableEq μ]

theorem addBlockingThread_of_mem {m : μ} (h : Chain s.next (s.head m) l) (hmem : th ∈ l)
    (hfuel : l.length ≤ fuel)
    : s.addBlockingThread m th fuel = .ok s := by
  unfold addBlockingThread
  split
  . rfl
  . split
    . next hnone =>
      rw [h.eq_none_iff.mp hnone] at hmem
      contradiction
    . exact link_of_mem h hmem hfuel

theorem addBlockingThread_of_not_mem {m : μ} (h : Chain s.next (s.head m) l) (hmem : th ∉ l)
    (hfuel : l.length ≤ fuel)
    : ∃ t, s.addBlockingThread m th fuel = .ok t
        ∧ Chain t.next (t.head m) (l ++ [th])
        ∧ (∀ m', m' ≠ m → t.head m' = s.head m')
        ∧ ∀ x, x ∉ l → x ≠ th → t.next x = s.next x := by
  unfold addBlockingThread
  cases l using List.reverseRecOn with
  | nil =>
    have hnone : s.head m = none := h
    rw [hnone, if_neg (by simp), if_pos rfl]
    refine ⟨_, rfl, by simp [Chain], ?_, ?_⟩
    . intro m' hm
      simp [hm]
    . intro x _ hx
      simp [hx]
  | append_singleton l last =>
    have hhead : s.head m ≠ some th := by
      intro heq
      rw [heq] at h
      exact hmem h.mem_of_head
    have hnone : s.head m ≠ none := by
      intro hnone
      have := h.eq_none_iff.mp hnone
      simp at this
    rw [if_neg hhead, if_neg hnone]
    rw [link_of_not_mem h hmem (by simp at hfuel; omega)]
    refine ⟨_, rfl, ?_, fun m' _ => rfl, ?_⟩
    . rw [next_setNext, next_setNext]
      exact h.concat hmem
    . intro x hx hne
      have hlast : x ≠ last := by
        intro heq
        simp [heq] at hx
      simp [hne, hlast]

theorem unblockBlockingThread_of_cons {m : μ} (h : Chain s.next (s.head m) (th :: l))
    : Chain (s.unblockBlockingThread m).next ((s.unblockBlockingThread m).head m) l
        ∧ (∀ m', m' ≠ m → (s.unblockBlockingThread m).head m' = s.head m')
        ∧ ∀ x, x ≠ th → (s.unblockBlockingThread m).next x = s.next x := by
  have hnodup := h.nodup
  rw [List.nodup_cons] at hnodup
  have hunblock : s.unblockBlockingThread m
      = ((s.setHead m (s.next th)).setNext th none).wake th := by
    simp [unblockBlockingThread, h.1]
  have hnext : ∀ x, x ≠ th → (s.unblockBlockingThread m).next x = s.next x := by
    intro x hx
    rw [hunblock]
    simp [hx]
  refine ⟨?_, ?_, hnext⟩
  . have hhead : (s.unblockBlockingThread m).head m = s.next th := by
      rw [hunblock]
      simp
    rw [hhead]
    apply h.2.congr
    intro x hx
    apply hnext
    intro heq
    exact hnodup.1 (heq ▸ hx)
  . intro m' hm
    rw [hunblock]
    simp [hm]

end WaitQueues

variable [DecidableEq μ] [DecidableEq τ]

namespace WaitHistory

/--
A thread is not added to a mutex while it waits for another one.
-/
def AddsToOne (s : WaitHistory μ τ) : WaitCall μ τ → Prop
  | .add m th => ∀ m', m' ≠ m → th ∉ waiting s.events m'
  | .unblock _ => True

instance [Fintype μ] (s : WaitHistory μ τ) : (call : WaitCall μ τ) → Decidable (s.AddsToOne call)
  | .add m th => inferInstanceAs (Decidable (∀ m', m' ≠ m → th ∉ waiting s.events m'))
  | .unblock _ => .isTrue trivial

/--
A thread was unblocked only while nobody had waited longer.
-/
def InOrder (s : WaitHistory μ τ) : Prop :=
  ∀ before m th since, s.events = before ++ .unblocked m th :: since
    → (waiting before m).head? = some th

structure Queued (s : WaitHistory μ τ) : Prop where
  chain : ∀ m, Chain s.queues.next (s.queues.head m) (waiting s.events m)
  one : ∀ m m' th, th ∈ waiting s.events m → th ∈ waiting s.events m' → m = m'
  inOrder : s.InOrder

variable {s : WaitHistory μ τ} {fuel : Nat}

theorem InOrder.concat {queues : WaitQueues μ τ} {e : WaitEvent μ τ} (h : s.InOrder)
    (he : ∀ m th, e = .unblocked m th → (waiting s.events m).head? = some th)
    : InOrder ⟨queues, s.events ++ [e]⟩ := by
  intro before m th since heq
  cases since using List.reverseRecOn with
  | nil =>
    have hbefore := List.append_inj_left' heq rfl
    have hlast := List.append_inj_right' heq rfl
    rw [List.singleton_inj] at hlast
    rw [← hbefore]
    exact he m th hlast
  | append_singleton since last =>
    rw [← List.cons_append, ← List.append_assoc] at heq
    exact h before m th since (List.append_inj_left' heq rfl)

theorem Queued.add {m : μ} {th : τ} (h : s.Queued) (hone : s.AddsToOne (.add m th))
    (hfuel : (waiting s.events m).length ≤ fuel)
    : ∃ t, s.step fuel (.add m th) = .ok t ∧ t.Queued
        ∧ t.events = s.events ++ [.added m th] := by
  by_cases hmem : th ∈ waiting s.events m
  . -- the thread waits for this mutex already
    have hsame : waiting (s.events ++ [WaitEvent.added m th]) = waiting s.events := by
      rw [waiting_concat]
      simp [WaitEvent.after, hmem]
    refine ⟨⟨s.queues, s.events ++ [WaitEvent.added m th]⟩, ?_, ⟨?_, ?_, h.inOrder.concat nofun⟩, rfl⟩
    . simp [step, WaitQueues.addBlockingThread_of_mem (h.chain m) hmem hfuel, bind, Except.bind]
    . dsimp only
      rw [hsame]
      exact h.chain
    . dsimp only
      rw [hsame]
      exact h.one
  . obtain ⟨t, ht, hchain, hhead, hnext⟩ :=
      WaitQueues.addBlockingThread_of_not_mem (h.chain m) hmem hfuel
    have hwaiting : waiting (s.events ++ [WaitEvent.added m th])
        = Function.update (waiting s.events) m (waiting s.events m ++ [th]) := by
      rw [waiting_concat]
      simp [WaitEvent.after, hmem]
    refine ⟨⟨t, s.events ++ [WaitEvent.added m th]⟩, ?_, ⟨?_, ?_, h.inOrder.concat nofun⟩, rfl⟩
    . simp [step, ht, bind, Except.bind]
    . intro m'
      dsimp only
      rw [hwaiting]
      by_cases hm : m' = m
      . subst hm
        rw [Function.update_self]
        exact hchain
      . rw [Function.update_of_ne hm, hhead m' hm]
        apply (h.chain m').congr
        intro x hx
        apply hnext
        . intro hx'
          exact hm (h.one m' m x hx hx')
        . intro heq
          exact hone m' hm (heq ▸ hx)
    . intro m1 m2 x h1 h2
      dsimp only at h1 h2
      rw [waiting_concat, mem_after_added] at h1 h2
      rcases h1 with h1 | ⟨rfl, rfl⟩
      . rcases h2 with h2 | ⟨rfl, rfl⟩
        . exact h.one m1 m2 x h1 h2
        . by_contra hne
          exact hone m1 hne h1
      . rcases h2 with h2 | ⟨rfl, -⟩
        . by_contra hne
          exact hone m2 (Ne.symm hne) h2
        . rfl

theorem Queued.unblock {m : μ} (h : s.Queued)
    : ∃ t, s.step fuel (.unblock m) = .ok t ∧ t.Queued
        ∧ t.events.length ≤ s.events.length + 1 := by
  have hm := h.chain m
  cases hl : waiting s.events m with
  | nil =>
    rw [hl] at hm
    have hnone : s.queues.head m = none := hm
    refine ⟨s, ?_, h, by simp⟩
    simp [step, WaitQueues.unblockBlockingThread, hnone]
  | cons th l =>
    rw [hl] at hm
    obtain ⟨hchain, hhead, hnext⟩ := WaitQueues.unblockBlockingThread_of_cons hm
    have hwaiting : waiting (s.events ++ [.unblocked m th])
        = Function.update (waiting s.events) m l := by
      rw [waiting_concat]
      simp [WaitEvent.after, hl]
    refine ⟨⟨s.queues.unblockBlockingThread m, s.events ++ [.unblocked m th]⟩, ?_,
      ⟨?_, ?_, ?_⟩, by simp⟩
    . simp [step, hm.1]
    . intro m'
      dsimp only
      rw [hwaiting]
      by_cases hne : m' = m
      . subst hne
        rw [Function.update_self]
        exact hchain
      . rw [Function.update_of_ne hne, hhead m' hne]
        apply (h.chain m').congr
        intro x hx
        apply hnext
        intro heq
        have hth : th ∈ waiting s.events m := by simp [hl]
        exact hne (h.one m' m x hx (heq ▸ hth))
    . intro m1 m2 x h1 h2
      dsimp only at h1 h2
      rw [waiting_concat, mem_after_unblocked (waiting_nodup s.events _)] at h1 h2
      exact h.one m1 m2 x h1.1 h2.1
    . apply h.inOrder.concat
      rintro m' th' heq
      cases heq
      simp [hl]

/--
Whatever threads are added and unblocked, each queue ends with a null pointer and holds the threads
that wait for its mutex, each of them once, the one that waits longest first. To add one of them
again changes nothing.
-/
theorem queues_hold_waiting (s : WaitQueues μ τ) (hempty : ∀ m, s.head m = none)
    (calls : List (WaitCall μ τ)) (fuel : Nat) (hfuel : calls.length ≤ fuel)
    (hone : Along (step fuel) AddsToOne ⟨s, []⟩ calls)
    : Always (step fuel)
        (fun t =>
          (∀ m, ∃ queue, Chain t.queues.next (t.queues.head m) queue ∧ queue.Nodup
            ∧ queue = waiting t.events m
            ∧ (∀ th, th ∈ queue ↔ ∃ before since,
                t.events = before ++ .added m th :: since ∧ .unblocked m th ∉ since)
            ∧ ∀ th ∈ queue, ∀ n, queue.length ≤ n
                → t.queues.addBlockingThread m th n = .ok t.queues)
          ∧ ∀ before m th since, t.events = before ++ .unblocked m th :: since
              → (waiting before m).head? = some th)
        ⟨s, []⟩ calls := by
  have hqueued : Always (step fuel) Queued ⟨s, []⟩ calls := by
    apply Always.of_step (fun t => t.events.length) ?_ ?_ (by simpa using hfuel) hone
    . intro t call ht hcall hused
      cases call with
      | add m th =>
        obtain ⟨t', hstep, ht', hevents⟩ :=
          ht.add hcall (Nat.le_trans (length_waiting_le t.events m) hused)
        exact ⟨t', hstep, ht', by simp [hevents]⟩
      | unblock m => exact ht.unblock
    . refine ⟨hempty, ?_, ?_⟩
      . intro m m' th h
        simp [waiting] at h
      . intro before m th since heq
        simp at heq
  apply hqueued.mono
  intro t ht
  refine ⟨?_, ht.inOrder⟩
  intro m
  refine ⟨waiting t.events m, ht.chain m, waiting_nodup t.events m, rfl, ?_, ?_⟩
  . intro th
    exact mem_waiting_iff
  . intro th hmem n hn
    exact WaitQueues.addBlockingThread_of_mem (ht.chain m) hmem hn

/--
Two mutexes and a thread for each number, where nobody waits.
-/
def nobodyWaits : WaitQueues Bool Nat where
  mtx := fun _ => ⟨false, none, none⟩
  thread := fun _ => ⟨none, .running, .kernel, 0, 0, 0, false, none, 0, none⟩

theorem queues_hold_waiting_nobodyWaits
    : Always (step 6)
        (fun t => ∀ m, Chain t.queues.next (t.queues.head m) (waiting t.events m))
        ⟨nobodyWaits, []⟩
        [.add true 1, .add true 2, .add true 1, .unblock true, .add false 1, .unblock true] := by
  apply (queues_hold_waiting nobodyWaits (fun _ => rfl) _ 6 (by decide) (by decide)).mono
  intro t ht m
  obtain ⟨queue, hchain, -, heq, -⟩ := ht.1 m
  rw [← heq]
  exact hchain

end WaitHistory

end Emos
