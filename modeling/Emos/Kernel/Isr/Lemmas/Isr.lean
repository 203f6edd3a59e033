import Mathlib.Data.List.Induction
import Emos.Lib.Chain
import Emos.Lib.Trace
import Emos.Kernel.Isr.Impl.Isr

/-!
This module contains what the lists of handlers hold in any run of the functions that add and remove
them.
-/

open Lib

namespace Emos

namespace IsrSystem

variable {α : Type} {s : IsrSystem α}

def next (s : IsrSystem α) (p : α) : Option α := (s.entry p).bind (·.next)

theorem read_of_entry {p : α} {e : IsrHandler α} (h : s.entry p = some e) : s.read p = .ok e := by
  simp [read, h]

theorem next_of_entry {p : α} {e : IsrHandler α} (h : s.entry p = some e) : s.next p = e.next := by
  simp [next, h]

theorem tableAt_of_lt {n : Nat} (h : n < 256) : s.tableAt n = .ok (s.table n) := by
  unfold tableAt
  rw [if_neg (by omega)]
  rfl

theorem lastEntry_of_chain {p last : α} {l : List α} {fuel : Nat}
    (h : Chain s.next (some p) (l ++ [last])) (hlive : ∀ x ∈ l ++ [last], (s.entry x).isSome)
    (hfuel : l.length < fuel)
    : s.lastEntry p fuel = .ok last := by
  induction l generalizing p fuel with
  | nil =>
    cases h.1
    cases fuel with
    | zero => contradiction
    | succ fuel =>
      obtain ⟨e, he⟩ := Option.isSome_iff_exists.mp (hlive last (by simp))
      have hnone : e.next = none := (next_of_entry he).symm.trans h.2
      simp [lastEntry, read_of_entry he, hnone, bind, Except.bind]
  | cons x xs ih =>
    cases h.1
    cases fuel with
    | zero => contradiction
    | succ fuel =>
      obtain ⟨e, he⟩ := Option.isSome_iff_exists.mp (hlive x (by simp))
      cases hnext : e.next with
      | none =>
        have := h.2.eq_none_iff.mp ((next_of_entry he).trans hnext)
        simp at this
      | some q =>
        have hchain := h.2
        rw [next_of_entry he, hnext] at hchain
        have hq := ih hchain (fun y hy => hlive y (by simp_all)) (by simpa using hfuel)
        simp [lastEntry, read_of_entry he, hnext, bind, Except.bind, hq]

variable [DecidableEq α]

theorem prevEntry_of_not_mem {p handler : α} {prev : Option α} {l : List α} {fuel : Nat}
    (h : Chain s.next (some p) (p :: l)) (hlive : ∀ x ∈ p :: l, (s.entry x).isSome)
    (hmem : handler ∉ l) (hfuel : l.length < fuel)
    : s.prevEntry handler prev p fuel = .ok prev := by
  induction l generalizing p fuel with
  | nil =>
    cases fuel with
    | zero => contradiction
    | succ fuel =>
      obtain ⟨e, he⟩ := Option.isSome_iff_exists.mp (hlive p (by simp))
      have hnone : e.next = none := (next_of_entry he).symm.trans h.2
      simp [prevEntry, read_of_entry he, hnone, bind, Except.bind]
  | cons x xs ih =>
    cases fuel with
    | zero => contradiction
    | succ fuel =>
      obtain ⟨e, he⟩ := Option.isSome_iff_exists.mp (hlive p (by simp))
      have hnext : e.next = some x := (next_of_entry he).symm.trans h.2.1
      rw [List.mem_cons, not_or] at hmem
      have hx := ih ⟨rfl, h.2.2⟩ (fun y hy => hlive y (List.mem_cons_of_mem p hy)) hmem.2
        (by simpa using hfuel)
      simp [prevEntry, read_of_entry he, hnext, bind, Except.bind, Ne.symm hmem.1, hx]

theorem prevEntry_of_mem {p prev handler : α} {prev' : Option α} {pre suf : List α} {fuel : Nat}
    (h : Chain s.next (some p) (pre ++ prev :: handler :: suf))
    (hlive : ∀ x ∈ pre ++ prev :: handler :: suf, (s.entry x).isSome)
    (hfuel : (pre ++ prev :: handler :: suf).length ≤ fuel)
    : s.prevEntry handler prev' p fuel = .ok (some prev) := by
  have hnodup := h.nodup
  induction pre generalizing p prev' fuel with
  | nil =>
    cases h.1
    cases fuel with
    | zero => contradiction
    | succ fuel =>
      obtain ⟨e, he⟩ := Option.isSome_iff_exists.mp (hlive prev (by simp))
      have hnext : e.next = some handler := (next_of_entry he).symm.trans h.2.1
      simp only [List.nil_append, List.nodup_cons] at hnodup
      rw [List.nil_append, List.length_cons, List.length_cons] at hfuel
      have hrest : s.prevEntry handler (some prev) handler fuel = .ok (some prev) :=
        prevEntry_of_not_mem ⟨rfl, h.2.2⟩ (fun y hy => hlive y (List.mem_cons_of_mem prev hy))
          hnodup.2.1 (by omega)
      simp [prevEntry, read_of_entry he, hnext, bind, Except.bind, hrest]
  | cons x xs ih =>
    cases h.1
    cases fuel with
    | zero => contradiction
    | succ fuel =>
      obtain ⟨e, he⟩ := Option.isSome_iff_exists.mp (hlive x (by simp))
      rw [List.cons_append, List.nodup_cons] at hnodup
      cases hnext : e.next with
      | none =>
        have := h.2.eq_none_iff.mp ((next_of_entry he).trans hnext)
        simp at this
      | some q =>
        have hchain := h.2
        rw [next_of_entry he, hnext] at hchain
        have hq : s.prevEntry handler (if q = handler then some x else prev') q fuel
            = .ok (some prev) :=
          ih hchain (fun y hy => hlive y (List.mem_cons_of_mem x hy)) (by simpa using hfuel)
            hnodup.2
        simp [prevEntry, read_of_entry he, hnext, bind, Except.bind, hq]

omit [DecidableEq α] in
theorem callHandlers_of_chain {q : Option α} {l : List α} (call : IsrHandler α → Nat) (fuel : Nat)
    (h : Chain s.next q l) (hlive : ∀ x ∈ l, (s.entry x).isSome)
    : s.callHandlers call q fuel ≠ .error .access := by
  induction l generalizing q fuel with
  | nil =>
    cases (show q = none from h)
    simp [callHandlers]
  | cons x xs ih =>
    cases h.1
    cases fuel with
    | zero => simp [callHandlers]
    | succ fuel =>
      obtain ⟨e, he⟩ := Option.isSome_iff_exists.mp (hlive x (by simp))
      have htail : s.callHandlers call (s.next x) fuel ≠ .error .access :=
        ih fuel h.2 (fun y hy => hlive y (by simp [hy]))
      rw [next_of_entry he] at htail
      simp only [callHandlers, read_of_entry he, bind, Except.bind]
      generalize (if e.func ≠ 0 then call e else 0) = newEsp
      split
      . simp
      . exact htail

omit [DecidableEq α] in
theorem pcIsrCommon_of_chain {n : Nat} {l : List α} (call : IsrHandler α → Nat) (fuel : Nat)
    (h : Chain s.next (s.table n) l) (hlive : ∀ x ∈ l, (s.entry x).isSome)
    : s.pcIsrCommon n call fuel ≠ .error .access := by
  have hcall := callHandlers_of_chain call fuel h hlive
  intro hcommon
  unfold pcIsrCommon at hcommon
  dsimp only at hcommon
  split at hcommon
  . simp at hcommon
  . cases hnew : s.callHandlers call (s.table n) fuel with
    | error f =>
      rw [hnew] at hcall hcommon
      simp only [bind, Except.bind, Except.error.injEq] at hcommon
      exact hcall (by rw [hcommon])
    | ok newEsp =>
      rw [hnew] at hcommon
      simp only [bind, Except.bind] at hcommon
      split at hcommon <;> contradiction

def num (s : IsrSystem α) (p : α) : Option Int := (s.entry p).map (·.irqNum)

omit [DecidableEq α] in
theorem isSome_of_num {p : α} {i : Int} (h : s.num p = some i) : (s.entry p).isSome := by
  cases he : s.entry p with
  | none => simp [num, he] at h
  | some e => rfl

@[simp]
theorem next_setEntry (p : α) (e : IsrHandler α)
    : (s.setEntry p (some e)).next = Function.update s.next p e.next := by
  funext q
  by_cases hq : q = p
  . subst hq
    simp [setEntry, next]
  . simp [setEntry, next, hq]

@[simp]
theorem num_setEntry (p : α) (e : IsrHandler α)
    : (s.setEntry p (some e)).num = Function.update s.num p (some e.irqNum) := by
  funext q
  by_cases hq : q = p
  . subst hq
    simp [setEntry, num]
  . simp [setEntry, num, hq]

theorem setNext_of_num {p : α} {i : Int} (h : s.num p = some i) (q : Option α)
    : ∃ t, s.setNext p q = .ok t ∧ t.table = s.table ∧ t.num = s.num
        ∧ t.next = Function.update s.next p q := by
  obtain ⟨e, he⟩ := Option.isSome_iff_exists.mp (isSome_of_num h)
  refine ⟨s.setEntry p (some { e with next := q }), ?_, rfl, ?_, ?_⟩
  . simp [setNext, read_of_entry he, bind, Except.bind]
  . rw [num_setEntry]
    apply Function.update_eq_self_iff.mpr
    simp [num, he]
  . rw [next_setEntry]

theorem append_of_chain {n fuel : Nat} {p : α} {e : IsrHandler α} {l : List α} (hn : n < 256)
    (h : Chain s.next (s.table n) l) (hlive : ∀ x ∈ l, (s.entry x).isSome)
    (hp : s.entry p = none) (hnone : e.next = none) (hfuel : l.length ≤ fuel)
    : ∃ t, (s.setEntry p (some e)).append n p fuel = .ok t
        ∧ Chain t.next (t.table n) (l ++ [p])
        ∧ (∀ m, m ≠ n → t.table m = s.table m)
        ∧ (∀ x, x ∉ l → x ≠ p → t.next x = s.next x)
        ∧ t.num = Function.update s.num p (some e.irqNum) := by
  have hmem : p ∉ l := by
    intro hmem
    have := hlive p hmem
    simp [hp] at this
  have htable : (s.setEntry p (some e)).tableAt n = .ok (s.table n) := tableAt_of_lt hn
  cases l using List.reverseRecOn with
  | nil =>
    have hempty : s.table n = none := h
    refine ⟨(s.setEntry p (some e)).setTable n (some p), ?_, ?_, ?_, ?_, ?_⟩
    . simp [append, htable, hempty, bind, Except.bind]
    . have hnext : ((s.setEntry p (some e)).setTable n (some p)).next
          = (s.setEntry p (some e)).next := rfl
      rw [hnext, next_setEntry, hnone]
      simp [Chain, setTable]
    . intro m hm
      simp [setTable, hm, setEntry]
    . intro x _ hx
      have hnext : ((s.setEntry p (some e)).setTable n (some p)).next
          = (s.setEntry p (some e)).next := rfl
      simp [hnext, hx]
    . exact num_setEntry p e
  | append_singleton l last =>
    obtain ⟨head, hhead⟩ : ∃ head, s.table n = some head := by
      apply Option.ne_none_iff_exists'.mp
      intro hempty
      have := h.eq_none_iff.mp hempty
      simp at this
    have hne : last ≠ p := by
      intro heq
      exact hmem (by simp [heq])
    -- the new entry is allocated before the list is followed
    have hchain : Chain (s.setEntry p (some e)).next (s.table n) (l ++ [last]) := by
      apply h.congr
      intro x hx
      rw [next_setEntry]
      apply Function.update_of_ne
      intro heq
      exact hmem (heq ▸ hx)
    have hlive1 : ∀ x ∈ l ++ [last], ((s.setEntry p (some e)).entry x).isSome := by
      intro x hx
      by_cases hxp : x = p
      . simp [setEntry, hxp]
      . simpa [setEntry, hxp] using hlive x hx
    rw [hhead] at hchain
    rw [List.length_append, List.length_singleton] at hfuel
    have hlast := lastEntry_of_chain hchain hlive1 hfuel
    obtain ⟨i, hi⟩ : ∃ i, (s.setEntry p (some e)).num last = some i := by
      obtain ⟨e', he'⟩ := Option.isSome_iff_exists.mp (hlive1 last (by simp))
      exact ⟨e'.irqNum, by simp [num, he']⟩
    obtain ⟨t, ht, httable, htnum, htnext⟩ := setNext_of_num hi (some p)
    refine ⟨t, ?_, ?_, ?_, ?_, ?_⟩
    . simp [append, htable, hhead, bind, Except.bind, hlast, ht]
    . rw [htnext, httable, show (s.setEntry p (some e)).table n = some head from hhead]
      rw [List.append_assoc]
      apply Chain.relink hchain
      refine ⟨rfl, ?_⟩
      rw [Function.update_of_ne hne.symm, next_setEntry, Function.update_self]
      exact hnone
    . intro m _
      rw [httable]
      rfl
    . intro x hx hxp
      have hxlast : x ≠ last := by
        intro heq
        exact hx (by simp [heq])
      rw [htnext, next_setEntry]
      simp [hxp, hxlast]
    . rw [htnum, num_setEntry]

end IsrSystem

namespace IsrHistory

variable {α : Type} [DecidableEq α]

/--
What the callers of the registry keep to: the number is one of a vector, `malloc` returns memory
that is not in use, and a handler is removed only while it is registered.
-/
def Admits (s : IsrHistory α) : IsrCall α → Prop
  | .addInterrupt num _ _ newentry | .addTrap num _ newentry =>
    0 ≤ num ∧ num ≤ 0xFF ∧ ∀ p, newentry = some p → s.isr.entry p = none
  | .remove handler => ∃ n < 256, handler ∈ s.handlers n

/--
The list of each vector has the handlers that were added and not removed, in that order. They are
the only entries that are allocated, so that no freed entry is read when an interrupt is taken.
-/
structure Exact (s : IsrHistory α) : Prop where
  chain : ∀ n < 256, Chain s.isr.next (s.isr.table n) (s.handlers n)
  live : ∀ p, (s.isr.entry p).isSome ↔ ∃ n < 256, p ∈ s.handlers n
  safe : ∀ n < 256, ∀ call fuel, s.isr.pcIsrCommon n call fuel ≠ .error .access

structure Registered (s : IsrHistory α) : Prop where
  chain : ∀ n, Chain s.isr.next (s.isr.table n) (s.handlers n)
  num : ∀ p i, s.isr.num p = some i ↔ ∃ n : Nat, i = n ∧ p ∈ s.handlers n
  bound : ∀ n p, p ∈ s.handlers n → n < 256

variable {s : IsrHistory α} {fuel : Nat}

omit [DecidableEq α] in
theorem Registered.isSome (h : s.Registered) {n : Nat} {p : α} (hp : p ∈ s.handlers n)
    : (s.isr.entry p).isSome := by
  exact IsrSystem.isSome_of_num ((h.num p n).mpr ⟨n, rfl, hp⟩)

omit [DecidableEq α] in
theorem Registered.eq (h : s.Registered) {m n : Nat} {p : α} (hm : p ∈ s.handlers m)
    (hn : p ∈ s.handlers n)
    : m = n := by
  have heq := ((h.num p m).mpr ⟨m, rfl, hm⟩).symm.trans ((h.num p n).mpr ⟨n, rfl, hn⟩)
  simpa using heq

omit [DecidableEq α] in
theorem Registered.exact (h : s.Registered) : s.Exact where
  chain n _ := h.chain n
  live p := by
    constructor
    . intro hp
      obtain ⟨e, he⟩ := Option.isSome_iff_exists.mp hp
      obtain ⟨n, -, hmem⟩ := (h.num p e.irqNum).mp (by simp [IsrSystem.num, he])
      exact ⟨n, h.bound n p hmem, hmem⟩
    . intro ⟨n, _, hmem⟩
      exact h.isSome hmem
  safe n _ call fuel :=
    IsrSystem.pcIsrCommon_of_chain call fuel (h.chain n) (fun x hx => h.isSome hx)

theorem Registered.append {n : Nat} {p : α} {e : IsrHandler α} (h : s.Registered) (hn : n < 256)
    (he : e.irqNum = n) (hnone : e.next = none) (hp : s.isr.entry p = none)
    (hfuel : (s.handlers n).length ≤ fuel)
    : ∃ t, (s.isr.setEntry p (some e)).append e.irqNum p fuel = .ok t
        ∧ Registered ⟨t, Function.update s.handlers n (s.handlers n ++ [p])⟩ := by
  have hfresh : ∀ m, p ∉ s.handlers m := by
    intro m hmem
    have := h.isSome hmem
    simp [hp] at this
  obtain ⟨t, ht, hchain, htable, hnext, hnum⟩ :=
    IsrSystem.append_of_chain hn (h.chain n) (fun x hx => h.isSome hx) hp hnone hfuel
  rw [he]
  refine ⟨t, ht, ?_, ?_, ?_⟩
  . intro m
    dsimp only
    by_cases hm : m = n
    . subst hm
      rw [Function.update_self]
      exact hchain
    . rw [Function.update_of_ne hm, htable m hm]
      apply (h.chain m).congr
      intro x hx
      apply hnext
      . intro hx'
        exact hm (h.eq hx hx')
      . intro heq
        exact hfresh m (heq ▸ hx)
  . intro q i
    dsimp only
    rw [hnum, he]
    by_cases hq : q = p
    . subst hq
      rw [Function.update_self]
      constructor
      . intro heq
        cases heq
        exact ⟨n, rfl, by simp⟩
      . intro ⟨m, hi, hmem⟩
        by_cases hm : m = n
        . rw [hi, hm]
        . rw [Function.update_of_ne hm] at hmem
          exact absurd hmem (hfresh m)
    . rw [Function.update_of_ne hq, h.num]
      apply exists_congr
      intro m
      by_cases hm : m = n
      . subst hm
        simp [hq]
      . rw [Function.update_of_ne hm]
  . intro m q hmem
    dsimp only at hmem
    by_cases hm : m = n
    . rw [hm]
      exact hn
    . rw [Function.update_of_ne hm] at hmem
      exact h.bound m q hmem

theorem Registered.addHandler {newentry : Option α} (h : s.Registered) (e : IsrHandler α)
    (hlow : 0 ≤ e.irqNum) (hhigh : e.irqNum ≤ 0xFF) (hnone : e.next = none)
    (hp : ∀ p, newentry = some p → s.isr.entry p = none)
    (hfuel : ∀ n, (s.handlers n).length ≤ fuel)
    : ∃ r, s.isr.addHandler e newentry fuel = .ok r ∧ (s.added e.irqNum r).Registered
        ∧ ∀ n, ((s.added e.irqNum r).handlers n).length ≤ (s.handlers n).length + 1 := by
  unfold IsrSystem.addHandler
  rw [if_neg (by omega)]
  cases newentry with
  | none => exact ⟨_, rfl, h, by simp [added]⟩
  | some p =>
    obtain ⟨n, hn⟩ := Int.eq_ofNat_of_zero_le hlow
    obtain ⟨t, ht, hregistered⟩ :=
      h.append (by omega) hn hnone (hp p rfl) (hfuel n)
    refine ⟨(.success, some p, t), by simp [ht, bind, Except.bind], ?_, ?_⟩
    . rw [hn]
      exact hregistered
    . intro m
      rw [hn]
      by_cases hm : m = n
      . subst hm
        simp [added]
      . simp [added, hm]

theorem Registered.not_exact_of_remove {handler : α} {t : IsrHistory α} {n : Nat} (h : s.Registered)
    (hmem : handler ∈ s.handlers n) (hfuel : (s.handlers n).length ≤ fuel)
    (hstep : s.step fuel (.remove handler) = .ok t)
    : ¬ t.Exact := by
  intro hexact
  have hn := h.bound n handler hmem
  obtain ⟨e, he⟩ := Option.isSome_iff_exists.mp (h.isSome hmem)
  have hnum : e.irqNum = n := by
    have := (h.num handler n).mpr ⟨n, rfl, hmem⟩
    simpa [IsrSystem.num, he] using this
  have htable : s.isr.tableAt e.irqNum = .ok (s.isr.table n) := by
    rw [hnum]
    exact IsrSystem.tableAt_of_lt hn
  have hchain := h.chain n
  obtain ⟨head, hhead⟩ : ∃ head, s.isr.table n = some head := by
    apply Option.ne_none_iff_exists'.mp
    intro hempty
    rw [hchain.eq_none_iff.mp hempty] at hmem
    contradiction
  rw [hhead] at hchain
  simp only [step, IsrSystem.pcIsrRemoveHandler, IsrSystem.read_of_entry he, htable, hhead, bind,
    Except.bind] at hstep
  obtain ⟨pre, suf, hl⟩ := List.append_of_mem hmem
  have hlive : ∀ x ∈ s.handlers n, (s.isr.entry x).isSome := fun x hx => h.isSome hx
  cases pre using List.reverseRecOn with
  | nil =>
    -- the first handler is not found behind any entry
    rw [List.nil_append] at hl
    have hnodup := hchain.nodup
    rw [hl] at hchain hlive hfuel hnodup
    cases hchain.1
    rw [List.nodup_cons] at hnodup
    have hprev : s.isr.prevEntry handler none handler fuel = .ok none :=
      IsrSystem.prevEntry_of_not_mem hchain hlive hnodup.1 hfuel
    rw [hprev] at hstep
    simp only [IsrSystem.unlink] at hstep
    cases hstep
    have hleft := hexact.chain n hn
    dsimp only at hleft
    rw [hhead, hl, List.erase_cons_head] at hleft
    have hsame := congrArg List.length (hchain.functional hleft)
    simp at hsame
  | append_singleton pre prev =>
    rw [List.append_assoc, List.singleton_append] at hl
    rw [hl] at hchain hlive hfuel
    have hprev : s.isr.prevEntry handler none head fuel = .ok (some prev) :=
      IsrSystem.prevEntry_of_mem hchain hlive hfuel
    have hne : prev ≠ handler := by
      have hnodup := (List.nodup_append.mp hchain.nodup).2.1
      rw [List.nodup_cons] at hnodup
      intro heq
      exact hnodup.1 (by simp [heq])
    have hprevmem : prev ∈ s.handlers n := by simp [hl]
    obtain ⟨u, hu, -⟩ :=
      IsrSystem.setNext_of_num ((h.num prev n).mpr ⟨n, rfl, hprevmem⟩) e.next
    rw [hprev] at hstep
    simp only [IsrSystem.unlink, IsrSystem.read_of_entry he, hu, bind, Except.bind] at hstep
    cases hstep
    -- the entry before the handler is registered, but it was freed
    have hfreed := (hexact.live prev).mpr ⟨n, hn, (List.mem_erase_of_ne hne).mpr hprevmem⟩
    simp [IsrSystem.setEntry] at hfreed

theorem Registered.exact_iff (h : s.Registered) (calls : List (IsrCall α))
    (hfuel : ∀ n, (s.handlers n).length + calls.length ≤ fuel)
    (hadmits : Along (step fuel) Admits s calls)
    : Always (step fuel) Exact s calls ↔ ∀ handler, .remove handler ∉ calls := by
  induction calls generalizing s with
  | nil => simpa [Always] using h.exact
  | cons call calls ih =>
    simp only [List.length_cons] at hfuel
    have hadd : ∀ t, s.step fuel call = .ok t → t.Registered
        → (∀ n, (t.handlers n).length ≤ (s.handlers n).length + 1)
        → (∀ handler, call ≠ .remove handler)
        → (Always (step fuel) Exact s (call :: calls) ↔ ∀ handler, .remove handler ∉ call :: calls) := by
      intro t ht hregistered hlength hcall
      rw [Always.cons_iff ht, ih hregistered ?_ (hadmits.2 t ht)]
      . simp [h.exact, Ne.symm (hcall _)]
      . intro n
        have := hlength n
        have := hfuel n
        omega
    have hroom : ∀ n, (s.handlers n).length ≤ fuel := by
      intro n
      have := hfuel n
      omega
    cases call with
    | addInterrupt num data func newentry =>
      obtain ⟨hlow, hhigh, hp⟩ := hadmits.1
      obtain ⟨r, hr, hregistered, hlength⟩ :=
        h.addHandler ⟨none, num, true, data, func⟩ hlow hhigh rfl hp hroom
      apply hadd (s.added num r) ?_ hregistered hlength (by simp)
      simp [step, IsrSystem.pcIsrAddInterruptHandler, hr, bind, Except.bind]
    | addTrap num func newentry =>
      obtain ⟨hlow, hhigh, hp⟩ := hadmits.1
      obtain ⟨r, hr, hregistered, hlength⟩ :=
        h.addHandler ⟨none, num, false, 0, func⟩ hlow hhigh rfl hp hroom
      apply hadd (s.added num r) ?_ hregistered hlength (by simp)
      simp [step, IsrSystem.pcIsrAddTrapHandler, hr, bind, Except.bind]
    | remove handler =>
      obtain ⟨n, -, hmem⟩ := hadmits.1
      constructor
      . intro halways
        obtain ⟨-, t, ht, htail⟩ := halways
        exact absurd htail.head (h.not_exact_of_remove hmem (hroom n) ht)
      . intro hnone
        exact absurd (List.mem_cons_self) (hnone handler)

omit [DecidableEq α] in
theorem registered_of_empty {s : IsrSystem α} (htable : ∀ n, s.table n = none)
    (hentry : ∀ p, s.entry p = none)
    : Registered ⟨s, fun _ => []⟩ where
  chain n := htable n
  num p i := by simp [IsrSystem.num, hentry]
  bound n p hp := by simp at hp

/--
The registry is exact in every state of a run if and only if no handler is ever removed.
-/
theorem registry_exact_iff (s : IsrSystem α) (htable : ∀ n, s.table n = none)
    (hentry : ∀ p, s.entry p = none) (calls : List (IsrCall α)) (fuel : Nat)
    (hfuel : calls.length ≤ fuel) (hadmits : Along (step fuel) Admits ⟨s, fun _ => []⟩ calls)
    : Always (step fuel) Exact ⟨s, fun _ => []⟩ calls
        ↔
      ∀ handler, .remove handler ∉ calls := by
  apply (registered_of_empty htable hentry).exact_iff calls ?_ hadmits
  intro n
  simpa using hfuel

def noHandlers : IsrSystem Nat := ⟨fun _ => none, fun _ => none, 0, 0, []⟩

/--
Two handlers of the timer are added, and the second one is removed.
-/
def timerCalls : List (IsrCall Nat) :=
  [.addInterrupt 0x20 0 1 (some 0), .addInterrupt 0x20 0 2 (some 1), .remove 1]

theorem timerCalls_admitted : Along (step 3) Admits ⟨noHandlers, fun _ => []⟩ timerCalls := by
  refine ⟨⟨by decide, by decide, ?_⟩, ?_⟩
  . intro p _
    rfl
  . intro t ht
    cases ht
    refine ⟨⟨by decide, by decide, ?_⟩, ?_⟩
    . intro p hp
      cases hp
      rfl
    . intro t ht
      cases ht
      exact ⟨⟨0x20, by decide, by decide⟩, fun _ _ => trivial⟩

theorem registry_exact_iff_timerCalls
    : ¬ Always (step 3) Exact ⟨noHandlers, fun _ => []⟩ timerCalls := by
  rw [registry_exact_iff noHandlers (fun _ => rfl) (fun _ => rfl) timerCalls 3 (by decide)
    timerCalls_admitted]
  intro h
  exact h 1 (by decide)

/--
The next interrupt of the timer follows the entry of the first handler, which was freed.
-/
theorem removed_handler_is_followed
    : ∃ t1 t2 t3, step 3 ⟨noHandlers, fun _ => []⟩ (.addInterrupt 0x20 0 1 (some 0)) = .ok t1
        ∧ t1.step 3 (.addInterrupt 0x20 0 2 (some 1)) = .ok t2
        ∧ (∃ n < 256, 1 ∈ t2.handlers n)
        ∧ t2.step 3 (.remove 1) = .ok t3
        ∧ t3.isr.entry 0 = none ∧ 0 ∈ t3.handlers 0x20 ∧ (t3.isr.entry 1).isSome
        ∧ t3.isr.pcIsrCommon 0x20 (fun _ => 0) 3 = .error .access
        ∧ ¬ t3.Exact := by
  refine ⟨_, _, _, rfl, rfl, ⟨0x20, by decide, by decide⟩, rfl, rfl, by decide, rfl, rfl, ?_⟩
  intro hexact
  exact hexact.safe 0x20 (by decide) (fun _ => 0) 3 rfl

end IsrHistory

end Emos
