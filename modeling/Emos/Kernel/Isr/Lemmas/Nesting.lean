import Emos.Kernel.Isr.Impl.Nesting
import Emos.Lib.Trace

/-!
This module contains that the depth of interrupts is right as long as no handler changes the stack.
-/

open Lib

namespace Emos

variable {α : Type} [DecidableEq α]

namespace IsrSystem

variable {s t : IsrSystem α}

theorem setNext_irqDepth {p : α} {next : Option α} (h : s.setNext p next = .ok t) : t.irqDepth = s.irqDepth := by
  rw [setNext, bind_eq_ok] at h
  obtain ⟨e, _, h⟩ := h
  cases h
  rfl

theorem append_irqDepth {num : Int} {p : α} {fuel : Nat} (h : s.append num p fuel = .ok t)
    : t.irqDepth = s.irqDepth := by
  rw [append, bind_eq_ok] at h
  obtain ⟨head, _, h⟩ := h
  split at h
  . cases h
    rfl
  . rw [bind_eq_ok] at h
    obtain ⟨last, _, h⟩ := h
    exact setNext_irqDepth h

theorem addHandler_irqDepth {e : IsrHandler α} {newentry : Option α} {fuel : Nat}
    {r : Status × Option α × IsrSystem α} (h : s.addHandler e newentry fuel = .ok r)
    : r.2.2.irqDepth = s.irqDepth := by
  unfold addHandler at h
  split at h
  . cases h
    rfl
  . split at h
    . cases h
      rfl
    . rw [bind_eq_ok] at h
      obtain ⟨t, ht, h⟩ := h
      cases h
      exact (append_irqDepth ht).trans rfl

theorem pcIsrRemoveHandler_irqDepth {handler : α} {fuel : Nat} (h : s.pcIsrRemoveHandler handler fuel = .ok t)
    : t.irqDepth = s.irqDepth := by
  rw [pcIsrRemoveHandler, bind_eq_ok] at h
  obtain ⟨e, _, h⟩ := h
  rw [bind_eq_ok] at h
  obtain ⟨head, _, h⟩ := h
  split at h
  . cases h
    rfl
  . rw [bind_eq_ok] at h
    obtain ⟨prev, _, h⟩ := h
    cases prev with
    | none =>
      cases h
      rfl
    | some prev =>
      rw [unlink, bind_eq_ok] at h
      obtain ⟨e, _, h⟩ := h
      rw [bind_eq_ok] at h
      obtain ⟨u, hu, h⟩ := h
      cases h
      have hdepth := setNext_irqDepth hu
      exact hdepth

theorem exec_irqDepth {fuel : Nat} {c : IsrCall α} (h : s.exec fuel c = .ok t) : t.irqDepth = s.irqDepth := by
  cases c with
  | addInterrupt num data func newentry =>
    rw [exec, bind_eq_ok] at h
    obtain ⟨r, hr, h⟩ := h
    cases h
    exact addHandler_irqDepth hr
  | addTrap num func newentry =>
    rw [exec, bind_eq_ok] at h
    obtain ⟨r, hr, h⟩ := h
    cases h
    exact addHandler_irqDepth hr
  | remove handler => exact pcIsrRemoveHandler_irqDepth h

omit [DecidableEq α] in
@[simp]
theorem endOfInterrupt_irqDepth (s : IsrSystem α) (num : Nat) : (s.endOfInterrupt num).irqDepth = s.irqDepth := by
  unfold endOfInterrupt
  split
  . rfl
  . split <;> rfl

omit [DecidableEq α] in
@[simp]
theorem endOfInterrupt_entry (s : IsrSystem α) (num : Nat) : (s.endOfInterrupt num).entry = s.entry := by
  unfold endOfInterrupt
  split
  . rfl
  . split <;> rfl

end IsrSystem

namespace IsrState

/--
The number of interrupts that are being handled.
-/
def active (s : IsrState α) : Nat := s.running.length + (s.waiting.map List.length).sum

/--
The call of `_pc_isr_common` that returns in an action.
-/
def returned (s : IsrState α) : IsrAct α → Option (IsrFrame α)
  | .ret newEsp _ => s.running.head?.filter fun f => f.calling && newEsp ≠ 0
  | .leave => s.running.head?.filter fun f => f.currentIsr = none
  | _ => none

/--
A handler returns a stack pointer.
-/
def SwitchesStack (s : IsrState α) (a : IsrAct α) : Prop :=
  ∃ newEsp k, a = .ret newEsp k ∧ (s.returned a).isSome

/--
Behind the action the depth is the number of interrupts that are being handled, and a call of
`_pc_isr_common` that has returned leaves the depth that it has found.
-/
def Exact (fuel : Nat) (s : IsrState α) (a : IsrAct α) : Prop :=
  ∀ t, s.step fuel a = .ok t → t.isr.irqDepth = t.active
    ∧ ∀ f, s.returned a = some f → t.isr.irqDepth = f.depth

/--
Each call was entered at the depth of those around it.
-/
def Nested (base : Nat) : List (IsrFrame α) → Prop
  | [] => True
  | f :: rest => f.depth = base + rest.length ∧ Nested base rest

structure Inv (s : IsrState α) : Prop where
  depth : s.isr.irqDepth = s.active
  nested : Nested (s.waiting.map List.length).sum s.running

variable {s t : IsrState α} {fuel : Nat}

omit [DecidableEq α] in
/--
The innermost call goes on in its loop.
-/
theorem Inv.setTop (hs : s.Inv) {f g : IsrFrame α} {rest : List (IsrFrame α)} (hrunning : s.running = f :: rest)
    (hdepth : g.depth = f.depth)
    : ({ s with running := g :: rest } : IsrState α).Inv := by
  have hcount := hs.depth
  have hnested := hs.nested
  rw [hrunning] at hnested
  refine ⟨?_, hdepth.trans hnested.1, hnested.2⟩
  unfold active at hcount ⊢
  rw [hrunning] at hcount
  exact hcount

omit [DecidableEq α] in
theorem Inv.enter (hs : s.Inv) {num : Nat} (h : s.enter num = .ok t) : t.Inv := by
  unfold IsrState.enter at h
  dsimp only at h
  split at h
  . cases h
  . split at h
    . cases h
    . cases h
      refine ⟨?_, ?_, hs.nested⟩
      . have hdepth := hs.depth
        unfold active at hdepth ⊢
        simp only [IsrSystem.endOfInterrupt_irqDepth, hdepth, List.length_cons]
        omega
      . dsimp only
        rw [hs.depth, active]
        omega

omit [DecidableEq α] in
theorem Inv.call (hs : s.Inv) (h : s.call = .ok t) : t.Inv := by
  unfold IsrState.call at h
  split at h
  . cases h
    exact hs
  . next f rest hrunning =>
    split at h
    . cases h
      exact hs
    . split at h
      . cases h
        exact hs
      . rw [bind_eq_ok] at h
        obtain ⟨e, _, h⟩ := h
        split at h
        . cases h
          exact hs.setTop hrunning rfl
        . cases h
          exact hs.setTop hrunning rfl

omit [DecidableEq α] in
theorem Inv.ret (hs : s.Inv) {newEsp k : Nat} (hnone : s.returned (.ret newEsp k) = none)
    (h : s.ret newEsp k = .ok t)
    : t.Inv := by
  unfold IsrState.ret at h
  split at h
  . cases h
    exact hs
  . next f rest hrunning =>
    split at h
    . cases h
      exact hs
    . next hcalling =>
      rw [Bool.not_eq_true, Bool.not_eq_false'] at hcalling
      split at h
      . next hswitch => simp [returned, hrunning, hcalling, hswitch] at hnone
      . split at h
        . cases h
          exact hs
        . rw [bind_eq_ok] at h
          obtain ⟨e, _, h⟩ := h
          cases h
          exact hs.setTop hrunning rfl

omit [DecidableEq α] in
theorem Inv.leave (hs : s.Inv)
    : s.leave.Inv ∧ ∀ f, s.returned .leave = some f → s.leave.isr.irqDepth = f.depth := by
  have hdepth := hs.depth
  have hnested := hs.nested
  unfold IsrState.leave
  split
  . next hrunning => exact ⟨hs, by simp [returned, hrunning]⟩
  . next f rest hrunning =>
    rw [hrunning] at hnested
    unfold active at hdepth
    rw [hrunning, List.length_cons] at hdepth
    split
    . next hend =>
      refine ⟨⟨?_, hnested.2⟩, ?_⟩
      . unfold active
        dsimp only
        omega
      . intro g hg
        have hgf : f = g ∧ g.currentIsr = none := by simpa [returned, hrunning] using hg
        rw [← hgf.1, hnested.1]
        dsimp only
        omega
    . next hmore => exact ⟨hs, by simp [returned, hrunning, hmore]⟩

omit [DecidableEq α] in
theorem length_sum_eraseIdx (threads : List (List (IsrFrame α))) (k : Nat)
    : ((threads[k]?).getD []).length + ((threads.eraseIdx k).map List.length).sum = (threads.map List.length).sum := by
  induction threads generalizing k with
  | nil => simp
  | cons thread threads ih =>
    cases k with
    | zero => simp
    | succ k =>
      have := ih k
      simp only [List.getElem?_cons_succ, List.eraseIdx_cons_succ, List.map_cons, List.sum_cons]
      omega

/--
The depth is not counted down where a handler changes the stack.
-/
theorem Inv.not_exact_of_switchesStack (hs : s.Inv) {a : IsrAct α} (h : s.SwitchesStack a) : ¬ s.Exact fuel a := by
  obtain ⟨newEsp, k, rfl, hreturned⟩ := h
  intro hexact
  have hdepth := hs.depth
  unfold active at hdepth
  cases hrunning : s.running with
  | nil => simp [returned, hrunning] at hreturned
  | cons f rest =>
    have hswitch : f.calling = true ∧ newEsp ≠ 0 := by
      simpa only [returned, hrunning, List.head?_cons, Option.isSome_filter, Option.any_some, Bool.and_eq_true,
        decide_eq_true_eq] using hreturned
    have hstep : s.step fuel (.ret newEsp k) = .ok {
        s with
        running := ((rest :: s.waiting)[k]?).getD []
        waiting := (rest :: s.waiting).eraseIdx k
      } := by
      unfold step IsrState.ret
      simp [hrunning, hswitch]
    have hcount := (hexact _ hstep).1
    have hsum := length_sum_eraseIdx (rest :: s.waiting) k
    rw [List.map_cons, List.sum_cons] at hsum
    rw [hrunning, List.length_cons] at hdepth
    unfold active at hcount
    dsimp only at hcount
    omega

theorem Inv.step (hs : s.Inv) {a : IsrAct α} (ha : ¬ s.SwitchesStack a) (h : s.step fuel a = .ok t) : t.Inv := by
  cases a with
  | enter num => exact hs.enter h
  | call => exact hs.call h
  | ret newEsp k =>
    apply hs.ret _ h
    by_contra hsome
    exact ha ⟨newEsp, k, rfl, Option.isSome_iff_ne_none.mpr hsome⟩
  | leave =>
    cases h
    exact hs.leave.1
  | registry c =>
    rw [IsrState.step, bind_eq_ok] at h
    obtain ⟨isr, hisr, h⟩ := h
    cases h
    exact ⟨(IsrSystem.exec_irqDepth hisr).trans hs.depth, hs.nested⟩

theorem Inv.exact_iff (hs : s.Inv) (a : IsrAct α) : s.Exact fuel a ↔ ¬ s.SwitchesStack a := by
  constructor
  . intro hexact hswitch
    exact hs.not_exact_of_switchesStack hswitch hexact
  . intro ha t h
    refine ⟨(hs.step ha h).depth, ?_⟩
    intro f hf
    cases a with
    | ret newEsp k => exact absurd ⟨newEsp, k, rfl, by rw [hf]; rfl⟩ ha
    | leave =>
      cases h
      exact hs.leave.2 f hf
    | enter num => cases hf
    | call => cases hf
    | registry c => cases hf

/--
The state in which interrupts are enabled for the first time.
-/
def booted (isr : IsrSystem α) : IsrState α := ⟨{ isr with irqDepth := 0 }, [], []⟩

/--
In a run of any interrupts the depth is right behind every action if and only if no handler changes the
stack.
-/
theorem irqDepth_exact_iff (fuel : Nat) (isr : IsrSystem α) (as : List (IsrAct α))
    : Along (step fuel) (Exact fuel) (booted isr) as
        ↔
      Along (step fuel) (fun s a => ¬ s.SwitchesStack a) (booted isr) as := by
  apply Along.iff_of_step (I := Inv) (A := fun _ _ => True) (fun _ => 0)
  . intro s a hs _ _
    exact hs.exact_iff a
  . intro s a t hs _ _ ha h
    exact ⟨hs.step ha h, Nat.zero_le _⟩
  . exact ⟨rfl, trivial⟩
  . exact Nat.le_of_eq (Nat.zero_add _)
  . exact Along.of_forall_mem (fun _ _ _ => trivial)

/--
A timer handler that switches to the thread whose stack pointer is 0xC2000000.
-/
def timer : IsrSystem Nat where
  table := fun n => if n = 0x20 then some 0 else none
  entry := fun p => if p = 0 then some ⟨none, 0x20, true, 0, 1⟩ else none
  irqDepth := 0
  irqCount := 0
  outs := []

def timerActs : List (IsrAct Nat) := [.enter 0x20, .call, .ret 0xC2000000 1]

/--
The depth is 1 when no interrupt is being handled any more.
-/
theorem irqDepth_exact_false
    : ¬ ∀ (fuel : Nat) (isr : IsrSystem Nat) (as : List (IsrAct Nat)),
        Along (step fuel) (Exact fuel) (booted isr) as := by
  intro hall
  obtain ⟨_, hrest⟩ := hall 0 timer timerActs
  obtain ⟨_, hrest⟩ := hrest _ rfl
  obtain ⟨hexact, _⟩ := hrest _ rfl
  have hdepth := (hexact _ rfl).1
  revert hdepth
  decide

/--
Do the actions one after the other.
-/
def run (fuel : Nat) (s : IsrState α) (as : List (IsrAct α)) : Run (IsrState α) := as.foldlM (step fuel) s

theorem run_cons {u : IsrState α} {a : IsrAct α} {as : List (IsrAct α)} (ha : s.step fuel a = .ok t)
    (h : t.run fuel as = .ok u)
    : s.run fuel (a :: as) = .ok u := by
  unfold run
  rw [List.foldlM_cons, bind_eq_ok]
  exact ⟨t, ha, h⟩

/--
The loop of a call of `_pc_isr_common` that is not interrupted, action by action.
-/
theorem run_callHandlers {isr isr' : IsrSystem α} {handler : IsrHandler α → Nat} {p : Option α} {n newEsp : Nat}
    (h : isr.callHandlers handler p n = .ok newEsp) (hentry : isr'.entry = isr.entry) (fuel num : Nat) (depth : Int)
    (rest : List (IsrFrame α)) (waiting : List (List (IsrFrame α)))
    : ∃ as, run fuel ⟨isr', ⟨num, p, false, depth⟩ :: rest, waiting⟩ as
        =
      .ok ⟨{ isr' with irqDepth := if newEsp ≠ 0 then isr'.irqDepth else isr'.irqDepth - 1 }, rest, waiting⟩ := by
  induction n generalizing p with
  | zero =>
    cases p with
    | none =>
      cases h
      exact ⟨[.leave], rfl⟩
    | some p => cases h
  | succ n ih =>
    cases p with
    | none =>
      cases h
      exact ⟨[.leave], rfl⟩
    | some p =>
      rw [IsrSystem.callHandlers, bind_eq_ok] at h
      obtain ⟨e, he, h⟩ := h
      have hread : isr'.read p = .ok e := by
        unfold IsrSystem.read at he ⊢
        rw [hentry]
        exact he
      by_cases hfunc : e.func ≠ 0
      . have hcall : step fuel ⟨isr', ⟨num, some p, false, depth⟩ :: rest, waiting⟩ .call
            = .ok ⟨isr', ⟨num, some p, true, depth⟩ :: rest, waiting⟩ := by
          simp [step, IsrState.call, hread, hfunc, bind, Except.bind]
        rw [if_pos hfunc] at h
        dsimp only at h
        by_cases hnew : handler e ≠ 0
        . rw [if_pos hnew, Except.ok.injEq] at h
          refine ⟨[.call, .ret newEsp 0], run_cons hcall ?_⟩
          rw [← h, if_pos hnew]
          refine run_cons ?_ rfl
          simp [step, IsrState.ret, hnew]
        . rw [if_neg hnew] at h
          obtain ⟨as, has⟩ := ih h
          refine ⟨.call :: .ret 0 0 :: as, run_cons hcall (run_cons ?_ has)⟩
          simp [step, IsrState.ret, hread, bind, Except.bind]
      . rw [if_neg hfunc] at h
        dsimp only at h
        rw [if_neg (by simp)] at h
        obtain ⟨as, has⟩ := ih h
        refine ⟨.call :: as, run_cons ?_ has⟩
        simp [step, IsrState.call, hread, hfunc, bind, Except.bind]

/--
A call of `_pc_isr_common` that is not interrupted is a run of actions.
-/
theorem run_pcIsrCommon {isr isr' : IsrSystem α} {handler : IsrHandler α → Nat} {n num newEsp : Nat}
    (h : isr.pcIsrCommon num handler n = .ok ⟨newEsp, isr'⟩) (hnum : num ≤ 0xFF) (fuel : Nat)
    (rest : List (IsrFrame α)) (waiting : List (List (IsrFrame α)))
    : ∃ as, run fuel ⟨isr, rest, waiting⟩ as = .ok ⟨isr', rest, waiting⟩ := by
  unfold IsrSystem.pcIsrCommon at h
  dsimp only at h
  split at h
  . cases h
  . next hfault =>
    rw [bind_eq_ok] at h
    obtain ⟨newEsp', hloop, h⟩ := h
    generalize hcounted : ({ isr with irqCount := (isr.irqCount + 1) % 2 ^ 64 } : IsrSystem α).endOfInterrupt num
      = counted at h
    have hdepth : counted.irqDepth = isr.irqDepth := by simp [← hcounted]
    have hentry : counted.entry = isr.entry := by simp [← hcounted]
    have hentered : ({ counted with irqDepth := counted.irqDepth + 1 } : IsrSystem α).entry = isr.entry := hentry
    obtain ⟨as, has⟩ := run_callHandlers hloop hentered fuel num isr.irqDepth rest waiting
    refine ⟨.enter num :: as, run_cons ?_ (has.trans ?_)⟩
    . unfold step enter
      dsimp only
      rw [if_neg (by omega), if_neg hfault, hcounted]
    . split at h
      . next hnew =>
        cases h
        rw [if_pos hnew]
      . next hnone =>
        cases h
        rw [if_neg hnone]
        simp

end IsrState

end Emos
