import Mathlib.Data.List.Induction
import Emos.Lib.Trace
import Emos.Boot.Registry.Impl.Registry

/-!
This module contains in which runs the lists of modules, shell commands and filesystems hold exactly
the elements that were registered and not removed.
-/

open Lib

namespace Emos.Boot

namespace Registry

variable {α β : Type} {r t : Registry α β} {live : List α} {p : α}

def next (r : Registry α β) (p : α) : Option α := (r.node p).bind (·.next)

def data? (r : Registry α β) (p : α) : Option β := (r.node p).map (·.data)

/--
The list holds these elements, all of which are allocated.
-/
structure Lists (r : Registry α β) (live : List α) : Prop where
  chain : Chain r.next r.head live
  allocated : ∀ x ∈ live, (r.data? x).isSome

theorem exists_node (h : (r.data? p).isSome) : ∃ e, r.node p = some e ∧ r.next p = e.next := by
  unfold data? at h
  rw [Option.isSome_map] at h
  obtain ⟨e, he⟩ := Option.isSome_iff_exists.mp h
  refine ⟨e, he, ?_⟩
  simp [next, he]

theorem readNext_eq (h : (r.data? p).isSome) : r.readNext p = .ok (r.next p) := by
  obtain ⟨e, he, hnext⟩ := exists_node h
  simp [readNext, read, he, hnext, bind, Except.bind]

variable [DecidableEq α]

theorem next_setNode (p : α) (e : Option (RegistryNode α β))
    : (r.setNode p e).next = Function.update r.next p (e.bind (·.next)) := by
  funext x
  unfold next setNode
  by_cases hx : x = p
  . subst hx
    simp
  . simp [hx]

theorem data?_setNode (p : α) (e : Option (RegistryNode α β))
    : (r.setNode p e).data? = Function.update r.data? p (e.map (·.data)) := by
  funext x
  unfold data? setNode
  by_cases hx : x = p
  . subst hx
    simp
  . simp [hx]

theorem exists_setNext (h : (r.data? p).isSome) (q : Option α)
    : ∃ t, r.setNext p q = .ok t ∧ t.head = r.head ∧ t.next = Function.update r.next p q
        ∧ t.data? = r.data? := by
  obtain ⟨e, he, -⟩ := exists_node h
  refine ⟨r.setNode p (some { e with next := q }), ?_, rfl, next_setNode .., ?_⟩
  . simp [setNext, read, he, bind, Except.bind]
  . rw [data?_setNode]
    funext x
    by_cases hx : x = p
    . subst hx
      simp [data?, he]
    . simp [hx]

theorem Lists.append_nil (h : r.Lists []) (p : α) (fuel : Nat)
    : r.append p fuel = .ok { r with head := some p } := by
  have hhead : r.head = none := h.chain
  unfold append
  rw [hhead]

theorem Lists.append_concat {x : α} (h : r.Lists (live ++ [x])) (p : α) {fuel : Nat}
    (hfuel : live.length < fuel)
    : r.append p fuel = r.setNext x (some p) := by
  have hread : ∀ y ∈ live ++ [x], r.readNext y = .ok (r.next y) := fun y hy => readNext_eq (h.allocated y hy)
  have hchain := h.chain
  unfold append
  cases hhead : r.head with
  | none =>
    have := h.chain.eq_none_iff.mp hhead
    simp at this
  | some head =>
    rw [hhead] at hchain
    have hlast : Links.last .hang r.readNext fuel head = .ok x := Links.last_of_chain hchain hread hfuel
    simp [hlast, bind, Except.bind]

/--
An element that is not in the list is put behind the last one. Whether the list ends there depends on
its pointer.
-/
theorem Lists.append (h : r.Lists live) (hp : p ∉ live) (halloc : (r.data? p).isSome) {fuel : Nat}
    (hfuel : live.length < fuel)
    : ∃ t, r.append p fuel = .ok t ∧ t.data? = r.data? ∧ t.next p = r.next p
        ∧ ∀ u : Registry α β, u.head = t.head → (∀ x, x ≠ p → u.next x = t.next x) → u.data? = t.data?
          → (u.Lists (live ++ [p]) ↔ u.next p = none) := by
  have hallocated : ∀ x ∈ live ++ [p], (r.data? x).isSome := by
    intro x hx
    cases List.mem_append.mp hx with
    | inl hlive => exact h.allocated x hlive
    | inr hnew =>
      rw [List.mem_singleton] at hnew
      rw [hnew]
      exact halloc
  cases live using List.reverseRecOn with
  | nil =>
    refine ⟨_, h.append_nil p fuel, rfl, rfl, ?_⟩
    intro u hhead _ hdata
    constructor
    . intro hlists
      exact hlists.chain.2
    . intro hnone
      refine ⟨⟨hhead, hnone⟩, ?_⟩
      rw [hdata]
      exact hallocated
  | append_singleton pre x =>
    rw [h.append_concat p (by simp at hfuel; omega)]
    obtain ⟨t, ht, hthead, htnext, htdata⟩ := exists_setNext (h.allocated x (by simp)) (some p)
    have hne : p ≠ x := by
      intro heq
      exact hp (by simp [heq])
    refine ⟨t, ht, htdata, ?_, ?_⟩
    . rw [htnext, Function.update_of_ne hne]
    . intro u hhead hnext hdata
      constructor
      . intro hlists
        exact hlists.chain.append_right
      . intro hnone
        constructor
        . rw [hhead, hthead]
          apply (h.chain.concat hp).congr
          intro y _
          by_cases hy : y = p
          . rw [hy, hnone, Function.update_self]
          . rw [hnext y hy, htnext, Function.update_of_ne hy]
        . rw [hdata, htdata]
          exact hallocated

theorem Lists.setNode (h : r.Lists live) (hp : p ∉ live) (e : Option (RegistryNode α β))
    : (r.setNode p e).Lists live := by
  have hne : ∀ x ∈ live, x ≠ p := by
    intro x hx heq
    exact hp (heq ▸ hx)
  constructor
  . apply h.chain.congr
    intro x hx
    rw [next_setNode, Function.update_of_ne (hne x hx)]
  . intro x hx
    rw [data?_setNode, Function.update_of_ne (hne x hx)]
    exact h.allocated x hx

omit [DecidableEq α] in
theorem Lists.not_mem (h : r.Lists live) (hp : r.node p = none) : p ∉ live := by
  intro hmem
  have := h.allocated p hmem
  simp [data?, hp] at this

theorem Lists.appendNew (h : r.Lists live) (hp : r.node p = none) (data : β) (junk : Option α) {fuel : Nat}
    (hfuel : live.length < fuel)
    : ∃ t, r.appendNew p data junk fuel = .ok t ∧ t.data? = Function.update r.data? p (some data)
        ∧ t.Lists (live ++ [p]) := by
  have hnot := h.not_mem hp
  have hdata : (r.setNode p (some ⟨junk, data⟩)).data? = Function.update r.data? p (some data) :=
    data?_setNode p _
  have halloc : ((r.setNode p (some ⟨junk, data⟩)).data? p).isSome := by simp [hdata]
  obtain ⟨u, hu, hudata, -, hlists⟩ := (h.setNode hnot (some ⟨junk, data⟩)).append hnot halloc hfuel
  obtain ⟨t, ht, hhead, hnext, htdata⟩ := exists_setNext (r := u) (p := p) (by rw [hudata]; exact halloc) none
  refine ⟨t, ?_, ?_, ?_⟩
  . simp [Registry.appendNew, hu, bind, Except.bind, ht]
  . rw [htdata, hudata, hdata]
  . rw [hlists t hhead _ htdata, hnext, Function.update_self]
    intro x hx
    rw [hnext, Function.update_of_ne hx]

/--
An element that is the first one of the list, or not in it, is not found behind any other.
-/
theorem Lists.unlink_tail (h : r.Lists live) (hp : p ∉ live.tail) {fuel : Nat} (hfuel : live.length ≤ fuel)
    : r.unlink p fuel = .ok none := by
  have hread : ∀ y ∈ live, r.readNext y = .ok (r.next y) := fun y hy => readNext_eq (h.allocated y hy)
  have hchain := h.chain
  unfold unlink
  cases live with
  | nil =>
    have hhead : r.head = none := hchain
    rw [hhead]
  | cons x xs =>
    have hhead : r.head = some x := hchain.1
    have hprev : Links.prev .hang r.readNext p fuel none x = .ok none :=
      Links.prev_of_not_mem ⟨rfl, hchain.2⟩ hread hp (Nat.lt_of_succ_le hfuel)
    simp [hhead, hprev, bind, Except.bind]

theorem Lists.unlink (h : r.Lists live) (hp : p ∈ live.tail) {fuel : Nat} (hfuel : live.length ≤ fuel)
    : ∃ t, r.unlink p fuel = .ok (some t) ∧ t.data? = r.data? ∧ t.Lists (live.erase p)
        ∧ p ∉ live.erase p := by
  obtain ⟨pre, y, suf, rfl⟩ : ∃ pre y suf, live = pre ++ y :: p :: suf := by
    cases live with
    | nil => cases hp
    | cons x xs =>
      obtain ⟨a, b, hxs⟩ := List.append_of_mem hp
      rw [List.tail_cons] at hxs
      obtain ⟨pre, y, hpre⟩ : ∃ pre y, x :: a = pre ++ [y] :=
        ⟨(x :: a).dropLast, (x :: a).getLast (by simp), (List.dropLast_append_getLast (by simp)).symm⟩
      refine ⟨pre, y, b, ?_⟩
      rw [hxs, ← List.cons_append, hpre, List.append_assoc, List.singleton_append]
  have hread : ∀ z ∈ pre ++ y :: p :: suf, r.readNext z = .ok (r.next z) :=
    fun z hz => readNext_eq (h.allocated z hz)
  have hchain := h.chain
  have hnot : p ∉ pre ++ y :: suf := by
    have hnodup := hchain.nodup
    rw [← List.singleton_append, ← List.append_assoc, List.nodup_middle, List.nodup_cons] at hnodup
    rw [List.append_assoc, List.singleton_append] at hnodup
    exact hnodup.1
  have herase : (pre ++ y :: p :: suf).erase p = pre ++ y :: suf := by
    rw [List.mem_append, List.mem_cons, not_or, not_or] at hnot
    rw [List.erase_append_right _ hnot.1, List.erase_cons_tail (by simpa using Ne.symm hnot.2.1),
      List.erase_cons_head]
  rw [herase]
  cases hhead : r.head with
  | none =>
    have := h.chain.eq_none_iff.mp hhead
    simp at this
  | some head =>
    rw [hhead] at hchain
    have hprev : Links.prev .hang r.readNext p fuel none head = .ok (some y) :=
      Links.prev_of_mem hchain hread hfuel
    obtain ⟨e, he, henext⟩ := exists_node (h.allocated p (by simp))
    obtain ⟨t, ht, hthead, htnext, htdata⟩ := exists_setNext (h.allocated y (by simp)) e.next
    refine ⟨t, ?_, htdata, ⟨?_, ?_⟩, hnot⟩
    . simp [Registry.unlink, hhead, hprev, read, he, ht, bind, Except.bind]
    . rw [htnext, hthead, hhead, ← henext]
      exact hchain.skip
    . intro x hx
      rw [htdata]
      apply h.allocated
      rw [List.mem_append, List.mem_cons] at hx ⊢
      rw [List.mem_cons]
      tauto

/--
An element is taken out of the list if and only if there is another one in front of it.
-/
theorem Lists.unlink_cases (h : r.Lists live) (p : α) {fuel : Nat} (hfuel : live.length ≤ fuel)
    : (p ∈ live.tail ∧ live.head? ≠ some p ∧ ∃ t, r.unlink p fuel = .ok (some t) ∧ t.data? = r.data?
          ∧ t.Lists (live.erase p) ∧ p ∉ live.erase p)
        ∨ (p ∉ live ∧ live.head? ≠ some p ∧ r.unlink p fuel = .ok none)
        ∨ (live.head? = some p ∧ r.unlink p fuel = .ok none ∧ ¬ r.Lists (live.erase p)) := by
  have hnodup := h.chain.nodup
  cases live with
  | nil =>
    right
    left
    exact ⟨by simp, by simp, h.unlink_tail (by simp) hfuel⟩
  | cons x xs =>
    rw [List.nodup_cons] at hnodup
    by_cases hx : x = p
    . right
      right
      subst hx
      refine ⟨rfl, h.unlink_tail hnodup.1 hfuel, ?_⟩
      intro hleft
      rw [List.erase_cons_head] at hleft
      have := congrArg List.length (h.chain.functional hleft.chain)
      simp at this
    . have hhead : (x :: xs).head? ≠ some p := by simpa using hx
      by_cases hmem : p ∈ xs
      . left
        exact ⟨hmem, hhead, h.unlink hmem hfuel⟩
      . right
        left
        refine ⟨?_, hhead, h.unlink_tail hmem hfuel⟩
        rw [List.mem_cons, not_or]
        exact ⟨Ne.symm hx, hmem⟩

end Registry

variable {α : Type} [DecidableEq α]

namespace CommandHistory

variable {s : CommandHistory α} {fuel : Nat}

/--
Commands that are registered exist and are not registered already.
-/
def Admits (s : CommandHistory α) : CommandCall α → Prop
  | .register cmd => (s.list.node cmd).isSome ∧ cmd ∉ s.live
  | .unregister _ => True

/--
A command that is registered has a null pointer, and the first command of the list is not
unregistered.
-/
def Careful (s : CommandHistory α) : CommandCall α → Prop
  | .register cmd => s.list.next cmd = none
  | .unregister cmd => s.live.head? ≠ some cmd

instance (s : CommandHistory α) : (c : CommandCall α) → Decidable (s.Admits c)
  | .register cmd => inferInstanceAs (Decidable ((s.list.node cmd).isSome ∧ cmd ∉ s.live))
  | .unregister _ => .isTrue trivial

instance (s : CommandHistory α) : (c : CommandCall α) → Decidable (s.Careful c)
  | .register cmd => inferInstanceAs (Decidable (s.list.next cmd = none))
  | .unregister cmd => inferInstanceAs (Decidable (s.live.head? ≠ some cmd))

def Exact (s : CommandHistory α) : Prop := s.list.Lists s.live

theorem step_exact_iff (s : CommandHistory α) (c : CommandCall α) (h : s.Exact) (hadmits : s.Admits c) (hfuel : s.live.length < fuel)
    : ∃ t, s.step fuel c = .ok t ∧ t.live.length ≤ s.live.length + 1 ∧ (t.Exact ↔ s.Careful c) := by
  cases c with
  | register cmd =>
    obtain ⟨halloc, hnot⟩ := hadmits
    obtain ⟨r, hr, -, hnext, hlists⟩ := Registry.Lists.append h hnot
      (by rw [Registry.data?, Option.isSome_map]; exact halloc) hfuel
    refine ⟨⟨r, s.live ++ [cmd]⟩, ?_, by simp, ?_⟩
    . simp [step, shellCommandRegister, hr, bind, Except.bind]
    . have hiff := hlists r rfl (fun _ _ => rfl) rfl
      rw [hnext] at hiff
      exact hiff
  | unregister cmd =>
    have hlength : (s.live.erase cmd).length ≤ s.live.length + 1 :=
      Nat.le_succ_of_le List.length_erase_le
    obtain ⟨_, hhead, r, hr, -, hlists, -⟩ | ⟨hnot, hhead, hr⟩ | ⟨hhead, hr, hlists⟩ :=
      Registry.Lists.unlink_cases h cmd (Nat.le_of_lt hfuel)
    . refine ⟨⟨r, s.live.erase cmd⟩, ?_, hlength, iff_of_true hlists hhead⟩
      simp [step, shellCommandUnregister, hr, bind, Except.bind]
    . refine ⟨⟨s.list, s.live.erase cmd⟩, ?_, hlength, iff_of_true ?_ hhead⟩
      . simp [step, shellCommandUnregister, hr, bind, Except.bind]
      . unfold Exact
        dsimp only
        rw [List.erase_of_not_mem hnot]
        exact h
    . refine ⟨⟨s.list, s.live.erase cmd⟩, ?_, hlength, iff_of_false hlists (not_not.mpr hhead)⟩
      simp [step, shellCommandUnregister, hr, bind, Except.bind]

end CommandHistory

namespace ModuleHistory

variable {s : ModuleHistory α} {fuel : Nat}

/--
`malloc` returns memory that is not in use.
-/
def Admits (s : ModuleHistory α) : ModuleCall α → Prop
  | .load mod _ _ => s.system.list.node mod = none
  | .unload _ => True

def Careful (s : ModuleHistory α) : ModuleCall α → Prop
  | .load _ _ _ => True
  | .unload mod => s.live.head? ≠ some mod

instance (s : ModuleHistory α) : (c : ModuleCall α) → Decidable (s.Admits c)
  | .load mod _ _ => inferInstanceAs (Decidable (s.system.list.node mod = none))
  | .unload _ => .isTrue trivial

instance (s : ModuleHistory α) : (c : ModuleCall α) → Decidable (s.Careful c)
  | .load _ _ _ => .isTrue trivial
  | .unload mod => inferInstanceAs (Decidable (s.live.head? ≠ some mod))

/--
The list holds the modules, each with its pages, and the pages of those that have left it were freed.
-/
structure Exact (s : ModuleHistory α) : Prop where
  lists : s.system.list.Lists s.live
  pages : ∀ mod ∈ s.live, s.system.list.data? mod = some (s.pages mod)
  freed : s.system.freed = s.left

theorem step_exact_iff (s : ModuleHistory α) (c : ModuleCall α) (h : s.Exact) (hadmits : s.Admits c) (hfuel : s.live.length < fuel)
    : ∃ t, s.step fuel c = .ok t ∧ t.live.length ≤ s.live.length + 1 ∧ (t.Exact ↔ s.Careful c) := by
  cases c with
  | load mod pages junk =>
    obtain ⟨r, hr, hdata, hlists⟩ := h.lists.appendNew hadmits pages junk hfuel
    refine ⟨⟨⟨r, s.system.freed⟩, s.live ++ [mod], Function.update s.pages mod pages, s.left⟩, ?_, by simp,
      iff_of_true ⟨hlists, ?_, h.freed⟩ trivial⟩
    . simp [step, moduleLoad, hr, bind, Except.bind]
    . intro x hx
      dsimp only
      rw [hdata]
      by_cases heq : x = mod
      . rw [heq, Function.update_self, Function.update_self]
      . rw [Function.update_of_ne heq, Function.update_of_ne heq]
        apply h.pages
        simpa [heq] using hx
  | unload mod =>
    have hlength : (s.live.erase mod).length ≤ s.live.length + 1 :=
      Nat.le_succ_of_le List.length_erase_le
    obtain ⟨htail, hhead, r, hr, hdata, hlists, hnot⟩ | ⟨hnot, hhead, hr⟩ | ⟨hhead, hr, hlists⟩ :=
      h.lists.unlink_cases mod (Nat.le_of_lt hfuel)
    . have hmem := List.mem_of_mem_tail htail
      have hpages := h.pages mod hmem
      obtain ⟨e, he, -⟩ := Registry.exists_node (r := r) (p := mod) (by rw [hdata, hpages]; rfl)
      have hrange : e.data = s.pages mod := by
        rw [← hdata] at hpages
        simpa [Registry.data?, he] using hpages
      have hne : ∀ x ∈ s.live.erase mod, x ≠ mod := by
        intro x hx heq
        exact hnot (heq ▸ hx)
      refine ⟨⟨⟨r.setNode mod none, s.system.freed ++ [e.data.range]⟩, s.live.erase mod, s.pages,
        s.left ++ [(s.pages mod).range]⟩, ?_, hlength, iff_of_true ⟨?_, ?_, ?_⟩ hhead⟩
      . simp [step, moduleUnload, hr, Registry.read, he, hmem, bind, Except.bind]
      . exact hlists.setNode hnot none
      . intro x hx
        dsimp only
        rw [Registry.data?_setNode, Function.update_of_ne (hne x hx), hdata]
        exact h.pages x (List.mem_of_mem_erase hx)
      . dsimp only
        rw [h.freed, hrange]
    . have hstep : s.step fuel (.unload mod) = .ok { s with live := s.live.erase mod } := by
        simp [step, moduleUnload, hr, hnot, bind, Except.bind]
      refine ⟨_, hstep, hlength, iff_of_true ?_ hhead⟩
      rw [List.erase_of_not_mem hnot]
      exact h
    . refine ⟨⟨s.system, s.live.erase mod, s.pages,
        if mod ∈ s.live then s.left ++ [(s.pages mod).range] else s.left⟩, ?_, hlength,
        iff_of_false ?_ (not_not.mpr hhead)⟩
      . simp [step, moduleUnload, hr, bind, Except.bind]
      . intro hexact
        exact hlists hexact.lists

end ModuleHistory

namespace FilesystemHistory

variable {s : FilesystemHistory α} {fuel : Nat}

/--
`calloc` returns memory that is not in use.
-/
def Admits (s : FilesystemHistory α) : FilesystemCall α → Prop
  | .create _ newfs => ∀ fs ∈ newfs, s.list.node fs = none
  | .remove _ => True

def Careful (s : FilesystemHistory α) : FilesystemCall α → Prop
  | .create _ _ => True
  | .remove fs => s.live.head? ≠ some fs

instance (s : FilesystemHistory α) : (c : FilesystemCall α) → Decidable (s.Admits c)
  | .create _ none => .isTrue (by simp [Admits])
  | .create _ (some fs) => decidable_of_iff (s.list.node fs = none) (by simp [Admits])
  | .remove _ => .isTrue trivial

instance (s : FilesystemHistory α) : (c : FilesystemCall α) → Decidable (s.Careful c)
  | .create _ _ => .isTrue trivial
  | .remove fs => inferInstanceAs (Decidable (s.live.head? ≠ some fs))

def Exact (s : FilesystemHistory α) : Prop := s.list.Lists s.live

omit [DecidableEq α] in
theorem exists_filesystemFind {r : FilesystemList α} (name : List (BitVec 8)) {q : Option α} {l : List α}
    (h : Chain r.next q l) (halloc : ∀ x ∈ l, (r.data? x).isSome) (hfuel : l.length ≤ fuel)
    : ∃ res, filesystemFind r name fuel q = .ok res := by
  induction l generalizing q fuel with
  | nil =>
    have hq : q = none := h
    subst hq
    cases fuel <;> exact ⟨none, rfl⟩
  | cons x xs ih =>
    have hq : q = some x := h.1
    subst hq
    rw [List.length_cons] at hfuel
    obtain ⟨n, rfl⟩ : ∃ n, fuel = n + 1 := ⟨fuel - 1, by lia⟩
    obtain ⟨e, he, hnext⟩ := Registry.exists_node (halloc x List.mem_cons_self)
    have hchain := h.2
    rw [hnext] at hchain
    obtain ⟨res, hres⟩ := ih hchain (fun y hy => halloc y (List.mem_cons_of_mem x hy))
      (show xs.length ≤ n by omega)
    simp only [filesystemFind, Registry.read, he, bind, Except.bind]
    split
    . exact ⟨_, rfl⟩
    . exact ⟨res, hres⟩

theorem step_exact_iff (s : FilesystemHistory α) (c : FilesystemCall α) (h : s.Exact) (hadmits : s.Admits c) (hfuel : s.live.length < fuel)
    : ∃ t, s.step fuel c = .ok t ∧ t.live.length ≤ s.live.length + 1 ∧ (t.Exact ↔ s.Careful c) := by
  cases c with
  | create name newfs =>
    have hsame : ∃ t : FilesystemHistory α, .ok ⟨s.list, s.live ++ []⟩ = (.ok t : Run (FilesystemHistory α))
        ∧ t.live.length ≤ s.live.length + 1 ∧ (t.Exact ↔ True) := by
      refine ⟨_, rfl, by simp, iff_of_true ?_ trivial⟩
      unfold Exact
      dsimp only
      rw [List.append_nil]
      exact h
    obtain ⟨res, hres⟩ := exists_filesystemFind name h.chain h.allocated (Nat.le_of_lt hfuel)
    cases res with
    | some fs =>
      simp only [step, filesystemCreate, hres, bind, Except.bind]
      exact hsame
    | none =>
      cases newfs with
      | none =>
        simp only [step, filesystemCreate, hres, bind, Except.bind]
        exact hsame
      | some fs =>
        obtain ⟨r, hr, -, hlists⟩ := Registry.Lists.appendNew h (hadmits fs rfl)
          (name.take (filesystemNameMax - 1)) none hfuel
        refine ⟨⟨r, s.live ++ [fs]⟩, ?_, by simp, iff_of_true hlists trivial⟩
        simp [step, filesystemCreate, hres, hr, bind, Except.bind]
  | remove fs =>
    have hlength : (s.live.erase fs).length ≤ s.live.length + 1 :=
      Nat.le_succ_of_le List.length_erase_le
    obtain ⟨_, hhead, r, hr, -, hlists, hnot⟩ | ⟨hnot, hhead, hr⟩ | ⟨hhead, hr, hlists⟩ :=
      Registry.Lists.unlink_cases h fs (Nat.le_of_lt hfuel)
    . refine ⟨⟨r.setNode fs none, s.live.erase fs⟩, ?_, hlength, iff_of_true (hlists.setNode hnot none) hhead⟩
      simp [step, filesystemRemove, hr, bind, Except.bind]
    . refine ⟨⟨s.list, s.live.erase fs⟩, ?_, hlength, iff_of_true ?_ hhead⟩
      . simp [step, filesystemRemove, hr, bind, Except.bind]
      . unfold Exact
        dsimp only
        rw [List.erase_of_not_mem hnot]
        exact h
    . refine ⟨⟨s.list, s.live.erase fs⟩, ?_, hlength, iff_of_false hlists (not_not.mpr hhead)⟩
      simp [step, filesystemRemove, hr, bind, Except.bind]

end FilesystemHistory

/--
In every run, each of the lists holds exactly the elements that were registered and not removed if and
only if the first element of a list is never removed, and the pointer of a command that is registered is
null.
-/
theorem registries_exact_iff (fuel : Nat)
    : (∀ (list : CommandList α) (calls : List (CommandCall α)), list.head = none → calls.length ≤ fuel
        → Along (CommandHistory.step fuel) CommandHistory.Admits ⟨list, []⟩ calls
        → (Always (CommandHistory.step fuel) CommandHistory.Exact ⟨list, []⟩ calls
          ↔ Along (CommandHistory.step fuel) CommandHistory.Careful ⟨list, []⟩ calls))
      ∧ (∀ (list : Registry α ModulePages) (pages : α → ModulePages) (calls : List (ModuleCall α)),
        list.head = none → calls.length ≤ fuel
        → Along (ModuleHistory.step fuel) ModuleHistory.Admits ⟨⟨list, []⟩, [], pages, []⟩ calls
        → (Always (ModuleHistory.step fuel) ModuleHistory.Exact ⟨⟨list, []⟩, [], pages, []⟩ calls
          ↔ Along (ModuleHistory.step fuel) ModuleHistory.Careful ⟨⟨list, []⟩, [], pages, []⟩ calls))
      ∧ (∀ (list : FilesystemList α) (calls : List (FilesystemCall α)), list.head = none
        → calls.length ≤ fuel
        → Along (FilesystemHistory.step fuel) FilesystemHistory.Admits ⟨list, []⟩ calls
        → (Always (FilesystemHistory.step fuel) FilesystemHistory.Exact ⟨list, []⟩ calls
          ↔ Along (FilesystemHistory.step fuel) FilesystemHistory.Careful ⟨list, []⟩ calls)) := by
  refine ⟨?_, ?_, ?_⟩
  . intro list calls hhead hfuel hadmits
    apply Always.iff_along (fun s => s.live.length) (fun _ h => h) _ _ (by simpa using hfuel) hadmits
    . intro s c h hc hlt
      obtain ⟨t, ht, hlength, hiff⟩ := CommandHistory.step_exact_iff s c h hc hlt
      exact ⟨t, ht, hlength, hiff.mp, hiff.mpr⟩
    . exact ⟨hhead, by simp⟩
  . intro list pages calls hhead hfuel hadmits
    apply Always.iff_along (fun s => s.live.length) (fun _ h => h) _ _ (by simpa using hfuel) hadmits
    . intro s c h hc hlt
      obtain ⟨t, ht, hlength, hiff⟩ := ModuleHistory.step_exact_iff s c h hc hlt
      exact ⟨t, ht, hlength, hiff.mp, hiff.mpr⟩
    . exact ⟨⟨hhead, by simp⟩, by simp, rfl⟩
  . intro list calls hhead hfuel hadmits
    apply Always.iff_along (fun s => s.live.length) (fun _ h => h) _ _ (by simpa using hfuel) hadmits
    . intro s c h hc hlt
      obtain ⟨t, ht, hlength, hiff⟩ := FilesystemHistory.step_exact_iff s c h hc hlt
      exact ⟨t, ht, hlength, hiff.mp, hiff.mpr⟩
    . exact ⟨hhead, by simp⟩

/--
Commands that exist and are in no list.
-/
def noCommands : CommandList Nat := ⟨none, fun _ => some ⟨none, ()⟩⟩

def noModules : Registry Nat ModulePages := ⟨none, fun _ => none⟩

def noFilesystems : FilesystemList Nat := ⟨none, fun _ => none⟩

theorem registries_exact_iff_second
    : Always (CommandHistory.step 4) CommandHistory.Exact ⟨noCommands, []⟩
          [.register 0, .register 1, .unregister 1, .register 1]
        ∧ Always (ModuleHistory.step 4) ModuleHistory.Exact ⟨⟨noModules, []⟩, [], fun _ => ⟨0, 0⟩, []⟩
          [.load 0 ⟨0x400, 1⟩ none, .load 1 ⟨0x401, 1⟩ none, .unload 1]
        ∧ Always (FilesystemHistory.step 4) FilesystemHistory.Exact ⟨noFilesystems, []⟩
          [.create [1] (some 0), .create [2] (some 1), .remove 1] := by
  obtain ⟨hcommand, hmodule, hfilesystem⟩ := registries_exact_iff (α := Nat) 4
  refine ⟨(hcommand _ _ rfl (by decide) (by decide)).mpr (by decide),
    (hmodule _ _ _ rfl (by decide) (by decide)).mpr (by decide),
    (hfilesystem _ _ rfl (by decide) (by decide)).mpr (by decide)⟩

/--
The only element of each list is removed, and a command that was between two others is registered
again.
-/
theorem registries_inexact
    : ¬ Always (CommandHistory.step 5) CommandHistory.Exact ⟨noCommands, []⟩ [.register 0, .unregister 0]
        ∧ ¬ Always (CommandHistory.step 5) CommandHistory.Exact ⟨noCommands, []⟩
          [.register 0, .register 1, .register 2, .unregister 1, .register 1]
        ∧ ¬ Always (ModuleHistory.step 5) ModuleHistory.Exact ⟨⟨noModules, []⟩, [], fun _ => ⟨0, 0⟩, []⟩
          [.load 0 ⟨0x400, 1⟩ none, .unload 0]
        ∧ ¬ Always (FilesystemHistory.step 5) FilesystemHistory.Exact ⟨noFilesystems, []⟩
          [.create [1] (some 0), .remove 0] := by
  refine ⟨?_, ?_, ?_, ?_⟩
  . intro h
    obtain ⟨_, t, ht, h⟩ := h
    cases ht
    obtain ⟨_, t, ht, h⟩ := h
    cases ht
    cases h.chain
  . intro h
    obtain ⟨_, t, ht, h⟩ := h
    cases ht
    obtain ⟨_, t, ht, h⟩ := h
    cases ht
    obtain ⟨_, t, ht, h⟩ := h
    cases ht
    obtain ⟨_, t, ht, h⟩ := h
    cases ht
    obtain ⟨_, t, ht, h⟩ := h
    cases ht
    -- the pointer of the command still leads to the one that was behind it
    have hlast := h.chain.2.2.2
    cases hlast
  . intro h
    obtain ⟨_, t, ht, h⟩ := h
    cases ht
    obtain ⟨_, t, ht, h⟩ := h
    cases ht
    cases h.lists.chain
  . intro h
    obtain ⟨_, t, ht, h⟩ := h
    cases ht
    obtain ⟨_, t, ht, h⟩ := h
    cases ht
    cases h.chain

end Emos.Boot
