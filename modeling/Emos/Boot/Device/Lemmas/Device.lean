import Emos.Boot.Device.Impl.Device
import Emos.Lib.Trace
import Mathlib.Data.List.Induction
import Mathlib.Data.Option.Basic

/-!
This module contains in which runs the list of devices and their tree hold exactly the devices that
were created and not removed.
-/

open Lib

namespace Emos.Boot

namespace DeviceTree

variable {α : Type} {t u : DeviceTree α} {p dev : α}

/--
A field of every device, which is null where there is no device.
-/
def view {β : Type} (g : Device α → Option β) (t : DeviceTree α) (p : α) : Option β := (t.node p).bind g

abbrev next (t : DeviceTree α) : α → Option α := t.view (·.next)

abbrev sibling (t : DeviceTree α) : α → Option α := t.view (·.sibling)

abbrev firstChild (t : DeviceTree α) : α → Option α := t.view (·.firstChild)

abbrev parent (t : DeviceTree α) : α → Option α := t.view (·.parent)

abbrev name (t : DeviceTree α) : α → Option (List (BitVec 8)) := t.view fun e => some e.name

theorem exists_node (h : (t.node p).isSome)
    : ∃ e, t.node p = some e ∧ ∀ {β : Type} (g : Device α → Option β), t.view g p = g e := by
  obtain ⟨e, he⟩ := Option.isSome_iff_exists.mp h
  refine ⟨e, he, ?_⟩
  intro _ g
  simp [view, he]

theorem readNext_eq (h : (t.node p).isSome) : t.readNext p = .ok (t.next p) := by
  obtain ⟨e, he, hview⟩ := exists_node h
  simp [readNext, read, he, hview, bind, Except.bind]

theorem readSibling_eq (h : (t.node p).isSome) : t.readSibling p = .ok (t.sibling p) := by
  obtain ⟨e, he, hview⟩ := exists_node h
  simp [readSibling, read, he, hview, bind, Except.bind]

variable [DecidableEq α]

theorem view_setNode {β : Type} (g : Device α → Option β) (p : α) (e : Option (Device α))
    : (t.setNode p e).view g = Function.update (t.view g) p (e.bind g) := by
  funext x
  unfold view setNode
  by_cases hx : x = p
  . subst hx
    simp
  . simp [hx]

theorem isSome_setNode_of_ne {x : α} (hx : x ≠ p) (e : Option (Device α))
    : ((t.setNode p e).node x).isSome = (t.node x).isSome := by
  simp [setNode, hx]

theorem exists_modify (h : (t.node p).isSome) (f : Device α → Device α)
    : ∃ u, t.modify p f = .ok u ∧ u.head = t.head ∧ (∀ x, (u.node x).isSome = (t.node x).isSome)
        ∧ (∀ {β : Type} (g : Device α → Option β) q, (∀ e, g (f e) = q)
          → u.view g = Function.update (t.view g) p q)
        ∧ ∀ {β : Type} (g : Device α → Option β), (∀ e, g (f e) = g e) → u.view g = t.view g := by
  obtain ⟨e, he, hview⟩ := exists_node h
  refine ⟨t.setNode p (some (f e)), ?_, rfl, ?_, ?_, ?_⟩
  . simp [modify, read, he, bind, Except.bind]
  . intro x
    by_cases hx : x = p
    . subst hx
      simp [setNode, he]
    . exact isSome_setNode_of_ne hx _
  . intro _ g q hg
    rw [view_setNode, Option.bind_some, hg]
  . intro _ g hg
    rw [view_setNode, Option.bind_some, hg, ← hview g, Function.update_eq_self]

variable {live : List α} {fuel : Nat}

/--
A device is put behind the last one of the list, and nothing else changes.
-/
theorem exists_appendDevice (h : Chain t.next t.head live) (halloc : ∀ x ∈ live, (t.node x).isSome)
    (hdev : dev ∉ live) (hnone : t.next dev = none) (hfuel : live.length < fuel)
    : ∃ u, t.appendDevice dev fuel = .ok u ∧ Chain u.next u.head (live ++ [dev])
        ∧ (∀ x, (u.node x).isSome = (t.node x).isSome) ∧ u.sibling = t.sibling
        ∧ u.firstChild = t.firstChild ∧ u.parent = t.parent ∧ u.name = t.name := by
  cases live using List.reverseRecOn with
  | nil =>
    have hhead : t.head = none := h
    refine ⟨{ t with head := some dev }, ?_, ⟨rfl, hnone⟩, fun _ => rfl, rfl, rfl, rfl, rfl⟩
    unfold appendDevice
    rw [hhead]
  | append_singleton pre x =>
    obtain ⟨u, hu, huhead, hisSome, hset, hkeep⟩ :=
      exists_modify (halloc x (by simp)) fun e => { e with next := some dev }
    refine ⟨u, ?_, ?_, hisSome, hkeep _ (fun _ => rfl), hkeep _ (fun _ => rfl), hkeep _ (fun _ => rfl),
      hkeep _ (fun _ => rfl)⟩
    . unfold appendDevice
      cases hhead : t.head with
      | none =>
        have := h.eq_none_iff.mp hhead
        simp at this
      | some head =>
        rw [hhead] at h
        have hlast : Links.last .hang t.readNext fuel head = .ok x :=
          Links.last_of_chain h (fun y hy => readNext_eq (halloc y hy)) (by simp at hfuel; omega)
        simp only [hlast, bind, Except.bind]
        exact hu
    . unfold next
      rw [huhead, hset _ (some dev) (fun _ => rfl)]
      exact h.concat_of_none hdev hnone

/--
A device is put behind the last child of its parent, and the children of other devices stay as they
are.
-/
theorem exists_appendChild (dev : α) {children : List α} (hp : (t.node p).isSome)
    (h : Chain t.sibling (t.firstChild p) children) (halloc : ∀ x ∈ children, (t.node x).isSome)
    (hdev : dev ∉ children) (hnone : t.sibling dev = none) (hfuel : children.length < fuel)
    : ∃ u, t.appendChild dev p fuel = .ok u ∧ u.head = t.head ∧ u.next = t.next ∧ u.parent = t.parent
        ∧ u.name = t.name ∧ (∀ x, (u.node x).isSome = (t.node x).isSome)
        ∧ Chain u.sibling (u.firstChild p) (children ++ [dev])
        ∧ (∀ q, q ≠ p → u.firstChild q = t.firstChild q) ∧ ∀ x ∉ children, u.sibling x = t.sibling x := by
  obtain ⟨e, he, hview⟩ := exists_node hp
  have hfirst : t.firstChild p = e.firstChild := hview _
  cases children using List.reverseRecOn with
  | nil =>
    have hchild : t.firstChild p = none := h
    obtain ⟨u, hu, huhead, hisSome, hset, hkeep⟩ :=
      exists_modify hp fun e => { e with firstChild := some dev }
    have hsibling : u.sibling = t.sibling := hkeep _ (fun _ => rfl)
    have hfirst' : u.firstChild = Function.update t.firstChild p (some dev) := hset _ _ (fun _ => rfl)
    refine ⟨u, ?_, huhead, hkeep _ (fun _ => rfl), hkeep _ (fun _ => rfl), hkeep _ (fun _ => rfl), hisSome,
      ⟨?_, ?_⟩, ?_, ?_⟩
    . rw [hfirst] at hchild
      simp only [appendChild, read, he, hchild, bind, Except.bind]
      exact hu
    . rw [hfirst', Function.update_self]
    . rw [hsibling]
      exact hnone
    . intro q hq
      rw [hfirst', Function.update_of_ne hq]
    . intro x _
      rw [hsibling]
  | append_singleton pre x =>
    obtain ⟨u, hu, huhead, hisSome, hset, hkeep⟩ :=
      exists_modify (halloc x (by simp)) fun e => { e with sibling := some dev }
    have hfirst' : u.firstChild = t.firstChild := hkeep _ (fun _ => rfl)
    have hsibling : u.sibling = Function.update t.sibling x (some dev) := hset _ _ (fun _ => rfl)
    refine ⟨u, ?_, huhead, hkeep _ (fun _ => rfl), hkeep _ (fun _ => rfl), hkeep _ (fun _ => rfl), hisSome,
      ?_, ?_, ?_⟩
    . cases hchild : e.firstChild with
      | none =>
        rw [hfirst, hchild] at h
        have := h.eq_none_iff.mp rfl
        simp at this
      | some child =>
        rw [hfirst, hchild] at h
        have hlast : Links.last .hang t.readSibling fuel child = .ok x :=
          Links.last_of_chain h (fun y hy => readSibling_eq (halloc y hy)) (by simp at hfuel; omega)
        simp only [appendChild, read, he, hchild, hlast, bind, Except.bind]
        exact hu
    . rw [hfirst', hsibling]
      exact h.concat_of_none hdev hnone
    . intro q _
      rw [hfirst']
    . intro y hy
      rw [hsibling, Function.update_of_ne]
      intro heq
      exact hy (by simp [heq])

theorem findPrev_last {pd ps : Option α} (hp : (t.node p).isSome) (hnone : t.next p = none)
    : t.findPrev dev (fuel + 1) pd ps p = .ok (pd, ps) := by
  obtain ⟨e, he, hview⟩ := exists_node hp
  have hnext : e.next = none := (hview _).symm.trans hnone
  simp [findPrev, read, he, hnext, bind, Except.bind]

theorem findPrev_next {pd ps : Option α} {q : α} (hp : (t.node p).isSome) (hdev : (t.node dev).isSome)
    (hq : t.next p = some q)
    : t.findPrev dev (fuel + 1) pd ps p
        = let pd := if q = dev then some p else pd
          let ps := if t.sibling p = some dev then some p else ps
          if ((t.next dev).isNone || pd.isSome) && ((t.sibling dev).isNone || ps.isSome) then
            .ok (pd, ps)
          else
            t.findPrev dev fuel pd ps q := by
  obtain ⟨e, he, hview⟩ := exists_node hp
  obtain ⟨d, hd, hdview⟩ := exists_node hdev
  have hnext : e.next = some q := (hview _).symm.trans hq
  have hsibling : t.sibling p = e.sibling := hview _
  have hdnext : t.next dev = d.next := hdview _
  have hdsibling : t.sibling dev = d.sibling := hdview _
  rw [hsibling, hdnext, hdsibling]
  simp only [findPrev, read, he, hd, hnext, bind, Except.bind]

/--
Wherever the loop ends, it finds nothing in a part of the list that holds no device in front of `dev`.
-/
theorem findPrev_of_not_mem {pd ps : Option α} {l : List α} (h : Chain t.next (some p) (p :: l))
    (halloc : ∀ x ∈ p :: l, (t.node x).isSome) (hdev : (t.node dev).isSome) (hmem : dev ∉ l)
    (hsibling : ∀ x ∈ p :: l, t.sibling x ≠ some dev) (hfuel : l.length < fuel)
    : t.findPrev dev fuel pd ps p = .ok (pd, ps) := by
  induction l generalizing p fuel with
  | nil =>
    obtain ⟨n, rfl⟩ : ∃ n, fuel = n + 1 := ⟨fuel - 1, by lia⟩
    exact findPrev_last (halloc p (by simp)) h.2
  | cons q l ih =>
    obtain ⟨n, rfl⟩ : ∃ n, fuel = n + 1 := ⟨fuel - 1, by lia⟩
    rw [List.mem_cons, not_or] at hmem
    rw [findPrev_next (halloc p (by simp)) hdev h.2.1]
    rw [if_neg (Ne.symm hmem.1), if_neg (hsibling p (by simp))]
    dsimp only
    split
    . rfl
    . exact ih ⟨rfl, h.2.2⟩ (fun x hx => halloc x (List.mem_cons_of_mem p hx)) hmem.2
        (fun x hx => hsibling x (List.mem_cons_of_mem p hx)) (by simpa using hfuel)

/--
`ps` is the device of a list whose sibling is `dev`, or null if there is none.
-/
def Elder (t : DeviceTree α) (dev : α) (l : List α) : Option α → Prop
  | none => ∀ x ∈ l, t.sibling x ≠ some dev
  | some x => x ∈ l ∧ t.sibling x = some dev

theorem Elder.concat {ps : Option α} {l : List α} (h : t.Elder dev l ps) (p : α)
    : t.Elder dev (l ++ [p]) (if t.sibling p = some dev then some p else ps) := by
  by_cases hp : t.sibling p = some dev
  . rw [if_pos hp]
    exact ⟨by simp, hp⟩
  . rw [if_neg hp]
    cases ps with
    | none =>
      intro x hx
      cases List.mem_append.mp hx with
      | inl hmem => exact h x hmem
      | inr hmem =>
        rw [List.mem_singleton] at hmem
        rw [hmem]
        exact hp
    | some x => exact ⟨List.mem_append_left _ h.1, h.2⟩

/--
A device that is neither the first nor the last of the list is found behind `y`. The loop does not end
before it.
-/
theorem exists_findPrev_of_mem (ps : Option α) (l : List α) {pre suf : List α} {y : α}
    (h : Chain t.next (some p) (pre ++ y :: dev :: suf))
    (halloc : ∀ x ∈ pre ++ y :: dev :: suf, (t.node x).isSome) (hsuf : suf ≠ [])
    (hsibling : ∀ x ∈ dev :: suf, t.sibling x ≠ some dev) (hps : t.Elder dev l ps)
    (hfuel : (pre ++ y :: dev :: suf).length ≤ fuel)
    : ∃ ps', t.findPrev dev fuel none ps p = .ok (some y, ps') ∧ t.Elder dev (l ++ (pre ++ [y])) ps' := by
  have hdev : (t.node dev).isSome := halloc dev (by simp)
  have hnodup := h.nodup
  induction pre generalizing p l ps fuel with
  | nil =>
    obtain rfl := Option.some.inj h.1
    rw [List.nil_append, List.length_cons, List.length_cons] at hfuel
    obtain ⟨n, rfl⟩ : ∃ n, fuel = n + 1 := ⟨fuel - 1, by lia⟩
    simp only [List.nil_append, List.nodup_cons] at hnodup
    refine ⟨_, ?_, hps.concat p⟩
    rw [findPrev_next (halloc p (by simp)) hdev h.2.1, if_pos rfl]
    generalize (if t.sibling p = some dev then some p else ps) = ps'
    dsimp only
    split
    . rfl
    . exact findPrev_of_not_mem ⟨rfl, h.2.2⟩ (fun x hx => halloc x (List.mem_cons_of_mem p hx)) hdev
        hnodup.2.1 hsibling (by omega)
  | cons w ws ih =>
    obtain rfl := Option.some.inj h.1
    rw [List.cons_append, List.length_cons] at hfuel
    obtain ⟨n, rfl⟩ : ∃ n, fuel = n + 1 := ⟨fuel - 1, by lia⟩
    rw [List.cons_append, List.nodup_cons] at hnodup
    have hrest : Chain t.next (t.next p) (ws ++ y :: dev :: suf) := h.2
    -- the device behind `p` is one of `ws` or `y`
    obtain ⟨q, hq, hne⟩ : ∃ q, t.next p = some q ∧ q ≠ dev := by
      cases ws with
      | nil =>
        refine ⟨y, hrest.1, ?_⟩
        intro heq
        have := hnodup.2
        simp [heq] at this
      | cons z zs =>
        refine ⟨z, hrest.1, ?_⟩
        intro heq
        have := hnodup.2
        simp [heq] at this
    have hnext : t.next dev ≠ none := by
      have hafter : Chain t.next (t.next dev) suf := by
        have : Chain t.next (some p) ((p :: ws ++ [y]) ++ dev :: suf) := by simpa using h
        exact this.append_right
      intro hnone
      exact hsuf (hafter.eq_none_iff.mp hnone)
    rw [hq] at hrest
    obtain ⟨ps', hps', helder⟩ := ih _ _ hrest (fun x hx => halloc x (List.mem_cons_of_mem p hx)) (hps.concat p)
      (show (ws ++ y :: dev :: suf).length ≤ n by omega) hnodup.2
    refine ⟨ps', ?_, ?_⟩
    . rw [findPrev_next (halloc p (by simp)) hdev hq, if_neg hne]
      dsimp only
      rw [if_neg]
      . exact hps'
      . simp [hnext]
    . rw [List.append_assoc] at helder
      exact helder

/--
A device that was found behind `y` is taken out of the list, out of the children of its parent if it
was found there too, and is freed.
-/
theorem exists_deviceRemove {y head : α} {ps : Option α} (hhead : t.head = some head) (hne : head ≠ dev)
    (hfind : t.findPrev dev fuel none none head = .ok (some y, ps)) (hdev : (t.node dev).isSome)
    (hy : (t.node y).isSome) (hps : ∀ x ∈ ps, (t.node x).isSome)
    : ∃ u, t.deviceRemove dev fuel = .ok u ∧ u.head = t.head
        ∧ (∀ x, (u.node x).isSome ↔ x ≠ dev ∧ (t.node x).isSome)
        ∧ u.next = Function.update (Function.update t.next y (t.next dev)) dev none
        ∧ u.sibling
          = Function.update (ps.elim t.sibling fun x => Function.update t.sibling x (t.sibling dev)) dev none
        ∧ u.firstChild = Function.update t.firstChild dev none
        ∧ u.parent = Function.update t.parent dev none := by
  obtain ⟨d, hd, hdview⟩ := exists_node hdev
  obtain ⟨v, hv, hvhead, hvisSome, hvset, hvkeep⟩ := exists_modify hy fun e => { e with next := d.next }
  have hdnext : t.next dev = d.next := hdview _
  have hdsibling : t.sibling dev = d.sibling := hdview _
  have hvnext : v.next = Function.update t.next y d.next := hvset _ _ (fun _ => rfl)
  have hvsibling : v.sibling = t.sibling := hvkeep _ (fun _ => rfl)
  have hvfirst : v.firstChild = t.firstChild := hvkeep _ (fun _ => rfl)
  have hvparent : v.parent = t.parent := hvkeep _ (fun _ => rfl)
  have hisSome (w : DeviceTree α) (hw : ∀ x, (w.node x).isSome = (t.node x).isSome) (x : α)
      : ((w.setNode dev none).node x).isSome ↔ x ≠ dev ∧ (t.node x).isSome := by
    by_cases hx : x = dev
    . subst hx
      simp [setNode]
    . rw [isSome_setNode_of_ne hx, hw]
      simp [hx]
  cases ps with
  | none =>
    refine ⟨v.setNode dev none, ?_, hvhead, hisSome v hvisSome, ?_, ?_, ?_, ?_⟩
    . simp [deviceRemove, hhead, hfind, hne, read, hd, hv, bind, Except.bind]
    . rw [hdnext, ← hvnext]
      exact view_setNode _ _ _
    . rw [Option.elim_none, ← hvsibling]
      exact view_setNode _ _ _
    . rw [← hvfirst]
      exact view_setNode _ _ _
    . rw [← hvparent]
      exact view_setNode _ _ _
  | some x =>
    obtain ⟨w, hw, hwhead, hwisSome, hwset, hwkeep⟩ :=
      exists_modify (t := v) (p := x) (by rw [hvisSome]; exact hps x rfl) fun e => { e with sibling := d.sibling }
    have hwsibling : w.sibling = Function.update t.sibling x d.sibling := by
      rw [← hvsibling]
      exact hwset _ _ (fun _ => rfl)
    have hwnext : w.next = v.next := hwkeep _ (fun _ => rfl)
    have hwfirst : w.firstChild = v.firstChild := hwkeep _ (fun _ => rfl)
    have hwparent : w.parent = v.parent := hwkeep _ (fun _ => rfl)
    refine ⟨w.setNode dev none, ?_, hwhead.trans hvhead,
      hisSome w (fun z => (hwisSome z).trans (hvisSome z)), ?_, ?_, ?_, ?_⟩
    . simp [deviceRemove, hhead, hfind, hne, read, hd, hv, hw, bind, Except.bind]
    . rw [hdnext, ← hvnext, ← hwnext]
      exact view_setNode _ _ _
    . rw [Option.elim_some, hdsibling, ← hwsibling]
      exact view_setNode _ _ _
    . rw [← hvfirst, ← hwfirst]
      exact view_setNode _ _ _
    . rw [← hvparent, ← hwparent]
      exact view_setNode _ _ _

/--
A device that was not found behind another one is not freed.
-/
theorem exists_deviceRemove_of_none {head : α} {ps : Option α} (hhead : t.head = some head)
    (hfind : t.findPrev dev fuel none none head = .ok (none, ps)) (hdev : (t.node dev).isSome)
    : ∃ u, t.deviceRemove dev fuel = .ok u ∧ u.node = t.node := by
  by_cases hne : head = dev
  . refine ⟨{ t with head := t.next dev }, ?_, rfl⟩
    subst hne
    simp [deviceRemove, hhead, hfind, readNext_eq hdev, bind, Except.bind]
  . refine ⟨t, ?_, rfl⟩
    simp [deviceRemove, hhead, hfind, hne, bind, Except.bind]

end DeviceTree

namespace DeviceHistory

variable {α : Type} [DecidableEq α] {s : DeviceHistory α} {fuel : Nat}

/--
The devices that were created with this parent and not removed.
-/
def children (s : DeviceHistory α) (p : α) : List α := s.live.filter fun x => s.parentOf x = some p

/--
The list and the children of each device are those that were created and not removed, and only those
are allocated.
-/
structure Exact (s : DeviceHistory α) : Prop where
  list : Chain s.tree.next s.tree.head s.live
  children : ∀ p ∈ s.live, Chain s.tree.sibling (s.tree.firstChild p) (s.children p)
  parent : ∀ x ∈ s.live, s.tree.parent x = s.parentOf x
  allocated : ∀ x, (s.tree.node x).isSome ↔ x ∈ s.live

structure Formed (s : DeviceHistory α) : Prop extends Exact s where
  parents : ∀ x ∈ s.live, ∀ p, s.parentOf x = some p → p ∈ s.live
  roots : ∀ x ∈ s.live, s.parentOf x = none → s.tree.sibling x = none

/--
`calloc` returns memory that is not in use, and a device that is removed has no children.
-/
def Admits (s : DeviceHistory α) : DeviceCall α → Prop
  | .create dev parent => (∀ d ∈ dev, s.tree.node d = none) ∧ ∀ p ∈ parent, p ∈ s.live
  | .remove dev => dev ∈ s.live ∧ s.children dev = []

/--
A device that is removed is neither the first one of the list nor the first child of its parent, and it
is the last one of the list only if there is one other.
-/
def Careful (s : DeviceHistory α) : DeviceCall α → Prop
  | .create _ _ => True
  | .remove dev =>
    s.live.head? ≠ some dev ∧ (s.live.getLast? = some dev → s.live.length = 2)
      ∧ ∀ p ∈ s.parentOf dev, (s.children p).head? ≠ some dev

instance (s : DeviceHistory α) : (c : DeviceCall α) → Decidable (s.Admits c)
  | .create none parent =>
    decidable_of_iff (∀ p ∈ parent, p ∈ s.live) (by simp [Admits])
  | .create (some dev) parent =>
    decidable_of_iff (s.tree.node dev = none ∧ ∀ p ∈ parent, p ∈ s.live) (by simp [Admits])
  | .remove dev => inferInstanceAs (Decidable (dev ∈ s.live ∧ s.children dev = []))

instance (s : DeviceHistory α) : (c : DeviceCall α) → Decidable (s.Careful c)
  | .create _ _ => .isTrue trivial
  | .remove dev =>
    inferInstanceAs (Decidable (s.live.head? ≠ some dev
      ∧ (s.live.getLast? = some dev → s.live.length = 2)
      ∧ ∀ p ∈ s.parentOf dev, (s.children p).head? ≠ some dev))

theorem mem_children {x p : α} : x ∈ s.children p ↔ x ∈ s.live ∧ s.parentOf x = some p := by
  simp [children]

theorem children_created {dev : α} (hdev : dev ∉ s.live) (parent : Option α) (tree : DeviceTree α) (q : α)
    : (s.created parent (some dev) tree).children q
        = s.children q ++ if parent = some q then [dev] else [] := by
  unfold children created
  dsimp only
  rw [List.filter_append]
  congr 1
  . apply List.filter_congr
    intro x hx
    have hne : x ≠ dev := fun heq => hdev (heq ▸ hx)
    simp only [Function.update_of_ne hne]
  . by_cases hq : parent = some q
    . simp [hq]
    . simp [hq]

/--
What the tree has to be for a new device to be where it belongs.
-/
theorem Formed.created (h : s.Formed) {dev : α} (hdev : dev ∉ s.live) {parent : Option α}
    (hparent : ∀ p ∈ parent, p ∈ s.live) {tree : DeviceTree α}
    (hlist : Chain tree.next tree.head (s.live ++ [dev]))
    (hchildren : ∀ q ∈ s.live, Chain tree.sibling (tree.firstChild q)
      (s.children q ++ if parent = some q then [dev] else []))
    (hfirst : tree.firstChild dev = none)
    (hview : tree.parent = Function.update s.tree.parent dev parent)
    (hisSome : ∀ x, (tree.node x).isSome ↔ x ∈ s.live ++ [dev])
    (hroots : ∀ x ∈ s.live ++ [dev], Function.update s.parentOf dev parent x = none → tree.sibling x = none)
    : (s.created parent (some dev) tree).Formed := by
  have hne : ∀ x ∈ s.live, x ≠ dev := by
    intro x hx heq
    exact hdev (heq ▸ hx)
  refine ⟨⟨hlist, ?_, ?_, hisSome⟩, ?_, hroots⟩
  . intro q hq
    rw [children_created hdev]
    cases List.mem_append.mp hq with
    | inl hlive => exact hchildren q hlive
    | inr hnew =>
      rw [List.mem_singleton] at hnew
      subst hnew
      -- no other device has the new one as its parent
      have hnil : s.children q = [] := by
        rw [List.eq_nil_iff_forall_not_mem]
        intro x hx
        rw [mem_children] at hx
        exact hdev (h.parents x hx.1 q hx.2)
      have hnot : parent ≠ some q := fun heq => hdev (hparent q heq)
      rw [hnil, if_neg hnot]
      exact hfirst
  . intro x hx
    change tree.parent x = Function.update s.parentOf dev parent x
    rw [hview]
    cases List.mem_append.mp hx with
    | inl hlive =>
      rw [Function.update_of_ne (hne x hlive), Function.update_of_ne (hne x hlive)]
      exact h.parent x hlive
    | inr hnew =>
      rw [List.mem_singleton] at hnew
      rw [hnew, Function.update_self, Function.update_self]
  . intro x hx p hp
    apply List.mem_append_left
    unfold DeviceHistory.created at hp
    dsimp only at hp
    cases List.mem_append.mp hx with
    | inl hlive =>
      rw [Function.update_of_ne (hne x hlive)] at hp
      exact h.parents x hlive p hp
    | inr hnew =>
      rw [List.mem_singleton] at hnew
      rw [hnew, Function.update_self] at hp
      exact hparent p hp

/--
A new device is put where it belongs.
-/
theorem Formed.step_create (h : s.Formed) {dev parent : Option α} (hadmits : s.Admits (.create dev parent))
    (hfuel : s.live.length < fuel)
    : ∃ t, s.step fuel (.create dev parent) = .ok t ∧ t.live = s.live ++ dev.toList
        ∧ t.tree.name = dev.elim s.tree.name (fun d => Function.update s.tree.name d (some [])) ∧ t.Formed := by
  cases dev with
  | none => exact ⟨s, rfl, (List.append_nil _).symm, rfl, h⟩
  | some dev =>
    obtain ⟨hnew, hparent⟩ := hadmits
    have hdev : dev ∉ s.live := by
      intro hmem
      have := (h.allocated dev).mpr hmem
      simp [hnew dev rfl] at this
    have hne : ∀ x ∈ s.live, x ≠ dev := by
      intro x hx heq
      exact hdev (heq ▸ hx)
    generalize ht : s.tree.setNode dev (some ⟨none, none, parent, none, []⟩) = t
    have hview {β : Type} (g : Device α → Option β)
        : t.view g = Function.update (s.tree.view g) dev (g ⟨none, none, parent, none, []⟩) := by
      rw [← ht, DeviceTree.view_setNode, Option.bind_some]
    have hisSome : ∀ x, (t.node x).isSome ↔ x ∈ s.live ++ [dev] := by
      intro x
      rw [← ht]
      by_cases hx : x = dev
      . subst hx
        simp [DeviceTree.setNode]
      . rw [DeviceTree.isSome_setNode_of_ne hx, h.allocated]
        simp [hx]
    have hhead : t.head = s.tree.head := by rw [← ht]; rfl
    have hlist : Chain t.next t.head s.live := by
      unfold DeviceTree.next
      rw [hview, hhead]
      exact h.list.update_of_not_mem hdev
    have hsibling : t.sibling dev = none := by
      unfold DeviceTree.sibling
      rw [hview, Function.update_self]
    have hnext : t.next dev = none := by
      unfold DeviceTree.next
      rw [hview, Function.update_self]
    have hchildren : ∀ q ∈ s.live, Chain t.sibling (t.firstChild q) (s.children q) := by
      intro q hq
      unfold DeviceTree.sibling DeviceTree.firstChild
      rw [hview, hview, Function.update_of_ne (hne q hq)]
      apply (h.children q hq).update_of_not_mem
      intro hmem
      exact hdev (mem_children.1 hmem).1
    have hroots : ∀ x ∈ s.live ++ [dev], Function.update s.parentOf dev parent x = none
        → t.sibling x = none := by
      intro x hx hnone
      cases List.mem_append.mp hx with
      | inl hlive =>
        rw [Function.update_of_ne (hne x hlive)] at hnone
        unfold DeviceTree.sibling
        rw [hview, Function.update_of_ne (hne x hlive)]
        exact h.roots x hlive hnone
      | inr hmem =>
        rw [List.mem_singleton] at hmem
        rw [hmem]
        exact hsibling
    have hfirst : t.firstChild dev = none := by
      unfold DeviceTree.firstChild
      rw [hview, Function.update_self]
    obtain ⟨u, hu, hulist, huisSome, husibling, hufirst, huparent, huname⟩ :=
      DeviceTree.exists_appendDevice hlist (fun x hx => (hisSome x).mpr (List.mem_append_left _ hx)) hdev
        hnext hfuel
    have huview : u.parent = Function.update s.tree.parent dev parent := huparent.trans (hview _)
    cases parent with
    | none =>
      refine ⟨s.created none (some dev) u, ?_, rfl, huname.trans (hview _),
        h.created hdev hparent hulist ?_ ?_ huview ?_ ?_⟩
      . simp [step, DeviceTree.deviceCreate, ht, hu, bind, Except.bind]
      . intro q hq
        rw [husibling, hufirst, if_neg (by simp), List.append_nil]
        exact hchildren q hq
      . rw [hufirst]
        exact hfirst
      . intro x
        rw [huisSome, hisSome]
      . rw [husibling]
        exact hroots
    | some p =>
      have hp : p ∈ s.live := hparent p rfl
      have hnot : dev ∉ s.children p := fun hmem => hdev (mem_children.1 hmem).1
      obtain ⟨v, hv, hvhead, hvnext, hvparent, hvname, hvisSome, hvchildren, hvfirst, hvsibling⟩ :=
        DeviceTree.exists_appendChild dev
          (by rw [huisSome, hisSome]; exact List.mem_append_left _ hp)
          (by rw [husibling, hufirst]; exact hchildren p hp)
          (fun x hx => by
            rw [huisSome, hisSome]
            exact List.mem_append_left _ (mem_children.1 hx).1)
          hnot (by rw [husibling]; exact hsibling)
          (Nat.lt_of_le_of_lt (List.length_filter_le _ _) hfuel)
      refine ⟨s.created (some p) (some dev) v, ?_, rfl, hvname.trans (huname.trans (hview _)),
        h.created hdev hparent ?_ ?_ ?_ (hvparent.trans huview) ?_ ?_⟩
      . simp [step, DeviceTree.deviceCreate, ht, hu, hv, bind, Except.bind]
      . rw [hvnext, hvhead]
        exact hulist
      . intro q hq
        by_cases hqp : p = q
        . subst hqp
          rw [if_pos rfl]
          exact hvchildren
        . have hne' : (some p : Option α) ≠ some q := by simpa using hqp
          rw [hvfirst q (Ne.symm hqp), if_neg hne', List.append_nil, hufirst]
          apply (hchildren q hq).congr
          intro x hx
          rw [hvsibling, husibling]
          -- a device has only one parent
          intro hmem
          exact hne' ((mem_children.1 hmem).2.symm.trans (mem_children.1 hx).2)
      . rw [hvfirst dev (hne p hp).symm, hufirst]
        exact hfirst
      . intro x
        rw [hvisSome, huisSome, hisSome]
      . intro x hx hnone
        have hmem : x ∉ s.children p := by
          intro hmem
          obtain ⟨hlive, hxp⟩ := mem_children.1 hmem
          rw [Function.update_of_ne (hne x hlive), hxp] at hnone
          contradiction
        rw [hvsibling x hmem, husibling]
        exact hroots x hx hnone

theorem children_eq_of_live {pre suf : List α} {dev p : α} (hlive : s.live = pre ++ dev :: suf)
    (hp : s.parentOf dev = some p)
    : s.children p = pre.filter (fun x => s.parentOf x = some p)
        ++ dev :: suf.filter (fun x => s.parentOf x = some p) := by
  unfold children
  rw [hlive, List.filter_append, List.filter_cons_of_pos (by simpa using hp)]

/--
A device whose sibling is `dev` has the same parent.
-/
theorem Formed.parentOf_of_sibling (h : s.Formed) {x dev : α} (hx : x ∈ s.live)
    (hsibling : s.tree.sibling x = some dev)
    : ∃ p ∈ s.live, s.parentOf x = some p ∧ s.parentOf dev = some p := by
  cases hp : s.parentOf x with
  | none =>
    have := h.roots x hx hp
    rw [hsibling] at this
    contradiction
  | some p =>
    have hlive := h.parents x hx p hp
    have hmem := (h.children p hlive).mem_of_next (mem_children.2 ⟨hx, hp⟩) hsibling
    exact ⟨p, hlive, rfl, (mem_children.1 hmem).2⟩

/--
No device that was created after `dev` comes in front of it.
-/
theorem Formed.sibling_ne (h : s.Formed) {pre suf : List α} {dev : α} (hlive : s.live = pre ++ dev :: suf)
    : ∀ x ∈ dev :: suf, s.tree.sibling x ≠ some dev := by
  intro x hx hsibling
  obtain ⟨p, hp, hxp, hdevp⟩ :=
    h.parentOf_of_sibling (by rw [hlive]; exact List.mem_append_right _ hx) hsibling
  have hchain := h.children p hp
  rw [children_eq_of_live hlive hdevp] at hchain
  obtain ⟨q, hq⟩ := hchain.of_append
  apply hq.next_ne_head _ hsibling
  cases List.mem_cons.mp hx with
  | inl heq => simp [heq]
  | inr hmem =>
    apply List.mem_cons_of_mem
    simp [hmem, hxp]

theorem Formed.children_of_elder (h : s.Formed) {x dev : α} (hx : x ∈ s.live)
    (hsibling : s.tree.sibling x = some dev)
    : ∃ p ∈ s.live, s.parentOf dev = some p ∧ ∃ pre suf, s.children p = pre ++ x :: dev :: suf := by
  obtain ⟨p, hp, hxp, hdevp⟩ := h.parentOf_of_sibling hx hsibling
  obtain ⟨pre, suf, heq, hsuf⟩ := (h.children p hp).exists_suffix (mem_children.2 ⟨hx, hxp⟩)
  rw [hsibling] at hsuf
  cases suf with
  | nil => cases hsuf
  | cons y ys =>
    obtain rfl := Option.some.inj hsuf.1
    exact ⟨p, hp, hdevp, pre, ys, heq⟩

/--
A device that comes behind no other is the first child of its parent.
-/
theorem Formed.children_of_not_elder (h : s.Formed) {pre suf : List α} {dev p : α}
    (hlive : s.live = pre ++ dev :: suf) (hnone : s.tree.Elder dev pre none) (hp : s.parentOf dev = some p)
    : (s.children p).head? = some dev := by
  have hdev : dev ∈ s.live := by simp [hlive]
  have hchain := h.children p (h.parents dev hdev p hp)
  rw [children_eq_of_live hlive hp] at hchain ⊢
  cases hfilter : pre.filter (fun x => s.parentOf x = some p) using List.reverseRecOn with
  | nil => simp
  | append_singleton l x =>
    rw [hfilter, List.append_assoc, List.singleton_append] at hchain
    have hx : x ∈ pre.filter (fun x => s.parentOf x = some p) := by simp [hfilter]
    exact absurd hchain.append_right.1 (hnone x (List.mem_of_mem_filter hx))

theorem not_exact_of_isSome {t : DeviceHistory α} (dev : α) (hdev : dev ∉ t.live)
    (halloc : (t.tree.node dev).isSome)
    : ¬ t.Exact := by
  intro h
  exact hdev ((h.allocated dev).mp halloc)

/--
The history after a device was removed.
-/
def removed (s : DeviceHistory α) (dev : α) (tree : DeviceTree α) : DeviceHistory α :=
  { s with tree, live := s.live.erase dev }

theorem step_remove {dev : α} {tree : DeviceTree α} (h : s.tree.deviceRemove dev fuel = .ok tree)
    : s.step fuel (.remove dev) = .ok (s.removed dev tree) := by
  simp [step, h, removed, bind, Except.bind]

theorem length_removed (dev : α) (tree : DeviceTree α)
    : (s.removed dev tree).live.length ≤ s.live.length + 1 :=
  Nat.le_succ_of_le List.length_erase_le

theorem children_removed (h : s.live.Nodup) (dev : α) (tree : DeviceTree α) (q : α)
    : (s.removed dev tree).children q = (s.children q).erase dev := by
  unfold children removed
  dsimp only
  rw [h.erase_eq_filter, (h.filter _).erase_eq_filter, List.filter_filter, List.filter_filter]
  apply List.filter_congr
  intro x _
  exact Bool.and_comm ..

/--
A device that is not the first child of its parent is taken out of the list and of the tree. If it is
the first child, its parent still leads to it.
-/
theorem Formed.step_remove (h : s.Formed) {pre suf : List α} {y dev head : α} {ps : Option α}
    (hlive : s.live = pre ++ y :: dev :: suf) (hnil : s.children dev = [])
    (helder : s.tree.Elder dev (pre ++ [y]) ps) (hhead : s.tree.head = some head) (hne : head ≠ dev)
    (hfind : s.tree.findPrev dev fuel none none head = .ok (some y, ps))
    : ∃ t, s.step fuel (.remove dev) = .ok t ∧ t.live.length ≤ s.live.length + 1
        ∧ (t.Exact → ∀ p ∈ s.parentOf dev, (s.children p).head? ≠ some dev)
        ∧ ((∀ p ∈ s.parentOf dev, (s.children p).head? ≠ some dev) → t.Formed) := by
  have hnodup := h.list.nodup
  have hdev : dev ∈ s.live := by simp [hlive]
  have hsplit : s.live = (pre ++ [y]) ++ dev :: suf := by simp [hlive]
  have hbefore : ∀ x ∈ pre ++ [y], x ∈ s.live := by
    intro x hx
    rw [hsplit]
    exact List.mem_append_left _ hx
  have hps : ∀ x ∈ ps, x ∈ s.live ∧ s.tree.sibling x = some dev := by
    intro x hx
    cases hx
    exact ⟨hbefore x helder.1, helder.2⟩
  obtain ⟨u, hu, huhead, hisSome, hnext, hsibling, hfirst, hparent⟩ :=
    DeviceTree.exists_deviceRemove hhead hne hfind ((h.allocated dev).mpr hdev)
      ((h.allocated y).mpr (hbefore y (by simp))) (fun x hx => (h.allocated x).mpr (hps x hx).1)
  have hnot : dev ∉ (s.removed dev u).live := hnodup.not_mem_erase
  have hmem : ∀ x, x ∈ (s.removed dev u).live ↔ x ≠ dev ∧ x ∈ s.live := fun x => hnodup.mem_erase_iff
  have hnotchild (q : α) : dev ∉ (s.removed dev u).children q := fun hq => hnot (mem_children.1 hq).1
  -- the device has no children, so it is not its own parent either
  have hchild : ∀ x ∈ s.live, s.parentOf x ≠ some dev := by
    intro x hx heq
    have := mem_children.2 ⟨hx, heq⟩
    rw [hnil] at this
    contradiction
  refine ⟨s.removed dev u, DeviceHistory.step_remove hu, length_removed dev u, ?_, ?_⟩
  . intro hexact p hp hfirstChild
    have hplive := h.parents dev hdev p hp
    have hpne : p ≠ dev := by
      intro heq
      exact hchild dev hdev (heq ▸ hp)
    have hchain := h.children p hplive
    have hleft := hexact.children p ((hmem p).mpr ⟨hpne, hplive⟩)
    have hpointer : u.firstChild p = some dev := by
      rw [hfirst, Function.update_of_ne hpne]
      cases hc : s.children p with
      | nil => simp [hc] at hfirstChild
      | cons x xs =>
        rw [hc] at hfirstChild hchain
        rw [hchain.1]
        exact hfirstChild
    change Chain u.sibling (u.firstChild p) _ at hleft
    rw [hpointer] at hleft
    exact hnotchild p hleft.mem_of_head
  . intro hthird
    refine ⟨⟨?_, ?_, ?_, ?_⟩, ?_, ?_⟩
    . change Chain u.next u.head _
      rw [hnext, huhead]
      apply Chain.update_of_not_mem _ hnot
      have herase : (s.removed dev u).live = pre ++ y :: suf := by
        unfold removed
        dsimp only
        rw [hsplit] at hnodup ⊢
        have hdisjoint : dev ∉ pre ++ [y] := by
          rw [List.nodup_middle, List.nodup_cons] at hnodup
          exact fun hd => hnodup.1 (List.mem_append_left _ hd)
        rw [List.erase_append_right _ hdisjoint, List.erase_cons_head]
        simp
      rw [herase]
      exact (hlive ▸ h.list).skip
    . intro q hq
      obtain ⟨hqne, hqlive⟩ := (hmem q).mp hq
      change Chain u.sibling (u.firstChild q) _
      rw [hsibling, hfirst, Function.update_of_ne hqne]
      apply Chain.update_of_not_mem _ (hnotchild q)
      rw [children_removed hnodup]
      have hchain := h.children q hqlive
      cases ps with
      | none =>
        have hnone : dev ∉ s.children q := by
          intro hd
          have hp := (mem_children.1 hd).2
          exact hthird q hp (h.children_of_not_elder hsplit helder hp)
        rw [List.erase_of_not_mem hnone]
        exact hchain
      | some x =>
        obtain ⟨hxlive, hxdev⟩ := hps x rfl
        obtain ⟨p, hp, hdevp, a, b, hab⟩ := h.children_of_elder hxlive hxdev
        have hxp : s.parentOf x = some p := by
          have : x ∈ s.children p := by simp [hab]
          exact (mem_children.1 this).2
        rw [Option.elim_some]
        by_cases hqp : q = p
        . subst hqp
          have hab' : s.children q = (a ++ [x]) ++ dev :: b := by simp [hab]
          have hdisjoint : dev ∉ a ++ [x] := by
            have := hchain.nodup
            rw [hab', List.nodup_middle, List.nodup_cons] at this
            exact fun hd => this.1 (List.mem_append_left _ hd)
          rw [hab', List.erase_append_right _ hdisjoint, List.erase_cons_head, List.append_assoc,
            List.singleton_append]
          rw [hab] at hchain
          exact hchain.skip
        . have hother : ∀ z, s.parentOf z = some p → z ∉ s.children q := by
            intro z hz hzq
            have := hz.symm.trans (mem_children.1 hzq).2
            exact hqp (Option.some.inj this).symm
          rw [List.erase_of_not_mem (hother dev hdevp)]
          exact hchain.update_of_not_mem (hother x hxp)
    . intro x hx
      obtain ⟨hxne, hxlive⟩ := (hmem x).mp hx
      change u.parent x = s.parentOf x
      rw [hparent, Function.update_of_ne hxne]
      exact h.parent x hxlive
    . intro x
      rw [hmem, ← h.allocated]
      exact hisSome x
    . intro x hx p hp
      obtain ⟨_, hxlive⟩ := (hmem x).mp hx
      rw [hmem]
      refine ⟨?_, h.parents x hxlive p hp⟩
      intro heq
      exact hchild x hxlive (heq ▸ hp)
    . intro x hx hroot
      obtain ⟨hxne, hxlive⟩ := (hmem x).mp hx
      change u.sibling x = none
      rw [hsibling, Function.update_of_ne hxne]
      have hnone := h.roots x hxlive hroot
      cases ps with
      | none => exact hnone
      | some z =>
        rw [Option.elim_some, Function.update_of_ne]
        . exact hnone
        . intro heq
          subst heq
          rw [(hps x rfl).2] at hnone
          contradiction

/--
A device that was not found stays allocated.
-/
theorem Formed.step_remove_of_none (h : s.Formed) {dev head : α} {ps : Option α} (hdev : dev ∈ s.live)
    (hhead : s.tree.head = some head)
    (hfind : s.tree.findPrev dev fuel none none head = .ok (none, ps))
    : ∃ t, s.step fuel (.remove dev) = .ok t ∧ t.live.length ≤ s.live.length + 1 ∧ ¬ t.Exact := by
  obtain ⟨u, hu, hnode⟩ :=
    DeviceTree.exists_deviceRemove_of_none hhead hfind ((h.allocated dev).mpr hdev)
  refine ⟨s.removed dev u, DeviceHistory.step_remove hu, length_removed dev u, ?_⟩
  apply not_exact_of_isSome dev
  . exact h.list.nodup.not_mem_erase
  . change (u.node dev).isSome
    rw [hnode]
    exact (h.allocated dev).mpr hdev

/--
The last device of the list is the last child of its parent.
-/
theorem Formed.sibling_of_last (h : s.Formed) {pre : List α} {dev : α} (hlive : s.live = pre ++ [dev])
    : s.tree.sibling dev = none := by
  have hdev : dev ∈ s.live := by simp [hlive]
  cases hp : s.parentOf dev with
  | none => exact h.roots dev hdev hp
  | some p =>
    have hchain := h.children p (h.parents dev hdev p hp)
    rw [children_eq_of_live hlive hp] at hchain
    exact hchain.append_right

/--
For the last device of the list, the loop ends in its first round.
-/
theorem Formed.findPrev_of_last (h : s.Formed) (fuel : Nat) {pre : List α} {dev head q : α}
    (hlive : s.live = pre ++ [dev]) (hhead : head ∈ s.live) (hq : s.tree.next head = some q)
    : s.tree.findPrev dev (fuel + 1) none none head
        = .ok (if q = dev then some head else none,
          if s.tree.sibling head = some dev then some head else none) := by
  have hdev : dev ∈ s.live := by simp [hlive]
  have hnext : s.tree.next dev = none := by
    have hchain := h.list
    rw [hlive] at hchain
    exact hchain.append_right
  rw [DeviceTree.findPrev_next ((h.allocated head).mpr hhead) ((h.allocated dev).mpr hdev) hq]
  dsimp only
  rw [if_pos]
  simp [hnext, h.sibling_of_last hlive]

theorem Formed.step_careful (h : s.Formed) {c : DeviceCall α} (hadmits : s.Admits c)
    (hfuel : s.live.length < fuel)
    : ∃ t, s.step fuel c = .ok t ∧ t.live.length ≤ s.live.length + 1 ∧ (t.Exact → s.Careful c)
        ∧ (s.Careful c → t.Formed) := by
  cases c with
  | create dev parent =>
    obtain ⟨t, ht, hlive, -, hformed⟩ := h.step_create hadmits hfuel
    refine ⟨t, ht, ?_, fun _ => trivial, fun _ => hformed⟩
    rw [hlive]
    cases dev <;> simp
  | remove dev =>
    obtain ⟨hdev, hnil⟩ := hadmits
    have hnodup := h.list.nodup
    have halloc : ∀ x ∈ s.live, (s.tree.node x).isSome := fun x hx => (h.allocated x).mpr hx
    have hlist := h.list
    obtain ⟨n, rfl⟩ : ∃ n, fuel = n + 1 := ⟨fuel - 1, by lia⟩
    obtain ⟨pre, suf, hlive⟩ := List.append_of_mem hdev
    cases pre using List.reverseRecOn with
    | nil =>
      have hsibling := h.sibling_ne hlive
      rw [List.nil_append] at hlive
      rw [hlive] at hlist hnodup halloc hfuel
      rw [List.nodup_cons] at hnodup
      have hfind : s.tree.findPrev dev (n + 1) none none dev = .ok (none, none) :=
        DeviceTree.findPrev_of_not_mem ⟨rfl, hlist.2⟩ halloc (halloc dev (by simp)) hnodup.1
          hsibling (Nat.lt_of_succ_lt hfuel)
      obtain ⟨t, ht, hlength, hnot⟩ := h.step_remove_of_none hdev hlist.1 hfind
      refine ⟨t, ht, hlength, fun hexact => absurd hexact hnot, ?_⟩
      intro hcareful
      exact absurd (by simp [hlive]) hcareful.1
    | append_singleton pre y =>
      obtain ⟨head, hhead, hmem, hne⟩ : ∃ head, s.tree.head = some head ∧ s.live.head? = some head
          ∧ head ≠ dev := by
        rw [hlive, List.append_assoc] at hlist hnodup ⊢
        cases pre with
        | nil =>
          refine ⟨y, hlist.1, rfl, ?_⟩
          rintro rfl
          simp at hnodup
        | cons w ws =>
          refine ⟨w, hlist.1, rfl, ?_⟩
          rintro rfl
          simp at hnodup
      have hfirst : s.live.head? ≠ some dev := by simpa [hmem] using hne
      have hsplit : s.live = pre ++ y :: dev :: suf := by simp [hlive]
      cases suf with
      | cons z zs =>
        have hlast : s.live.getLast? ≠ some dev := by
          intro hlast
          rw [hlive, List.nodup_middle, List.nodup_cons] at hnodup
          rw [hlive, List.getLast?_append, List.getLast?_cons_cons,
            List.getLast?_eq_some_getLast (List.cons_ne_nil z zs), Option.some_or] at hlast
          have hz : dev ∈ z :: zs := by
            rw [← Option.some.inj hlast]
            exact List.getLast_mem _
          exact hnodup.1 (List.mem_append_right _ hz)
        rw [hsplit] at hlist halloc hfuel
        rw [hhead] at hlist
        obtain ⟨ps, hfind, helder⟩ := DeviceTree.exists_findPrev_of_mem none [] hlist
          halloc (by simp) (h.sibling_ne hlive) (by simp [DeviceTree.Elder]) (Nat.le_of_lt hfuel)
        obtain ⟨t, ht, hlength, honly, hkept⟩ := h.step_remove hsplit hnil helder hhead hne hfind
        refine ⟨t, ht, hlength, fun hexact => ⟨hfirst, fun heq => absurd heq hlast, honly hexact⟩, ?_⟩
        intro hcareful
        exact hkept hcareful.2.2
      | nil =>
        cases pre with
        | nil =>
          rw [hsplit] at hlist
          obtain rfl : head = y := Option.some.inj (hhead.symm.trans hlist.1)
          have hfind := h.findPrev_of_last n hlive (by simp [hlive]) hlist.2.1
          rw [if_pos rfl] at hfind
          have hnone : s.tree.Elder dev [] none := by simp [DeviceTree.Elder]
          have helder : s.tree.Elder dev [head] (if s.tree.sibling head = some dev then some head else none) :=
            hnone.concat head
          obtain ⟨t, ht, hlength, honly, hkept⟩ := h.step_remove hsplit hnil helder hhead hne hfind
          refine ⟨t, ht, hlength, fun hexact => ⟨hfirst, fun _ => by simp [hlive], honly hexact⟩, ?_⟩
          intro hcareful
          exact hkept hcareful.2.2
        | cons w ws =>
          obtain ⟨q, hq, hqne⟩ : ∃ q, s.tree.next w = some q ∧ q ≠ dev := by
            rw [hsplit] at hlist hnodup
            cases ws with
            | nil =>
              refine ⟨y, hlist.2.1, ?_⟩
              rintro rfl
              simp at hnodup
            | cons x xs =>
              refine ⟨x, hlist.2.1, ?_⟩
              rintro rfl
              simp at hnodup
          rw [hsplit] at hlist
          obtain rfl : head = w := Option.some.inj (hhead.symm.trans hlist.1)
          have hfind := h.findPrev_of_last n hlive (by simp [hlive]) hq
          rw [if_neg hqne] at hfind
          obtain ⟨t, ht, hlength, hnot⟩ := h.step_remove_of_none hdev hhead hfind
          refine ⟨t, ht, hlength, fun hexact => absurd hexact hnot, ?_⟩
          intro hcareful
          have := hcareful.2.1 (by rw [hlive, List.getLast?_concat])
          rw [hlive] at this
          simp only [List.length_append, List.length_cons, List.length_nil] at this
          omega

end DeviceHistory

variable {α : Type} [DecidableEq α]

def noDevices : DeviceHistory α := ⟨⟨none, fun _ => none⟩, [], fun _ => none⟩

/--
In every run, the list of devices and the children of each device are exactly those that were created
and not removed, and all others are freed, if and only if no device is removed that is the first one of
the list, the first child of its parent, or the last of three or more.
-/
theorem device_tree_exact_iff (fuel : Nat) (calls : List (DeviceCall α)) (hfuel : calls.length ≤ fuel)
    (hadmits : Along (DeviceHistory.step fuel) DeviceHistory.Admits noDevices calls)
    : Always (DeviceHistory.step fuel) DeviceHistory.Exact noDevices calls
        ↔ Along (DeviceHistory.step fuel) DeviceHistory.Careful noDevices calls := by
  apply Always.iff_along (I := DeviceHistory.Formed) (fun s => s.live.length) (fun _ h => h.toExact) _ _
    (by simpa [noDevices] using hfuel) hadmits
  . intro s c h hc hlt
    exact h.step_careful hc hlt
  . refine ⟨⟨rfl, ?_, ?_, ?_⟩, ?_, ?_⟩ <;> simp [noDevices]

/--
A device, two children of it, and another device. The second child is removed.
-/
theorem device_tree_exact_iff_secondChild
    : Always (DeviceHistory.step 5) DeviceHistory.Exact (noDevices (α := Nat))
        [.create (some 0) none, .create (some 1) (some 0), .create (some 2) (some 0), .create (some 3) none,
          .remove 2] :=
  (device_tree_exact_iff 5 _ (by decide) (by decide)).mpr (by decide)

/--
The only device, the first child of a device, and the last of three devices are removed.
-/
theorem device_tree_inexact
    : ¬ Always (DeviceHistory.step 4) DeviceHistory.Exact (noDevices (α := Nat))
          [.create (some 0) none, .remove 0]
        ∧ ¬ Always (DeviceHistory.step 4) DeviceHistory.Exact (noDevices (α := Nat))
          [.create (some 0) none, .create (some 1) (some 0), .create (some 2) (some 0), .remove 1]
        ∧ ¬ Always (DeviceHistory.step 4) DeviceHistory.Exact (noDevices (α := Nat))
          [.create (some 0) none, .create (some 1) none, .create (some 2) none, .remove 2] := by
  refine ⟨?_, ?_, ?_⟩
  . intro h
    obtain ⟨_, t, ht, h⟩ := h
    cases ht
    obtain ⟨_, t, ht, h⟩ := h
    cases ht
    exact absurd ((h.allocated 0).mp rfl) (by decide)
  . intro h
    obtain ⟨_, t, ht, h⟩ := h
    cases ht
    obtain ⟨_, t, ht, h⟩ := h
    cases ht
    obtain ⟨_, t, ht, h⟩ := h
    cases ht
    obtain ⟨_, t, ht, h⟩ := h
    cases ht
    -- the first child of the device is still the one that was freed
    exact absurd (h.children 0 (by decide)).1 (by decide)
  . intro h
    obtain ⟨_, t, ht, h⟩ := h
    cases ht
    obtain ⟨_, t, ht, h⟩ := h
    cases ht
    obtain ⟨_, t, ht, h⟩ := h
    cases ht
    obtain ⟨_, t, ht, h⟩ := h
    cases ht
    exact absurd ((h.allocated 2).mp rfl) (by decide)

end Emos.Boot
