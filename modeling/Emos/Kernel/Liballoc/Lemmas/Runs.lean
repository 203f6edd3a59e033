import Emos.Kernel.Liballoc.Lemmas.Heap
import Emos.Lib.Store

/-!
This module contains what holds in every run of the heap, whatever is called in which order and whatever the users of
the blocks write into them in between.
-/

open Lib

namespace Emos

namespace Liballoc

variable {σ : Type}

inductive Call where
  | malloc (reqSize : Nat)
  | free (ptr : Option Nat)
  | calloc (nobj size : Nat)
  | realloc (ptr : Option Nat) (size : Nat)
  deriving DecidableEq, Repr

def Call.run (P : Platform σ) (h : Heap σ) (mem : Memory) : Call → Run (Option Nat × Heap σ × Memory)
  | .malloc reqSize => do
    let ⟨p, h⟩ ← Liballoc.malloc P reqSize h
    .ok (p, h, mem)
  | .free ptr => do
    let h ← Liballoc.free P ptr h
    .ok (none, h, mem)
  | .calloc nobj size => Liballoc.calloc P nobj size h mem
  | .realloc ptr size => Liballoc.realloc P ptr size h mem

/--
The number of bytes that a call asks for.
-/
def Call.size : Call → Nat
  | .malloc reqSize => reqSize
  | .free _ => 0
  | .calloc nobj size => nobj * size
  | .realloc _ size => size

/--
The pointer that a call takes.
-/
def Call.ptr : Call → Option Nat
  | .malloc _ => none
  | .free ptr => ptr
  | .calloc _ _ => none
  | .realloc ptr _ => ptr

/--
What is asked for fits into the address space with all headers, and pointers are given back only once.
-/
structure Call.Admissible (h : Heap σ) (c : Call) : Prop where
  size_lt : c.size + (alignment + alignInfo) + (majorSize + minorSize) < 2 ^ 32
  live : ∀ p ∈ c.ptr, p ∈ h.live.map Prod.fst

/--
What the users of the heap do. Headers, and what is not in a page of the heap, may change at any time.
-/
inductive Event where
  | call (c : Call)
  | write (p i : Nat) (v : BitVec 8)
  | other
  deriving DecidableEq, Repr

abbrev State (σ : Type) := Heap σ × Memory

inductive Step (P : Platform σ) : State σ → Event → State σ → Prop where
  | call {h h' : Heap σ} {mem mem' : Memory} {c : Call} {res : Option Nat} (hc : c.Admissible h)
    (hrun : c.run P h mem = .ok (res, h', mem'))
    : Step P (h, mem) (.call c) (h', mem')
  | write {h : Heap σ} {mem : Memory} {p n i : Nat} {v : BitVec 8} (hp : (p, n) ∈ h.live) (hi : i < n)
    : Step P (h, mem) (.write p i v) (h, Function.update mem (p + i) v)
  | other {h : Heap σ} {mem mem' : Memory}
    (hkept : ∀ s ∈ h.pages, ∀ a, s.1 ≤ a → a < s.1 + s.2 * pageSize → ¬ h.Header a → mem' a = mem a)
    : Step P (h, mem) .other (h, mem')

/--
The heap before its first call.
-/
def Heap.empty (s : σ) : Heap σ := ⟨[], none, 0, 0, s⟩

/--
What an event is for someone who sees nothing but the blocks.
-/
def Event.act : Event → Store.Act Nat (BitVec 8)
  | .call (.malloc n) => .acquire n none
  | .call (.free none) => .idle
  | .call (.free (some p)) => .release p
  | .call (.calloc nobj size) => .acquire (nobj * size) (some 0)
  | .call (.realloc none 0) => .idle
  | .call (.realloc none (n + 1)) => .acquire (n + 1) none
  | .call (.realloc (some p) 0) => .release p
  | .call (.realloc (some p) (n + 1)) => .resize p (n + 1)
  | .write p i v => .write p i v
  | .other => .idle

section Contents

variable {live rest : List (Nat × Nat)} {mem mem' : Memory} {p n : Nat}

def bytesAt (mem : Memory) (p n : Nat) : List (BitVec 8) := (List.range n).map fun i => mem (p + i)

theorem length_bytesAt : (bytesAt mem p n).length = n := by
  unfold bytesAt
  rw [List.length_map, List.length_range]

theorem getElem_bytesAt {i : Nat} (hi : i < (bytesAt mem p n).length) : (bytesAt mem p n)[i] = mem (p + i) := by
  simp [bytesAt]

theorem bytesAt_congr {q : Nat} (h : ∀ i, i < n → mem' (q + i) = mem (p + i)) : bytesAt mem' q n = bytesAt mem p n :=
  List.map_congr_left fun i hi => h i (List.mem_range.mp hi)

/--
What is in the blocks.
-/
def contents (live : List (Nat × Nat)) (mem : Memory) : Store Nat (BitVec 8) :=
  fun p => (live.find? (·.1 = p)).map fun r => bytesAt mem r.1 r.2

theorem contents_of_mem (hsep : live.Pairwise Heap.Separate) (hmem : (p, n) ∈ live)
    : contents live mem p = some (bytesAt mem p n) := by
  obtain ⟨⟨q, m⟩, hfind⟩ := Option.isSome_iff_exists.mp
    (List.find?_isSome (p := fun r : Nat × Nat => r.1 = p).mpr ⟨(p, n), hmem, decide_eq_true rfl⟩)
  obtain rfl : q = p := by simpa using List.find?_some hfind
  obtain rfl := Heap.size_unique hsep (List.mem_of_find?_eq_some hfind) hmem
  unfold contents
  rw [hfind, Option.map_some]

theorem contents_none (h : ∀ n, (p, n) ∉ live) : contents live mem p = none := by
  unfold contents
  rw [Option.map_eq_none_iff, List.find?_eq_none]
  intro ⟨q, n⟩ hmem hq
  obtain rfl : q = p := by simpa using hq
  exact h n hmem

theorem contents_congr (h : ∀ r ∈ live, ∀ a, r.1 ≤ a → a < r.1 + r.2 → mem' a = mem a)
    : contents live mem' = contents live mem := by
  funext p
  unfold contents
  cases hfind : live.find? (·.1 = p) with
  | none => rfl
  | some r =>
    have hr := List.mem_of_find?_eq_some hfind
    rw [Option.map_some, Option.map_some, bytesAt_congr fun i hi => h r hr _ (by omega) (by omega)]

/--
The blocks are one block and the others.
-/
theorem contents_cons (hsep : live.Pairwise Heap.Separate) (hperm : live.Perm ((p, n) :: rest)) (mem : Memory)
    : contents live mem = Function.update (contents rest mem) p (some (bytesAt mem p n))
        ∧ contents rest mem p = none := by
  have hpair := hsep
  rw [hperm.pairwise_iff fun hr => hr.symm, List.pairwise_cons] at hpair
  have hnone : contents rest mem p = none := contents_none fun m hm => (hpair.1 _ hm).1 rfl
  refine ⟨?_, hnone⟩
  funext q
  by_cases hq : q = p
  . subst hq
    rw [Function.update_self, contents_of_mem hsep (hperm.mem_iff.mpr List.mem_cons_self)]
  . rw [Function.update_of_ne hq]
    by_cases hmem : ∃ m, (q, m) ∈ rest
    . obtain ⟨m, hm⟩ := hmem
      rw [contents_of_mem hpair.2 hm, contents_of_mem hsep (hperm.mem_iff.mpr (List.mem_cons_of_mem _ hm))]
    . have hno : ∀ m, (q, m) ∉ live := by
        intro m hm
        obtain heq | hm := List.mem_cons.mp (hperm.mem_iff.mp hm)
        . exact hq (Prod.mk.inj heq).1
        . exact hmem ⟨m, hm⟩
      rw [contents_none hno, contents_none fun m hm => hmem ⟨m, hm⟩]

theorem take_bytesAt (k : Nat) : (bytesAt mem p n).take k = bytesAt mem p (min k n) := by
  unfold bytesAt
  rw [← List.map_take, List.take_range]

theorem liballocMemset_eq (s : Nat) (c : BitVec 8) (n a : Nat)
    : liballocMemset mem s c n a = if s ≤ a ∧ a < s + n then c else mem a := by
  induction n generalizing mem s with
  | zero =>
    rw [if_neg (by omega)]
    rfl
  | succ n ih =>
    rw [liballocMemset, ih]
    by_cases ha : a = s
    . subst ha
      rw [if_neg (by omega), Function.update_self, if_pos (by omega)]
    . rw [Function.update_of_ne ha]
      congr 1
      apply propext
      lia

end Contents

section Calls

variable {Owns : σ → List (Nat × Nat) → Prop} {P : Platform σ} {h h' : Heap σ} {mem mem' : Memory} {p n size : Nat}

/--
A call that writes to the block it has got, without a look at whether it has got one.
-/
def Call.Fills : Call → Prop
  | .malloc _ => False
  | .free _ => False
  | .calloc _ _ => True
  | .realloc ptr _ => ptr.isSome

/--
A call does what its users see of it, or it writes to `NULL` where there was no memory.
-/
def Does (Owns : σ → List (Nat × Nat) → Prop) (P : Platform σ) (h : Heap σ) (mem : Memory) (c : Call) : Prop :=
  (∃ res h' mem', c.run P h mem = .ok (res, h', mem') ∧ h'.Sound Owns
      ∧ Store.Step (contents h.live mem) (Event.call c).act (contents h'.live mem'))
    ∨
  c.run P h mem = .error .access ∧ c.Fills ∧ 0 < c.size ∧ h.Refused P c.size

theorem live_of_majors (hsame : h'.majors = h.majors) : h'.live = h.live := congrArg (List.flatMap Major.live) hsame

theorem malloc_does (hP : P.Lawful Owns) (hs : h.Sound Owns) (mem : Memory)
    (hsize : n + (alignment + alignInfo) + (majorSize + minorSize) < 2 ^ 32)
    : ∃ res h', malloc P n h = .ok (res, h') ∧ h'.Sound Owns
        ∧ Store.Step (contents h.live mem) (.acquire n none) (contents h'.live mem) := by
  obtain ⟨p, h', hrun, hs', hins, _⟩ | ⟨h', hrun, hs', hsame, _⟩ := Heap.malloc_spec hP hsize hs
  . obtain ⟨heq, hnone⟩ := contents_cons hs'.toValid.safe.separate hins.perm mem
    refine ⟨some p, h', hrun, hs', ?_⟩
    rw [heq]
    exact .acquire hnone length_bytesAt (by simp)
  . refine ⟨none, h', hrun, hs', ?_⟩
    rw [live_of_majors hsame]
    exact .full

theorem free_does (hP : P.Lawful Owns) (hs : h.Sound Owns) (mem : Memory) (hp : p ∈ h.live.map Prod.fst)
    : ∃ h', free P (some p) h = .ok h' ∧ h'.Sound Owns
        ∧ Store.Step (contents h.live mem) (.release p) (contents h'.live mem) := by
  obtain ⟨n, h', hrun, hs', hins, _⟩ := Heap.free_spec hP hs hp
  obtain ⟨heq, hnone⟩ := contents_cons hs.toValid.safe.separate hins.perm mem
  refine ⟨h', hrun, hs', ?_⟩
  have hafter : contents h'.live mem = Function.update (contents h.live mem) p none := by
    rw [heq, Function.update_idem, ← hnone, Function.update_eq_self]
  rw [hafter]
  exact .release (contents_of_mem hs.toValid.safe.separate (hins.perm.mem_iff.mpr List.mem_cons_self))

theorem calloc_does (hP : P.Lawful Owns) (hs : h.Sound Owns) (mem : Memory) {nobj : Nat}
    (hsize : nobj * size + (alignment + alignInfo) + (majorSize + minorSize) < 2 ^ 32)
    : Does Owns P h mem (.calloc nobj size) := by
  have hreal : u32 (nobj * size) = nobj * size := u32_of_lt (by omega)
  unfold Does
  dsimp only [Call.run, Event.act, Call.size]
  unfold calloc
  dsimp only
  rw [hreal]
  obtain ⟨p, h', hrun, hs', hins, _⟩ | ⟨h', hrun, hs', hsame, hfull, k, halloc⟩ := Heap.malloc_spec hP hsize hs
  . rw [hrun, ok_bind]
    dsimp only
    obtain ⟨heq, hnone⟩ := contents_cons hs'.toValid.safe.separate hins.perm (liballocMemset mem p 0 (nobj * size))
    refine .inl ⟨some p, h', _, rfl, hs', ?_⟩
    have hothers : contents h.live (liballocMemset mem p 0 (nobj * size)) = contents h.live mem := by
      apply contents_congr
      intro r hr a hle hlt
      have hsep := (hs'.toValid.safe.separate_new hins hr).2
      dsimp only at hsep
      rw [liballocMemset_eq, if_neg (by lia)]
    rw [hothers] at heq hnone
    rw [heq]
    refine .acquire hnone length_bytesAt ?_
    intro v hv
    obtain rfl := Option.mem_some_iff.mp hv
    rw [List.eq_replicate_iff]
    refine ⟨length_bytesAt, ?_⟩
    intro b hb
    obtain ⟨i, hi, rfl⟩ := List.mem_map.mp hb
    rw [List.mem_range] at hi
    rw [liballocMemset_eq, if_pos (by lia)]
  . rw [hrun, ok_bind]
    dsimp only
    by_cases hzero : nobj * size = 0
    . rw [if_pos hzero]
      refine .inl ⟨none, h', mem, rfl, hs', ?_⟩
      rw [live_of_majors hsame]
      exact .full
    . rw [if_neg hzero]
      exact .inr ⟨rfl, trivial, by lia, hfull, k, h'.system, halloc⟩

theorem realloc_does (hP : P.Lawful Owns) (hs : h.Sound Owns) (mem : Memory) (hp : p ∈ h.live.map Prod.fst)
    (hsize : size + 1 + (alignment + alignInfo) + (majorSize + minorSize) < 2 ^ 32)
    : Does Owns P h mem (.realloc (some p) (size + 1)) := by
  have hsep := hs.toValid.safe.separate
  obtain ⟨n, hmem, ⟨q, h', mem', hrun, hs', hperm, hmoved⟩ | ⟨hlt, hrefused, hnull⟩⟩ :=
    Heap.realloc_spec hP hs hp (Nat.succ_pos size) hsize mem
  . obtain ⟨front, back, hsplit⟩ := List.append_of_mem hmem
    have hrest : h.live.Perm ((p, n) :: (front ++ back)) := by
      rw [hsplit]
      exact List.perm_middle
    have hnew : h'.live.Perm ((q, size + 1) :: (front ++ back)) :=
      (hperm.trans ((hrest.cons _).trans (List.Perm.swap _ _ _))).cons_inv
    obtain ⟨hold, hp'⟩ := contents_cons hsep hrest mem
    obtain ⟨heq, hq⟩ := contents_cons hs'.toValid.safe.separate hnew mem'
    have hothers : contents (front ++ back) mem' = contents (front ++ back) mem := by
      apply contents_congr
      intro r hr
      have hpair := hsep
      rw [hrest.pairwise_iff fun hr => hr.symm, List.pairwise_cons] at hpair
      exact hmoved.others r (hrest.mem_iff.mpr (List.mem_cons_of_mem _ hr)) (hpair.1 r hr).1.symm
    rw [hothers] at heq hq
    refine .inl ⟨some q, h', mem', hrun, hs', ?_⟩
    have hafter : contents h'.live mem'
        = Function.update (Function.update (contents h.live mem) p none) q (some (bytesAt mem' q (size + 1))) := by
      rw [heq, hold, Function.update_idem, ← hp', Function.update_eq_self]
    rw [hafter]
    refine .resize (contents_of_mem hsep hmem) ?_ length_bytesAt ?_
    . by_cases hpq : q = p
      . exact .inl hpq
      . rw [hold, Function.update_of_ne hpq]
        exact .inr hq
    . rw [length_bytesAt, take_bytesAt, take_bytesAt, Nat.min_comm n]
      exact bytesAt_congr fun i hi => hmoved.kept i (by lia) (by lia)
  . obtain ⟨hn, hrun⟩ | ⟨rfl, h', hrun, hs', hperm⟩ := hnull
    . exact .inr ⟨hrun, rfl, Nat.succ_pos size, hrefused⟩
    obtain ⟨heq, hnone⟩ := contents_cons hsep hperm mem
    refine .inl ⟨none, h', mem, hrun, hs', ?_⟩
    have hafter : contents h'.live mem = Function.update (contents h.live mem) p none := by
      rw [heq, Function.update_idem, ← hnone, Function.update_eq_self]
    rw [hafter]
    exact .lost (contents_of_mem hsep (hperm.mem_iff.mpr List.mem_cons_self))

theorem call_does (hP : P.Lawful Owns) (hs : h.Sound Owns) (mem : Memory) {c : Call} (hc : c.Admissible h)
    : Does Owns P h mem c := by
  have hsize := hc.size_lt
  cases c with
  | malloc n =>
    obtain ⟨res, h', hrun, hs', hstep⟩ := malloc_does (n := n) hP hs mem hsize
    refine .inl ⟨res, h', mem, ?_, hs', hstep⟩
    unfold Call.run
    dsimp only
    rw [hrun, ok_bind]
  | free ptr =>
    cases ptr with
    | none => exact .inl ⟨none, h, mem, rfl, hs, .idle⟩
    | some p =>
      obtain ⟨h', hrun, hs', hstep⟩ := free_does hP hs mem (hc.live p rfl)
      refine .inl ⟨none, h', mem, ?_, hs', hstep⟩
      unfold Call.run
      dsimp only
      rw [hrun, ok_bind]
  | calloc nobj size => exact calloc_does hP hs mem hsize
  | realloc ptr size =>
    cases ptr with
    | none =>
      cases size with
      | zero => exact .inl ⟨none, h, mem, rfl, hs, .idle⟩
      | succ n =>
        obtain ⟨res, h', hrun, hs', hstep⟩ := malloc_does (n := n + 1) hP hs mem hsize
        refine .inl ⟨res, h', mem, ?_, hs', hstep⟩
        unfold Call.run Liballoc.realloc
        dsimp only
        rw [if_neg (Nat.succ_ne_zero n), hrun, ok_bind]
    | some p =>
      cases size with
      | zero =>
        obtain ⟨h', hrun, hs', hstep⟩ := free_does hP hs mem (hc.live p rfl)
        refine .inl ⟨none, h', mem, ?_, hs', hstep⟩
        unfold Call.run Liballoc.realloc
        dsimp only
        rw [if_pos rfl, hrun, ok_bind]
      | succ n => exact realloc_does hP hs mem (hc.live p rfl) hsize

end Calls

section Runs

variable {Owns : σ → List (Nat × Nat) → Prop} {P : Platform σ} {s : σ} {mem : Memory} {x y : State σ}
  {es es' : List Event}

/--
The blocks of a state.
-/
def State.store (x : State σ) : Store Nat (BitVec 8) := contents x.1.live x.2

theorem store_write {h : Heap σ} {p n i : Nat} (hs : h.Safe) (hp : (p, n) ∈ h.live) (hi : i < n) (v : BitVec 8)
    : contents h.live (Function.update mem (p + i) v)
        = Function.update (contents h.live mem) p (some ((bytesAt mem p n).set i v)) := by
  obtain ⟨front, back, hsplit⟩ := List.append_of_mem hp
  have hperm : h.live.Perm ((p, n) :: (front ++ back)) := by
    rw [hsplit]
    exact List.perm_middle
  have hpair := hs.separate
  rw [hperm.pairwise_iff fun hr => hr.symm, List.pairwise_cons] at hpair
  have hothers : contents (front ++ back) (Function.update mem (p + i) v) = contents (front ++ back) mem := by
    apply contents_congr
    intro r hr a hle hlt
    have hsep := (hpair.1 r hr).2
    dsimp only at hsep
    rw [Function.update_of_ne (by lia)]
  have hbytes : bytesAt (Function.update mem (p + i) v) p n = (bytesAt mem p n).set i v := by
    apply List.ext_getElem
    . rw [List.length_set, length_bytesAt, length_bytesAt]
    . intro k hk _
      rw [List.getElem_set, getElem_bytesAt, getElem_bytesAt]
      by_cases hik : i = k
      . rw [if_pos hik, hik, Function.update_self]
      . rw [if_neg hik, Function.update_of_ne (by omega)]
  rw [(contents_cons hs.separate hperm _).1, (contents_cons hs.separate hperm mem).1, hothers, hbytes,
    Function.update_idem]

/--
An event does to the blocks what it is meant to do.
-/
theorem step_refines (hP : P.Lawful Owns) {e : Event} (hs : x.1.Sound Owns) (hstep : Step P x e y)
    : y.1.Sound Owns ∧ Store.Step x.store e.act y.store := by
  cases hstep with
  | call hc hrun =>
    obtain ⟨res, h', mem', hrun', hs', hact⟩ | ⟨hrun', _⟩ := call_does hP hs _ hc
    . rw [hrun] at hrun'
      cases hrun'
      exact ⟨hs', hact⟩
    . rw [hrun] at hrun'
      contradiction
  | write hp hi =>
    have hsafe := hs.toValid.safe
    refine ⟨hs, ?_⟩
    unfold State.store
    rw [store_write hsafe hp hi]
    exact .write (contents_of_mem hsafe.separate hp) (by rw [length_bytesAt]; exact hi)
  | @other h mem mem' hkept =>
    have hsafe := hs.toValid.safe
    have hsame : contents h.live mem' = contents h.live mem := by
      apply contents_congr
      intro r hr a hle hlt
      obtain ⟨t, ht, hlow, hhigh⟩ := hsafe.inPages r hr
      exact hkept t ht a (Nat.le_trans hlow hle) (Nat.lt_of_lt_of_le hlt hhigh) (hsafe.untouched r hr a hle hlt)
    refine ⟨hs, ?_⟩
    unfold State.store
    dsimp only [Event.act]
    rw [hsame]
    exact .idle

theorem Heap.sound_empty (howns : Owns s []) : (Heap.empty s).Sound Owns where
  majors := fun _ hm => absurd hm List.not_mem_nil
  apart := .nil
  bet := fun _ hb => absurd hb (Option.some_ne_none _).symm
  allocated_eq := rfl
  inuse_eq := rfl
  used := fun _ hm => absurd hm List.not_mem_nil
  owns := howns

theorem runs_sound (hP : P.Lawful Owns) (howns : Owns s []) (hruns : Runs (Step P) (Heap.empty s, mem) es x)
    : x.1.Sound Owns :=
  hruns.invariant (Q := fun x => x.1.Sound Owns) (fun _ _ _ hs hstep => (step_refines hP hs hstep).1)
    (Heap.sound_empty howns)

/--
A system that hands out pages one after the other until there are no more, and that uses none of them twice.
-/
def Platform.bump : Platform Nat where
  alloc := fun next n =>
    if (next + n) * pageSize < 2 ^ 32 then .ok (some (next * pageSize), next + n) else .ok (none, next)
  free := fun next _ _ => .ok next

/--
What has been handed out is below the next page.
-/
def BumpOwns (next : Nat) (owned : List (Nat × Nat)) : Prop :=
  0 < next ∧ ∀ r ∈ owned, r.1 + r.2 * pageSize ≤ next * pageSize

theorem bump_lawful : Platform.bump.Lawful BumpOwns where
  alloc := by
    intro next owned n ⟨hpos, howned⟩ hn _
    have hpage : 0 < pageSize := by decide
    unfold Platform.bump
    dsimp only
    by_cases hfit : (next + n) * pageSize < 2 ^ 32
    . rw [if_pos hfit]
      rw [Nat.add_mul] at hfit
      refine ⟨_, _, rfl, ⟨Nat.add_pos_left hpos n, ?_⟩, Nat.mul_pos hpos hpage, hfit, fun r hr => .inr (howned r hr)⟩
      intro r hr
      rw [Nat.add_mul]
      obtain hr | hr := List.mem_append.mp hr
      . exact Nat.le_trans (howned r hr) (Nat.le_add_right _ _)
      . obtain rfl := List.mem_singleton.mp hr
        exact Nat.le_refl _
    . rw [if_neg hfit]
      exact ⟨_, _, rfl, hpos, howned⟩
  free := by
    intro next front a n back ⟨hpos, howned⟩
    refine ⟨next, rfl, hpos, ?_⟩
    intro r hr
    obtain hr | hr := List.mem_append.mp hr
    . exact howned r (List.mem_append_left _ hr)
    . exact howned r (List.mem_append_right _ (List.mem_cons_of_mem _ hr))

theorem bumpOwns_one : BumpOwns 1 [] := ⟨Nat.one_pos, fun _ hr => absurd hr List.not_mem_nil⟩

/--
The heap after a call of `malloc` for 5 bytes, and after another one for 3 bytes.
-/
def bumpHeap : Heap Nat := ⟨[⟨4096, 16, 65536, 85, [⟨4120, 37, 5, 16⟩]⟩], some 4096, 65536, 37, 17⟩

def bumpMemory : Memory := Function.update (fun _ => 0) 4164 7

theorem admissible_malloc {h : Heap σ} {n : Nat} (hn : n + (alignment + alignInfo) + (majorSize + minorSize) < 2 ^ 32)
    : (Call.malloc n).Admissible h :=
  ⟨hn, fun _ hp => absurd hp (Option.not_mem_none _)⟩

theorem bump_malloc
    : (Call.malloc 5).run Platform.bump (Heap.empty 1) (fun _ => 0) = .ok (some 4160, bumpHeap, fun _ => 0) :=
  rfl

theorem bump_runs
    : Runs (Step Platform.bump) (Heap.empty 1, fun _ => 0) [.call (.malloc 5), .write 4160 4 7]
      (bumpHeap, bumpMemory) :=
  .cons (.call (admissible_malloc (by decide)) bump_malloc)
    (.cons (.write (n := 5) (i := 4) (by decide) (by decide)) (.nil _))

/--
Every call returns, but for one that writes to the block it should have got where the system has refused the pages for
it and no major block has room.
-/
theorem heap_returns (hP : P.Lawful Owns) (howns : Owns s []) (hruns : Runs (Step P) (Heap.empty s, mem) es x)
    {c : Call} (hc : c.Admissible x.1)
    : (∃ res h mem', c.run P x.1 x.2 = .ok (res, h, mem'))
        ∨
      c.run P x.1 x.2 = .error .access ∧ c.Fills ∧ 0 < c.size ∧ x.1.Refused P c.size := by
  obtain ⟨res, h, mem', hrun, _⟩ | hfault := call_does hP (runs_sound hP howns hruns) x.2 hc
  . exact .inl ⟨res, h, mem', hrun⟩
  . exact .inr hfault

theorem heap_returns_bump
    : (∃ res h mem', (Call.calloc 2 3).run Platform.bump bumpHeap bumpMemory = .ok (res, h, mem'))
        ∨
      (Call.calloc 2 3).run Platform.bump bumpHeap bumpMemory = .error .access ∧ (Call.calloc 2 3).Fills
        ∧ 0 < (Call.calloc 2 3).size ∧ bumpHeap.Refused Platform.bump (Call.calloc 2 3).size :=
  heap_returns bump_lawful bumpOwns_one bump_runs ⟨by decide, fun _ hp => absurd hp (Option.not_mem_none _)⟩

/--
A gap that is wide enough for the block with its header is found, whichever major block it is in.
-/
theorem heap_finds (hP : P.Lawful Owns) (howns : Owns s []) (hruns : Runs (Step P) (Heap.empty s, mem) es x)
    {n g : Nat} {maj : Major} (hn : n + (alignment + alignInfo) + (majorSize + minorSize) < 2 ^ 32)
    (hmaj : maj ∈ x.1.majors) (hg : g ∈ maj.gaps) (hwide : n + (alignment + alignInfo) + minorSize ≤ g)
    : ∃ p h, malloc P n x.1 = .ok (some p, h) ∧ h.system = x.1.system ∧ h.pages = x.1.pages
        ∧ h.live.Perm ((p, n) :: x.1.live) := by
  have hfull : ¬ x.1.Full (n + (alignment + alignInfo)) := by
    intro hfull
    have hlt := hfull maj hmaj g hg
    omega
  obtain ⟨p, h, hrun, _, hins, ⟨hsystem, hpages⟩ | ⟨hno, _⟩⟩ | ⟨_, _, _, _, hno, _⟩ :=
    Heap.malloc_spec hP hn (runs_sound hP howns hruns)
  . exact ⟨p, h, hrun, hsystem, hpages, hins.perm⟩
  . exact absurd hno hfull
  . exact absurd hno hfull

theorem heap_finds_bump
    : ∃ p h, malloc Platform.bump 3 bumpHeap = .ok (some p, h) ∧ h.system = bumpHeap.system
        ∧ h.pages = bumpHeap.pages ∧ h.live.Perm ((p, 3) :: bumpHeap.live) :=
  heap_finds (g := 65451) bump_lawful bumpOwns_one bump_runs (by decide) (List.mem_singleton_self _) (by decide)
    (by decide)

end Runs

end Liballoc

end Emos
