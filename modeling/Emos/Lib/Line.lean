import Mathlib.Data.List.Chain
import Mathlib.Data.List.Iterate
import Mathlib.Data.Set.Function
import Mathlib.Tactic.Linarith

/-!
This module contains trails, which are lists with a first and a last element whose neighbours are related, chains of
pieces that each start where the one before ends, and straight lines on a grid, from the origin to a point `(a, b)`
with `0 < a` and `0 < b`. Each point of a line is found from the one before it, with integers only.
-/

namespace Lib

variable {α β : Type} {R : α → α → Prop}

structure Trail (R : α → α → Prop) (first last : α) (l : List α) : Prop where
  head : l.head? = some first
  getLast : l.getLast? = some last
  chain : l.IsChain R

/--
The first of the pieces starts at `a`, each other one starts where the one before ends, and the last one ends at `b`.
-/
def Connects (start finish : α → β) : β → β → List α → Prop
  | a, b, [] => a = b
  | a, b, p :: l => start p = a ∧ Connects start finish (finish p) b l

namespace Trail

theorem single (R : α → α → Prop) (a : α)
    : Trail R a a [a] := by
  constructor
  . simp
  . simp
  . simp

theorem cons {a b c : α} {l : List α} (hr : R a b) (h : Trail R b c l)
    : Trail R a c (a :: l) := by
  constructor
  . simp
  . rw [List.getLast?_cons, h.getLast]
    simp
  . rw [List.isChain_cons]
    constructor
    . intro d hd
      rw [h.head, Option.mem_some_iff] at hd
      rw [← hd]
      exact hr
    . exact h.chain

theorem append {a b c d : α} {l l' : List α} (hl : Trail R a b l) (hr : R b c) (hl' : Trail R c d l')
    : Trail R a d (l ++ l') := by
  constructor
  . rw [List.head?_append, hl.head]
    simp
  . rw [List.getLast?_append, hl'.getLast]
    simp
  . apply hl.chain.append hl'.chain
    intro x hx y hy
    rw [hl.getLast, Option.mem_some_iff] at hx
    rw [hl'.head, Option.mem_some_iff] at hy
    rw [← hx, ← hy]
    exact hr

theorem map {S : β → β → Prop} {f : α → β} {a b : α} {l : List α} (hf : ∀ x y, R x y → S (f x) (f y))
    (h : Trail R a b l)
    : Trail S (f a) (f b) (l.map f) := by
  constructor
  . rw [List.head?_map, h.head]
    simp
  . rw [List.getLast?_map, h.getLast]
    simp
  . apply List.isChain_map_of_isChain f hf h.chain

/--
The trail that a function makes from an element on, as long as it keeps `P`.
-/
theorem iterate {f : α → α} {P : α → Prop} (hkeep : ∀ x, P x → P (f x)) (hstep : ∀ x, P x → R x (f x)) {a : α}
    (ha : P a) (n : Nat)
    : Trail R a (f^[n] a) (List.iterate f a (n + 1)) := by
  induction n generalizing a with
  | zero => apply single
  | succ n ih =>
    rw [List.iterate, Function.iterate_succ_apply]
    apply cons
    . apply hstep a ha
    . apply ih
      apply hkeep a ha

end Trail

theorem forall_mem_iterate {f : α → α} {P : α → Prop} (hkeep : ∀ x, P x → P (f x)) {a : α} (ha : P a) (n : Nat)
    : ∀ x ∈ List.iterate f a n, P x := by
  intro x hx
  rw [List.mem_iterate] at hx
  obtain ⟨m, _, rfl⟩ := hx
  have hmaps : Set.MapsTo f {x | P x} {x | P x} := hkeep
  apply hmaps.iterate m ha

end Lib

namespace Lib

namespace Line

def step (a b : Int) (p : Int × Int) : Int × Int :=
  (if b * (2 * p.1 + 1) ≤ 2 * a * (p.2 + 1) then p.1 + 1 else p.1,
    if a * (2 * p.2 + 1) ≤ 2 * b * (p.1 + 1) then p.2 + 1 else p.2)

/--
`j` is the integer that is nearest to `b * i / a`.
-/
def Near (a b i j : Int) : Prop := a * (2 * j - 1) ≤ 2 * b * i ∧ 2 * b * i < a * (2 * j + 1)

def On (a b : Int) (p : Int × Int) : Prop := if b ≤ a then Near a b p.1 p.2 else Near b a p.2 p.1

/--
The coordinate that changes with every step.
-/
def major (a b : Int) (p : Int × Int) : Int := if b ≤ a then p.1 else p.2

def Move (p q : Int × Int) : Prop := (q.1 = p.1 ∨ q.1 = p.1 + 1) ∧ (q.2 = p.2 ∨ q.2 = p.2 + 1) ∧ p ≠ q

variable {a b i j : Int} {p : Int × Int}

theorem step_fst (a b : Int) (p : Int × Int)
    : (step a b p).1 = if b * (2 * p.1 + 1) ≤ 2 * a * (p.2 + 1) then p.1 + 1 else p.1 := rfl

theorem step_snd (a b : Int) (p : Int × Int)
    : (step a b p).2 = if a * (2 * p.2 + 1) ≤ 2 * b * (p.1 + 1) then p.2 + 1 else p.2 := rfl

theorem Near.major_moves (h : Near a b i j) (hle : b ≤ a)
    : b * (2 * i + 1) ≤ 2 * a * (j + 1) := by
  have hupper := h.2
  linarith

theorem Near.next (h : Near a b i j) (hb : 0 < b) (hle : b ≤ a)
    : Near a b (i + 1) (if a * (2 * j + 1) ≤ 2 * b * (i + 1) then j + 1 else j) := by
  have hlower := h.1
  have hupper := h.2
  split
  next hstep =>
    constructor
    . linarith
    . linarith
  next hstep =>
    constructor
    . linarith
    . linarith

theorem Near.nonneg (h : Near a b i j) (ha : 0 < a) (hb : 0 < b) (hi : 0 ≤ i)
    : 0 ≤ j := by
  by_contra hneg
  have hprod : a * (2 * j + 1) ≤ 0 := Int.mul_nonpos_of_nonneg_of_nonpos (by omega) (by omega)
  have hpos : 0 ≤ 2 * b * i := Int.mul_nonneg (by omega) hi
  have hupper := h.2
  omega

theorem Near.le (h : Near a b i j) (ha : 0 < a) (hb : 0 < b) (hi : i ≤ a)
    : j ≤ b := by
  by_contra hgt
  have hprod : a * (2 * b + 1) ≤ a * (2 * j - 1) := Int.mul_le_mul_of_nonneg_left (by omega) (by omega)
  have hend : 2 * b * i ≤ 2 * b * a := Int.mul_le_mul_of_nonneg_left hi (by omega)
  have hlower := h.1
  linarith

theorem Near.of_eq (h : Near a b a j) (ha : 0 < a) (hb : 0 < b)
    : j = b := by
  have hle := h.le ha hb (Int.le_refl a)
  have hge : b ≤ j := by
    by_contra hlt
    have hprod : a * (2 * j + 1) ≤ a * (2 * b - 1) := Int.mul_le_mul_of_nonneg_left (by omega) (by omega)
    have hupper := h.2
    linarith
  omega

theorem On.next (h : On a b p) (ha : 0 < a) (hb : 0 < b)
    : On a b (step a b p) ∧ major a b (step a b p) = major a b p + 1 := by
  unfold On at h
  unfold On major step
  split
  next hle =>
    rw [if_pos hle] at h
    rw [if_pos (h.major_moves hle)]
    exact ⟨h.next hb hle, rfl⟩
  next hlt =>
    rw [if_neg hlt] at h
    rw [if_pos (h.major_moves (by omega))]
    exact ⟨h.next ha (by omega), rfl⟩

theorem On.move (h : On a b p) (ha : 0 < a) (hb : 0 < b)
    : Move p (step a b p) := by
  refine ⟨?_, ?_, ?_⟩
  . rw [step_fst]
    split
    . simp
    . simp
  . rw [step_snd]
    split
    . simp
    . simp
  . intro heq
    have hmajor := (h.next ha hb).2
    rw [← heq] at hmajor
    omega

theorem On.nonneg (h : On a b p) (ha : 0 < a) (hb : 0 < b) (hp : 0 ≤ major a b p)
    : 0 ≤ p.1 ∧ 0 ≤ p.2 := by
  unfold On at h
  unfold major at hp
  split at h
  next hle =>
    rw [if_pos hle] at hp
    exact ⟨hp, h.nonneg ha hb hp⟩
  next hlt =>
    rw [if_neg hlt] at hp
    exact ⟨h.nonneg hb ha hp, hp⟩

theorem On.le (h : On a b p) (ha : 0 < a) (hb : 0 < b) (hp : major a b p ≤ max a b)
    : p.1 ≤ a ∧ p.2 ≤ b := by
  unfold On at h
  unfold major at hp
  split at h
  next hle =>
    rw [if_pos hle, max_eq_left hle] at hp
    exact ⟨hp, h.le ha hb hp⟩
  next hlt =>
    rw [if_neg hlt, max_eq_right (by omega)] at hp
    exact ⟨h.le hb ha hp, hp⟩

theorem On.eq_end_iff (h : On a b p) (ha : 0 < a) (hb : 0 < b)
    : p = (a, b) ↔ major a b p = max a b := by
  unfold On at h
  unfold major
  split at h
  next hle =>
    rw [if_pos hle, max_eq_left hle]
    constructor
    . intro heq
      rw [heq]
    . intro heq
      rw [heq] at h
      exact Prod.ext heq (h.of_eq ha hb)
  next hlt =>
    rw [if_neg hlt, max_eq_right (by omega)]
    constructor
    . intro heq
      rw [heq]
    . intro heq
      rw [heq] at h
      exact Prod.ext (h.of_eq hb ha) heq

end Line

end Lib
