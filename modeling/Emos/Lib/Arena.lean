import Mathlib.Algebra.Order.BigOperators.Group.List
import Mathlib.Algebra.Order.Group.Nat
import Mathlib.Algebra.Ring.Nat

/-!
This module contains blocks that lie one behind the other in a range of memory, with gaps between them.
-/

namespace Lib

variable {α : Type} (addr len : α → Nat)

/--
The blocks lie between `lo` and `hi` in this order.
-/
def Packed (lo hi : Nat) : List α → Prop
  | [] => lo ≤ hi
  | x :: xs => lo ≤ addr x ∧ Packed (addr x + len x) hi xs

/--
The lengths of the gaps in front of each block and behind the last one.
-/
def gaps (lo hi : Nat) : List α → List Nat
  | [] => [hi - lo]
  | x :: xs => (addr x - lo) :: gaps (addr x + len x) hi xs

def occupied (xs : List α) : Nat := (xs.map len).sum

variable {addr len} {lo hi : Nat} {x y : α} {xs ys : List α}

namespace Packed

theorem le (h : Packed addr len lo hi xs) : lo ≤ hi := by
  induction xs generalizing lo with
  | nil => exact h
  | cons x xs ih =>
    have hrest := ih h.2
    have hlo := h.1
    omega

theorem mono {lo' : Nat} (h : Packed addr len lo hi xs) (hle : lo' ≤ lo) : Packed addr len lo' hi xs := by
  cases xs with
  | nil => exact Nat.le_trans hle h
  | cons x xs => exact ⟨Nat.le_trans hle h.1, h.2⟩

theorem within (h : Packed addr len lo hi xs) (hx : x ∈ xs) : lo ≤ addr x ∧ addr x + len x ≤ hi := by
  induction xs generalizing lo with
  | nil => contradiction
  | cons y xs ih =>
    cases List.mem_cons.mp hx with
    | inl heq =>
      subst heq
      exact ⟨h.1, h.2.le⟩
    | inr hx =>
      have hrest := ih h.2 hx
      have hlo := h.1
      exact ⟨by omega, hrest.2⟩

theorem pairwise (h : Packed addr len lo hi xs) : xs.Pairwise fun x y => addr x + len x ≤ addr y := by
  induction xs generalizing lo with
  | nil => exact List.Pairwise.nil
  | cons x xs ih =>
    rw [List.pairwise_cons]
    exact ⟨fun y hy => (h.2.within hy).1, ih h.2⟩

theorem sublist (h : Packed addr len lo hi xs) (hs : ys.Sublist xs) : Packed addr len lo hi ys := by
  induction hs generalizing lo with
  | slnil => exact h
  | cons x _ ih => exact ih (h.2.mono (by have := h.1; omega))
  | cons_cons x _ ih => exact ⟨h.1, ih h.2⟩

/--
The ranges before and behind a block, or behind which it is.
-/
theorem append : Packed addr len lo hi (xs ++ ys) ↔ ∃ mid, Packed addr len lo mid xs ∧ Packed addr len mid hi ys := by
  induction xs generalizing lo with
  | nil =>
    constructor
    . intro h
      exact ⟨lo, Nat.le_refl lo, h⟩
    . intro ⟨mid, hle, h⟩
      exact h.mono hle
  | cons x xs ih =>
    constructor
    . intro h
      obtain ⟨mid, hxs, hys⟩ := ih.mp h.2
      exact ⟨mid, ⟨h.1, hxs⟩, hys⟩
    . intro ⟨mid, hxs, hys⟩
      exact ⟨hxs.1, ih.mpr ⟨mid, hxs.2, hys⟩⟩

theorem occupied_le (h : Packed addr len lo hi xs) : lo + occupied len xs ≤ hi := by
  induction xs generalizing lo with
  | nil => exact h
  | cons x xs ih =>
    have hrest := ih h.2
    have hlo := h.1
    unfold occupied at hrest ⊢
    rw [List.map_cons, List.sum_cons]
    omega

/--
What is not occupied is in the gaps.
-/
theorem gaps_sum (h : Packed addr len lo hi xs) : lo + occupied len xs + (gaps addr len lo hi xs).sum = hi := by
  induction xs generalizing lo with
  | nil =>
    have hle : lo ≤ hi := h
    unfold occupied gaps
    simp
    omega
  | cons x xs ih =>
    have hrest := ih h.2
    have hlo := h.1
    unfold occupied at hrest ⊢
    unfold gaps
    rw [List.map_cons, List.sum_cons, List.sum_cons]
    lia

end Packed

theorem occupied_insert : occupied len (xs ++ x :: ys) = occupied len (xs ++ ys) + len x := by
  unfold occupied
  rw [List.map_append, List.map_append, List.map_cons, List.sum_append, List.sum_append, List.sum_cons]
  omega

theorem le_of_mem_gaps {g : Nat} (hg : g ∈ gaps addr len lo hi xs) : g ≤ (gaps addr len lo hi xs).sum :=
  List.le_sum_of_mem hg

end Lib
