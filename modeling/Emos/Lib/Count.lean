import Mathlib.Algebra.BigOperators.Group.Finset.Piecewise
import Mathlib.Algebra.Group.Nat.Even
import Mathlib.Algebra.Order.BigOperators.Group.Finset

/-!
This module contains how the number of indices with a property changes if one index changes, and how often a
property changes along a walk.
-/

namespace Lib

/--
The number of indices below `n` that satisfy `p`.
-/
def countBelow (n : Nat) (p : Nat → Prop) [DecidablePred p] : Nat :=
  ((Finset.range n).filter p).card

variable {p q : Nat → Prop} [DecidablePred p] [DecidablePred q] {n : Nat}

theorem countBelow_le : countBelow n p ≤ n := by
  have h := Finset.card_filter_le (Finset.range n) p
  rw [Finset.card_range] at h
  exact h

theorem countBelow_pos {i : Nat} (hi : i < n) (h : p i) : 0 < countBelow n p := by
  apply Finset.card_pos.mpr
  exact ⟨i, by simp [hi, h]⟩

theorem countBelow_eq_self (h : ∀ i, i < n → p i) : countBelow n p = n := by
  unfold countBelow
  rw [Finset.filter_true_of_mem]
  . rw [Finset.card_range]
  . intro i hi
    exact h i (Finset.mem_range.mp hi)

theorem countBelow_update {i : Nat} (hi : i < n) (h : ∀ j, j ≠ i → (q j ↔ p j))
    : countBelow n q + (if p i then 1 else 0) = countBelow n p + (if q i then 1 else 0) := by
  have hmem : i ∈ Finset.range n := Finset.mem_range.mpr hi
  have hrest : ∑ j ∈ (Finset.range n).erase i, (if q j then 1 else 0)
      = ∑ j ∈ (Finset.range n).erase i, (if p j then 1 else 0) := by
    apply Finset.sum_congr rfl
    intro j hj
    rw [if_congr (h j (Finset.ne_of_mem_erase hj)) rfl rfl]
  unfold countBelow
  rw [Finset.card_filter, Finset.card_filter]
  rw [← Finset.add_sum_erase _ _ hmem, ← Finset.add_sum_erase _ _ hmem]
  rw [hrest]
  omega

/--
How many neighbours along a walk differ in a property.
-/
def changes {α : Type} (f : α → Bool) (l : List (α × α)) : Nat := l.countP fun e => f e.1 != f e.2

theorem even_changes_walk {α : Type} (f : α → Bool) (a z : α) (l : List α)
    : Even (changes f (List.zip (a :: l) (l ++ [z]))) ↔ f a = f z := by
  unfold changes
  induction l generalizing a with
  | nil =>
    rw [List.nil_append, List.zip_cons_cons, List.zip_nil_right, List.countP_cons, List.countP_nil]
    cases f a <;> cases f z <;> decide
  | cons b l ih =>
    rw [List.cons_append, List.zip_cons_cons, List.countP_cons, Nat.even_add, ih b]
    cases f a <;> cases f b <;> cases f z <;> decide

/--
A walk that returns to its start changes the property back as often as it changes it.
-/
theorem even_changes {α : Type} (f : α → Bool) (l : List α) : Even (changes f (l.zip (l.tail ++ l.take 1))) := by
  cases l with
  | nil => exact Even.zero
  | cons a l => exact (even_changes_walk f a a l).mpr rfl

end Lib
