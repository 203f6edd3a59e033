import Mathlib.Data.Nat.Basic

/-!
This module contains the search for the lowest run of consecutive indices with a property, in one
pass that keeps the length and the start of the run it is in.
-/

namespace Lib

/--
The `count` indices from `a` on satisfy `p`.
-/
def RunAt (p : Nat → Prop) (count a : Nat) : Prop :=
  ∀ j, a ≤ j → j < a + count → p j

/--
The run at `a` is the lowest one below `n`.
-/
structure FirstRun (p : Nat → Prop) (count n a : Nat) : Prop where
  fits : a + count ≤ n
  run : RunAt p count a
  lowest : ∀ b, b + count ≤ n → RunAt p count b → a ≤ b

/--
What a pass knows in front of index `i`: the last `len` indices satisfy `p`, the one before them
does not, and there was no run yet.
-/
structure Scanned (p : Nat → Prop) (count i len start : Nat) : Prop where
  short : len < count
  ends : len ≠ 0 → start + len = i
  run : RunAt p len start
  before : ∀ j, j + len + 1 = i → ¬ p j
  none : ∀ b, b + count ≤ i → ¬ RunAt p count b

variable {p : Nat → Prop} {count i len start n : Nat}

theorem RunAt.zero (a : Nat) : RunAt p 0 a := by
  intro j h1 h2
  omega

theorem RunAt.succ {a : Nat} (h : RunAt p len a) (hi : p (a + len)) : RunAt p (len + 1) a := by
  intro j h1 h2
  by_cases hj : j = a + len
  . rw [hj]
    exact hi
  . exact h j h1 (by omega)

namespace Scanned

theorem zero (hcount : 0 < count) (start : Nat) : Scanned p count 0 0 start where
  short := hcount
  ends := by simp
  run := RunAt.zero start
  before := by simp
  none := by
    intro b hb
    omega

theorem miss (h : Scanned p count i len start) (hi : ¬ p i) (start : Nat)
    : Scanned p count (i + 1) 0 start where
  short := Nat.zero_lt_of_lt h.short
  ends := by simp
  run := RunAt.zero start
  before := by
    intro j hj
    rw [show j = i by omega]
    exact hi
  none := by
    intro b hb hrun
    have := h.short
    by_cases hlast : b + count ≤ i
    . exact h.none b hlast hrun
    . exact hi (hrun i (by omega) (by omega))

theorem run_hit (h : Scanned p count i len start) (hi : p i)
    : RunAt p (len + 1) (if len = 0 then i else start) := by
  split
  . next hzero =>
    subst hzero
    exact (RunAt.zero i).succ hi
  . next hne =>
    apply h.run.succ
    rw [h.ends hne]
    exact hi

theorem ends_hit (h : Scanned p count i len start)
    : (if len = 0 then i else start) + (len + 1) = i + 1 := by
  split
  . next hzero => omega
  . next hne =>
    have := h.ends hne
    omega

theorem hit (h : Scanned p count i len start) (hi : p i) (hmore : len + 1 < count)
    : Scanned p count (i + 1) (len + 1) (if len = 0 then i else start) where
  short := hmore
  ends := by
    intro _
    exact h.ends_hit
  run := h.run_hit hi
  before := by
    intro j hj
    exact h.before j (by omega)
  none := by
    intro b hb hrun
    by_cases hlast : b + count ≤ i
    . exact h.none b hlast hrun
    . -- a run that ends at `i` reaches back behind the one of length `len + 1`
      exact h.before (i - len - 1) (by lia) (hrun _ (by lia) (by lia))

theorem found (h : Scanned p count i len start) (hi : p i) (hdone : count ≤ len + 1) (hlt : i < n)
    : FirstRun p count n (if len = 0 then i else start) := by
  have hshort := h.short
  have hlen : count = len + 1 := by omega
  have hends := h.ends_hit
  refine ⟨by omega, ?_, ?_⟩
  . rw [hlen]
    exact h.run_hit hi
  . intro b hb hrun
    by_contra hlow
    exact h.none b (by omega) hrun

end Scanned

end Lib
