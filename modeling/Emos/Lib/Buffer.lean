import Mathlib.Data.Nat.Basic
import Mathlib.Logic.Function.Basic

/-!
This module contains allocated memory with a number of elements, in which every other index is a fault.
-/

namespace Lib

structure Buffer (α : Type) where
  size : Nat
  data : Nat → α

namespace Buffer

variable {α ε : Type}

/--
Memory of which every element is set.
-/
def filled (size : Nat) (a : α) : Buffer α := ⟨size, fun _ => a⟩

def get (b : Buffer α) (fault : ε) (i : Nat) : Except ε α :=
  if i < b.size then .ok (b.data i) else .error fault

def set (b : Buffer α) (fault : ε) (i : Nat) (a : α) : Except ε (Buffer α) :=
  if i < b.size then .ok { b with data := Function.update b.data i a } else .error fault

/--
The `n` elements from index `i` on.
-/
def slice (b : Buffer α) (fault : ε) (i n : Nat) : Except ε (List α) :=
  if i + n ≤ b.size then .ok ((List.range n).map fun j => b.data (i + j)) else .error fault

variable {b b' : Buffer α} {fault : ε} {i n : Nat} {a : α}

theorem get_of_lt (h : i < b.size) : b.get fault i = .ok (b.data i) := if_pos h

theorem set_of_lt (h : i < b.size) : b.set fault i a = .ok { b with data := Function.update b.data i a } := if_pos h

theorem slice_of_le (h : i + n ≤ b.size)
    : b.slice fault i n = .ok ((List.range n).map fun j => b.data (i + j)) :=
  if_pos h

theorem get_eq_ok (h : b.get fault i = .ok a) : i < b.size ∧ a = b.data i := by
  unfold get at h
  split at h
  . exact ⟨by assumption, (Except.ok.inj h).symm⟩
  . contradiction

theorem set_eq_ok (h : b.set fault i a = .ok b')
    : i < b.size ∧ b' = { b with data := Function.update b.data i a } := by
  unfold set at h
  split at h
  . exact ⟨by assumption, (Except.ok.inj h).symm⟩
  . contradiction

/--
Elements are stored one after the other from index `p` on.
-/
def store (b : Buffer α) (p : Nat) : List α → Buffer α
  | [] => b
  | a :: as => store { b with data := Function.update b.data p a } (p + 1) as

variable {p : Nat} {as : List α}

theorem store_cons (a : α) : b.store p (a :: as) = store { b with data := Function.update b.data p a } (p + 1) as := rfl

@[simp]
theorem size_store : (b.store p as).size = b.size := by
  induction as generalizing b p with
  | nil => rfl
  | cons a as ih => exact ih

theorem store_outside {q : Nat} (h : q < p ∨ p + as.length ≤ q) : (b.store p as).data q = b.data q := by
  induction as generalizing b p with
  | nil => rfl
  | cons a as ih =>
    rw [List.length_cons] at h
    rw [store_cons, ih (by omega)]
    exact Function.update_of_ne (by omega) _ _

theorem store_inside {k : Nat} (h : k < as.length) : (b.store p as).data (p + k) = as[k] := by
  induction as generalizing b p k with
  | nil => cases h
  | cons a as ih =>
    rw [store_cons]
    cases k with
    | zero =>
      rw [Nat.add_zero, store_outside (by omega)]
      exact Function.update_self ..
    | succ k =>
      rw [List.length_cons, Nat.succ_lt_succ_iff] at h
      rw [show p + (k + 1) = p + 1 + k by omega, ih h]
      rfl

theorem store_append (bs : List α) : b.store p (as ++ bs) = (b.store p as).store (p + as.length) bs := by
  induction as generalizing b p with
  | nil => rfl
  | cons a as ih =>
    rw [List.cons_append, store_cons, store_cons, ih, List.length_cons]
    rw [show p + 1 + as.length = p + (as.length + 1) by omega]

/--
An element of rows that are stored one after the other is in the memory of the rows.
-/
theorem row_lt {x y n k : Nat} (hx : x < n) (hy : y < k) : y * n + x < n * k := by
  have hrow : (y + 1) * n ≤ k * n := Nat.mul_le_mul_right n hy
  rw [Nat.succ_mul] at hrow
  rw [Nat.mul_comm n k]
  omega

theorem row_inj {x y x' y' n : Nat} (hx : x < n) (hx' : x' < n) (h : y * n + x = y' * n + x') : x = x' ∧ y = y' := by
  have hn : 0 < n := Nat.zero_lt_of_lt hx
  have hmod : (y * n + x) % n = (y' * n + x') % n := by rw [h]
  have hdiv : (n * y + x) / n = (n * y' + x') / n := by rw [Nat.mul_comm, h, Nat.mul_comm]
  rw [Nat.mul_add_mod_of_lt hx, Nat.mul_add_mod_of_lt hx'] at hmod
  rw [Nat.mul_add_div hn, Nat.mul_add_div hn, Nat.div_eq_of_lt hx, Nat.div_eq_of_lt hx', Nat.add_zero,
    Nat.add_zero] at hdiv
  exact ⟨hmod, hdiv⟩

end Buffer

end Lib
