import Mathlib.Data.List.Infix
import Mathlib.Data.List.TakeWhile
import Mathlib.Data.Nat.Digits.Lemmas

/-!
This module contains the value of a string of digits in any base up to 36, where letters stand for the
digits from ten on, and the longest one that a string starts with.
-/

namespace Lib

namespace Numeral

def digit (c : BitVec 8) : Option Nat :=
  if 0x30 ≤ c ∧ c ≤ 0x39 then
    some (c.toNat - 0x30)
  else if 0x61 ≤ c ∧ c ≤ 0x7a then
    some (c.toNat - 0x61 + 10)
  else if 0x41 ≤ c ∧ c ≤ 0x5a then
    some (c.toNat - 0x41 + 10)
  else
    none

def IsDigit (base : Nat) (c : BitVec 8) : Prop := ∃ d ∈ digit c, d < base

instance (base : Nat) (c : BitVec 8) : Decidable (IsDigit base c) :=
  inferInstanceAs (Decidable (∃ d ∈ digit c, d < base))

/--
The value of digits that follow a number `n`.
-/
def valueFrom (base n : Nat) (l : List (BitVec 8)) : Nat := l.foldl (fun n c => n * base + (digit c).getD 0) n

def value (base : Nat) (l : List (BitVec 8)) : Nat := valueFrom base 0 l

variable {base n d : Nat} {c : BitVec 8} {l digits rest : List (BitVec 8)}

@[simp]
theorem valueFrom_nil : valueFrom base n [] = n := rfl

@[simp]
theorem valueFrom_cons : valueFrom base n (c :: l) = valueFrom base (n * base + (digit c).getD 0) l := rfl

theorem valueFrom_append {m : List (BitVec 8)}
    : valueFrom base n (l ++ m) = valueFrom base (valueFrom base n l) m := by
  unfold valueFrom
  rw [List.foldl_append]

theorem value_concat : value base (l ++ [c]) = value base l * base + (digit c).getD 0 := by
  unfold value
  rw [valueFrom_append]
  rfl

theorem valueFrom_mono {n m : Nat} (h : n ≤ m) : valueFrom base n l ≤ valueFrom base m l := by
  induction l generalizing n m with
  | nil => exact h
  | cons c l ih =>
    rw [valueFrom_cons, valueFrom_cons]
    apply ih
    exact Nat.add_le_add_right (Nat.mul_le_mul_right base h) _

theorem le_valueFrom (h : 0 < base) : n ≤ valueFrom base n l := by
  induction l generalizing n with
  | nil => exact Nat.le_refl n
  | cons c l ih =>
    rw [valueFrom_cons]
    have hmul : n ≤ n * base := Nat.le_mul_of_pos_right n h
    exact Nat.le_trans (Nat.le_trans hmul (Nat.le_add_right _ _)) ih

/--
A number in front of digits makes them greater.
-/
theorem value_lt_valueFrom (hbase : 0 < base) (h : 0 < n) : value base l < valueFrom base n l := by
  induction l using List.reverseRecOn with
  | nil => exact h
  | append_singleton l c ih =>
    unfold value at ih ⊢
    rw [valueFrom_append, valueFrom_append, valueFrom_cons, valueFrom_cons, valueFrom_nil, valueFrom_nil]
    exact Nat.add_lt_add_right (Nat.mul_lt_mul_of_pos_right ih hbase) _

theorem not_isDigit_zero : ¬ IsDigit 0 c := by
  rintro ⟨d, _, h⟩
  exact Nat.not_lt_zero d h

theorem IsDigit.mono {b : Nat} (h : IsDigit base c) (hle : base ≤ b) : IsDigit b c := by
  obtain ⟨d, hd, hlt⟩ := h
  exact ⟨d, hd, Nat.lt_of_lt_of_le hlt hle⟩

/--
The digits that a string starts with.
-/
def leading (base : Nat) (l : List (BitVec 8)) : List (BitVec 8) := l.takeWhile (IsDigit base ·)

/--
What follows the digits that a string starts with.
-/
def behind (base : Nat) (l : List (BitVec 8)) : List (BitVec 8) := l.dropWhile (IsDigit base ·)

theorem leading_append_behind (base : Nat) (l : List (BitVec 8)) : leading base l ++ behind base l = l :=
  List.takeWhile_append_dropWhile

theorem isDigit_of_mem_leading (h : c ∈ leading base l) : IsDigit base c := by
  simpa using List.mem_takeWhile_imp h

theorem leading_cons_of_pos (h : IsDigit base c) : leading base (c :: l) = c :: leading base l := by
  unfold leading
  rw [List.takeWhile_cons_of_pos (by simpa using h)]

theorem leading_cons_of_neg (h : ¬ IsDigit base c) : leading base (c :: l) = [] := by
  unfold leading
  rw [List.takeWhile_cons_of_neg (by simpa using h)]

theorem behind_cons_of_pos (h : IsDigit base c) : behind base (c :: l) = behind base l := by
  unfold behind
  rw [List.dropWhile_cons_of_pos (by simpa using h)]

theorem behind_cons_of_neg (h : ¬ IsDigit base c) : behind base (c :: l) = c :: l := by
  unfold behind
  rw [List.dropWhile_cons_of_neg (by simpa using h)]

theorem behind_eq_self (h : leading base l = []) : behind base l = l := by
  have happend := leading_append_behind base l
  rwa [h, List.nil_append] at happend

theorem leading_of_forall (h : ∀ c ∈ l, IsDigit base c) : leading base l = l := by
  unfold leading
  rw [List.takeWhile_eq_self_iff]
  simpa using h

theorem behind_of_forall (h : ∀ c ∈ l, IsDigit base c) : behind base l = [] := by
  unfold behind
  rw [List.dropWhile_eq_nil_iff]
  simpa using h

/--
No digits that a string starts with are longer.
-/
theorem length_behind_le (h : ∀ c ∈ digits, IsDigit base c)
    : (behind base (digits ++ rest)).length ≤ rest.length := by
  induction digits with
  | nil => exact List.length_dropWhile_le _ _
  | cons c digits ih =>
    rw [List.forall_mem_cons] at h
    rw [List.cons_append, behind_cons_of_pos h.1]
    exact ih h.2

theorem leading_ne_nil (h : ∀ c ∈ digits, IsDigit base c) (hne : digits ≠ [])
    : leading base (digits ++ rest) ≠ [] := by
  obtain ⟨c, digits, rfl⟩ := List.exists_cons_of_ne_nil hne
  rw [List.forall_mem_cons] at h
  rw [List.cons_append, leading_cons_of_pos h.1]
  exact List.cons_ne_nil _ _

end Numeral

end Lib
