import Mathlib.Data.List.Infix
import Mathlib.Data.Nat.Digits.Lemmas

/-!
This module contains the value of decimal digits in a string of bytes.
-/

namespace Lib

namespace Decimal

def IsDigit (c : BitVec 8) : Prop := 0x30 ≤ c ∧ c ≤ 0x39

instance (c : BitVec 8) : Decidable (IsDigit c) := inferInstanceAs (Decidable (_ ∧ _))

/--
The value of digits that follow a number `n`.
-/
def valueFrom (n : Nat) (l : List (BitVec 8)) : Nat := l.foldl (fun n c => 10 * n + (c.toNat - 0x30)) n

def value (l : List (BitVec 8)) : Nat := valueFrom 0 l

variable {n : Nat} {c : BitVec 8} {l : List (BitVec 8)}

theorem IsDigit.toNat (h : IsDigit c) : 0x30 ≤ c.toNat ∧ c.toNat ≤ 0x39 := by
  obtain ⟨hlow, hhigh⟩ := h
  exact ⟨BitVec.le_def.mp hlow, BitVec.le_def.mp hhigh⟩

@[simp]
theorem valueFrom_nil : valueFrom n [] = n := rfl

@[simp]
theorem valueFrom_cons : valueFrom n (c :: l) = valueFrom (10 * n + (c.toNat - 0x30)) l := by
  unfold valueFrom
  rw [List.foldl_cons]

theorem value_concat : value (l ++ [c]) = 10 * value l + (c.toNat - 0x30) := by
  simp [value, valueFrom]

theorem le_valueFrom : n ≤ valueFrom n l := by
  induction l generalizing n with
  | nil => exact Nat.le_refl n
  | cons c l ih =>
    have := ih (n := 10 * n + (c.toNat - 0x30))
    rw [valueFrom_cons]
    omega

theorem value_cons : value (c :: l) = (c.toNat - 0x30) * 10 ^ l.length + value l := by
  induction l using List.reverseRecOn with
  | nil => simp [value]
  | append_singleton l d ih =>
    rw [← List.cons_append, value_concat, value_concat, ih, List.length_append, List.length_singleton,
      Nat.pow_succ]
    ring

theorem value_lt (h : ∀ c ∈ l, IsDigit c) : value l < 10 ^ l.length := by
  induction l with
  | nil => decide
  | cons c l ih =>
    rw [List.forall_mem_cons] at h
    have hc := h.1.toNat
    have hl := ih h.2
    rw [value_cons, List.length_cons, Nat.pow_succ]
    have hmul : (c.toNat - 0x30) * 10 ^ l.length ≤ 9 * 10 ^ l.length := Nat.mul_le_mul_right _ (by omega)
    omega

/--
The digits of a number, without leading zeros.
-/
def numeral (n : Nat) : List (BitVec 8) :=
  if n = 0 then [0x30] else ((Nat.digits 10 n).map fun d => BitVec.ofNat 8 (0x30 + d)).reverse

theorem toNat_ofNat_digit {d : Nat} (h : d < 10) : (BitVec.ofNat 8 (0x30 + d)).toNat = 0x30 + d := by
  rw [BitVec.toNat_ofNat]
  lia

theorem isDigit_ofNat {d : Nat} (h : d < 10) : IsDigit (BitVec.ofNat 8 (0x30 + d)) := by
  have htoNat := toNat_ofNat_digit h
  constructor
  . rw [BitVec.le_def, htoNat]
    exact Nat.le_add_right _ _
  . rw [BitVec.le_def, htoNat]
    exact Nat.add_le_add_left (Nat.le_of_lt_succ h) _

theorem isDigit_numeral (n : Nat) : ∀ c ∈ numeral n, IsDigit c := by
  intro c hc
  unfold numeral at hc
  split at hc
  . rw [List.mem_singleton] at hc
    rw [hc]
    decide
  . rw [List.mem_reverse, List.mem_map] at hc
    obtain ⟨d, hd, rfl⟩ := hc
    exact isDigit_ofNat (Nat.digits_lt_base (by decide) hd)

theorem value_map_digits (ds : List Nat) (h : ∀ d ∈ ds, d < 10)
    : value (ds.map fun d => BitVec.ofNat 8 (0x30 + d)).reverse = Nat.ofDigits 10 ds := by
  induction ds with
  | nil => rfl
  | cons d ds ih =>
    rw [List.forall_mem_cons] at h
    rw [List.map_cons, List.reverse_cons, value_concat, ih h.2, toNat_ofNat_digit h.1, Nat.ofDigits_cons]
    lia

theorem value_numeral (n : Nat) : value (numeral n) = n := by
  unfold numeral
  split
  . next hzero =>
    rw [hzero]
    rfl
  . rw [value_map_digits _ (fun d hd => Nat.digits_lt_base (by decide) hd), Nat.ofDigits_digits]

theorem numeral_ne_nil (n : Nat) : numeral n ≠ [] := by
  unfold numeral
  split
  . simp
  . next hne => simpa [Nat.digits_ne_nil_iff_ne_zero] using hne

/--
A number without its first digit is smaller.
-/
theorem value_tail_numeral_lt {n : Nat} (h : n ≠ 0) : value (numeral n).tail < n := by
  have hvalue := value_numeral n
  have hdigits := isDigit_numeral n
  cases hn : numeral n with
  | nil => exact absurd hn (numeral_ne_nil n)
  | cons c l =>
    rw [hn] at hvalue hdigits
    rw [value_cons] at hvalue
    rw [List.tail_cons]
    have hpos : 0 < c.toNat - 0x30 := by
      have hhead : (numeral n).head? = some c := by rw [hn]; rfl
      unfold numeral at hhead
      rw [if_neg h, List.head?_reverse, List.getLast?_map, Option.map_eq_some_iff] at hhead
      obtain ⟨d, hd, rfl⟩ := hhead
      have hne : Nat.digits 10 n ≠ [] := Nat.digits_ne_nil_iff_ne_zero.mpr h
      have hlast := Nat.getLast_digit_ne_zero 10 h
      rw [List.getLast?_eq_some_getLast hne, Option.some.injEq] at hd
      have hlt : d < 10 := by
        rw [← hd]
        exact Nat.digits_lt_base (by decide) (List.getLast_mem hne)
      rw [toNat_ofNat_digit hlt]
      lia
    have hpow : 0 < (c.toNat - 0x30) * 10 ^ l.length := Nat.mul_pos hpos (Nat.pow_pos (by decide))
    omega

end Decimal

end Lib
