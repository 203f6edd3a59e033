import Emos.Boot.Stdc.Impl.String
import Emos.Lib.Decimal

/-!
This module contains what is read from a string of decimal digits, and for which strings nothing is
stored to `*endptr`.
-/

open Lib Lib.Decimal

namespace Emos.Boot

variable {c : BitVec 8} {str : List (BitVec 8)} {ret : BitVec 32} {n : Nat}

theorem digitOf_of_isDigit (h : IsDigit c) : digitOf c = some (c.toNat - 0x30) := if_pos h

theorem le_of_digitOf_eq (h : ¬ IsDigit c) {digit : Nat} (hdigit : digitOf c = some digit) : 10 ≤ digit := by
  have hrange : ¬ (0x30 ≤ c ∧ c ≤ 0x39) := h
  unfold digitOf at hdigit
  rw [if_neg hrange] at hdigit
  split at hdigit
  . cases hdigit
    omega
  . split at hdigit
    . cases hdigit
      omega
    . contradiction

theorem readDigits_of_not_isDigit (h : ¬ IsDigit c) : readDigits 10 ret (c :: str) = some (ret, c :: str) := by
  unfold readDigits
  cases hdigit : digitOf c with
  | none => rfl
  | some digit => exact if_pos (le_of_digitOf_eq h hdigit)

/--
The number that is read so far, and the next one, are known up to multiples of `2 ^ 32`.
-/
theorem readDigits_of_isDigit (str : List (BitVec 8)) (h : IsDigit c) (hret : ret.toNat = n % 2 ^ 32)
    : ∃ ret' : BitVec 32, ret'.toNat = (10 * n + (c.toNat - 0x30)) % 2 ^ 32
        ∧ readDigits 10 ret (c :: str)
          = if 2 ^ 31 ≤ (10 * n + (c.toNat - 0x30)) % 2 ^ 32 then none else readDigits 10 ret' str := by
  obtain ⟨_, hle⟩ := h.toNat
  generalize hret' : ret * BitVec.ofNat 32 10 + BitVec.ofNat 32 (c.toNat - 0x30) = ret'
  have hvalue : ret'.toNat = (10 * n + (c.toNat - 0x30)) % 2 ^ 32 := by
    rw [← hret', BitVec.toNat_add, BitVec.toNat_mul, BitVec.toNat_ofNat, BitVec.toNat_ofNat, hret]
    omega
  refine ⟨ret', hvalue, ?_⟩
  have hmsb : ret'.msb = decide (2 ^ 31 ≤ (10 * n + (c.toNat - 0x30)) % 2 ^ 32) := by
    rw [BitVec.msb_eq_decide, hvalue]
  simp only [readDigits, digitOf_of_isDigit h, hret', hmsb]
  rw [if_neg (by lia)]
  simp only [decide_eq_true_eq]

/--
The characters that digits are read from in base 10.
-/
def digitsAt (str : List (BitVec 8)) : List (BitVec 8) := (skipPrefix (skipSign (skipBlanks str)).2 10).1

/--
Some of the digits at the start of the number give one that is negative with 32 bits.
-/
def OutOfRange (str : List (BitVec 8)) : Prop :=
  ∃ digits ∈ ((digitsAt str).takeWhile (IsDigit ·)).inits, 2 ^ 31 ≤ value digits % 2 ^ 32

instance (str : List (BitVec 8)) : Decidable (OutOfRange str) :=
  inferInstanceAs (Decidable (∃ digits ∈ _, _))

theorem readDigits_eq_none_iff (hret : ret.toNat = n % 2 ^ 32) (hn : n % 2 ^ 32 < 2 ^ 31)
    : readDigits 10 ret str = none
        ↔ ∃ digits, digits <+: str.takeWhile (IsDigit ·) ∧ 2 ^ 31 ≤ valueFrom n digits % 2 ^ 32 := by
  induction str generalizing n ret with
  | nil => simpa [readDigits] using hn
  | cons c str ih =>
    by_cases hc : IsDigit c
    . obtain ⟨ret', hvalue, heq⟩ := readDigits_of_isDigit str hc hret
      rw [heq, List.takeWhile_cons_of_pos (by simpa using hc)]
      split
      . next hnegative =>
        refine iff_of_true rfl ⟨[c], ?_, hnegative⟩
        exact ⟨_, rfl⟩
      . next hpositive =>
        rw [ih hvalue (Nat.lt_of_not_le hpositive)]
        constructor
        . rintro ⟨digits, hstart, hdigits⟩
          exact ⟨c :: digits, List.cons_prefix_cons.mpr ⟨rfl, hstart⟩, hdigits⟩
        . rintro ⟨digits, hstart, hdigits⟩
          cases digits with
          | nil => exact absurd hn (Nat.not_lt.mpr hdigits)
          | cons d digits =>
            obtain ⟨rfl, hrest⟩ := List.cons_prefix_cons.mp hstart
            exact ⟨digits, hrest, hdigits⟩
    . rw [readDigits_of_not_isDigit hc, List.takeWhile_cons_of_neg (by simpa using hc)]
      simpa using hn

/--
Nothing is stored to `*endptr` if and only if the number is out of range.
-/
theorem strtol_eq_none_iff (str : List (BitVec 8)) : (strtol str 10).2 = none ↔ OutOfRange str := by
  have hbase : (skipPrefix (skipSign (skipBlanks str)).2 10).2 = 10 := by
    unfold skipPrefix
    split
    . split <;> rfl
    . rfl
  have hread : (strtol str 10).2 = none ↔ readDigits 10 0 (digitsAt str) = none := by
    unfold strtol digitsAt
    rw [if_neg (by decide)]
    have hten : Int.toNat 10 = 10 := rfl
    rw [hten]
    dsimp only
    rw [hbase]
    cases readDigits 10 0 (skipPrefix (skipSign (skipBlanks str)).2 10).1 <;> simp
  rw [hread, readDigits_eq_none_iff (n := 0) rfl (by decide)]
  unfold OutOfRange
  simp only [List.mem_inits]
  exact Iff.rfl

theorem readDigits_digits (hdigits : ∀ c ∈ str, IsDigit c) (hret : ret.toNat = n)
    (hvalue : valueFrom n str < 2 ^ 31)
    : readDigits 10 ret str = some (BitVec.ofNat 32 (valueFrom n str), []) := by
  induction str generalizing n ret with
  | nil =>
    rw [valueFrom_nil, ← hret, BitVec.ofNat_toNat, BitVec.setWidth_eq]
    rfl
  | cons c str ih =>
    rw [List.forall_mem_cons] at hdigits
    rw [valueFrom_cons] at hvalue ⊢
    have hle : 10 * n + (c.toNat - 0x30) ≤ valueFrom (10 * n + (c.toNat - 0x30)) str := le_valueFrom
    obtain ⟨ret', hret', heq⟩ := readDigits_of_isDigit str hdigits.1
      (show ret.toNat = n % 2 ^ 32 by lia)
    rw [Nat.mod_eq_of_lt (by lia)] at hret' heq
    rw [heq, if_neg (by lia)]
    exact ih hdigits.2 hret' hvalue

/--
A string of digits is read to its end.
-/
theorem strtol_digits (hne : str ≠ []) (hdigits : ∀ c ∈ str, IsDigit c) (hvalue : value str < 2 ^ 31)
    : strtol str 10 = (BitVec.ofNat 32 (value str), some []) := by
  obtain ⟨c, rest, rfl⟩ := List.exists_cons_of_ne_nil hne
  rw [List.forall_mem_cons] at hdigits
  obtain ⟨hc, hrest⟩ := hdigits
  have hge := hc.toNat
  have hchar (x : BitVec 8) (hx : x.toNat < 0x30 ∨ 0x39 < x.toNat) : c ≠ x := by
    rintro rfl
    omega
  have hblank : skipBlanks (c :: rest) = c :: rest := by
    unfold skipBlanks
    rw [List.dropWhile_cons_of_neg]
    simpa using hchar 0x20 (by decide)
  have hsign : skipSign (c :: rest) = (false, c :: rest) := by
    unfold skipSign charAt
    rw [List.headD_cons, if_neg (hchar 0x2b (by decide)), if_neg (hchar 0x2d (by decide))]
  -- a zero in front does not change the value
  obtain ⟨str, hstart, hstr, hsame⟩ : ∃ str, skipPrefix (c :: rest) 10 = (str, 10)
      ∧ (∀ x ∈ str, IsDigit x) ∧ value str = value (c :: rest) := by
    unfold skipPrefix
    by_cases hzero : c = 0x30
    . subst hzero
      have hx : charAt rest ≠ 0x78 ∧ charAt rest ≠ 0x58 := by
        cases rest with
        | nil => decide
        | cons d rest =>
          have hd := (hrest d (by simp)).toNat
          constructor <;> intro heq <;> simp only [charAt, List.headD_cons] at heq <;> subst heq <;> simp at hd
      refine ⟨rest, ?_, hrest, rfl⟩
      have hhead : charAt (0x30 :: rest) = 0x30 := rfl
      rw [if_pos hhead, List.tail_cons, if_pos hx]
      rfl
    . refine ⟨c :: rest, ?_, List.forall_mem_cons.mpr ⟨hc, hrest⟩, rfl⟩
      exact if_neg hzero
  unfold strtol
  rw [if_neg (by decide), hblank, hsign]
  have hten : Int.toNat 10 = 10 := rfl
  rw [hten]
  dsimp only
  rw [hstart]
  dsimp only
  rw [readDigits_digits hstr (n := 0) rfl (by unfold value at hsame hvalue; omega)]
  change (_, _) = _
  unfold value at hsame ⊢
  rw [hsame]
  rfl

end Emos.Boot
