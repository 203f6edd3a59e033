import Emos.Lib.Bytes
import Mathlib.Algebra.Ring.Nat
import Mathlib.Data.Nat.Bitwise

/-!
This module contains masks and shifts of natural numbers as arithmetic, and arrays of twelve bit numbers, two of
which share three bytes.
-/

namespace Lib

theorem lor_shiftLeft {a k : Nat} (h : a < 2 ^ k) (b : Nat) : a ||| (b <<< k) = a + b * 2 ^ k := by
  rw [Nat.lor_comm]
  rw [← Nat.shiftLeft_add_eq_or_of_lt h]
  rw [Nat.shiftLeft_eq]
  omega

theorem land_mask (a k : Nat) : a &&& (2 ^ k - 1) = a % 2 ^ k := by
  simp

theorem land_mask_shiftRight (a k n : Nat) : (a &&& ((2 ^ k - 1) <<< n)) >>> n = a / 2 ^ n % 2 ^ k := by
  rw [Nat.shiftRight_and_distrib]
  rw [Nat.shiftLeft_shiftRight]
  rw [land_mask]
  rw [Nat.shiftRight_eq_div_pow]

theorem land_mask_shiftLeft (a k n : Nat)
    : a &&& ((2 ^ k - 1) <<< n) = (a / 2 ^ n % 2 ^ k) <<< n := by
  rw [← land_mask_shiftRight]
  apply Nat.eq_of_testBit_eq
  intro i
  simp only [Nat.testBit_shiftLeft, Nat.testBit_shiftRight, Nat.testBit_and]
  by_cases h : n ≤ i
  . simp [h]
  . simp [h]

end Lib

namespace Lib

namespace Packed12

/--
The first of the two bytes that hold number `e`.
-/
def index (e : Nat) : Nat := e + e / 2

/--
Number `e`. One with an even index has the upper part in its second byte, one with an odd index has
the lower part in its first byte.
-/
def get (a : Bytes) (e : Nat) : Nat :=
  if e % 2 = 1 then
    (a (index e)).toNat / 16 + 16 * (a (index e + 1)).toNat
  else
    (a (index e)).toNat + 256 * ((a (index e + 1)).toNat % 16)

/--
The two bytes of number `e` once it is `v`.
-/
def bytesOf (a : Bytes) (e v : Nat) : Nat × Nat :=
  if e % 2 = 1 then
    ⟨(a (index e)).toNat % 16 + 16 * (v % 16), v / 16 % 256⟩
  else
    ⟨v % 256, (a (index e + 1)).toNat / 16 * 16 + v / 256 % 16⟩

/--
Number `e` is `v` in `a'`, and all other bits are as in `a`.
-/
structure IsSet (a : Bytes) (e v : Nat) (a' : Bytes) : Prop where
  first : (a' (index e)).toNat = (bytesOf a e v).1
  second : (a' (index e + 1)).toNat = (bytesOf a e v).2
  others : ∀ i, i ≠ index e → i ≠ index e + 1 → a' i = a i

/--
Store number `e`.
-/
def set (a : Bytes) (e v : Nat) : Bytes :=
  let a' := Function.update a (index e + 1) (BitVec.ofNat 8 (bytesOf a e v).2)
  Function.update a' (index e) (BitVec.ofNat 8 (bytesOf a e v).1)

variable {a a' : Bytes} {e v : Nat}

theorem bytesOf_lt : (bytesOf a e v).1 < 256 ∧ (bytesOf a e v).2 < 256 := by
  have := (a (index e + 1)).isLt
  unfold bytesOf
  split
  . dsimp only
    lia
  . dsimp only
    lia

theorem isSet_set (a : Bytes) (e v : Nat) : IsSet a e v (set a e v) := by
  obtain ⟨h1, h2⟩ := bytesOf_lt (a := a) (e := e) (v := v)
  unfold set
  constructor
  case first =>
    rw [Function.update_self, BitVec.toNat_ofNat]
    exact Nat.mod_eq_of_lt h1
  case second =>
    rw [Function.update_of_ne (by omega), Function.update_self, BitVec.toNat_ofNat]
    exact Nat.mod_eq_of_lt h2
  case others =>
    intro i hfirst hsecond
    rw [Function.update_of_ne hfirst, Function.update_of_ne hsecond]

theorem get_congr (h1 : a' (index e) = a (index e)) (h2 : a' (index e + 1) = a (index e + 1))
    : get a' e = get a e := by
  unfold get
  rw [h1, h2]

theorem IsSet.get_self (h : IsSet a e v a') (hv : v < 2 ^ 12) : get a' e = v := by
  have hfirst := h.first
  have hsecond := h.second
  unfold get
  unfold bytesOf at hfirst hsecond
  split
  . next hodd =>
    rw [if_pos hodd] at hfirst hsecond
    rw [hfirst, hsecond]
    dsimp only
    lia
  . next heven =>
    rw [if_neg heven] at hfirst hsecond
    rw [hfirst, hsecond]
    dsimp only
    lia

theorem IsSet.get_other (h : IsSet a e v a') {k : Nat} (hk : k ≠ e) : get a' k = get a k := by
  have hfirst := h.first
  have hsecond := h.second
  have hothers := h.others
  unfold bytesOf at hfirst hsecond
  by_cases hnext : e % 2 = 0 ∧ k = e + 1
  . -- the second byte of `e` is the first byte of `k`
    have hindex : index k = index e + 1 := by
      unfold index
      lia
    rw [if_neg (by omega)] at hsecond
    unfold get
    rw [if_pos (by lia), if_pos (by lia)]
    rw [hindex, hsecond, hothers (index e + 1 + 1) (by omega) (by omega)]
    have := (a (index e + 1)).isLt
    dsimp only
    lia
  . by_cases hprev : e % 2 = 1 ∧ k + 1 = e
    . -- the first byte of `e` is the second byte of `k`
      have hindex : index k + 1 = index e := by
        unfold index
        lia
      rw [if_pos (by omega)] at hfirst
      unfold get
      rw [if_neg (by omega), if_neg (by omega)]
      rw [hindex, hfirst, hothers (index k) (by omega) (by omega)]
      dsimp only
      lia
    . have hsame : ∀ i, i = index k ∨ i = index k + 1 → a' i = a i := by
        intro i hi
        unfold index at *
        exact hothers i (by lia) (by lia)
      unfold get
      rw [hsame (index k) (.inl rfl), hsame (index k + 1) (.inr rfl)]

end Packed12

end Lib
