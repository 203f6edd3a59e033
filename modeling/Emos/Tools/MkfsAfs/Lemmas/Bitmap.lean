import Emos.Tools.MkfsAfs.Impl.Main
import Mathlib.Data.BitVec

/-!
This module contains which bits are set by a loop that stores masks byte by byte.
-/

open Lib

namespace Emos.Tools.MkfsAfs

/--
Bit `k` of a bitmap.
-/
def bit (buf : Bytes) (k : Nat) : Bool := (buf (k / 8)).getLsbD (k % 8)

/--
The bits that a loop from `start` up to `limit` sets. The mask with the number of bits that are left
is not shifted to where they start.
-/
def Covers (start limit k : Nat) : Prop :=
  start < limit ∧ start ≤ k ∧ k < limit
    ∧ (k / 8 = start / 8 → limit - start < 8 → k % 8 < limit - start)

instance (start limit k : Nat) : Decidable (Covers start limit k) := by
  unfold Covers
  infer_instance

theorem getLsbD_mask {left s b : Nat} (hb : b < 8)
    : (BitVec.ofNat 8
        ((if left < 8 then (1 <<< left) - 1 else 0xFF) &&& (0xFF <<< s))).getLsbD b
        =
      decide (s ≤ b ∧ (left < 8 → b < left)) := by
  have hbyte : ∀ j, Nat.testBit 0xFF j = decide (j < 8) := by
    intro j
    exact Nat.testBit_two_pow_sub_one 8 j
  rw [BitVec.getLsbD_ofNat, Nat.testBit_and, Nat.testBit_shiftLeft, hbyte]
  split
  next h =>
    rw [Nat.one_shiftLeft, Nat.testBit_two_pow_sub_one]
    simp only [hb, h]
    grind
  next h =>
    rw [hbyte]
    simp only [hb, h]
    grind

theorem bit_update (buf : Bytes) (i : Nat) (b : BitVec 8) (k : Nat)
    : bit (Function.update buf i b) k = if k / 8 = i then b.getLsbD (k % 8) else bit buf k := by
  unfold bit
  split
  next h => rw [h, Function.update_self]
  next h => rw [Function.update_of_ne h]

variable {limit fuel i : Nat}

theorem bitmapStores_nil (h : limit ≤ i) : bitmapStores limit fuel i = [] := by
  cases fuel with
  | zero => rfl
  | succ fuel => rw [bitmapStores, if_neg (by omega)]

theorem mem_bitmapStores_iff (hfuel : limit - i ≤ fuel) (p : Nat)
    : (∃ b, (p, b) ∈ bitmapStores limit fuel i) ↔ i < limit ∧ i / 8 ≤ p ∧ p ≤ (limit - 1) / 8 := by
  induction fuel generalizing i with
  | zero =>
    rw [bitmapStores_nil (by omega)]
    simp
    lia
  | succ fuel ih =>
    rw [bitmapStores]
    split
    next h =>
      have hrest := @ih (i / 8 * 8 + 8) (by lia)
      simp only [List.mem_cons, Prod.mk.injEq, exists_or, exists_and_left, exists_eq, and_true]
      rw [hrest]
      lia
    next h =>
      simp
      omega

theorem storeBytes_eq_ok_iff (size : Nat) (stores : List (Nat × BitVec 8)) (buf : Bytes)
    : (∃ buf', storeBytes size buf stores = .ok buf') ↔ ∀ s ∈ stores, s.1 < size := by
  induction stores generalizing buf with
  | nil => simp [storeBytes]
  | cons s stores ih =>
    rw [storeBytes, List.forall_mem_cons]
    split
    next h =>
      simp
      omega
    next h =>
      rw [ih]
      simp
      omega

theorem storeBytes_bitmapStores {size : Nat} {buf buf' : Bytes} (hfuel : limit - i ≤ fuel)
    (h : storeBytes size buf (bitmapStores limit fuel i) = .ok buf')
    (hzero : ∀ k, i / 8 ≤ k / 8 → bit buf k = false) (k : Nat)
    : bit buf' k = if k / 8 < i / 8 then bit buf k else decide (Covers i limit k) := by
  induction fuel generalizing i buf with
  | zero =>
    rw [bitmapStores_nil (by omega)] at h
    cases h
    split
    next => rfl
    next hk =>
      rw [hzero k (by omega)]
      symm
      rw [decide_eq_false_iff_not, Covers]
      lia
  | succ fuel ih =>
    rw [bitmapStores] at h
    split at h
    next hi =>
      rw [storeBytes] at h
      split at h
      next => contradiction
      next hsize =>
        have hnext := ih (by lia) h ?_
        . rw [hnext, bit_update]
          by_cases hk : k / 8 = i / 8
          . -- the byte of this round
            rw [if_pos (by omega), if_pos hk, getLsbD_mask (by omega)]
            rw [if_neg (by omega)]
            apply decide_eq_decide.mpr
            unfold Covers
            lia
          . rw [if_neg hk]
            by_cases hlow : k / 8 < i / 8
            . rw [if_pos (by lia), if_pos hlow]
            . rw [if_neg (by lia), if_neg hlow]
              apply decide_eq_decide.mpr
              unfold Covers
              lia
        . intro k' hk'
          rw [bit_update, if_neg (by omega)]
          exact hzero k' (by lia)
    next hi =>
      cases h
      split
      next => rfl
      next hk =>
        rw [hzero k (by omega)]
        symm
        rw [decide_eq_false_iff_not, Covers]
        omega

theorem bit_of_storeBytes {size : Nat} {buf : Bytes} (hfuel : limit - i ≤ fuel)
    (h : storeBytes size (fun _ => 0) (bitmapStores limit fuel i) = .ok buf) (k : Nat)
    : bit buf k = true ↔ Covers i limit k := by
  rw [storeBytes_bitmapStores hfuel h (fun k _ => by simp [bit])]
  split
  next hk =>
    unfold Covers
    simp [bit]
    lia
  next hk => exact decide_eq_true_iff

end Emos.Tools.MkfsAfs
