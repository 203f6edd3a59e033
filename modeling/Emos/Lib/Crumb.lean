import Mathlib.Data.List.Basic

/-!
This module contains arrays of two bit fields that are packed four to a byte, lowest bits first.
-/

namespace Lib

namespace Crumb

/--
The field at position `k` of a byte.
-/
def get (b : BitVec 8) (k : Nat) : BitVec 2 :=
  ((b >>> (k * 2)) &&& 3#8).setWidth 2

/--
Replace the field at position `k` of a byte.
-/
def set (b : BitVec 8) (k : Nat) (v : BitVec 2) : BitVec 8 :=
  (b &&& ~~~(3#8 <<< (k * 2))) ||| (v.setWidth 8 <<< (k * 2))

theorem getLsbD_three (i : Nat) : (3#8).getLsbD i = decide (i < 2) := by
  by_cases h : i < 8
  . revert i
    decide
  . rw [BitVec.getLsbD_of_ge _ _ (by omega)]
    simp only [Bool.false_eq, decide_eq_false_iff_not, Nat.not_lt]
    omega

theorem getLsbD_get (b : BitVec 8) (k i : Nat) (hi : i < 2)
    : (get b k).getLsbD i = b.getLsbD (k * 2 + i) := by
  simp only [get, BitVec.getLsbD_setWidth, BitVec.getLsbD_and, BitVec.getLsbD_ushiftRight,
    getLsbD_three, hi]
  simp

theorem getLsbD_set (b : BitVec 8) (k i : Nat) (v : BitVec 2) (hi : i < 8)
    : (set b k v).getLsbD i
        =
      if k * 2 ≤ i ∧ i < k * 2 + 2 then v.getLsbD (i - k * 2) else b.getLsbD i := by
  simp only [set, BitVec.getLsbD_or, BitVec.getLsbD_and, BitVec.getLsbD_not,
    BitVec.getLsbD_shiftLeft, BitVec.getLsbD_setWidth, getLsbD_three, hi]
  split
  . next h =>
    have h1 : ¬ i < k * 2 := by omega
    have h2 : i - k * 2 < 2 := by omega
    have h3 : i - k * 2 < 8 := by omega
    simp [h1, h2, h3]
  . next h =>
    by_cases h1 : i < k * 2
    . simp [h1]
    . have h2 : ¬ i - k * 2 < 2 := by lia
      have h3 : v.getLsbD (i - k * 2) = false := by
        apply BitVec.getLsbD_of_ge
        omega
      simp [h1, h2, h3]

theorem get_set_eq (b : BitVec 8) (k : Nat) (v : BitVec 2) (hk : k < 4)
    : get (set b k v) k = v := by
  apply BitVec.eq_of_getLsbD_eq
  intro i hi
  rw [getLsbD_get _ _ _ hi]
  rw [getLsbD_set _ _ _ _ (by omega)]
  rw [if_pos (by omega)]
  congr 1
  lia

theorem get_set_ne (b : BitVec 8) (k j : Nat) (v : BitVec 2) (hj : j < 4) (h : j ≠ k)
    : get (set b k v) j = get b j := by
  apply BitVec.eq_of_getLsbD_eq
  intro i hi
  rw [getLsbD_get _ _ _ hi]
  rw [getLsbD_get _ _ _ hi]
  rw [getLsbD_set _ _ _ _ (by omega)]
  rw [if_neg (by lia)]

theorem get_zero (k : Nat) : get 0#8 k = 0#2 := by
  simp [get]

end Crumb

namespace Crumbs

/--
Field `i` of a packed array, if the byte that holds it exists.
-/
def get? (bytes : List (BitVec 8)) (i : Nat) : Option (BitVec 2) :=
  bytes[i / 4]?.map fun b => Crumb.get b (i % 4)

/--
Replace field `i` of a packed array, the other fields of its byte are kept.
-/
def set (bytes : List (BitVec 8)) (i : Nat) (v : BitVec 2) : List (BitVec 8) :=
  bytes.modify (i / 4) fun b => Crumb.set b (i % 4) v

@[simp]
theorem length_set (bytes : List (BitVec 8)) (i : Nat) (v : BitVec 2)
    : (set bytes i v).length = bytes.length := by
  simp [set]

theorem get?_eq_none_iff {bytes : List (BitVec 8)} {i : Nat}
    : get? bytes i = none ↔ bytes.length ≤ i / 4 := by
  simp [get?]

theorem exists_get? {bytes : List (BitVec 8)} {i : Nat} (h : i / 4 < bytes.length)
    : ∃ d, get? bytes i = some d := by
  cases hd : get? bytes i with
  | none =>
    rw [get?_eq_none_iff] at hd
    omega
  | some d => exact ⟨d, rfl⟩

theorem get?_set_eq {bytes : List (BitVec 8)} {i : Nat} (v : BitVec 2) (h : i / 4 < bytes.length)
    : get? (set bytes i v) i = some v := by
  simp only [get?, set, List.getElem?_modify, ↓reduceIte]
  rw [List.getElem?_eq_getElem h]
  simp only [Option.map_eq_map, Option.map_some]
  rw [Crumb.get_set_eq _ _ _ (by omega)]

theorem get?_set_ne {bytes : List (BitVec 8)} {i j : Nat} (v : BitVec 2) (h : j ≠ i)
    : get? (set bytes i v) j = get? bytes j := by
  simp only [get?, set, List.getElem?_modify]
  split
  . rw [Option.map_eq_map]
    rw [Option.map_map]
    congr 1
    funext b
    rw [Function.comp_apply]
    rw [Crumb.get_set_ne _ _ _ _ (by omega) (by omega)]
  . simp

theorem get?_replicate_zero {n i : Nat} (h : i / 4 < n)
    : get? (List.replicate n 0#8) i = some 0#2 := by
  simp [get?, h, Crumb.get_zero]

end Crumbs

end Lib
