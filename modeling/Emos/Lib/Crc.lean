import Mathlib.Data.BitVec
import Mathlib.Logic.Function.Iterate

/-!
This module contains checksums that are remainders of polynomials whose bits are shifted out at the low end.
-/

namespace Lib

namespace Crc

variable {w : Nat} (poly : BitVec w)

/--
A bit is shifted out.
-/
def shiftOut (x : BitVec w) : BitVec w := (x >>> 1) ^^^ (if x.getLsbD 0 then poly else 0)

/--
A byte is put in at the low end.
-/
def feed (x : BitVec w) (b : BitVec 8) : BitVec w := (shiftOut poly)^[8] (x ^^^ b.setWidth w)

/--
The bytes as one number, with the first one at the low end.
-/
def word : List (BitVec 8) → BitVec w
  | [] => 0
  | b :: bs => b.setWidth w ^^^ (word bs <<< 8)

variable {poly} {x y : BitVec w} {bs cs : List (BitVec 8)}

theorem shiftOut_xor (x y : BitVec w) : shiftOut poly (x ^^^ y) = shiftOut poly x ^^^ shiftOut poly y := by
  have hpoly : (if (x ^^^ y).getLsbD 0 then poly else 0)
      = (if x.getLsbD 0 then poly else 0) ^^^ (if y.getLsbD 0 then poly else 0) := by
    rw [BitVec.getLsbD_xor]
    cases x.getLsbD 0 with
    | false => simp
    | true =>
      cases y.getLsbD 0 with
      | false => simp
      | true => simp
  unfold shiftOut
  rw [hpoly, BitVec.ushiftRight_xor_distrib]
  ac_rfl

theorem iterate_xor (k : Nat) (x y : BitVec w)
    : (shiftOut poly)^[k] (x ^^^ y) = (shiftOut poly)^[k] x ^^^ (shiftOut poly)^[k] y := by
  induction k generalizing x y with
  | zero => rfl
  | succ k ih =>
    rw [Function.iterate_succ_apply, Function.iterate_succ_apply, Function.iterate_succ_apply, shiftOut_xor, ih]

/--
The highest bit of the polynomial tells which bit has been shifted out.
-/
theorem shiftOut_injective (hpoly : poly.getLsbD (w - 1) = true) : Function.Injective (shiftOut poly) := by
  have hw : 0 < w := by
    apply Nat.pos_of_ne_zero
    intro hzero
    subst hzero
    simp at hpoly
  have htop : ∀ x : BitVec w, (shiftOut poly x).getLsbD (w - 1) = x.getLsbD 0 := by
    intro x
    unfold shiftOut
    rw [BitVec.getLsbD_xor, BitVec.getLsbD_ushiftRight, BitVec.getLsbD_of_ge x (1 + (w - 1)) (by omega)]
    cases x.getLsbD 0 with
    | false => simp
    | true => simpa using hpoly
  intro x y heq
  have hlow : x.getLsbD 0 = y.getLsbD 0 := by rw [← htop, ← htop, heq]
  have hshift : x >>> 1 = y >>> 1 := by
    unfold shiftOut at heq
    rw [hlow] at heq
    exact (BitVec.xor_left_inj _).mp heq
  apply BitVec.eq_of_getLsbD_eq
  intro i _
  cases i with
  | zero => exact hlow
  | succ i =>
    have hbit := congrArg (·.getLsbD i) hshift
    simpa [Nat.add_comm] using hbit

/--
Bits that are clear are just shifted out.
-/
theorem iterate_clear {k : Nat} (hx : ∀ i, i < k → x.getLsbD i = false) : (shiftOut poly)^[k] x = x >>> k := by
  induction k with
  | zero => simp
  | succ k ih =>
    have hlow : (x >>> k).getLsbD 0 = false := by
      rw [BitVec.getLsbD_ushiftRight]
      exact hx k (Nat.lt_succ_self k)
    rw [Function.iterate_succ_apply', ih fun i hi => hx i (Nat.lt_succ_of_lt hi)]
    unfold shiftOut
    rw [hlow, BitVec.shiftRight_add]
    simp

theorem iterate_shiftLeft (hx : x.toNat * 2 ^ 8 < 2 ^ w) : (shiftOut poly)^[8] (x <<< 8) = x := by
  rw [iterate_clear fun i hi => by simp [hi]]
  apply BitVec.eq_of_toNat_eq
  rw [BitVec.toNat_ushiftRight, BitVec.toNat_shiftLeft, Nat.shiftLeft_eq, Nat.mod_eq_of_lt hx,
    Nat.shiftRight_eq_div_pow, Nat.mul_div_cancel _ (by decide)]

/--
The low byte decides about what the others are combined with when they are shifted.
-/
theorem iterate_byte (x : BitVec w)
    : (shiftOut poly)^[8] x = (shiftOut poly)^[8] ((x.setWidth 8).setWidth w) ^^^ (x >>> 8) := by
  have hsplit : x = (x.setWidth 8).setWidth w ^^^ (x >>> 8 <<< 8) := by
    apply BitVec.eq_of_getLsbD_eq
    intro i hi
    by_cases hlow : i < 8
    . simp [hi, hlow]
    . simp [hi, hlow, show 8 + (i - 8) = i by omega]
  have hhigh : (shiftOut poly)^[8] (x >>> 8 <<< 8) = x >>> 8 := by
    apply iterate_shiftLeft
    rw [BitVec.toNat_ushiftRight, Nat.shiftRight_eq_div_pow]
    exact Nat.lt_of_le_of_lt (Nat.div_mul_le_self _ _) x.isLt
  calc (shiftOut poly)^[8] x
    _ = (shiftOut poly)^[8] ((x.setWidth 8).setWidth w ^^^ (x >>> 8 <<< 8)) := by rw [← hsplit]
    _ = (shiftOut poly)^[8] ((x.setWidth 8).setWidth w) ^^^ (x >>> 8) := by rw [iterate_xor, hhigh]

theorem toNat_word_cons {b : BitVec 8} (hw : 8 ≤ w) (hbs : (word bs : BitVec w).toNat * 2 ^ 8 < 2 ^ w)
    : (word (b :: bs) : BitVec w).toNat = b.toNat + 256 * (word bs : BitVec w).toNat := by
  have hor : (word (b :: bs) : BitVec w) = (word bs <<< 8) ||| b.setWidth w := by
    have hword : (word (b :: bs) : BitVec w) = b.setWidth w ^^^ (word bs <<< 8) := rfl
    rw [hword]
    apply BitVec.eq_of_getLsbD_eq
    intro i hi
    by_cases hlow : i < 8
    . simp [hi, hlow]
    . simp [hi, hlow, BitVec.getLsbD_of_ge b i (by omega)]
  have hb : b.toNat < 2 ^ w := Nat.lt_of_lt_of_le b.isLt (Nat.pow_le_pow_right (by decide) hw)
  rw [hor, BitVec.toNat_or, BitVec.toNat_shiftLeft, BitVec.toNat_setWidth, Nat.mod_eq_of_lt hb, Nat.shiftLeft_eq,
    Nat.mod_eq_of_lt hbs, ← Nat.shiftLeft_eq, ← Nat.shiftLeft_add_eq_or_of_lt b.isLt, Nat.shiftLeft_eq]
  omega

theorem word_lt (hw : 8 * bs.length ≤ w) : (word bs : BitVec w).toNat < 2 ^ (8 * bs.length) := by
  induction bs with
  | nil =>
    unfold word
    simp
  | cons b bs ih =>
    rw [List.length_cons] at hw ⊢
    have hih := ih (by omega)
    have hpow : 2 ^ (8 * (bs.length + 1)) = 2 ^ (8 * bs.length) * 2 ^ 8 := by rw [← pow_add, Nat.mul_succ]
    have hle : 2 ^ (8 * (bs.length + 1)) ≤ 2 ^ w := Nat.pow_le_pow_right (by decide) hw
    unfold word
    rw [BitVec.toNat_xor]
    apply Nat.xor_lt_two_pow
    . rw [BitVec.toNat_setWidth]
      apply Nat.lt_of_le_of_lt (Nat.mod_le _ _)
      exact Nat.lt_of_lt_of_le b.isLt (Nat.pow_le_pow_right (by decide) (by omega))
    . rw [BitVec.toNat_shiftLeft, Nat.shiftLeft_eq]
      apply Nat.lt_of_le_of_lt (Nat.mod_le _ _)
      omega

/--
As many bytes as there is room for can be put in at once.
-/
theorem foldl_feed (hw : 8 * bs.length ≤ w) (x : BitVec w)
    : bs.foldl (feed poly) x = (shiftOut poly)^[8 * bs.length] (x ^^^ word bs) := by
  induction bs generalizing x with
  | nil =>
    unfold word
    simp
  | cons b bs ih =>
    rw [List.length_cons] at hw
    have hlt : (word bs : BitVec w).toNat < 2 ^ (8 * bs.length) := word_lt (by omega)
    have hpow : 2 ^ (8 * (bs.length + 1)) = 2 ^ (8 * bs.length) * 2 ^ 8 := by rw [← pow_add, Nat.mul_succ]
    have hle : 2 ^ (8 * (bs.length + 1)) ≤ 2 ^ w := Nat.pow_le_pow_right (by decide) hw
    have hback : (shiftOut poly)^[8] (word bs <<< 8) = word bs := iterate_shiftLeft (by omega)
    rw [List.foldl_cons, ih (by omega), List.length_cons, Nat.mul_succ, Function.iterate_add_apply]
    have hword : (word (b :: bs) : BitVec w) = b.setWidth w ^^^ (word bs <<< 8) := rfl
    unfold feed
    rw [hword, ← BitVec.xor_assoc, iterate_xor 8 (x ^^^ b.setWidth w), hback]

theorem word_injective (hw : 8 * bs.length ≤ w) (hlen : bs.length = cs.length)
    (heq : (word bs : BitVec w) = word cs)
    : bs = cs := by
  induction bs generalizing cs with
  | nil => exact (List.length_eq_zero_iff.mp hlen.symm).symm
  | cons b bs ih =>
    cases cs with
    | nil => contradiction
    | cons c cs =>
      have hlen : bs.length = cs.length := Nat.succ.inj hlen
      rw [List.length_cons] at hw
      unfold word at heq
      have hbyte : b = c := by
        apply BitVec.eq_of_getLsbD_eq
        intro i hi
        have hbit := congrArg (·.getLsbD i) heq
        simpa [hi, show i < w by omega] using hbit
      rw [hbyte, BitVec.xor_right_inj] at heq
      have hpow : 2 ^ (8 * (bs.length + 1)) = 2 ^ (8 * bs.length) * 2 ^ 8 := by rw [← pow_add, Nat.mul_succ]
      have hle : 2 ^ (8 * (bs.length + 1)) ≤ 2 ^ w := Nat.pow_le_pow_right (by decide) hw
      have hbs : (word bs : BitVec w).toNat < 2 ^ (8 * bs.length) := word_lt (by omega)
      have hcs : (word cs : BitVec w).toNat < 2 ^ (8 * cs.length) := word_lt (by omega)
      rw [← hlen] at hcs
      have hrest : (word bs : BitVec w) = word cs := by
        calc (word bs : BitVec w)
          _ = (shiftOut 0)^[8] (word bs <<< 8) := (iterate_shiftLeft (by omega)).symm
          _ = (shiftOut 0)^[8] (word cs <<< 8) := by rw [heq]
          _ = word cs := iterate_shiftLeft (by omega)
      rw [hbyte, ih (by omega) hlen hrest]

theorem feed_injective (hpoly : poly.getLsbD (w - 1) = true) (b : BitVec 8)
    : Function.Injective fun x => feed poly x b := by
  intro x y heq
  exact (BitVec.xor_left_inj _).mp ((shiftOut_injective hpoly).iterate 8 heq)

theorem foldl_feed_injective (hpoly : poly.getLsbD (w - 1) = true) (bs : List (BitVec 8))
    : Function.Injective fun x => bs.foldl (feed poly) x := by
  induction bs with
  | nil => exact fun _ _ heq => heq
  | cons b bs ih => exact fun _ _ heq => feed_injective hpoly b (ih heq)

/--
Bytes that fit into the remainder are told from others of the same number, whatever is in front of them and behind them.
-/
theorem foldl_feed_burst (hpoly : poly.getLsbD (w - 1) = true) (front back : List (BitVec 8)) (x : BitVec w)
    (hw : 8 * bs.length ≤ w) (hlen : bs.length = cs.length)
    (heq : (front ++ bs ++ back).foldl (feed poly) x = (front ++ cs ++ back).foldl (feed poly) x)
    : bs = cs := by
  rw [List.foldl_append, List.foldl_append, List.foldl_append, List.foldl_append] at heq
  have heq := foldl_feed_injective hpoly back heq
  have hcs : 8 * cs.length ≤ w := by omega
  rw [foldl_feed hw, foldl_feed hcs, hlen] at heq
  have heq := (shiftOut_injective hpoly).iterate _ heq
  exact word_injective hw hlen ((BitVec.xor_right_inj _).mp heq)

end Crc

end Lib
