import Mathlib.Algebra.Ring.Nat
import Mathlib.Data.BitVec
import Mathlib.Logic.Function.Basic
import Mathlib.Tactic.Ring

/-!
This module contains byte addressed memory with numbers that are stored in it, lowest byte first, and arrays of
bytes that are kept in blocks of equal size.
-/

namespace Lib

/--
The contents of memory, one byte at each address.
-/
abbrev Bytes := Nat → BitVec 8

namespace Bytes

/--
The number in the `n` bytes at address `p`.
-/
def read (m : Bytes) (p : Nat) : Nat → Nat
  | 0 => 0
  | n + 1 => (m p).toNat + 256 * read m (p + 1) n

/--
Store the lowest `n` bytes of a number at address `p`.
-/
def write (m : Bytes) (p : Nat) : Nat → Nat → Bytes
  | 0, _ => m
  | n + 1, v => write (Function.update m p (BitVec.ofNat 8 v)) (p + 1) n (v / 256)

variable {m m' : Bytes} {p q n k v : Nat}

theorem read_lt (m : Bytes) (p n : Nat) : read m p n < 256 ^ n := by
  induction n generalizing p with
  | zero => simp [read]
  | succ n ih =>
    have hbyte := (m p).isLt
    have hrest := ih (p + 1)
    rw [read, Nat.pow_succ]
    omega

theorem read_congr (h : ∀ i, i < n → m' (q + i) = m (p + i)) : read m' q n = read m p n := by
  induction n generalizing p q with
  | zero => rfl
  | succ n ih =>
    rw [read, read]
    have hfirst := h 0 (by omega)
    rw [Nat.add_zero, Nat.add_zero] at hfirst
    rw [hfirst]
    rw [ih]
    intro i hi
    have := h (i + 1) (by omega)
    rw [show q + (i + 1) = q + 1 + i by omega] at this
    rw [show p + (i + 1) = p + 1 + i by omega] at this
    exact this

theorem write_outside (h : q < p ∨ p + n ≤ q) : write m p n v q = m q := by
  induction n generalizing m p v with
  | zero => rfl
  | succ n ih =>
    rw [write]
    rw [ih (by omega)]
    exact Function.update_of_ne (by omega) _ _

theorem write_apply
    : write m p n v q
        =
      if p ≤ q ∧ q < p + n then BitVec.ofNat 8 (v / 256 ^ (q - p)) else m q := by
  induction n generalizing m p v with
  | zero => simp [write]
  | succ n ih =>
    rw [write, ih]
    by_cases heq : q = p
    . subst heq
      rw [if_neg (by omega), if_pos (by omega)]
      simp
    . rw [Function.update_of_ne heq]
      by_cases hin : p + 1 ≤ q ∧ q < p + 1 + n
      . rw [if_pos hin, if_pos (by omega)]
        rw [Nat.div_div_eq_div_mul, ← Nat.pow_succ']
        rw [show (q - (p + 1)).succ = q - p by lia]
      . rw [if_neg hin, if_neg (by omega)]

theorem read_write_self : read (write m p n v) p n = v % 256 ^ n := by
  induction n generalizing m p v with
  | zero => simp [read, Nat.mod_one]
  | succ n ih =>
    rw [read, write]
    rw [ih]
    rw [write_outside (by omega)]
    rw [Function.update_self, BitVec.toNat_ofNat]
    have hpow : 256 ^ (n + 1) = 256 * 256 ^ n := by
      rw [Nat.pow_succ, Nat.mul_comm]
    rw [hpow, Nat.mod_mul]

theorem read_write_of_lt (h : v < 256 ^ n) : read (write m p n v) p n = v := by
  rw [read_write_self]
  exact Nat.mod_eq_of_lt h

theorem read_write_disjoint (h : q + k ≤ p ∨ p + n ≤ q)
    : read (write m p n v) q k = read m q k := by
  apply read_congr
  intro i hi
  exact write_outside (by omega)

/--
A number is stored in two parts.
-/
theorem write_add (m : Bytes) (p n k v : Nat)
    : write m p (n + k) v = write (write m p n v) (p + n) k (v / 256 ^ n) := by
  induction n generalizing m p v with
  | zero => rw [Nat.zero_add, Nat.pow_zero, Nat.div_one, Nat.add_zero, write]
  | succ n ih =>
    rw [Nat.succ_add, write, ih, write]
    rw [Nat.div_div_eq_div_mul, ← Nat.pow_succ']
    rw [show p + 1 + n = p + (n + 1) by omega]

/--
Store numbers of `n` bytes one after another.
-/
def writeAll (m : Bytes) (p n : Nat) : List Nat → Bytes
  | [] => m
  | v :: vs => writeAll (write m p n v) (p + n) n vs

theorem writeAll_cons (v : Nat) (vs : List Nat)
    : writeAll m p n (v :: vs) = writeAll (write m p n v) (p + n) n vs := rfl

theorem writeAll_outside {vs : List Nat} (h : q < p ∨ p + n * vs.length ≤ q) : writeAll m p n vs q = m q := by
  induction vs generalizing m p with
  | nil => rfl
  | cons v vs ih =>
    rw [List.length_cons, Nat.mul_succ] at h
    rw [writeAll_cons, ih (by omega), write_outside (by omega)]

theorem read_writeAll_disjoint {vs : List Nat} (h : q + k ≤ p ∨ p + n * vs.length ≤ q)
    : read (writeAll m p n vs) q k = read m q k := by
  apply read_congr
  intro i hi
  exact writeAll_outside (by omega)

theorem read_writeAll {vs : List Nat} {i : Nat} (h : i < vs.length)
    : read (writeAll m p n vs) (p + n * i) n = vs[i] % 256 ^ n := by
  induction vs generalizing m p i with
  | nil => contradiction
  | cons v vs ih =>
    rw [writeAll_cons]
    cases i with
    | zero =>
      rw [Nat.mul_zero, Nat.add_zero, read_writeAll_disjoint (by omega)]
      exact read_write_self
    | succ i =>
      rw [show p + n * (i + 1) = p + n + n * i by rw [Nat.mul_succ]; omega]
      exact ih (Nat.lt_of_succ_lt_succ h)

/--
What the numbers are stored over does not matter.
-/
theorem writeAll_congr {vs : List Nat} (h : ∀ q, q < p ∨ p + n * vs.length ≤ q → m' q = m q)
    : writeAll m' p n vs = writeAll m p n vs := by
  induction vs generalizing m m' p with
  | nil => exact funext fun q => h q (Nat.lt_or_ge q p)
  | cons v vs ih =>
    rw [writeAll_cons, writeAll_cons]
    apply ih
    intro q hq
    rw [write_apply, write_apply]
    split
    . rfl
    . apply h
      rw [List.length_cons, Nat.mul_succ]
      omega

end Bytes

namespace Blocks

variable {size width i : Nat}

/--
The bytes of all blocks, one block after the other.
-/
def flatten (block : Nat → Bytes) (size : Nat) : Bytes := fun k => block (k / size) (k % size)

theorem word_place (entry : Nat) (hwidth : width ∣ size) (hw : i < width)
    (hpos : 0 < size)
    : (entry * width + i) / size = entry / (size / width)
        ∧ (entry * width + i) % size = entry % (size / width) * width + i := by
  obtain ⟨q, hq⟩ := hwidth
  have hqpos : 0 < q := by
    rw [hq] at hpos
    exact Nat.pos_of_mul_pos_left hpos
  rw [hq, Nat.mul_div_cancel_left q (by omega)]
  have hsplit : entry * width + i = width * q * (entry / q) + (entry % q * width + i) := by
    calc entry * width + i
      _ = (q * (entry / q) + entry % q) * width + i := by rw [Nat.div_add_mod]
      _ = width * q * (entry / q) + (entry % q * width + i) := by ring
  have hlt : entry % q * width + i < width * q := by
    have hmod := Nat.mod_lt entry hqpos
    calc entry % q * width + i
      _ < entry % q * width + width := by omega
      _ = (entry % q + 1) * width := by ring
      _ ≤ q * width := Nat.mul_le_mul_right _ hmod
      _ = width * q := Nat.mul_comm _ _
  rw [hsplit]
  rw [Nat.mul_add_div (by omega), Nat.mul_add_mod, Nat.div_eq_of_lt hlt, Nat.mod_eq_of_lt hlt]
  exact ⟨by omega, rfl⟩

theorem read_word (block : Nat → Bytes) (entry : Nat) (hwidth : width ∣ size) (hpos : 0 < size)
    : Bytes.read (block (entry / (size / width))) (entry % (size / width) * width) width
        =
      Bytes.read (flatten block size) (entry * width) width := by
  apply Bytes.read_congr
  intro i hi
  obtain ⟨hdiv, hmod⟩ := word_place entry hwidth hi hpos
  unfold flatten
  rw [hdiv, hmod]

theorem place_add {k : Nat} (h : k % size + i < size)
    : (k + i) / size = k / size ∧ (k + i) % size = k % size + i := by
  have hsplit := Nat.div_add_mod k size
  have heq : k + i = size * (k / size) + (k % size + i) := by omega
  rw [heq, Nat.mul_add_div (by omega), Nat.mul_add_mod, Nat.div_eq_of_lt h, Nat.mod_eq_of_lt h]
  exact ⟨by omega, rfl⟩

theorem place_end {k : Nat} (hpos : 0 < size) (h : k % size + i = size)
    : (k + i) / size = k / size + 1 ∧ (k + i) % size = 0 := by
  have hsplit := Nat.div_add_mod k size
  have heq : k + i = size * (k / size + 1) := by
    rw [Nat.mul_add, Nat.mul_one]
    lia
  rw [heq, Nat.mul_div_cancel_left _ hpos, Nat.mul_mod_right]
  exact ⟨rfl, rfl⟩

theorem next_place (hpos : 2 ≤ size) (k : Nat)
    : ((k + 1) / size, (k + 1) % size)
        =
      if k % size < size - 1 then (k / size, k % size + 1)
      else (k / size + 1, 0) := by
  have hmod := Nat.mod_lt k (show 0 < size by omega)
  split
  . obtain ⟨hdiv, hmod⟩ := place_add (k := k) (show k % size + 1 < size by omega)
    rw [hdiv, hmod]
  . obtain ⟨hdiv, hmod⟩ := place_end (k := k) (by omega) (show k % size + 1 = size by omega)
    rw [hdiv, hmod]

end Blocks

end Lib
