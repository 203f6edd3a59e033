import Emos.Lib.Buffer
import Emos.Lib.Loop
import Mathlib.Data.BitVec

/-!
This module contains bits that are stored eight in a byte, the lowest one first.
-/

namespace Lib

namespace Bitmap

variable {ε : Type}

/--
The byte of which only bit `i` is set.
-/
def bitOf (i : Nat) : BitVec 8 := 1#8 <<< (i % 8)

def test (b : Buffer (BitVec 8)) (fault : ε) (i : Nat) : Except ε Bool := do
  let byte ← b.get fault (i / 8)
  .ok (byte &&& bitOf i ≠ 0)

def mark (b : Buffer (BitVec 8)) (fault : ε) (i : Nat) : Except ε (Buffer (BitVec 8)) := do
  let byte ← b.get fault (i / 8)
  b.set fault (i / 8) (byte ||| bitOf i)

def clear (b : Buffer (BitVec 8)) (fault : ε) (i : Nat) : Except ε (Buffer (BitVec 8)) := do
  let byte ← b.get fault (i / 8)
  b.set fault (i / 8) (byte &&& ~~~bitOf i)

/--
Bit `i`, whether or not there is memory for it.
-/
def bit (b : Buffer (BitVec 8)) (i : Nat) : Bool := (b.data (i / 8)).getLsbD (i % 8)

variable {b : Buffer (BitVec 8)} {fault : ε} {i j : Nat}

theorem getLsbD_bitOf {k : Nat} (hk : k < 8) : (bitOf i).getLsbD k = decide (k = i % 8) := by
  have hlt : i % 8 < 8 := Nat.mod_lt _ (by decide)
  unfold bitOf
  generalize i % 8 = n at hlt
  rw [BitVec.getLsbD_shiftLeft, BitVec.getLsbD_one]
  rw [Bool.eq_iff_iff]
  simp
  lia

theorem and_bitOf_ne_zero (byte : BitVec 8) : byte &&& bitOf i ≠ 0 ↔ byte.getLsbD (i % 8) = true := by
  have hlt : i % 8 < 8 := Nat.mod_lt _ (by decide)
  have hnone (k : Nat) : BitVec.getLsbD (0 : BitVec 8) k = false := BitVec.getLsbD_zero
  constructor
  . intro hne
    by_contra hbit
    apply hne
    apply BitVec.eq_of_getLsbD_eq
    intro k hk
    rw [BitVec.getLsbD_and, getLsbD_bitOf hk, hnone]
    by_cases hki : k = i % 8
    . rw [hki, Bool.eq_false_of_not_eq_true hbit]
      exact Bool.false_and _
    . rw [decide_eq_false hki]
      exact Bool.and_false _
  . intro hbit hzero
    have hand := congrArg (fun v => v.getLsbD (i % 8)) hzero
    rw [BitVec.getLsbD_and, getLsbD_bitOf hlt, hbit, decide_eq_true rfl, hnone] at hand
    contradiction

theorem test_of_lt (h : i / 8 < b.size) : test b fault i = .ok (bit b i) := by
  unfold test
  rw [Buffer.get_of_lt h, bit]
  refine congrArg Except.ok ?_
  rw [Bool.eq_iff_iff, decide_eq_true_iff, and_bitOf_ne_zero]

theorem mark_of_lt (h : i / 8 < b.size)
    : mark b fault i = .ok { b with data := Function.update b.data (i / 8) (b.data (i / 8) ||| bitOf i) } := by
  unfold mark
  rw [Buffer.get_of_lt h]
  exact Buffer.set_of_lt h

theorem clear_of_lt (h : i / 8 < b.size)
    : clear b fault i = .ok { b with data := Function.update b.data (i / 8) (b.data (i / 8) &&& ~~~bitOf i) } := by
  unfold clear
  rw [Buffer.get_of_lt h]
  exact Buffer.set_of_lt h

theorem div_eq_mod_eq (hdiv : i / 8 = j / 8) (hmod : i % 8 = j % 8) : i = j := by omega

theorem bit_mark (b' : Buffer (BitVec 8)) (h : mark b fault i = .ok b')
    : b'.size = b.size ∧ ∀ j, bit b' j = (bit b j || decide (j = i)) := by
  have hlt : i / 8 < b.size := by
    unfold mark at h
    rw [bind_eq_ok] at h
    obtain ⟨byte, hbyte, _⟩ := h
    exact (Buffer.get_eq_ok hbyte).1
  rw [mark_of_lt hlt] at h
  cases h
  refine ⟨rfl, fun j => ?_⟩
  unfold bit
  dsimp only
  by_cases hdiv : j / 8 = i / 8
  . rw [hdiv, Function.update_self, BitVec.getLsbD_or, getLsbD_bitOf (Nat.mod_lt _ (by decide))]
    congr 1
    rw [Bool.eq_iff_iff, decide_eq_true_iff, decide_eq_true_iff]
    exact ⟨div_eq_mod_eq hdiv, fun h => by rw [h]⟩
  . rw [Function.update_of_ne hdiv]
    rw [decide_eq_false (fun h => hdiv (by rw [h])), Bool.or_false]

theorem bit_clear (b' : Buffer (BitVec 8)) (h : clear b fault i = .ok b')
    : b'.size = b.size ∧ ∀ j, bit b' j = (bit b j && !decide (j = i)) := by
  have hlt : i / 8 < b.size := by
    unfold clear at h
    rw [bind_eq_ok] at h
    obtain ⟨byte, hbyte, _⟩ := h
    exact (Buffer.get_eq_ok hbyte).1
  rw [clear_of_lt hlt] at h
  cases h
  refine ⟨rfl, fun j => ?_⟩
  unfold bit
  dsimp only
  by_cases hdiv : j / 8 = i / 8
  . have hmod : j % 8 < 8 := Nat.mod_lt _ (by decide)
    rw [hdiv, Function.update_self, BitVec.getLsbD_and, BitVec.getLsbD_not, getLsbD_bitOf hmod]
    rw [decide_eq_true hmod, Bool.true_and]
    congr 2
    rw [Bool.eq_iff_iff, decide_eq_true_iff, decide_eq_true_iff]
    exact ⟨div_eq_mod_eq hdiv, fun h => by rw [h]⟩
  . rw [Function.update_of_ne hdiv]
    rw [decide_eq_false (fun h => hdiv (by rw [h]))]
    exact (Bool.and_true _).symm

theorem bit_filled {size : Nat} : bit (Buffer.filled size 0#8) i = false := by
  unfold bit Buffer.filled
  exact BitVec.getLsbD_zero

end Bitmap

end Lib
