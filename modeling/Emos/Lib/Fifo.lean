import Mathlib.Data.List.Basic
import Mathlib.Logic.Function.Basic

/-!
This module contains a queue in the slots of a circular buffer, where one slot always stays free.
-/

namespace Lib

/--
The elements are in the slots from `start` on, up to the one in front of `stop`.
-/
structure Fifo (α : Type) (size : Nat) where
  start : Nat
  stop : Nat
  slots : Nat → α

namespace Fifo

variable {α : Type} {size : Nat} {f : Fifo α size} {a : α} {k n : Nat}

structure Valid (f : Fifo α size) : Prop where
  start_lt : f.start < size
  stop_lt : f.stop < size

def count (f : Fifo α size) : Nat := (f.stop + size - f.start) % size

def contents (f : Fifo α size) : List α := (List.range f.count).map fun i => f.slots ((f.start + i) % size)

/--
Nothing happens if there is no slot left for the element.
-/
def push (f : Fifo α size) (a : α) : Fifo α size :=
  if (f.stop + 1) % size = f.start then
    f
  else
    { f with slots := Function.update f.slots f.stop a, stop := (f.stop + 1) % size }

def front (f : Fifo α size) : α := f.slots f.start

def advance (f : Fifo α size) (n : Nat) : Fifo α size := { f with start := (f.start + n) % size }

theorem length_contents : f.contents.length = f.count := by
  unfold contents
  rw [List.length_map, List.length_range]

theorem getElem_contents {i : Nat} (h : i < f.contents.length) : f.contents[i] = f.slots ((f.start + i) % size) := by
  simp [contents]

theorem Valid.count_lt (h : f.Valid) : f.count < size := Nat.mod_lt _ (Nat.zero_lt_of_lt h.start_lt)

theorem Valid.count_eq (h : f.Valid)
    : f.count = if f.start ≤ f.stop then f.stop - f.start else f.stop + size - f.start := by
  obtain ⟨hstart, hstop⟩ := h
  unfold count
  split
  . rw [show f.stop + size - f.start = f.stop - f.start + size by lia, Nat.add_mod_right, Nat.mod_eq_of_lt (by lia)]
  . exact Nat.mod_eq_of_lt (by omega)

theorem Valid.count_eq_zero (h : f.Valid) : f.count = 0 ↔ f.start = f.stop := by
  have hstart := h.start_lt
  have hstop := h.stop_lt
  rw [h.count_eq]
  split <;> lia

theorem Valid.contents_eq_nil (h : f.Valid) : f.contents = [] ↔ f.start = f.stop := by
  rw [← List.length_eq_zero_iff, length_contents, h.count_eq_zero]

theorem Valid.advance (h : f.Valid) (n : Nat) : (f.advance n).Valid :=
  ⟨Nat.mod_lt _ (Nat.zero_lt_of_lt h.start_lt), h.stop_lt⟩

theorem Valid.push (h : f.Valid) (a : α) : (f.push a).Valid := by
  unfold Fifo.push
  split
  . exact h
  . exact ⟨h.start_lt, Nat.mod_lt _ (Nat.zero_lt_of_lt h.start_lt)⟩

theorem Valid.start_add_count (h : f.Valid) : (f.start + f.count) % size = f.stop := by
  have hstart := h.start_lt
  have hstop := h.stop_lt
  rw [h.count_eq]
  split
  . rw [Nat.add_sub_cancel' (by omega), Nat.mod_eq_of_lt hstop]
  . rw [show f.start + (f.stop + size - f.start) = f.stop + size by lia, Nat.add_mod_right, Nat.mod_eq_of_lt hstop]

theorem Valid.full_iff (h : f.Valid) : (f.stop + 1) % size = f.start ↔ f.count + 1 = size := by
  have hstart := h.start_lt
  have hstop := h.stop_lt
  have hnext : (f.stop + 1) % size = if f.stop + 1 = size then 0 else f.stop + 1 := by
    split
    . next heq => rw [heq, Nat.mod_self]
    . exact Nat.mod_eq_of_lt (by omega)
  rw [hnext, h.count_eq]
  split <;> split <;> lia

/--
Different places behind `start` are different slots.
-/
theorem slot_inj (hstart : f.start < size) {i j : Nat} (hi : i < size) (hj : j < size)
    (h : (f.start + i) % size = (f.start + j) % size)
    : i = j := by
  have hmod (k : Nat) (hk : k < size)
      : (f.start + k) % size = if f.start + k < size then f.start + k else f.start + k - size := by
    split
    . next hlt => exact Nat.mod_eq_of_lt hlt
    . rw [Nat.mod_eq_sub_mod (by lia), Nat.mod_eq_of_lt (by lia)]
  rw [hmod i hi, hmod j hj] at h
  split at h <;> split at h <;> lia

theorem Valid.count_unique (h : f.Valid) (hn : n < size) (hstop : (f.start + n) % size = f.stop) : f.count = n :=
  slot_inj h.start_lt h.count_lt hn (h.start_add_count.trans hstop.symm)

theorem Valid.count_push (h : f.Valid) (a : α) (hroom : f.count + 1 < size) : (f.push a).count = f.count + 1 := by
  have hfull : ¬ (f.stop + 1) % size = f.start := by
    rw [h.full_iff]
    omega
  refine (h.push a).count_unique hroom ?_
  unfold Fifo.push
  rw [if_neg hfull, ← Nat.add_assoc, ← Nat.mod_add_mod, h.start_add_count]

/--
An element that is pushed comes last.
-/
theorem Valid.contents_push (h : f.Valid) (a : α) (hroom : f.count + 1 < size)
    : (f.push a).contents = f.contents ++ [a] := by
  have hfull : ¬ (f.stop + 1) % size = f.start := by
    rw [h.full_iff]
    omega
  unfold contents
  rw [h.count_push a hroom, List.range_succ, List.map_append, List.map_singleton]
  unfold Fifo.push
  rw [if_neg hfull]
  congr 1
  . apply List.map_congr_left
    intro i hi
    have hlt := List.mem_range.mp hi
    apply Function.update_of_ne
    intro hslot
    have hsame := slot_inj h.start_lt (by omega) h.count_lt (hslot.trans h.start_add_count.symm)
    omega
  . rw [h.start_add_count]
    exact congrArg (fun x => [x]) (Function.update_self f.stop a f.slots)

theorem push_of_full (h : f.Valid) (hfull : f.count + 1 = size) : f.push a = f := if_pos (h.full_iff.mpr hfull)

theorem Valid.count_advance (h : f.Valid) (hn : n ≤ f.count) : (f.advance n).count = f.count - n := by
  have hlt := h.count_lt
  refine (h.advance n).count_unique (by omega) ?_
  change ((f.start + n) % size + (f.count - n)) % size = f.stop
  rw [Nat.mod_add_mod, show f.start + n + (f.count - n) = f.start + f.count by lia, h.start_add_count]

/--
To advance drops the first elements.
-/
theorem Valid.contents_advance (h : f.Valid) (hn : n ≤ f.count) : (f.advance n).contents = f.contents.drop n := by
  apply List.ext_getElem
  . rw [length_contents, List.length_drop, length_contents, h.count_advance hn]
  . intro i _ _
    rw [List.getElem_drop, getElem_contents, getElem_contents]
    change f.slots (((f.start + n) % size + i) % size) = _
    rw [Nat.mod_add_mod, Nat.add_assoc]

theorem Valid.contents_eq_cons (h : f.Valid) (hne : f.start ≠ f.stop)
    : f.contents = f.front :: (f.advance 1).contents := by
  have hpos : 0 < f.count := Nat.pos_of_ne_zero (mt h.count_eq_zero.mp hne)
  obtain ⟨n, hn⟩ := Nat.exists_eq_add_one_of_ne_zero (Nat.ne_of_gt hpos)
  rw [h.contents_advance hpos]
  unfold contents front
  rw [hn, List.range_succ_eq_map, List.map_cons, Nat.add_zero, Nat.mod_eq_of_lt h.start_lt, List.drop_one,
    List.tail_cons]

end Fifo

end Lib
