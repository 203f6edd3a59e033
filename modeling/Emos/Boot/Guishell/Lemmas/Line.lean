import Emos.Boot.Guishell.Impl.Draw
import Emos.Lib.Line
import Mathlib.Tactic.Ring

/-!
This module contains for which end points the GUI shell draws a line.
-/

open Lib Lib.Line

namespace Emos.Boot

namespace drawLine

variable {color : BitVec 32}

/--
The pixel at a point of the line that begins at the origin.
-/
def place (x0 y0 sx sy : Int) (p : Int × Int) : Pixel := ⟨x0 + sx * p.1, y0 + sy * p.2⟩

/--
The error of the loop at a point of the line.
-/
def error (a b i j : Int) : Int := a * (j + 1) - b * (i + 1)

theorem error_bounds {a b : Int} {p : Int × Int} (h : On a b p) (ha : 0 < a) (hb : 0 < b)
    : -(3 * max a b) ≤ 2 * error a b p.1 p.2 ∧ 2 * error a b p.1 p.2 ≤ 3 * max a b := by
  unfold On at h
  unfold error
  split at h
  next hle =>
    have hlower := h.1
    have hupper := h.2
    rw [max_eq_left hle]
    constructor
    . linarith
    . linarith
  next hlt =>
    have hlower := h.1
    have hupper := h.2
    rw [max_eq_right (by omega)]
    constructor
    . linarith
    . linarith

theorem le_error_iff (a b : Int) (p : Int × Int)
    : 2 * error a b p.1 p.2 ≥ -b ↔ b * (2 * p.1 + 1) ≤ 2 * a * (p.2 + 1) := by
  unfold error
  constructor
  . intro h
    linarith
  . intro h
    linarith

theorem error_le_iff (a b : Int) (p : Int × Int)
    : 2 * error a b p.1 p.2 ≤ a ↔ a * (2 * p.2 + 1) ≤ 2 * b * (p.1 + 1) := by
  unfold error
  constructor
  . intro h
    linarith
  . intro h
    linarith

/--
The end points of a line that is not parallel to an axis, as the start, the distances and the directions.
-/
structure Slanted (x0 y0 a b sx sy : Int) : Prop where
  a_pos : 0 < a
  b_pos : 0 < b
  a_lt : a < 2 ^ 29
  b_lt : b < 2 ^ 29
  sx_unit : sx = 1 ∨ sx = -1
  sy_unit : sy = 1 ∨ sy = -1
  x0_int : -2 ^ 31 ≤ x0 ∧ x0 < 2 ^ 31
  y0_int : -2 ^ 31 ≤ y0 ∧ y0 < 2 ^ 31
  x1_int : -2 ^ 31 ≤ x0 + sx * a ∧ x0 + sx * a < 2 ^ 31
  y1_int : -2 ^ 31 ≤ y0 + sy * b ∧ y0 + sy * b < 2 ^ 31

theorem coordinate_int {x s a i : Int} (hs : s = 1 ∨ s = -1) (hx : -2 ^ 31 ≤ x ∧ x < 2 ^ 31)
    (hend : -2 ^ 31 ≤ x + s * a ∧ x + s * a < 2 ^ 31) (hi : 0 ≤ i) (hle : i ≤ a)
    : -2 ^ 31 ≤ x + s * i ∧ x + s * i < 2 ^ 31 := by
  cases hs with
  | inl hs =>
    rw [hs] at hend ⊢
    omega
  | inr hs =>
    rw [hs] at hend ⊢
    lia

variable {x0 y0 a b sx sy : Int} {p : Int × Int}

theorem place_int (h : Slanted x0 y0 a b sx sy) (hon : On a b p) (hp : 0 ≤ major a b p)
    (hle : major a b p ≤ max a b)
    : (-2 ^ 31 ≤ x0 + sx * p.1 ∧ x0 + sx * p.1 < 2 ^ 31) ∧ -2 ^ 31 ≤ y0 + sy * p.2 ∧ y0 + sy * p.2 < 2 ^ 31 := by
  obtain ⟨hi, hj⟩ := hon.nonneg h.a_pos h.b_pos hp
  obtain ⟨hia, hjb⟩ := hon.le h.a_pos h.b_pos hle
  constructor
  . apply coordinate_int h.sx_unit h.x0_int h.x1_int hi hia
  . apply coordinate_int h.sy_unit h.y0_int h.y1_int hj hjb

theorem place_end_iff (h : Slanted x0 y0 a b sx sy)
    : x0 + sx * p.1 = x0 + sx * a ∧ y0 + sy * p.2 = y0 + sy * b ↔ p = (a, b) := by
  have hsx : sx ≠ 0 := by
    have := h.sx_unit
    omega
  have hsy : sy ≠ 0 := by
    have := h.sy_unit
    omega
  rw [Prod.ext_iff]
  simp [hsx, hsy]

theorem x_step (h : Slanted x0 y0 a b sx sy) (hon : On a b p) (hp : 0 ≤ major a b p)
    (hlt : major a b p < max a b)
    : advance (2 * error a b p.1 p.2 ≥ -b) (error a b p.1 p.2) (-b) (x0 + sx * p.1) sx
        =
      some (error a b (step a b p).1 p.2, x0 + sx * (step a b p).1) := by
  obtain ⟨hnext, hmajor⟩ := hon.next h.a_pos h.b_pos
  obtain ⟨hxInt, _⟩ := place_int h hnext (by omega) (by omega)
  obtain ⟨hlower, hupper⟩ := error_bounds hon h.a_pos h.b_pos
  have ha := h.a_lt
  have hb := h.b_lt
  have hbpos := h.b_pos
  have hmax : max a b < 2 ^ 29 := by omega
  simp only [advance, le_error_iff]
  rw [step_fst] at hxInt ⊢
  split
  next hc =>
    rw [if_pos hc] at hxInt
    have herror : error a b p.1 p.2 + -b = error a b (p.1 + 1) p.2 := by
      unfold error
      ring
    rw [checked32_bind (by lia), Int.add_assoc, ← mul_add_one, checked32_bind hxInt, herror]
  next hc => rfl

theorem y_step (h : Slanted x0 y0 a b sx sy) (hon : On a b p) (hp : 0 ≤ major a b p)
    (hlt : major a b p < max a b)
    : advance (2 * error a b p.1 p.2 ≤ a) (error a b (step a b p).1 p.2) a (y0 + sy * p.2) sy
        =
      some (error a b (step a b p).1 (step a b p).2, y0 + sy * (step a b p).2) := by
  obtain ⟨hnext, hmajor⟩ := hon.next h.a_pos h.b_pos
  obtain ⟨_, hyInt⟩ := place_int h hnext (by omega) (by omega)
  obtain ⟨hlower, hupper⟩ := error_bounds hnext h.a_pos h.b_pos
  have ha := h.a_lt
  have hb := h.b_lt
  have hmax : max a b < 2 ^ 29 := by omega
  simp only [advance, error_le_iff]
  rw [step_snd] at hyInt hlower hupper ⊢
  split
  next hc =>
    have herror : error a b (step a b p).1 p.2 + a = error a b (step a b p).1 (p.2 + 1) := by
      unfold error
      ring
    rw [if_pos hc] at hyInt hlower hupper
    rw [herror, checked32_bind (by lia), Int.add_assoc, ← mul_add_one, checked32_bind hyInt]
  next hc => rfl

/--
One round of the loop that is not the last one.
-/
theorem go_step (h : Slanted x0 y0 a b sx sy) (hon : On a b p) (hp : 0 ≤ major a b p)
    (hlt : major a b p < max a b) (fuel : Nat)
    : go color (x0 + sx * a) (y0 + sy * b) a (-b) sx sy (fuel + 1) (x0 + sx * p.1) (y0 + sy * p.2) (error a b p.1 p.2)
        =
      (go color (x0 + sx * a) (y0 + sy * b) a (-b) sx sy fuel (x0 + sx * (step a b p).1)
        (y0 + sy * (step a b p).2) (error a b (step a b p).1 (step a b p).2)).bind
          fun rest => some ((place x0 y0 sx sy p, color) :: rest) := by
  obtain ⟨hlower, hupper⟩ := error_bounds hon h.a_pos h.b_pos
  have ha := h.a_lt
  have hb := h.b_lt
  have hend : ¬ (x0 + sx * p.1 = x0 + sx * a ∧ y0 + sy * p.2 = y0 + sy * b) := by
    rw [place_end_iff h, hon.eq_end_iff h.a_pos h.b_pos]
    omega
  rw [go, if_neg hend, checked32_bind (by lia)]
  rw [x_step h hon hp hlt, Option.bind_eq_bind, Option.bind_some]
  simp only
  rw [y_step h hon hp hlt]
  rfl

theorem go_spec (color : BitVec 32) (h : Slanted x0 y0 a b sx sy) (hon : On a b p) (hp : 0 ≤ major a b p) {n : Nat}
    (hn : major a b p + n = max a b)
    : go color (x0 + sx * a) (y0 + sy * b) a (-b) sx sy (n + 1) (x0 + sx * p.1) (y0 + sy * p.2)
        (error a b p.1 p.2)
        =
      some (((List.iterate (step a b) p (n + 1)).map (place x0 y0 sx sy)).map (·, color)) := by
  induction n generalizing p with
  | zero =>
    have hend := (hon.eq_end_iff h.a_pos h.b_pos).mpr (by omega)
    rw [hend]
    simp [go, place, List.iterate]
  | succ n ih =>
    have hnext := hon.next h.a_pos h.b_pos
    rw [go_step h hon hp (by omega), ih hnext.1 (by omega) (by omega)]
    rfl

/--
The loop over a column ends in front of the largest coordinate, and does not leave the column.
-/
theorem exists_column {x y y1 : Int} {fuel : Nat} (hy : -2 ^ 31 ≤ y) (hy1 : y1 < 2 ^ 31 - 1)
    (hfuel : (y1 + 1 - y).toNat < fuel)
    : ∃ pixels, column color x y1 fuel y = some pixels ∧ ∀ p ∈ pixels, p.1.x = x ∧ y ≤ p.1.y ∧ p.1.y ≤ y1 := by
  induction fuel generalizing y with
  | zero => contradiction
  | succ fuel ih =>
    unfold column
    split
    . next hle =>
      obtain ⟨pixels, hpixels, hmem⟩ := @ih (y + 1) (by lia) (by lia)
      rw [checked32_bind (by omega), hpixels]
      refine ⟨(⟨x, y⟩, color) :: pixels, rfl, ?_⟩
      intro p hp
      cases hp with
      | head => exact ⟨rfl, Int.le_refl y, hle⟩
      | tail _ hp =>
        obtain ⟨hx, hlo, hhi⟩ := hmem p hp
        exact ⟨hx, by omega, hhi⟩
    . exact ⟨[], rfl, fun p hp => absurd hp List.not_mem_nil⟩

/--
Both loops along an axis visit the same coordinates.
-/
theorem row_eq_column (x1 y : Int) (fuel : Nat) (x : Int)
    : row color y x1 fuel x = (column color y x1 fuel x).map (List.map fun p => (⟨p.1.y, p.1.x⟩, p.2)) := by
  induction fuel generalizing x with
  | zero => rfl
  | succ fuel ih =>
    rw [row, column]
    split
    next hle =>
      by_cases hx : -2 ^ 31 ≤ x + 1 ∧ x + 1 < 2 ^ 31
      . rw [checked32_bind hx, checked32_bind hx, ih]
        cases column color y x1 fuel (x + 1) with
        | none => rfl
        | some rest => rfl
      . rw [checked32_bind_none hx, checked32_bind_none hx]
        rfl
    next hgt => rfl

theorem exists_row {x x1 y : Int} {fuel : Nat} (hx : -2 ^ 31 ≤ x) (hx1 : x1 < 2 ^ 31 - 1)
    (hfuel : (x1 + 1 - x).toNat < fuel)
    : ∃ pixels, row color y x1 fuel x = some pixels ∧ ∀ p ∈ pixels, p.1.y = y ∧ x ≤ p.1.x ∧ p.1.x ≤ x1 := by
  obtain ⟨pixels, hpixels, hmem⟩ : ∃ pixels, column color y x1 fuel x = some pixels ∧ _ := exists_column hx hx1 hfuel
  rw [row_eq_column, hpixels]
  refine ⟨_, rfl, ?_⟩
  intro p hp
  obtain ⟨q, hq, heq⟩ := List.mem_map.mp hp
  rw [← heq]
  exact hmem q hq

end drawLine

open drawLine

variable {x0 y0 x1 y1 : Int} {color : BitVec 32}

theorem drawLine_column (fuel : Nat) (x y0 y1 : Int) (color : BitVec 32)
    : drawLine fuel x y0 x y1 color = column color x (max y0 y1) fuel (min y0 y1) := by
  rw [drawLine, if_pos rfl]
  by_cases hgt : y0 > y1
  . rw [if_pos hgt, max_eq_left (by omega), min_eq_right (by omega)]
  . rw [if_neg hgt, max_eq_right (by omega), min_eq_left (by omega)]

theorem drawLine_row (fuel : Nat) (hx : x0 ≠ x1) (y : Int) (color : BitVec 32)
    : drawLine fuel x0 y x1 y color = row color y (max x0 x1) fuel (min x0 x1) := by
  rw [drawLine, if_neg hx, if_pos rfl]
  by_cases hgt : x0 > x1
  . rw [if_pos hgt, max_eq_left (by omega), min_eq_right (by omega)]
  . rw [if_neg hgt, max_eq_right (by omega), min_eq_left (by omega)]

end Emos.Boot
