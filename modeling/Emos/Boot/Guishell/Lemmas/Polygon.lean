import Emos.Boot.Guishell.Lemmas.Line
import Emos.Lib.Count
import Mathlib.Data.List.Sort

/-!
This module contains how many times the edges of a polygon cross a scan line, and that a filled polygon stays on the
screen.
-/

open Lib

namespace Emos.Boot

namespace drawPolygon

/--
The screen, and that the numbers from which a crossing on it is calculated do not overflow.
-/
structure Fits (width height : Int) (pts : List Pixel) : Prop where
  width_int : 0 ≤ width ∧ width < 2 ^ 31
  height_int : 0 ≤ height ∧ height < 2 ^ 31
  vertex_int : ∀ p ∈ pts, (-2 ^ 31 ≤ p.x ∧ p.x < 2 ^ 31) ∧ -2 ^ 31 ≤ p.y ∧ p.y < 2 ^ 31
  edge_int : ∀ e ∈ edges pts, ∀ y, 0 ≤ y → y < height → Crosses y e.1 e.2 →
    (-2 ^ 31 ≤ y - e.1.y ∧ y - e.1.y < 2 ^ 31)
      ∧ (-2 ^ 31 ≤ e.2.x - e.1.x ∧ e.2.x - e.1.x < 2 ^ 31)
      ∧ (-2 ^ 31 ≤ (y - e.1.y) * (e.2.x - e.1.x) ∧ (y - e.1.y) * (e.2.x - e.1.x) < 2 ^ 31)
      ∧ -2 ^ 31 ≤ e.2.y - e.1.y ∧ e.2.y - e.1.y < 2 ^ 31

variable {width height y : Int} {pts : List Pixel} {color : BitVec 32} {nodes : List Int} {fuel : Nat}

/--
An edge crosses a scan line if one of its ends is above the line and the other one is not.
-/
theorem crosses_iff {p1 p2 : Pixel} : Crosses y p1 p2 ↔ (decide (y ≤ p1.y) != decide (y ≤ p2.y)) = true := by
  unfold Crosses
  rw [bne_iff_ne, ne_eq, decide_eq_decide]
  lia

theorem height_ne_zero {p1 p2 : Pixel} (h : Crosses y p1 p2) : p2.y - p1.y ≠ 0 := by
  unfold Crosses at h
  omega

theorem part_of_nonneg {a b d : Int} (hb : 0 < b) (ha : 0 ≤ a) (hle : a ≤ b) (hd : 0 ≤ d)
    : 0 ≤ (a * d).tdiv b ∧ (a * d).tdiv b ≤ d := by
  have hproduct : 0 ≤ a * d := Int.mul_nonneg ha hd
  rw [Int.tdiv_eq_ediv_of_nonneg hproduct]
  constructor
  . exact Int.ediv_nonneg hproduct (Int.le_of_lt hb)
  . apply Int.ediv_le_of_le_mul hb
    rw [Int.mul_comm d b]
    exact Int.mul_le_mul_of_nonneg_right hle hd

theorem part_of_pos {a b d : Int} (hb : 0 < b) (ha : 0 ≤ a) (hle : a ≤ b)
    : min 0 d ≤ (a * d).tdiv b ∧ (a * d).tdiv b ≤ max 0 d := by
  by_cases hd : 0 ≤ d
  . obtain ⟨hlower, hupper⟩ := part_of_nonneg hb ha hle hd
    omega
  . have hneg : (a * d).tdiv b = -(a * -d).tdiv b := by
      rw [Int.mul_neg, Int.neg_tdiv, Int.neg_neg]
    obtain ⟨hlower, hupper⟩ := part_of_nonneg hb ha hle (d := -d) (by omega)
    lia

/--
The part of `d` that `a` is of `b`, rounded towards zero.
-/
theorem part_bounds {a b d : Int} (hb : b ≠ 0) (h : 0 ≤ a ∧ a ≤ b ∨ b ≤ a ∧ a ≤ 0)
    : min 0 d ≤ (a * d).tdiv b ∧ (a * d).tdiv b ≤ max 0 d := by
  by_cases hpos : 0 < b
  . exact part_of_pos hpos (by omega) (by omega)
  . rw [← Int.neg_tdiv_neg, ← Int.neg_mul]
    exact part_of_pos (by omega) (by omega) (by omega)

theorem exists_crossingX {p1 p2 : Pixel} (hcross : Crosses y p1 p2)
    (hx1 : -2 ^ 31 ≤ p1.x ∧ p1.x < 2 ^ 31) (hx2 : -2 ^ 31 ≤ p2.x ∧ p2.x < 2 ^ 31)
    (hdy : -2 ^ 31 ≤ y - p1.y ∧ y - p1.y < 2 ^ 31) (hwidth : -2 ^ 31 ≤ p2.x - p1.x ∧ p2.x - p1.x < 2 ^ 31)
    (hproduct : -2 ^ 31 ≤ (y - p1.y) * (p2.x - p1.x) ∧ (y - p1.y) * (p2.x - p1.x) < 2 ^ 31)
    (hheight : -2 ^ 31 ≤ p2.y - p1.y ∧ p2.y - p1.y < 2 ^ 31)
    : ∃ x, crossingX y p1 p2 = some x := by
  have hne := height_ne_zero hcross
  have hpart : 0 ≤ y - p1.y ∧ y - p1.y ≤ p2.y - p1.y ∨ p2.y - p1.y ≤ y - p1.y ∧ y - p1.y ≤ 0 := by
    unfold Crosses at hcross
    lia
  obtain ⟨hlower, hupper⟩ := part_bounds (d := p2.x - p1.x) hne hpart
  refine ⟨p1.x + ((y - p1.y) * (p2.x - p1.x)).tdiv (p2.y - p1.y), ?_⟩
  unfold crossingX divide32
  rw [checked32_bind hdy, checked32_bind hwidth, checked32_bind hproduct, checked32_bind hheight, if_neg hne]
  rw [checked32_bind (by lia)]
  exact if_pos (by lia)

/--
There is a node for every edge that crosses the line, and there is room for all of them.
-/
theorem crossings_spec {l : List (Pixel × Pixel)} (hx : ∀ e ∈ l, Crosses y e.1 e.2 → ∃ x, crossingX y e.1 e.2 = some x)
    (hroom : nodes.length + l.length ≤ maxNodes)
    : ∃ nodes', crossings y l nodes = some nodes'
        ∧ nodes'.length = nodes.length + changes (fun p => decide (y ≤ p.y)) l := by
  induction l generalizing nodes with
  | nil => exact ⟨nodes, rfl, rfl⟩
  | cons e l ih =>
    rw [List.length_cons] at hroom
    have hrest : ∀ e ∈ l, Crosses y e.1 e.2 → ∃ x, crossingX y e.1 e.2 = some x :=
      fun e he => hx e (List.mem_cons_of_mem _ he)
    unfold crossings changes
    rw [List.countP_cons]
    by_cases hcross : Crosses y e.1 e.2
    . obtain ⟨x, hx⟩ := hx e List.mem_cons_self hcross
      have hroom' : (nodes ++ [x]).length + l.length ≤ maxNodes := by
        rw [List.length_append, List.length_singleton]
        omega
      obtain ⟨nodes', hnodes, hlength⟩ := ih hrest hroom'
      refine ⟨nodes', ?_, ?_⟩
      . rw [if_pos hcross, hx]
        change (if nodes.length < maxNodes then _ else _) = _
        rw [if_pos (by omega), hnodes]
      . rw [hlength, if_pos (crosses_iff.1 hcross), List.length_append, List.length_singleton]
        unfold changes
        omega
    . obtain ⟨nodes', hnodes, hlength⟩ := @ih nodes hrest (by omega)
      refine ⟨nodes', ?_, ?_⟩
      . rw [if_neg hcross, hnodes]
      . rw [hlength, if_neg (fun h => hcross (crosses_iff.2 h))]
        rfl

theorem mem_of_mem_edges {e : Pixel × Pixel} (h : e ∈ edges pts) : e.1 ∈ pts ∧ e.2 ∈ pts := by
  obtain ⟨hfirst, hsecond⟩ := List.of_mem_zip h
  refine ⟨hfirst, ?_⟩
  obtain htail | htake := List.mem_append.mp hsecond
  . exact List.mem_of_mem_tail htail
  . exact List.mem_of_mem_take htake

/--
The line is crossed by an even number of the edges, for they lead back to the first vertex.
-/
theorem exists_crossings (hmax : pts.length ≤ maxNodes) (hfits : Fits width height pts) (hy : 0 ≤ y) (hlt : y < height)
    : ∃ nodes, crossings y (edges pts) [] = some nodes ∧ Even nodes.length := by
  have hx : ∀ e ∈ edges pts, Crosses y e.1 e.2 → ∃ x, crossingX y e.1 e.2 = some x := by
    intro e he hcross
    obtain ⟨hfirst, hsecond⟩ := mem_of_mem_edges he
    obtain ⟨hdy, hwidth, hproduct, hheight⟩ := hfits.edge_int e he y hy hlt hcross
    exact exists_crossingX hcross (hfits.vertex_int _ hfirst).1 (hfits.vertex_int _ hsecond).1 hdy hwidth hproduct hheight
  have hlength : (edges pts).length ≤ pts.length := by
    unfold edges
    rw [List.length_zip]
    exact Nat.min_le_left _ _
  have hroom : ([] : List Int).length + (edges pts).length ≤ maxNodes := by
    rw [List.length_nil]
    omega
  obtain ⟨nodes, hnodes, heq⟩ := crossings_spec hx hroom
  refine ⟨nodes, hnodes, ?_⟩
  rw [heq, List.length_nil, Nat.zero_add]
  exact even_changes _ pts

theorem clip_eq {last size : Int} (h : 0 ≤ size ∧ size < 2 ^ 31)
    : ∃ last', clip last size = some last' ∧ last' < size ∧ last' ≤ last := by
  unfold clip
  split
  . next hge => exact ⟨size - 1, if_pos (by omega), by omega, by omega⟩
  . next hlt => exact ⟨last, rfl, by omega, Int.le_refl last⟩

theorem exists_spans (hwidth : 0 ≤ width ∧ width < 2 ^ 31) (hfuel : width.toNat < fuel) (nodes : List Int)
    : ∃ pixels, spans fuel width y color nodes = some pixels
        ∧ ∀ p ∈ pixels, (0 ≤ p.1.x ∧ p.1.x < width) ∧ p.1.y = y := by
  induction nodes using List.twoStepInduction with
  | nil => exact ⟨[], rfl, fun p hp => absurd hp List.not_mem_nil⟩
  | singleton x => exact ⟨[], rfl, fun p hp => absurd hp List.not_mem_nil⟩
  | cons_cons xStart xEnd nodes ih _ =>
    obtain ⟨xEnd', hclip, hlt, -⟩ := @clip_eq xEnd width hwidth
    have hstart : 0 ≤ (if xStart < 0 then 0 else xStart) := by
      split <;> omega
    obtain ⟨pixels, hpixels, hmem⟩ := @drawLine.exists_row color (if xStart < 0 then 0 else xStart) xEnd' y fuel
      (by lia) (by lia) (by lia)
    obtain ⟨rest, hrest, hmemRest⟩ := ih
    refine ⟨pixels ++ rest, ?_, ?_⟩
    . rw [spans, hclip]
      change (drawLine.row color y xEnd' fuel _ >>= _) = _
      rw [hpixels]
      change (spans fuel width y color nodes >>= _) = _
      rw [hrest]
      rfl
    . intro p hp
      obtain hp | hp := List.mem_append.mp hp
      . obtain ⟨hy, hlower, hupper⟩ := hmem p hp
        exact ⟨⟨by omega, by omega⟩, hy⟩
      . exact hmemRest p hp

theorem exists_scan {size : Nat} {maxY : Int} (hmax : pts.length ≤ maxNodes) (hfits : Fits width height pts)
    (hsize : width.toNat < size) (hmaxY : maxY < height) (hy : 0 ≤ y) (hfuel : (maxY + 1 - y).toNat < fuel)
    : ∃ pixels, scan size width pts color maxY fuel y = some pixels
        ∧ ∀ p ∈ pixels, (0 ≤ p.1.x ∧ p.1.x < width) ∧ 0 ≤ p.1.y ∧ p.1.y < height := by
  induction fuel generalizing y with
  | zero => contradiction
  | succ fuel ih =>
    unfold scan
    split
    . next hle =>
      obtain ⟨nodes, hnodes, -⟩ := exists_crossings hmax hfits hy (by omega)
      obtain ⟨pixels, hpixels, hmem⟩ := @exists_spans width y color size hfits.width_int hsize (sort nodes)
      obtain ⟨rest, hrest, hmemRest⟩ := @ih (y + 1) (by lia) (by lia)
      have hheight := hfits.height_int
      refine ⟨pixels ++ rest, ?_, ?_⟩
      . rw [hnodes]
        change (spans size width y color (sort nodes) >>= _) = _
        rw [hpixels]
        change (checked32 (y + 1) >>= fun next => _) = _
        rw [checked32_bind (by lia), hrest]
        rfl
      . intro p hp
        obtain hp | hp := List.mem_append.mp hp
        . obtain ⟨hx, hpy⟩ := hmem p hp
          exact ⟨hx, by omega, by omega⟩
        . exact hmemRest p hp
    . exact ⟨[], rfl, fun p hp => absurd hp List.not_mem_nil⟩

end drawPolygon

open drawPolygon

end Emos.Boot
