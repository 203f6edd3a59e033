import Emos.Boot.Guishell.Lemmas.Line
import Mathlib.Tactic.Linarith

/-!
This module contains how far from a circle the pixels are that the GUI shell draws for it.
-/

namespace Emos.Boot

namespace drawCircle

/--
The variables at the head of the loop, for as long as nothing overflows.
-/
inductive Head (radius : Int) : Circle → Prop where
  | start {c} (h : init radius = some c) : Head radius c
  | next {c c'} (h : Head radius c) (hlt : c.x < c.y) (hadvance : advance c = some c') : Head radius c'

/--
The equations of the comments.
-/
structure Equations (radius : Int) (c : Circle) : Prop where
  ddFx : c.ddFx = 2 * c.x + 1
  ddFy : c.ddFy = -2 * c.y
  f : c.f = c.x * c.x + c.y * c.y - radius * radius + 2 * c.x - c.y + 1

/--
The pixel next to the offset, one step outwards or inwards, is on the other side of the circle.
-/
def Close (radius : Int) (c : Circle) : Prop :=
  c.x * c.x + c.y * c.y - c.y ≤ radius * radius ∧ radius * radius ≤ c.x * c.x + c.y * c.y + c.y

/--
The invariant of the loop.
-/
structure Invariant (radius : Int) (c : Circle) : Prop where
  equations : Equations radius c
  close : Close radius c
  inner : c.x < c.y → c.x * c.x + c.y * c.y - c.y < radius * radius
  x_nonneg : 0 ≤ c.x
  x_le : c.x ≤ c.y + 1
  y_nonneg : 0 ≤ c.y
  y_le : c.y ≤ radius

/--
The next variables, if nothing overflows.
-/
def following (c : Circle) : Circle :=
  if c.f ≥ 0 then
    ⟨c.f + (c.ddFy + 2) + (c.ddFx + 2), c.ddFx + 2, c.ddFy + 2, c.x + 1, c.y - 1⟩
  else
    ⟨c.f + (c.ddFx + 2), c.ddFx + 2, c.ddFy, c.x + 1, c.y⟩

variable {radius n : Int} {c c' : Circle}

theorem checked32_eq_some {a b : Int} (h : checked32 a = some b) : b = a := by
  unfold checked32 at h
  split at h
  . exact (Option.some.inj h).symm
  . contradiction

theorem inward_eq_some (h : inward c = some c')
    : c' = if c.f ≥ 0 then { c with f := c.f + (c.ddFy + 2), ddFy := c.ddFy + 2, y := c.y - 1 } else c := by
  unfold inward at h
  split at h
  . next hf =>
    simp only [Option.bind_eq_bind, Option.bind_eq_some_iff] at h
    obtain ⟨y, hy, ddFy, hddFy, f, hf', hc⟩ := h
    rw [if_pos hf, ← Option.some.inj hc, checked32_eq_some hf', checked32_eq_some hddFy, checked32_eq_some hy]
  . next hf =>
    rw [if_neg hf]
    exact (Option.some.inj h).symm

theorem advance_eq_some (h : advance c = some c') : c' = following c := by
  unfold advance at h
  simp only [Option.bind_eq_bind, Option.bind_eq_some_iff] at h
  obtain ⟨d, hd, x, hx, ddFx, hddFx, f, hf, hc⟩ := h
  rw [← Option.some.inj hc, checked32_eq_some hf, checked32_eq_some hddFx, checked32_eq_some hx, inward_eq_some hd]
  unfold following
  split <;> rfl

theorem invariant_start (hradius : 1 ≤ radius) (h : init radius = some c) : Invariant radius c := by
  unfold init at h
  simp only [Option.bind_eq_bind, Option.bind_eq_some_iff] at h
  obtain ⟨f, hf, ddFy, hddFy, hc⟩ := h
  rw [← Option.some.inj hc, checked32_eq_some hf, checked32_eq_some hddFy]
  constructor
  . constructor
    . rfl
    . rfl
    . ring
  . constructor
    . dsimp only
      linarith
    . dsimp only
      linarith
  . intro _
    dsimp only
    linarith
  . exact Int.le_refl 0
  . exact (by omega : (0 : Int) ≤ radius + 1)
  . exact (by omega : (0 : Int) ≤ radius)
  . exact Int.le_refl radius

theorem equations_following (h : Equations radius c) : Equations radius (following c) := by
  obtain ⟨hx, hy, hf⟩ := h
  unfold following
  split
  . constructor
    . linarith
    . linarith
    . dsimp only
      linarith
  . constructor
    . linarith
    . exact hy
    . dsimp only
      linarith

/--
The decision variable is what tells whether the pixel on the right is outside of the circle.
-/
theorem invariant_following (h : Invariant radius c) (hlt : c.x < c.y) : Invariant radius (following c) := by
  have hequations := equations_following h.equations
  have hf := h.equations.f
  have hinner := h.inner hlt
  obtain ⟨-, houter⟩ := h.close
  have hx := h.x_nonneg
  have hy := h.y_le
  unfold following at hequations ⊢
  split at hequations
  . next hpos =>
    rw [if_pos hpos]
    refine ⟨hequations, ⟨?_, ?_⟩, ?_, ?_, ?_, ?_, ?_⟩ <;> dsimp only
    . linarith
    . linarith
    . intro hnext
      linarith
    . omega
    . lia
    . lia
    . lia
  . next hneg =>
    rw [if_neg hneg]
    refine ⟨hequations, ⟨?_, ?_⟩, ?_, ?_, ?_, ?_, ?_⟩ <;> dsimp only
    . linarith
    . linarith
    . intro _
      linarith
    . omega
    . lia
    . lia
    . omega

theorem invariant_of_head (hradius : 1 ≤ radius) (h : Head radius c) : Invariant radius c := by
  induction h with
  | start h => exact invariant_start hradius h
  | next _ hlt hadvance ih =>
    rw [advance_eq_some hadvance]
    exact invariant_following ih hlt

theorem x_lt (h : Invariant radius c) (hlt : c.x < c.y) (hmax : radius ≤ 2 ^ 30) : c.x < 2 ^ 30 - 1 := by
  by_contra hge
  have hinner := h.inner hlt
  have hx : (2 ^ 30 - 1) * (2 ^ 30 - 1) ≤ c.x * c.x := mul_self_le_mul_self (by decide) (by omega)
  have hy : (c.x + 1) * c.x ≤ c.y * (c.y - 1) := by
    apply mul_le_mul
    . omega
    . omega
    . exact h.x_nonneg
    . exact h.y_nonneg
  have hr : radius * radius ≤ 2 ^ 30 * 2 ^ 30 := by
    apply mul_self_le_mul_self
    . have := h.y_le
      have := h.y_nonneg
      omega
    . exact hmax
  linarith

theorem inward_of_int (h : Invariant radius c) (hlt : c.x < c.y) (hmax : radius ≤ 2 ^ 30)
    : inward c = some (if c.f ≥ 0 then { c with f := c.f + (c.ddFy + 2), ddFy := c.ddFy + 2, y := c.y - 1 } else c) := by
  have hf := h.equations.f
  have hddFy := h.equations.ddFy
  have hinner := h.inner hlt
  have hy := h.y_le
  have hx := h.x_nonneg
  unfold inward
  split
  . next hpos =>
    have hsmall : c.f ≤ 2 * c.x := by linarith
    rw [checked32_bind (by lia), checked32_bind (by lia), checked32_bind (by lia)]
  . rfl

theorem advance_of_int (h : Invariant radius c) (hlt : c.x < c.y) (hmax : radius ≤ 2 ^ 30)
    : advance c = some (following c) := by
  have hf := h.equations.f
  have hddFx := h.equations.ddFx
  have hddFy := h.equations.ddFy
  have hinner := h.inner hlt
  obtain ⟨-, houter⟩ := h.close
  have hy := h.y_le
  have hx := h.x_nonneg
  have hxlt := x_lt h hlt hmax
  have hlower : -2 * c.y + 2 * c.x + 1 ≤ c.f := by linarith
  have hupper : c.f ≤ 2 * c.x := by linarith
  unfold advance following
  rw [inward_of_int h hlt hmax]
  split
  . change (checked32 (c.x + 1) >>= fun x => checked32 (c.ddFx + 2) >>= fun ddFx =>
      checked32 (c.f + (c.ddFy + 2) + ddFx) >>= fun f => _) = _
    rw [checked32_bind (by lia), checked32_bind (by lia), checked32_bind (by lia)]
  . change (checked32 (c.x + 1) >>= fun x => checked32 (c.ddFx + 2) >>= fun ddFx =>
      checked32 (c.f + ddFx) >>= fun f => _) = _
    rw [checked32_bind (by lia), checked32_bind (by lia), checked32_bind (by lia)]

/--
The rows of the circle end in front of the largest coordinate.
-/
structure Fits (x0 y0 radius : Int) (fill : Bool) : Prop where
  y_int : -2 ^ 31 ≤ y0 - radius ∧ y0 + radius < 2 ^ 31
  x_int : fill → -2 ^ 31 ≤ x0 - radius ∧ x0 + radius < 2 ^ 31 - 1
  y_lt : fill → radius = 1 → y0 + 1 < 2 ^ 31 - 1

variable {x0 y0 dx dy : Int} {color : BitVec 32} {fill : Bool} {size : Nat}

theorem exists_ends (h : Fits x0 y0 radius fill) (hdx : 0 ≤ dx) (hx : dx ≤ radius)
    (hy : -radius ≤ dy ∧ dy ≤ radius) (hzero : dx = 0 → radius = 1) (hsize : 2 * radius + 1 < size)
    : ∃ pixels, ends size x0 y0 dx dy color fill = some pixels := by
  have hyInt := h.y_int
  unfold ends
  rw [checked32_bind (by omega)]
  cases fill with
  | false => exact ⟨_, rfl⟩
  | true =>
    have hxInt := h.x_int rfl
    rw [if_pos rfl, checked32_bind (by omega), checked32_bind (by omega)]
    by_cases hne : x0 + dx = x0 - dx
    . have hylt := h.y_lt rfl (hzero (by omega))
      have hradius := hzero (by omega)
      rw [hne, drawLine_column]
      obtain ⟨pixels, hpixels, -⟩ := @drawLine.exists_column color (x0 - dx) (min (y0 + dy) (y0 + dy))
        (max (y0 + dy) (y0 + dy)) size (by lia) (by lia) (by lia)
      exact ⟨pixels, hpixels⟩
    . rw [drawLine_row _ hne]
      obtain ⟨pixels, hpixels, -⟩ := @drawLine.exists_row color (min (x0 + dx) (x0 - dx)) (max (x0 + dx) (x0 - dx))
        (y0 + dy) size (by lia) (by lia) (by lia)
      exact ⟨pixels, hpixels⟩

/--
Only the smallest circle has a pixel beside its center.
-/
theorem radius_eq_one (hradius : 1 ≤ radius) (h : Invariant radius c) (hzero : c.y = 0) : radius = 1 := by
  obtain ⟨-, houter⟩ := h.close
  have hx := h.x_le
  have hx0 := h.x_nonneg
  rw [hzero] at houter hx
  have hsquare : c.x * c.x ≤ 1 * 1 := mul_self_le_mul_self hx0 (by omega)
  by_contra hne
  have hlarge : 2 * 2 ≤ radius * radius := mul_self_le_mul_self (by decide) (by omega)
  linarith

theorem exists_plot (hradius : 1 ≤ radius) (hfits : Fits x0 y0 radius fill) (h : Invariant radius c) (hpos : 0 < c.x)
    (hle : c.x ≤ radius) (hsize : 2 * radius + 1 < size)
    : ∃ pixels, plot size x0 y0 c.x c.y color fill = some pixels := by
  have hyle := h.y_le
  have hy := h.y_nonneg
  have hone := radius_eq_one hradius h
  obtain ⟨bottom, hbottom⟩ : ∃ pixels, ends size x0 y0 c.x c.y color fill = some pixels :=
    exists_ends hfits (by omega) hle (by omega) (by omega) hsize
  obtain ⟨top, htop⟩ : ∃ pixels, ends size x0 y0 c.x (-c.y) color fill = some pixels :=
    exists_ends hfits (by omega) hle (by omega) (by omega) hsize
  obtain ⟨below, hbelow⟩ : ∃ pixels, ends size x0 y0 c.y c.x color fill = some pixels :=
    exists_ends hfits hy hyle (by omega) hone hsize
  obtain ⟨above, habove⟩ : ∃ pixels, ends size x0 y0 c.y (-c.x) color fill = some pixels :=
    exists_ends hfits hy hyle (by omega) hone hsize
  refine ⟨bottom ++ top ++ below ++ above, ?_⟩
  unfold plot
  rw [hbottom, htop, hbelow, habove]
  rfl

theorem following_x : (following c).x = c.x + 1 := by
  unfold following
  split <;> rfl

theorem following_y_le : (following c).y ≤ c.y := by
  unfold following
  split
  . exact Int.sub_le_self _ (by decide)
  . exact Int.le_refl _

/--
The two coordinates come closer with every round.
-/
theorem exists_go (hradius : 1 ≤ radius) (hmax : radius ≤ 2 ^ 30) (hfits : Fits x0 y0 radius fill)
    (hsize : 2 * radius + 1 < size) {fuel : Nat} (h : Invariant radius c) (hfuel : (c.y - c.x).toNat < fuel)
    : ∃ pixels, go size x0 y0 color fill fuel c = some pixels := by
  induction fuel generalizing c with
  | zero => contradiction
  | succ fuel ih =>
    unfold go
    split
    . next hlt =>
      have hnext := invariant_following h hlt
      have hx := following_x (c := c)
      have hy := following_y_le (c := c)
      have hx0 := h.x_nonneg
      have hyle := h.y_le
      obtain ⟨pixels, hpixels⟩ : ∃ pixels, plot size x0 y0 (following c).x (following c).y color fill = some pixels :=
        exists_plot hradius hfits hnext (by omega) (by omega) hsize
      obtain ⟨rest, hrest⟩ := ih hnext (by lia)
      refine ⟨pixels ++ rest, ?_⟩
      rw [advance_of_int h hlt hmax]
      change (plot size x0 y0 (following c).x (following c).y color fill >>= _) = _
      rw [hpixels]
      change (go size x0 y0 color fill fuel (following c) >>= _) = _
      rw [hrest]
      rfl
    . exact ⟨[], rfl⟩

theorem exists_drawCircle (hradius : 1 ≤ radius) (hmax : radius ≤ 2 ^ 30) (hfits : Fits x0 y0 radius fill)
    : ∃ fuel pixels, drawCircle fuel x0 y0 radius color fill = some pixels := by
  have hyInt := hfits.y_int
  have hinit : init radius = some ⟨1 - radius, 1, -2 * radius, 0, radius⟩ := by
    unfold init
    rw [checked32_bind (by omega), checked32_bind (by omega)]
  have hsize : 2 * radius + 1 < ((2 * radius + 2).toNat : Int) := by omega
  obtain ⟨middle, hmiddle⟩ : ∃ pixels, ends (2 * radius + 2).toNat x0 y0 radius 0 color fill = some pixels :=
    exists_ends hfits (by omega) (by omega) (by omega) (by omega) hsize
  obtain ⟨rest, hrest⟩ : ∃ pixels, go (2 * radius + 2).toNat x0 y0 color fill (2 * radius + 2).toNat
      ⟨1 - radius, 1, -2 * radius, 0, radius⟩ = some pixels := by
    apply exists_go hradius hmax hfits hsize (invariant_start hradius hinit)
    dsimp only
    omega
  refine ⟨(2 * radius + 2).toNat, middle ++ [(⟨x0, y0 + radius⟩, color), (⟨x0, y0 - radius⟩, color)] ++ rest, ?_⟩
  unfold drawCircle
  rw [hinit]
  change (ends _ x0 y0 radius 0 color fill >>= _) = _
  rw [hmiddle]
  change (checked32 (y0 + radius) >>= fun bottom => checked32 (y0 - radius) >>= fun top => _) = _
  rw [checked32_bind (by omega), checked32_bind (by omega), hrest]
  rfl

end drawCircle

open drawCircle

/--
The variables are what the comments say, the loop ends, and every offset that is plotted is close to the circle.
-/
theorem draw_circle_close {x0 y0 radius : Int} (color : BitVec 32) (fill : Bool) (hradius : 1 ≤ radius)
    (hmax : radius ≤ 2 ^ 30) (hfits : Fits x0 y0 radius fill)
    : (∀ c, Head radius c → Equations radius c)
        ∧ (∃ fuel pixels, drawCircle fuel x0 y0 radius color fill = some pixels)
        ∧ ∀ c c', Head radius c → c.x < c.y → advance c = some c' → Close radius c' := by
  refine ⟨?_, exists_drawCircle hradius hmax hfits, ?_⟩
  . intro c h
    exact (invariant_of_head hradius h).equations
  . intro c c' h hlt hadvance
    exact (invariant_of_head hradius (h.next hlt hadvance)).close

theorem draw_circle_close_filled
    : (∀ c, Head 5 c → Equations 5 c)
        ∧ (∃ fuel pixels, drawCircle fuel 100 80 5 0xFFFFFF true = some pixels)
        ∧ ∀ c c', Head 5 c → c.x < c.y → advance c = some c' → Close 5 c' :=
  draw_circle_close _ _ (by decide) (by decide) ⟨by decide, by decide, by decide⟩

end Emos.Boot
