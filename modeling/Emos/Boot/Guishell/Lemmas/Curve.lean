import Emos.Boot.Guishell.Impl.Draw
import Emos.Lib.Line
import Mathlib.Tactic.Linarith

/-!
This module contains the subdivision of quadratic curves: that it ends, and for which curves each part meets the
assertion of the function that draws it.
-/

open Lib

namespace Emos.Boot

theorem inside_iff (a b c : Int)
    : inside a b c = true ↔ (a ≤ b ∧ b ≤ c) ∨ (c ≤ b ∧ b ≤ a) := by
  simp [inside]

def midpoint (a b : Int) : Int := (a + b) / 2

theorem lerp2_eq {a b : Int} (ha : a.natAbs < 2 ^ 29) (hb : b.natAbs < 2 ^ 29)
    : lerp2 a b = some (midpoint a b) := by
  rw [lerp2, checked32_bind (by lia), midpoint, Int.shiftRight_eq_div_pow]
  simp

theorem midpoint_lt {a b : Int} {n : Nat} (ha : a.natAbs < n) (hb : b.natAbs < n)
    : (midpoint a b).natAbs < n := by
  unfold midpoint
  lia

/--
How far the middle point leads out of the range between the end points and back.
-/
def detour (a b c : Int) : Nat := if inside a b c then 0 else (a - b).natAbs + (c - b).natAbs

theorem detour_first_lt {a b c : Int} (h : ¬ inside a b c)
    : detour a (midpoint a b) (midpoint (midpoint a b) (midpoint b c)) < detour a b c := by
  rw [detour, detour, if_neg h]
  rw [inside_iff] at h
  unfold midpoint
  split
  next hinside =>
    lia
  next hinside =>
    rw [inside_iff] at hinside
    lia

theorem detour_second_lt {a b c : Int} (h : ¬ inside a b c)
    : detour (midpoint (midpoint a b) (midpoint b c)) (midpoint b c) c < detour a b c := by
  rw [detour, detour, if_neg h]
  rw [inside_iff] at h
  unfold midpoint
  split
  next hinside =>
    lia
  next hinside =>
    rw [inside_iff] at hinside
    lia

theorem inside_first {a b c : Int} (h : inside a b c)
    : inside a (midpoint a b) (midpoint (midpoint a b) (midpoint b c)) := by
  rw [inside_iff] at h ⊢
  unfold midpoint
  lia

theorem inside_second {a b c : Int} (h : inside a b c)
    : inside (midpoint (midpoint a b) (midpoint b c)) (midpoint b c) c := by
  rw [inside_iff] at h ⊢
  unfold midpoint
  lia

namespace Curve

/--
The first half of a curve.
-/
def first (c : Curve) : Curve :=
  ⟨c.x0, c.y0, midpoint c.x0 c.x1, midpoint c.y0 c.y1,
    midpoint (midpoint c.x0 c.x1) (midpoint c.x1 c.x2), midpoint (midpoint c.y0 c.y1) (midpoint c.y1 c.y2)⟩

def second (c : Curve) : Curve :=
  ⟨midpoint (midpoint c.x0 c.x1) (midpoint c.x1 c.x2), midpoint (midpoint c.y0 c.y1) (midpoint c.y1 c.y2),
    midpoint c.x1 c.x2, midpoint c.y1 c.y2, c.x2, c.y2⟩

/--
The middle point lies between the end points.
-/
def isInside (c : Curve) : Bool := inside c.x0 c.x1 c.x2 && inside c.y0 c.y1 c.y2

/--
All coordinates have a magnitude below `n`.
-/
structure Below (n : Nat) (c : Curve) : Prop where
  x0 : c.x0.natAbs < n
  y0 : c.y0.natAbs < n
  x1 : c.x1.natAbs < n
  y1 : c.y1.natAbs < n
  x2 : c.x2.natAbs < n
  y2 : c.y2.natAbs < n

theorem Below.first {c : Curve} {n : Nat} (h : c.Below n)
    : c.first.Below n := by
  have hx := midpoint_lt h.x0 h.x1
  have hy := midpoint_lt h.y0 h.y1
  exact ⟨h.x0, h.y0, hx, hy, midpoint_lt hx (midpoint_lt h.x1 h.x2),
    midpoint_lt hy (midpoint_lt h.y1 h.y2)⟩

theorem Below.second {c : Curve} {n : Nat} (h : c.Below n)
    : c.second.Below n := by
  have hx := midpoint_lt h.x1 h.x2
  have hy := midpoint_lt h.y1 h.y2
  exact ⟨midpoint_lt (midpoint_lt h.x0 h.x1) hx, midpoint_lt (midpoint_lt h.y0 h.y1) hy, hx, hy,
    h.x2, h.y2⟩

def detour (c : Curve) : Nat := Boot.detour c.x0 c.x1 c.x2 + Boot.detour c.y0 c.y1 c.y2

/--
A detour along one axis does not grow, so that the sum of both falls if there is one.
-/
theorem detour_first_le {a b c : Int}
    : Boot.detour a (midpoint a b) (midpoint (midpoint a b) (midpoint b c)) ≤ Boot.detour a b c := by
  by_cases h : inside a b c
  . rw [Boot.detour, if_pos (inside_first h)]
    omega
  . exact Nat.le_of_lt (detour_first_lt h)

theorem detour_second_le {a b c : Int}
    : Boot.detour (midpoint (midpoint a b) (midpoint b c)) (midpoint b c) c ≤ Boot.detour a b c := by
  by_cases h : inside a b c
  . rw [Boot.detour, if_pos (inside_second h)]
    omega
  . exact Nat.le_of_lt (detour_second_lt h)

theorem detour_first {c : Curve} (h : ¬ c.isInside)
    : c.first.detour < c.detour := by
  rw [isInside, Bool.and_eq_true, Classical.not_and_iff_not_or_not] at h
  cases h with
  | inl h => exact Nat.add_lt_add_of_lt_of_le (detour_first_lt h) detour_first_le
  | inr h => exact Nat.add_lt_add_of_le_of_lt detour_first_le (detour_first_lt h)

theorem detour_second {c : Curve} (h : ¬ c.isInside)
    : c.second.detour < c.detour := by
  rw [isInside, Bool.and_eq_true, Classical.not_and_iff_not_or_not] at h
  cases h with
  | inl h => exact Nat.add_lt_add_of_lt_of_le (detour_second_lt h) detour_second_le
  | inr h => exact Nat.add_lt_add_of_le_of_lt detour_second_le (detour_second_lt h)

/--
The calls that the recursion for a curve makes.
-/
inductive Calls : Curve → Curve → Prop
  | self (c : Curve) : Calls c c
  | first {c d : Curve} : ¬ c.isInside → Calls c.first d → Calls c d
  | second {c d : Curve} : ¬ c.isInside → Calls c.second d → Calls c d

theorem calls_iff (c d : Curve)
    : Calls c d ↔ d = c ∨ ¬ c.isInside ∧ (Calls c.first d ∨ Calls c.second d) := by
  constructor
  . intro h
    cases h with
    | self => simp
    | first hc h => simp [hc, h]
    | second hc h => simp [hc, h]
  . rintro (rfl | ⟨hc, h | h⟩)
    . apply Calls.self
    . apply Calls.first hc h
    . apply Calls.second hc h

def Joined (c d : Curve) : Prop := c.x2 = d.x0 ∧ c.y2 = d.y0

/--
The distances of the middle point from the end points have a product that an `int` can hold.
-/
def Narrow (c : Curve) : Prop :=
  (c.x0 - c.x1).natAbs * (c.x2 - c.x1).natAbs ≤ 2 ^ 31 ∧ (c.y0 - c.y1).natAbs * (c.y2 - c.y1).natAbs ≤ 2 ^ 31

structure Leads (c : Curve) (parts : List Curve) (first last : Curve) : Prop where
  trail : Trail Joined first last parts
  x_first : first.x0 = c.x0
  y_first : first.y0 = c.y0
  x_last : last.x2 = c.x2
  y_last : last.y2 = c.y2

end Curve

open Curve

theorem product_of_inside {a b c : Int} (h : inside a b c)
    : (a - b) * (c - b) = -((a - b).natAbs * (c - b).natAbs : Nat) := by
  rw [inside_iff] at h
  cases h with
  | inl h =>
    rw [Int.natCast_mul, Int.ofNat_natAbs_of_nonpos (by omega), Int.natAbs_of_nonneg (by omega), Int.neg_mul,
      Int.neg_neg]
  | inr h =>
    rw [Int.natCast_mul, Int.natAbs_of_nonneg (by omega), Int.ofNat_natAbs_of_nonpos (by omega), Int.mul_neg,
      Int.neg_neg]

theorem assertion_iff {c : Curve} (hsmall : c.Below (2 ^ 29)) (hinside : c.isInside)
    : drawBezier2Part.assertion c = some true ↔ c.Narrow := by
  rw [isInside, Bool.and_eq_true] at hinside
  obtain ⟨hx, hy⟩ := hinside
  have h := hsmall
  obtain ⟨_, _, _, _, _, _⟩ := h
  rw [drawBezier2Part.assertion, checked32_bind (by lia), checked32_bind (by lia), product_of_inside hx]
  unfold Narrow
  generalize (c.x0 - c.x1).natAbs * (c.x2 - c.x1).natAbs = p
  by_cases hp : p ≤ 2 ^ 31
  . rw [checked32_bind (by lia), if_pos (by lia), checked32_bind (by lia), checked32_bind (by lia),
      product_of_inside hy]
    generalize (c.y0 - c.y1).natAbs * (c.y2 - c.y1).natAbs = q
    by_cases hq : q ≤ 2 ^ 31
    . rw [checked32_bind (by omega)]
      simp
      omega
    . rw [checked32_bind_none (by omega)]
      simp
      omega
  . rw [checked32_bind_none (by omega)]
    simp
    omega

theorem drawBezier2_succ {c : Curve} (h : c.Below (2 ^ 29)) (fuel : Nat)
    : drawBezier2 (fuel + 1) c
        =
      if c.isInside then
        some [c]
      else
        (drawBezier2 fuel c.first).bind fun first =>
          (drawBezier2 fuel c.second).bind fun second => some (first ++ second) := by
  have hx01 := midpoint_lt h.x0 h.x1
  have hy01 := midpoint_lt h.y0 h.y1
  have hx12 := midpoint_lt h.x1 h.x2
  have hy12 := midpoint_lt h.y1 h.y2
  rw [drawBezier2, isInside, lerp2_eq h.x0 h.x1, lerp2_eq h.y0 h.y1, lerp2_eq h.x1 h.x2, lerp2_eq h.y1 h.y2]
  simp only [Option.bind_eq_bind, Option.bind_some]
  rw [lerp2_eq hx01 hx12, lerp2_eq hy01 hy12]
  rfl

theorem leads_append {c : Curve} {parts parts' : List Curve} {a b a' b' : Curve} (h : Leads c.first parts a b)
    (h' : Leads c.second parts' a' b')
    : Leads c (parts ++ parts') a b' := by
  constructor
  . apply h.trail.append _ h'.trail
    constructor
    . rw [h.x_last, h'.x_first]
      rfl
    . rw [h.y_last, h'.y_first]
      rfl
  . exact h.x_first
  . exact h.y_first
  . exact h'.x_last
  . exact h'.y_last

/--
The induction is on the fuel. A call whose middle point is not inside has a longer detour than both of the calls
that it makes.
-/
theorem drawBezier2_some {c : Curve} (h : c.Below (2 ^ 29)) {fuel : Nat} (hfuel : c.detour < fuel)
    : ∃ parts, drawBezier2 fuel c = some parts := by
  induction fuel generalizing c with
  | zero => omega
  | succ fuel ih =>
    rw [drawBezier2_succ h]
    split
    next hinside => simp
    next hinside =>
      have hfirst := detour_first hinside
      have hsecond := detour_second hinside
      obtain ⟨parts, hparts⟩ := ih h.first (by omega)
      obtain ⟨parts', hparts'⟩ := ih h.second (by omega)
      rw [hparts, hparts']
      simp

theorem drawBezier2_spec {c : Curve} (h : c.Below (2 ^ 29)) {fuel : Nat} {parts : List Curve}
    (hdraw : drawBezier2 fuel c = some parts)
    : (∃ first last, Leads c parts first last) ∧ ∀ d, d ∈ parts ↔ Calls c d ∧ d.isInside := by
  induction fuel generalizing c parts with
  | zero => contradiction
  | succ fuel ih =>
    rw [drawBezier2_succ h] at hdraw
    split at hdraw
    next hinside =>
      rw [Option.some.injEq] at hdraw
      rw [← hdraw]
      constructor
      . exact ⟨c, c, Trail.single Joined c, rfl, rfl, rfl, rfl⟩
      . intro d
        rw [calls_iff, List.mem_singleton]
        constructor
        . intro hd
          rw [hd]
          exact ⟨.inl rfl, hinside⟩
        . rintro ⟨hd | ⟨hout, _⟩, _⟩
          . exact hd
          . contradiction
    next hinside =>
      rw [Option.bind_eq_some_iff] at hdraw
      obtain ⟨first, hfirst, hdraw⟩ := hdraw
      rw [Option.bind_eq_some_iff] at hdraw
      obtain ⟨second, hsecond, hdraw⟩ := hdraw
      rw [Option.some.injEq] at hdraw
      rw [← hdraw]
      obtain ⟨⟨a, b, hleads⟩, hmem⟩ := ih h.first hfirst
      obtain ⟨⟨a', b', hleads'⟩, hmem'⟩ := ih h.second hsecond
      constructor
      . exact ⟨a, b', leads_append hleads hleads'⟩
      . intro d
        rw [List.mem_append, hmem, hmem', calls_iff c d]
        constructor
        . rintro (⟨hcall, hd⟩ | ⟨hcall, hd⟩)
          . exact ⟨.inr ⟨hinside, .inl hcall⟩, hd⟩
          . exact ⟨.inr ⟨hinside, .inr hcall⟩, hd⟩
        . rintro ⟨rfl | ⟨_, hcall | hcall⟩, hd⟩
          . contradiction
          . exact .inl ⟨hcall, hd⟩
          . exact .inr ⟨hcall, hd⟩

theorem below_of_calls {c d : Curve} {n : Nat} (hcall : Calls c d) (h : c.Below n)
    : d.Below n := by
  induction hcall with
  | self => exact h
  | first _ _ ih => exact ih h.first
  | second _ _ ih => exact ih h.second

/--
The recursion ends, its parts lead from the first to the last control point, and each part has its middle point
between its ends and meets the assertion.
-/
def Subdivides (c : Curve) : Prop :=
  ∃ fuel parts first last, drawBezier2 fuel c = some parts ∧ Leads c parts first last
    ∧ ∀ d ∈ parts, d.isInside ∧ drawBezier2Part.assertion d = some true

theorem subdivides_of_narrow {c : Curve} (h : c.Below (2 ^ 29)) (hnarrow : ∀ d, Calls c d → d.isInside → d.Narrow)
    : Subdivides c := by
  obtain ⟨parts, hdraw⟩ := drawBezier2_some h (Nat.lt_succ_self _)
  obtain ⟨⟨first, last, hleads⟩, hmem⟩ := drawBezier2_spec h hdraw
  refine ⟨_, parts, first, last, hdraw, hleads, ?_⟩
  intro d hd
  obtain ⟨hcall, hinside⟩ := (hmem d).mp hd
  rw [assertion_iff (below_of_calls hcall h) hinside]
  exact ⟨hinside, hnarrow d hcall hinside⟩

theorem narrow_of_below {c : Curve} (h : c.Below 46341) (hinside : c.isInside)
    : c.Narrow := by
  have hproduct : ∀ {a b d : Int}, a.natAbs < 46341 → d.natAbs < 46341 → inside a b d
      → (a - b).natAbs * (d - b).natAbs ≤ 2 ^ 31 := by
    intro a b d ha hd hb
    rw [inside_iff] at hb
    have hsum : (a - b).natAbs + (d - b).natAbs ≤ 92680 := by lia
    have hsquare := four_mul_le_sq_add (a - b).natAbs (d - b).natAbs
    have hle := Nat.pow_le_pow_left hsum 2
    linarith
  rw [isInside, Bool.and_eq_true] at hinside
  constructor
  . apply hproduct h.x0 h.x2 hinside.1
  . apply hproduct h.y0 h.y2 hinside.2

/--
On every screen whose coordinates stay below the square root of 2^31, curves are subdivided as they should be.
-/
theorem subdivides_of_below {c : Curve} (h : c.Below 46341)
    : Subdivides c := by
  have hbound : c.Below (2 ^ 29) := by
    obtain ⟨_, _, _, _, _, _⟩ := h
    constructor
    all_goals omega
  apply subdivides_of_narrow hbound
  intro d hcall hinside
  apply narrow_of_below (below_of_calls hcall h) hinside

end Emos.Boot
