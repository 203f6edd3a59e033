import Emos.Boot.Guishell.Impl.Draw
import Emos.Lib.Line
import Emos.Lib.Loop

/-!
This module contains that the stack of the GUI shell for cubic curves is large enough, and how the pieces of a curve
follow each other.
-/

open Lib

namespace Emos.Boot

def Stroke.start : Stroke → Pixel
  | .quadratic c => ⟨c.x0, c.y0⟩
  | .line first _ => first

def Stroke.finish : Stroke → Pixel
  | .quadratic c => ⟨c.x2, c.y2⟩
  | .line _ last => last

def BezierEntry.start (e : BezierEntry) : Pixel := e.curve.p0

def BezierEntry.finish (e : BezierEntry) : Pixel := e.curve.p3

namespace drawBezier3

/--
The entries below the top have been pushed as right halves, each of a curve from an entry that was above the next one,
so that no two of them have the same depth.
-/
structure Invariant (stack : List BezierEntry) : Prop where
  depth_lt : ∀ e ∈ stack, e.depth < maxSplit
  below_pos : ∀ e ∈ stack.tail, 0 < e.depth
  below_decreasing : stack.tail.Pairwise fun e e' => e'.depth < e.depth
  le_top : ∀ top below, stack = top :: below → ∀ e ∈ below, e.depth ≤ top.depth

/--
How many curves are taken from the stack at most until it is empty.
-/
def weight (stack : List BezierEntry) : Nat := (stack.map fun e => 2 ^ (maxSplit - e.depth) - 1).sum

variable {overflow : Int → Int} {e : BezierEntry} {stack : List BezierEntry} {a b : Pixel} {n : Nat}

theorem length_le (hpos : ∀ e ∈ stack, 0 < e.depth) (hle : ∀ e ∈ stack, e.depth ≤ n)
    (hdecreasing : stack.Pairwise fun e e' => e'.depth < e.depth)
    : stack.length ≤ n := by
  induction stack generalizing n with
  | nil => exact Nat.zero_le n
  | cons e stack ih =>
    obtain ⟨hlt, hdecreasing⟩ := List.pairwise_cons.mp hdecreasing
    have hstack := @ih (e.depth - 1) (fun e' he' => hpos e' (List.mem_cons_of_mem e he'))
      (fun e' he' => Nat.le_pred_of_lt (hlt e' he')) hdecreasing
    have hepos := hpos e List.mem_cons_self
    have hele := hle e List.mem_cons_self
    rw [List.length_cons]
    omega

/--
Each half can be pushed.
-/
theorem Invariant.length_lt (h : Invariant (e :: stack)) (hdepth : ¬ e.depth ≥ maxSplit - 1)
    : stack.length + 1 < maxSplit := by
  have hlength := length_le h.below_pos (fun e' he' => h.le_top e stack rfl e' he') h.below_decreasing
  change stack.length ≤ e.depth at hlength
  omega

theorem Invariant.pop (h : Invariant (e :: stack)) : Invariant stack := by
  refine ⟨fun e' he' => h.depth_lt e' (List.mem_cons_of_mem e he'),
    fun e' he' => h.below_pos e' (List.mem_of_mem_tail he'), h.below_decreasing.tail, ?_⟩
  intro top below heq e' he'
  have hdecreasing := h.below_decreasing
  rw [List.tail_cons, heq, List.pairwise_cons] at hdecreasing
  exact Nat.le_of_lt (hdecreasing.1 e' he')

theorem Invariant.split {left right : Cubic} (h : Invariant (e :: stack)) (hdepth : ¬ e.depth ≥ maxSplit - 1)
    : Invariant (⟨left, e.depth + 1⟩ :: ⟨right, e.depth + 1⟩ :: stack) := by
  have hlt : e.depth + 1 < maxSplit := by omega
  have hle := h.le_top e stack rfl
  constructor
  . intro e' he'
    obtain rfl | rfl | he' := List.mem_cons.mp he' |>.imp_right List.mem_cons.mp
    . exact hlt
    . exact hlt
    . exact h.depth_lt e' (List.mem_cons_of_mem e he')
  . intro e' he'
    obtain rfl | he' := List.mem_cons.mp he'
    . exact Nat.succ_pos e.depth
    . exact h.below_pos e' he'
  . exact List.pairwise_cons.mpr ⟨fun e' he' => Nat.lt_succ_of_le (hle e' he'), h.below_decreasing⟩
  . intro top below heq e' he'
    obtain ⟨rfl, rfl⟩ := List.cons.inj heq
    obtain rfl | he' := List.mem_cons.mp he'
    . exact Nat.le_refl _
    . exact Nat.le_succ_of_le (hle e' he')

theorem weight_cons : weight (e :: stack) = 2 ^ (maxSplit - e.depth) - 1 + weight stack := by
  unfold weight
  rw [List.map_cons, List.sum_cons]

theorem weight_pop (h : Invariant (e :: stack)) : weight stack < weight (e :: stack) := by
  have hlt := h.depth_lt e List.mem_cons_self
  have hpow : 1 < 2 ^ (maxSplit - e.depth) := Nat.one_lt_two_pow (by omega)
  rw [weight_cons]
  omega

theorem weight_split {left right : Cubic} (hdepth : ¬ e.depth ≥ maxSplit - 1)
    : weight (⟨left, e.depth + 1⟩ :: ⟨right, e.depth + 1⟩ :: stack) < weight (e :: stack) := by
  have hpow : 2 ^ (maxSplit - e.depth) = 2 * 2 ^ (maxSplit - (e.depth + 1)) := by
    rw [← Nat.pow_succ']
    congr 1
    lia
  have hpos := Nat.two_pow_pos (maxSplit - (e.depth + 1))
  rw [weight_cons, weight_cons, weight_cons]
  dsimp only
  lia

theorem push_eq (h : stack.length < maxSplit) : push e stack = .ok (e :: stack) := if_pos h

/--
The curves on the stack lead to the end of the whole curve, and a curve is replaced by one piece or two halves with the
same ends.
-/
theorem exists_go {fuel : Nat} (h : Invariant stack) (hfuel : weight stack < fuel)
    (hconnects : Connects BezierEntry.start BezierEntry.finish a b stack)
    : ∃ pieces, go overflow fuel stack = .ok pieces
        ∧ (stack ≠ [] → pieces ≠ [])
        ∧ Connects Stroke.start Stroke.finish a b pieces := by
  induction fuel generalizing stack a with
  | zero => contradiction
  | succ fuel ih =>
    cases stack with
    | nil => exact ⟨[], rfl, fun hne => absurd rfl hne, hconnects⟩
    | cons e stack =>
      obtain ⟨hstart, hrest⟩ := hconnects
      have hpop := weight_pop h
      unfold go
      split
      . obtain ⟨pieces, hpieces, -, htail⟩ := ih h.pop (by omega) hrest
        rw [hpieces]
        exact ⟨_, rfl, fun _ => List.cons_ne_nil _ _, hstart, htail⟩
      . split
        . obtain ⟨pieces, hpieces, -, htail⟩ := ih h.pop (by omega) hrest
          rw [hpieces]
          exact ⟨_, rfl, fun _ => List.cons_ne_nil _ _, hstart, htail⟩
        . next hdepth =>
          have hlength := h.length_lt hdepth
          have hweight := @weight_split e stack (splitBezier3 overflow e.curve).1 (splitBezier3 overflow e.curve).2 hdepth
          obtain ⟨pieces, hpieces, hne, htail⟩ := ih (h.split hdepth) (by omega)
            (⟨hstart, rfl, hrest⟩ : Connects BezierEntry.start BezierEntry.finish a b
              (⟨(splitBezier3 overflow e.curve).1, e.depth + 1⟩ :: ⟨(splitBezier3 overflow e.curve).2, e.depth + 1⟩ :: stack))
          refine ⟨pieces, ?_, fun _ => hne (List.cons_ne_nil _ _), htail⟩
          rw [← hpieces]
          change (push ⟨(splitBezier3 overflow e.curve).2, e.depth + 1⟩ stack >>= fun stack => _) = _
          rw [push_eq (by omega), ok_bind]
          change (push ⟨(splitBezier3 overflow e.curve).1, e.depth + 1⟩ (_ :: stack) >>= _) = _
          rw [push_eq (by rw [List.length_cons]; exact hlength), ok_bind]

end drawBezier3

open drawBezier3

/--
The loop ends without leaving the stack, whatever comes out of an overflow, and the pieces lead from the first to the
last control point.
-/
theorem draw_bezier3_chain (overflow : Int → Int) (c : Cubic)
    : ∃ fuel pieces, drawBezier3 overflow fuel c = .ok pieces
        ∧ pieces ≠ []
        ∧ Connects Stroke.start Stroke.finish c.p0 c.p3 pieces := by
  have hinvariant : Invariant [⟨c, 0⟩] := by
    refine ⟨?_, nofun, List.Pairwise.nil, ?_⟩
    . intro e he
      rw [List.mem_singleton.mp he]
      exact Nat.zero_lt_succ 23
    . intro top below heq e he
      obtain ⟨rfl, rfl⟩ := List.cons.inj heq
      contradiction
  obtain ⟨fuel, hfuel⟩ : ∃ fuel, weight [⟨c, 0⟩] < fuel := ⟨_, Nat.lt_succ_self _⟩
  obtain ⟨pieces, hpieces, hne, hconnects⟩ := @exists_go overflow [⟨c, 0⟩] c.p0 c.p3 fuel hinvariant hfuel ⟨rfl, rfl⟩
  exact ⟨fuel, pieces, hpieces, hne (List.cons_ne_nil _ _), hconnects⟩

end Emos.Boot
