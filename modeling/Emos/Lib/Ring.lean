import Emos.Lib.Chain

/-!
This module contains walks along pointers that need not end, and rings: walks that come back to where
they began.
-/

namespace Lib

variable {α : Type}

/--
Following `f` from a pointer on visits these nodes first.
-/
def Path (f : α → Option α) : Option α → List α → Prop
  | _, [] => True
  | p, x :: xs => p = some x ∧ Path f (f x) xs

namespace Path

variable {f : α → Option α} {p : Option α} {u v : List α}

theorem append_left (h : Path f p (u ++ v)) : Path f p u := by
  induction u generalizing p with
  | nil => trivial
  | cons x xs ih => exact ⟨h.1, ih h.2⟩

theorem append_right {x : α} (h : Path f p (u ++ x :: v)) : Path f (f x) v := by
  induction u generalizing p with
  | nil => exact h.2
  | cons y ys ih => exact ih h.2

theorem append {x : α} (hu : Path f p (u ++ [x])) (hv : Path f (f x) v) : Path f p (u ++ x :: v) := by
  induction u generalizing p with
  | nil => exact ⟨hu.1, hv⟩
  | cons y ys ih => exact ⟨hu.1, ih hu.2⟩

end Path

/--
The search of a walk for a node, which gives up after `fuel` nodes.
-/
def search (f : α → Option α) (q : α → Bool) : Nat → Option α → Option α
  | 0, _ => none
  | _ + 1, none => none
  | fuel + 1, some x => if q x then some x else search f q fuel (f x)

theorem Path.search {f : α → Option α} {p : Option α} {w : List α} (h : Path f p w) (q : α → Bool)
    {t : α} (ht : w.find? q = some t) {fuel : Nat} (hfuel : w.length ≤ fuel)
    : search f q fuel p = some t := by
  induction w generalizing p fuel with
  | nil => contradiction
  | cons x xs ih =>
    rw [h.1]
    cases fuel with
    | zero => contradiction
    | succ fuel =>
      rw [List.find?_cons] at ht
      unfold Lib.search
      split at ht
      . next hx =>
        rw [if_pos hx]
        exact ht
      . next hx =>
        rw [if_neg (by simp [hx])]
        exact ih h.2 ht (Nat.le_of_succ_le_succ hfuel)

/--
Following `f` from `x` on visits these nodes, `x` itself is the last one.
-/
structure Ring (f : α → Option α) (x : α) (w : List α) : Prop where
  path : Path f (f x) w
  last : w.getLast? = some x

namespace Ring

variable {f : α → Option α} {x y : α} {u v : List α}

theorem turn (h : Ring f x (u ++ y :: v)) : Ring f y (v ++ u ++ [y]) := by
  refine ⟨?_, by simp⟩
  have hu : Path f (f x) (u ++ [y]) := by
    have := h.path
    rw [List.append_cons] at this
    exact this.append_left
  have hv := h.path.append_right
  have hlast := h.last
  rw [List.append_assoc]
  cases List.eq_nil_or_concat' v with
  | inl hnil =>
    subst hnil
    simp only [List.getLast?_append, List.getLast?_singleton, Option.some_or, Option.some.injEq] at hlast
    subst hlast
    exact hu
  | inr hconcat =>
    obtain ⟨v', z, rfl⟩ := hconcat
    have hz : z = x := by
      rw [← List.cons_append, ← List.append_assoc, List.getLast?_concat] at hlast
      exact Option.some.inj hlast
    subst hz
    rw [List.append_assoc]
    exact Path.append hv hu

theorem perm_turn (u v : List α) (y : α) : (v ++ u ++ [y]).Perm (u ++ y :: v) := by
  have h1 : (v ++ u ++ [y]).Perm (v ++ (u ++ [y])) := by
    rw [List.append_assoc]
  have h2 : (v ++ (u ++ [y])).Perm (u ++ [y] ++ v) := List.perm_append_comm
  rw [List.append_assoc] at h2
  exact h1.trans h2

end Ring

theorem Chain.ring {next : α → Option α} {first : Option α} {pre post : List α} {x : α}
    (h : Chain next first (pre ++ x :: post))
    : Ring (fun t => (next t).or first) x (post ++ pre ++ [x]) := by
  have hpath : ∀ p l, Chain next p l → Path (fun t => (next t).or first) p l := by
    intro p l hl
    induction l generalizing p with
    | nil => trivial
    | cons y ys ih =>
      refine ⟨hl.1, ?_⟩
      cases ys with
      | nil => trivial
      | cons z zs =>
        have hz : next y = some z := hl.2.1
        dsimp only
        rw [hz]
        exact ih _ ⟨rfl, hl.2.2⟩
  have hend : ∀ p l y, Chain next p (l ++ [y]) → next y = none := by
    intro p l y hl
    induction l generalizing p with
    | nil => exact hl.2
    | cons z zs ih => exact ih _ hl.2
  have hwhole := hpath _ _ h
  have hpre : Path (fun t => (next t).or first) first (pre ++ [x]) := by
    rw [List.append_cons] at hwhole
    exact hwhole.append_left
  refine ⟨?_, by simp⟩
  rw [List.append_assoc]
  cases List.eq_nil_or_concat' post with
  | inl hnil =>
    subst hnil
    rw [hend _ _ _ h]
    exact hpre
  | inr hconcat =>
    obtain ⟨post', z, rfl⟩ := hconcat
    have hz : next z = none := by
      apply hend first (pre ++ x :: post')
      simpa using h
    rw [List.append_assoc]
    apply Path.append hwhole.append_right
    rw [hz]
    exact hpre

end Lib
