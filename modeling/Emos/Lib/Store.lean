import Mathlib.Data.List.Basic
import Mathlib.Logic.Function.Basic

/-!
This module contains blocks of memory as their users see them: each has a name and its contents, and what happens to one
of them says nothing about the others.
-/

namespace Lib

/--
The states that a sequence of events leads to.
-/
inductive Runs {σ ε : Type} (step : σ → ε → σ → Prop) : σ → List ε → σ → Prop where
  | nil (s : σ) : Runs step s [] s
  | cons {s t u : σ} {e : ε} {es : List ε} (head : step s e t) (tail : Runs step t es u) : Runs step s (e :: es) u

namespace Runs

variable {σ τ ε δ : Type} {step : σ → ε → σ → Prop} {step' : τ → δ → τ → Prop} {s t : σ} {es : List ε}

theorem invariant {Q : σ → Prop} (hstep : ∀ s e t, Q s → step s e t → Q t) (hruns : Runs step s es t) (hs : Q s)
    : Q t := by
  induction hruns with
  | nil _ => exact hs
  | cons head _ ih => exact ih (hstep _ _ _ hs head)

end Runs

/--
What is in the blocks.
-/
abbrev Store (ι α : Type) := ι → Option (List α)

namespace Store

variable {ι α : Type} [DecidableEq ι]

inductive Act (ι α : Type) where
  | idle
  /-- with what the block is filled with, if it is filled -/
  | acquire (n : Nat) (fill : Option α)
  | release (p : ι)
  | resize (p : ι) (n : Nat)
  | write (p : ι) (i : Nat) (v : α)

/--
The block that an act is about, if there is one already.
-/
def Act.block : Act ι α → Option ι
  | .idle => none
  | .acquire _ _ => none
  | .release p => some p
  | .resize p _ => some p
  | .write p _ _ => some p

/--
What the acts do. There may be no room for a new block, and then a block without contents that should be made bigger
may get lost.
-/
inductive Step (s : Store ι α) : Act ι α → Store ι α → Prop where
  | idle : Step s .idle s
  | acquire {p : ι} {n : Nat} {fill : Option α} {xs : List α} (hp : s p = none) (hn : xs.length = n)
    (hfill : ∀ v ∈ fill, xs = List.replicate n v)
    : Step s (.acquire n fill) (Function.update s p (some xs))
  | full {n : Nat} {fill : Option α} : Step s (.acquire n fill) s
  | release {p : ι} {xs : List α} (hp : s p = some xs) : Step s (.release p) (Function.update s p none)
  | resize {p q : ι} {n : Nat} {xs ys : List α} (hp : s p = some xs) (hq : q = p ∨ s q = none) (hn : ys.length = n)
    (hkept : ys.take xs.length = xs.take n)
    : Step s (.resize p n) (Function.update (Function.update s p none) q (some ys))
  | lost {p : ι} {n : Nat} (hp : s p = some []) : Step s (.resize p n) (Function.update s p none)
  | write {p : ι} {i : Nat} {v : α} {xs : List α} (hp : s p = some xs) (hi : i < xs.length)
    : Step s (.write p i v) (Function.update s p (some (xs.set i v)))

variable {s t : Store ι α} {a : Act ι α} {as : List (Act ι α)} {p : ι} {xs : List α}

theorem Step.frame (hstep : Step s a t) (hp : s p = some xs) (ha : a.block ≠ some p) : t p = some xs := by
  have hne : ∀ {q}, s q = none → p ≠ q := by
    intro q hq heq
    rw [← heq, hp] at hq
    contradiction
  cases hstep with
  | idle => exact hp
  | full => exact hp
  | acquire hq _ _ => rw [Function.update_of_ne (hne hq), hp]
  | release _ => rw [Function.update_of_ne fun heq => ha (congrArg some heq.symm), hp]
  | lost _ => rw [Function.update_of_ne fun heq => ha (congrArg some heq.symm), hp]
  | write _ _ => rw [Function.update_of_ne fun heq => ha (congrArg some heq.symm), hp]
  | @resize p' q _ _ _ _ hq _ _ =>
    have hp' : p ≠ p' := fun heq => ha (congrArg some heq.symm)
    have hq' : p ≠ q := by
      obtain rfl | hq := hq
      . exact hp'
      . exact hne hq
    rw [Function.update_of_ne hq', Function.update_of_ne hp', hp]

/--
A block keeps its contents as long as no act is about it.
-/
theorem frame (hruns : Runs Step s as t) (hp : s p = some xs) (has : ∀ a ∈ as, a.block ≠ some p) : t p = some xs := by
  induction hruns with
  | nil _ => exact hp
  | cons head _ ih =>
    exact ih (head.frame hp (has _ List.mem_cons_self)) fun a ha => has a (List.mem_cons_of_mem _ ha)

end Store

end Lib
