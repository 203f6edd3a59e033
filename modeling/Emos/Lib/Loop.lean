import Mathlib.Data.Nat.Basic
import Mathlib.Data.Set.Insert

/-!
This module contains counted loops over a state whose body may raise an error, and the rules that
carry an invariant from round to round.
-/

namespace Lib

variable {σ ε α β : Type}

theorem ok_bind (a : α) (k : α → Except ε β) : ((.ok a : Except ε α) >>= k) = k a := rfl

theorem bind_eq_ok (m : Except ε α) (k : α → Except ε β) (r : β)
    : m >>= k = .ok r
        ↔
      ∃ v, m = .ok v ∧ k v = .ok r := by
  constructor
  . intro h
    cases m with
    | error e => contradiction
    | ok v => exact ⟨v, rfl, h⟩
  . intro ⟨v, hv, hk⟩
    rw [hv]
    exact hk

theorem bind_of_some {x : Option α} {k : α → Option β} {a : α} {r : β} (hx : x = some a)
    (hk : k a = some r)
    : x >>= k = some r := by
  rw [hx]
  exact hk

/--
Run `body` for `n` rounds, the first one at index `i`.
-/
def forRange (body : σ → Nat → Except ε σ) : Nat → Nat → σ → Except ε σ
  | 0, _, s => .ok s
  | n + 1, i, s => body s i >>= forRange body n (i + 1)

variable {body : σ → Nat → Except ε σ}

theorem forRange_invariant (P : Nat → σ → Prop) {n i : Nat} {s s' : σ}
    (hstep : ∀ j t t', i ≤ j → j < i + n → P j t → body t j = .ok t' → P (j + 1) t')
    (hrun : forRange body n i s = .ok s') (hs : P i s)
    : P (i + n) s' := by
  induction n generalizing i s with
  | zero =>
    simp only [forRange, Except.ok.injEq] at hrun
    subst hrun
    exact hs
  | succ n ih =>
    rw [forRange, bind_eq_ok] at hrun
    obtain ⟨t, hbody, hrest⟩ := hrun
    have hnext := hstep i s t (Nat.le_refl i) (by omega) hs hbody
    have := ih (fun j u u' hj hlt => hstep j u u' (by omega) (by omega)) hrest hnext
    rw [show i + 1 + n = i + (n + 1) by omega] at this
    exact this

theorem forRange_total (P : Nat → σ → Prop) {n i : Nat} {s : σ}
    (hstep : ∀ j t, i ≤ j → j < i + n → P j t → ∃ t', body t j = .ok t' ∧ P (j + 1) t')
    (hs : P i s)
    : ∃ s', forRange body n i s = .ok s' ∧ P (i + n) s' := by
  induction n generalizing i s with
  | zero => exact ⟨s, rfl, hs⟩
  | succ n ih =>
    obtain ⟨t, hbody, hnext⟩ := hstep i s (Nat.le_refl i) (by omega) hs
    obtain ⟨s', hrest, hend⟩ :=
      ih (fun j u hj hlt => hstep j u (by omega) (by omega)) hnext
    refine ⟨s', ?_, ?_⟩
    . rw [forRange, bind_eq_ok]
      exact ⟨t, hbody, hrest⟩
    . rw [show i + (n + 1) = i + 1 + n by omega]
      exact hend

/--
A loop that ends with the first step that does not return `ok`. If the invariant tells which steps are
blocked, a blocked step fails and changes nothing, and all others succeed, then the loop ends at the
first blocked step.
-/
theorem first_blocked {ok : β} {go : Nat → Nat → σ → Except ε (β × σ)} {step : Nat → σ → Except ε (β × σ)}
    (hzero : ∀ i s, go 0 i s = .ok ⟨ok, s⟩)
    (hnext : ∀ n i s t, step i s = .ok ⟨ok, t⟩ → go (n + 1) i s = go n (i + 1) t)
    (hfail : ∀ n i s b t, step i s = .ok ⟨b, t⟩ → b ≠ ok → go (n + 1) i s = .ok ⟨b, t⟩)
    (Inv : Nat → σ → Prop) (Blocked : Nat → Prop) {n i : Nat} {s : σ}
    (hstep : ∀ j t, i ≤ j → j < i + n → Inv j t
      → (Blocked j ∧ ∃ b, b ≠ ok ∧ step j t = .ok ⟨b, t⟩)
        ∨ (¬ Blocked j ∧ ∃ t', step j t = .ok ⟨ok, t'⟩ ∧ Inv (j + 1) t'))
    (hs : Inv i s)
    : (∃ t, go n i s = .ok ⟨ok, t⟩ ∧ Inv (i + n) t ∧ ∀ k, i ≤ k → k < i + n → ¬ Blocked k)
        ∨
      ∃ k b t, i ≤ k ∧ k < i + n ∧ b ≠ ok ∧ go n i s = .ok ⟨b, t⟩ ∧ Inv k t ∧ Blocked k
        ∧ ∀ j, i ≤ j → j < k → ¬ Blocked j := by
  induction n generalizing i s with
  | zero =>
    left
    refine ⟨s, hzero i s, hs, ?_⟩
    intro k h1 h2
    omega
  | succ n ih =>
    obtain ⟨hblocked, b, hb, hrun⟩ | ⟨hfree, t, hrun, ht⟩ := hstep i s (Nat.le_refl i) (by omega) hs
    . right
      refine ⟨i, b, s, Nat.le_refl i, by omega, hb, hfail n i s b s hrun hb, hs, hblocked, ?_⟩
      intro j h1 h2
      omega
    . have hfirst : ∀ j, i ≤ j → j < i + 1 → ¬ Blocked j := by
        intro j h1 h2
        rw [show j = i by omega]
        exact hfree
      have hrest := ih (fun j u h1 h2 => hstep j u (by omega) (by omega)) ht
      rw [hnext n i s t hrun]
      cases hrest with
      | inl hall =>
        obtain ⟨u, hu, hinv, hnone⟩ := hall
        left
        rw [show i + 1 + n = i + (n + 1) by omega] at hinv
        refine ⟨u, hu, hinv, ?_⟩
        intro k h1 h2
        by_cases hk : k < i + 1
        . exact hfirst k h1 hk
        . exact hnone k (by omega) (by omega)
      | inr hstop =>
        obtain ⟨k, b, u, h1, h2, hb, hu, hinv, hblocked, hnone⟩ := hstop
        right
        refine ⟨k, b, u, by omega, by omega, hb, hu, hinv, hblocked, ?_⟩
        intro j h3 h4
        by_cases hj : j < i + 1
        . exact hfirst j h3 hj
        . exact hnone j (by omega) h4

/--
A loop over rows and one over the elements of a row, where `P i` holds in front of element `i` of all rows.
-/
theorem forRange_rows {body : Nat → σ → Nat → Except ε σ} (P : Nat → σ → Prop) {width height : Nat} {s : σ}
    (hstep : ∀ y x t, y < height → x < width → P (y * width + x) t
      → ∃ t', body y t x = .ok t' ∧ P (y * width + x + 1) t')
    (hs : P 0 s)
    : ∃ s', forRange (fun s y => forRange (body y) width 0 s) height 0 s = .ok s' ∧ P (height * width) s' := by
  have hrun : ∃ s', forRange (fun s y => forRange (body y) width 0 s) height 0 s = .ok s'
      ∧ P ((0 + height) * width) s' := forRange_total (fun y s => P (y * width) s)
    (by
      intro y t _ hy ht
      have hrow : ∃ u, forRange (body y) width 0 t = .ok u ∧ P (y * width + (0 + width)) u :=
        forRange_total (fun x s => P (y * width + x) s) (fun x u _ hx hu => hstep y x u (by omega) (by omega) hu) ht
      rw [Nat.zero_add] at hrow
      rw [Nat.succ_mul]
      exact hrow)
    (by rwa [Nat.zero_mul])
  rw [Nat.zero_add] at hrun
  exact hrun

/--
The points of a rectangle that the loops over its rows have visited in front of column `x` of row `y`.
-/
def visited (x0 y0 w y x : Nat) : Set (Nat × Nat) :=
  {p | (x0 ≤ p.1 ∧ p.1 < x0 + w) ∧ y0 ≤ p.2 ∧ p.2 < y ∨ p.2 = y ∧ x0 ≤ p.1 ∧ p.1 < x}

/--
`for (int i = lo; i <= hi; i++)`
-/
def forTo (body : σ → Int → Except ε σ) (lo hi : Int) (s : σ) : Except ε σ :=
  forRange (fun s i => body s (lo + i)) (hi + 1 - lo).toNat 0 s

/--
`for (int i = hi; i >= lo; i--)`
-/
def forDownTo (body : σ → Int → Except ε σ) (hi lo : Int) (s : σ) : Except ε σ :=
  forRange (fun s i => body s (hi - i)) (hi + 1 - lo).toNat 0 s

variable {round : σ → Int → Except ε σ} {lo hi : Int} {s : σ} (P : σ → Prop)

theorem forTo_total
    (hstep : ∀ i t, lo ≤ i → i ≤ hi → P t → ∃ t', round t i = .ok t' ∧ P t') (hs : P s)
    : ∃ s', forTo round lo hi s = .ok s' ∧ P s' := by
  apply forRange_total (fun _ => P) _ hs
  intro j t _ hj ht
  exact hstep (lo + j) t (by omega) (by omega) ht

theorem forDownTo_total
    (hstep : ∀ i t, lo ≤ i → i ≤ hi → P t → ∃ t', round t i = .ok t' ∧ P t') (hs : P s)
    : ∃ s', forDownTo round hi lo s = .ok s' ∧ P s' := by
  apply forRange_total (fun _ => P) _ hs
  intro j t _ hj ht
  exact hstep (hi - j) t (by omega) (by omega) ht

/--
`Q i` holds in front of the round with index `i`.
-/
theorem forTo_index (Q : Int → σ → Prop) (hle : lo ≤ hi + 1)
    (hstep : ∀ i t, lo ≤ i → i ≤ hi → Q i t → ∃ t', round t i = .ok t' ∧ Q (i + 1) t') (hs : Q lo s)
    : ∃ s', forTo round lo hi s = .ok s' ∧ Q (hi + 1) s' := by
  have hfirst : lo + ((0 : Nat) : Int) = lo := by omega
  have hlast : lo + ((0 + (hi + 1 - lo).toNat : Nat) : Int) = hi + 1 := by lia
  rw [← hlast]
  apply forRange_total (fun (j : Nat) => Q (lo + j))
  . intro j t _ hj ht
    have hnext : lo + ((j + 1 : Nat) : Int) = lo + j + 1 := by omega
    rw [hnext]
    apply hstep (lo + j) t (by omega) (by omega) ht
  . rw [hfirst]
    exact hs

theorem forDownTo_index (Q : Int → σ → Prop) (hle : lo ≤ hi + 1)
    (hstep : ∀ i t, lo ≤ i → i ≤ hi → Q i t → ∃ t', round t i = .ok t' ∧ Q (i - 1) t') (hs : Q hi s)
    : ∃ s', forDownTo round hi lo s = .ok s' ∧ Q (lo - 1) s' := by
  have hfirst : hi - ((0 : Nat) : Int) = hi := by omega
  have hlast : hi - ((0 + (hi + 1 - lo).toNat : Nat) : Int) = lo - 1 := by lia
  rw [← hlast]
  apply forRange_total (fun (j : Nat) => Q (hi - j))
  . intro j t _ hj ht
    have hnext : hi - ((j + 1 : Nat) : Int) = hi - j - 1 := by omega
    rw [hnext]
    apply hstep (hi - j) t (by omega) (by omega) ht
  . rw [hfirst]
    exact hs

end Lib
