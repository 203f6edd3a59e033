import Emos.Lib.Loop

/-!
This module contains what holds in every state of a run, and at every step of it.
-/

namespace Lib

variable {σ α ε : Type} (step : σ → α → Except ε σ)

/--
`Q` holds in every state that the actions lead to.
-/
def Throughout (Q : σ → Prop) : σ → List α → Prop
  | s, [] => Q s
  | s, a :: as => Q s ∧ ∀ t, step s a = .ok t → Throughout Q t as

/--
`P` holds before each of the actions.
-/
def Along (P : σ → α → Prop) : σ → List α → Prop
  | _, [] => True
  | s, a :: as => P s a ∧ ∀ t, step s a = .ok t → Along P t as

/--
The actions all return, and `Q` holds in every state that they lead to.
-/
def Always (Q : σ → Prop) : σ → List α → Prop
  | s, [] => Q s
  | s, a :: as => Q s ∧ ∃ t, step s a = .ok t ∧ Always Q t as

variable {step} {s : σ} {as : List α} {P P' : σ → α → Prop} {Q Q' : σ → Prop}

instance Along.decidable [∀ s a, Decidable (P s a)] (s : σ) : (as : List α) → Decidable (Along step P s as)
  | [] => .isTrue trivial
  | a :: as =>
    match h : step s a with
    | .error _ => decidable_of_iff (P s a) (by simp [Along, h])
    | .ok t =>
      have := Along.decidable t as
      decidable_of_iff (P s a ∧ Along step P t as) (by simp [Along, h])

instance decidableForallOk {R : σ → Prop} [DecidablePred R]
    : (r : Except ε σ) → Decidable (∀ t, r = .ok t → R t)
  | .error _ => .isTrue (by simp)
  | .ok t => decidable_of_iff (R t) (by simp)

theorem Throughout.head (h : Throughout step Q s as) : Q s := by
  cases as with
  | nil => exact h
  | cons a as => exact h.1

theorem Throughout.mono (hQ : ∀ s, Q s → Q' s) (h : Throughout step Q s as)
    : Throughout step Q' s as := by
  induction as generalizing s with
  | nil => exact hQ s h
  | cons a as ih => exact ⟨hQ s h.1, fun t ht => ih (h.2 t ht)⟩

theorem Throughout.of_step (hstep : ∀ s a t, Q s → P s a → step s a = .ok t → Q t) (hs : Q s)
    (h : Along step P s as)
    : Throughout step Q s as := by
  induction as generalizing s with
  | nil => exact hs
  | cons a as ih => exact ⟨hs, fun t ht => ih (hstep s a t hs h.1 ht) (h.2 t ht)⟩

theorem Along.of_throughout (hP : ∀ s a, Q s → (∀ t, step s a = .ok t → Q t) → P s a)
    (h : Throughout step Q s as)
    : Along step P s as := by
  induction as generalizing s with
  | nil => trivial
  | cons a as ih =>
    refine ⟨hP s a h.1 (fun t ht => (h.2 t ht).head), ?_⟩
    intro t ht
    exact ih (h.2 t ht)

theorem Along.and_throughout (hP : ∀ s a, Q s → P s a → P' s a) (hQ : Throughout step Q s as)
    (h : Along step P s as)
    : Along step P' s as := by
  induction as generalizing s with
  | nil => trivial
  | cons a as ih =>
    refine ⟨hP s a hQ.1 h.1, ?_⟩
    intro t ht
    exact ih (hQ.2 t ht) (h.2 t ht)

theorem Along.of_forall_mem (h : ∀ a ∈ as, ∀ s, P s a) : Along step P s as := by
  induction as generalizing s with
  | nil => trivial
  | cons a as ih =>
    rw [List.forall_mem_cons] at h
    exact ⟨h.1 s, fun t _ => ih h.2⟩

theorem Along.congr (hP : ∀ a ∈ as, ∀ s, Q s → (P s a ↔ P' s a)) (hQ : Throughout step Q s as)
    : Along step P s as ↔ Along step P' s as := by
  induction as generalizing s with
  | nil => exact Iff.rfl
  | cons a as ih =>
    rw [List.forall_mem_cons] at hP
    unfold Along
    rw [hP.1 s hQ.1]
    apply and_congr_right
    intro _
    apply forall_congr'
    intro t
    apply imp_congr_right
    intro ht
    exact ih hP.2 (hQ.2 t ht)

/--
If the actions with `P'` are exactly those with `P` in the states with `I`, and they keep `I`, it is the
same whether all of the actions have `P` or all have `P'`. `A` holds before each action anyway.
-/
theorem Along.iff_of_step {I : σ → Prop} {A : σ → α → Prop} {fuel : Nat} (used : σ → Nat)
    (hiff : ∀ s a, I s → A s a → used s < fuel → (P s a ↔ P' s a))
    (hkept : ∀ s a t, I s → A s a → used s < fuel → P' s a → step s a = .ok t → I t ∧ used t ≤ used s + 1)
    (hs : I s) (hfuel : used s + as.length ≤ fuel) (h : Along step A s as)
    : Along step P s as ↔ Along step P' s as := by
  induction as generalizing s with
  | nil => exact Iff.rfl
  | cons a as ih =>
    rw [List.length_cons] at hfuel
    have hlt : used s < fuel := by omega
    unfold Along
    rw [hiff s a hs h.1 hlt]
    apply and_congr_right
    intro hP
    apply forall_congr'
    intro t
    apply imp_congr_right
    intro ht
    obtain ⟨hI, hused⟩ := hkept s a t hs h.1 hlt hP ht
    exact ih hI (by omega) (h.2 t ht)

theorem Always.head (h : Always step Q s as) : Q s := by
  cases as with
  | nil => exact h
  | cons a as => exact h.1

theorem Always.cons_iff {a : α} {t : σ} (ht : step s a = .ok t)
    : Always step Q s (a :: as) ↔ Q s ∧ Always step Q t as := by
  simp [Always, ht]

theorem Always.mono (hQ : ∀ s, Q s → Q' s) (h : Always step Q s as) : Always step Q' s as := by
  induction as generalizing s with
  | nil => exact hQ s h
  | cons a as ih =>
    obtain ⟨t, ht, htail⟩ := h.2
    exact ⟨hQ s h.1, t, ht, ih htail⟩

theorem Always.of_step {fuel : Nat} (used : σ → Nat)
    (hstep : ∀ s a, Q s → P s a → used s ≤ fuel → ∃ t, step s a = .ok t ∧ Q t ∧ used t ≤ used s + 1)
    (hs : Q s) (hfuel : used s + as.length ≤ fuel) (h : Along step P s as)
    : Always step Q s as := by
  induction as generalizing s with
  | nil => exact hs
  | cons a as ih =>
    rw [List.length_cons] at hfuel
    obtain ⟨t, ht, hQt, hused⟩ := hstep s a hs h.1 (by omega)
    exact ⟨hs, t, ht, ih hQt (by omega) (h.2 t ht)⟩

/--
If the actions with `P` are exactly those that return and keep `Q`, it holds in every state if and only
if `P` holds before each action. `I` is an invariant that `Q` follows from.
-/
theorem Always.iff_along_of_step {I : σ → Prop} {fuel : Nat} (used : σ → Nat) (hI : ∀ s, I s → Q s)
    (hkept : ∀ s a, I s → P' s a → used s < fuel → P s a
      → ∃ t, step s a = .ok t ∧ used t ≤ used s + 1 ∧ I t)
    (honly : ∀ s a t, I s → P' s a → used s < fuel → step s a = .ok t → Q t → P s a)
    (hs : I s) (hfuel : used s + as.length ≤ fuel) (h : Along step P' s as)
    : Always step Q s as ↔ Along step P s as := by
  induction as generalizing s with
  | nil => exact iff_of_true (hI s hs) trivial
  | cons a as ih =>
    rw [List.length_cons] at hfuel
    have hlt : used s < fuel := by omega
    constructor
    . intro hall
      obtain ⟨t, ht, htail⟩ := hall.2
      have hP := honly s a t hs h.1 hlt ht htail.head
      obtain ⟨t', ht', hused, hI'⟩ := hkept s a hs h.1 hlt hP
      rw [ht] at ht'
      cases ht'
      refine ⟨hP, ?_⟩
      intro u hu
      rw [ht] at hu
      cases hu
      exact (ih hI' (by omega) (h.2 t ht)).mp htail
    . intro hall
      obtain ⟨t, ht, hused, hI'⟩ := hkept s a hs h.1 hlt hall.1
      exact ⟨hI s hs, t, ht, (ih hI' (by omega) (h.2 t ht)).mpr (hall.2 t ht)⟩

/--
If `Q` is kept by exactly the actions with `P`, it holds in every state if and only if `P` holds before
each action. `I` is an invariant that `Q` follows from.
-/
theorem Always.iff_along {I : σ → Prop} {fuel : Nat} (used : σ → Nat) (hI : ∀ s, I s → Q s)
    (hstep : ∀ s a, I s → P' s a → used s < fuel
      → ∃ t, step s a = .ok t ∧ used t ≤ used s + 1 ∧ (Q t → P s a) ∧ (P s a → I t))
    (hs : I s) (hfuel : used s + as.length ≤ fuel) (h : Along step P' s as)
    : Always step Q s as ↔ Along step P s as := by
  apply Always.iff_along_of_step used hI _ _ hs hfuel h
  . intro s a hs hP' hlt hP
    obtain ⟨t, ht, hused, -, hkept⟩ := hstep s a hs hP' hlt
    exact ⟨t, ht, hused, hkept hP⟩
  . intro s a t hs hP' hlt ht hQ
    obtain ⟨t', ht', -, honly, -⟩ := hstep s a hs hP' hlt
    rw [ht] at ht'
    cases ht'
    exact honly hQ

end Lib
