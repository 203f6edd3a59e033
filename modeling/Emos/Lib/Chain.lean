import Mathlib.Data.List.Nodup
import Mathlib.Logic.Function.Basic

/-!
This module contains singly linked lists: the list of nodes that is reached by following pointers
until a null pointer.
-/

namespace Lib

variable {α : Type}

/--
Following `next` from a pointer on visits the nodes of a list and then ends.
-/
def Chain (next : α → Option α) : Option α → List α → Prop
  | p, [] => p = none
  | p, x :: xs => p = some x ∧ Chain next (next x) xs

namespace Chain

variable {next : α → Option α} {p : Option α} {l : List α}

theorem functional {l' : List α} (h : Chain next p l) (h' : Chain next p l') : l = l' := by
  induction l generalizing p l' with
  | nil =>
    cases l' with
    | nil => rfl
    | cons y ys =>
      have := h.symm.trans h'.1
      contradiction
  | cons x xs ih =>
    cases l' with
    | nil =>
      have := h'.symm.trans h.1
      contradiction
    | cons y ys =>
      have hhead := h.1.symm.trans h'.1
      cases hhead
      rw [ih h.2 h'.2]

theorem eq_none_iff (h : Chain next p l) : p = none ↔ l = [] := by
  cases l with
  | nil => simpa [Chain] using h
  | cons x xs => simp [h.1]

theorem mem_of_head {x : α} (h : Chain next (some x) l) : x ∈ l := by
  cases l with
  | nil => contradiction
  | cons y ys =>
    cases h.1
    simp

theorem congr {next' : α → Option α} (h : Chain next p l) (hnext : ∀ x ∈ l, next' x = next x)
    : Chain next' p l := by
  induction l generalizing p with
  | nil => exact h
  | cons x xs ih =>
    refine ⟨h.1, ?_⟩
    rw [hnext x (by simp)]
    exact ih h.2 (fun y hy => hnext y (by simp [hy]))

theorem exists_suffix {x : α} (h : Chain next p l) (hx : x ∈ l)
    : ∃ pre suf, l = pre ++ x :: suf ∧ Chain next (next x) suf := by
  induction l generalizing p with
  | nil => contradiction
  | cons y ys ih =>
    cases List.mem_cons.mp hx with
    | inl heq =>
      subst heq
      exact ⟨[], ys, rfl, h.2⟩
    | inr hmem =>
      obtain ⟨pre, suf, heq, hsuf⟩ := ih h.2 hmem
      exact ⟨y :: pre, suf, by rw [heq]; rfl, hsuf⟩

theorem nodup (h : Chain next p l) : l.Nodup := by
  induction l generalizing p with
  | nil => exact List.nodup_nil
  | cons x xs ih =>
    rw [List.nodup_cons]
    refine ⟨?_, ih h.2⟩
    intro hmem
    obtain ⟨pre, suf, heq, hsuf⟩ := h.2.exists_suffix hmem
    have hsame := congrArg List.length (heq.symm.trans (h.2.functional hsuf))
    simp only [List.length_append, List.length_cons] at hsame
    omega

theorem mem_of_next {x y : α} (h : Chain next p l) (hx : x ∈ l) (hy : next x = some y)
    : y ∈ l := by
  obtain ⟨pre, suf, heq, hsuf⟩ := h.exists_suffix hx
  cases suf with
  | nil =>
    rw [hy] at hsuf
    contradiction
  | cons z zs =>
    rw [hy] at hsuf
    cases hsuf.1
    simp [heq]

theorem eq_append_of_next_eq_none {x : α} (h : Chain next p l) (hx : x ∈ l) (hnone : next x = none)
    : ∃ pre, l = pre ++ [x] := by
  obtain ⟨pre, suf, heq, hsuf⟩ := h.exists_suffix hx
  cases suf with
  | nil => exact ⟨pre, heq⟩
  | cons y ys =>
    rw [hnone] at hsuf
    have := hsuf.1
    contradiction

theorem relink [DecidableEq α] {x : α} {q : Option α} {pre suf l' : List α}
    (h : Chain next p (pre ++ x :: suf)) (hl : Chain (Function.update next x q) q l')
    : Chain (Function.update next x q) p (pre ++ x :: l') := by
  have hnodup := h.nodup
  induction pre generalizing p with
  | nil =>
    refine ⟨h.1, ?_⟩
    rw [Function.update_self]
    exact hl
  | cons y ys ih =>
    rw [List.cons_append, List.nodup_cons] at hnodup
    refine ⟨h.1, ?_⟩
    rw [Function.update_of_ne]
    . exact ih h.2 hnodup.2
    . intro heq
      apply hnodup.1
      simp [heq]

theorem append_right {x : α} {pre suf : List α} (h : Chain next p (pre ++ x :: suf))
    : Chain next (next x) suf := by
  induction pre generalizing p with
  | nil => exact h.2
  | cons y ys ih => exact ih h.2

theorem skip [DecidableEq α] {x y : α} {pre suf : List α} (h : Chain next p (pre ++ x :: y :: suf))
    : Chain (Function.update next x (next y)) p (pre ++ x :: suf) := by
  apply relink h
  have hsuf : Chain next (next y) suf := h.append_right.2
  have hnodup := (List.nodup_append.mp h.nodup).2.1
  rw [List.nodup_cons] at hnodup
  apply hsuf.congr
  intro z hz
  apply Function.update_of_ne
  intro heq
  subst heq
  exact hnodup.1 (List.mem_cons_of_mem y hz)

theorem concat_of_none [DecidableEq α] {x y : α} {pre : List α} (h : Chain next p (pre ++ [x]))
    (hy : y ∉ pre ++ [x]) (hnone : next y = none)
    : Chain (Function.update next x (some y)) p (pre ++ [x] ++ [y]) := by
  have hne : y ≠ x := by
    intro heq
    subst heq
    simp at hy
  rw [List.append_assoc]
  apply relink h
  refine ⟨rfl, ?_⟩
  rw [Function.update_of_ne hne]
  exact hnone

theorem update_of_not_mem [DecidableEq α] {y : α} {q : Option α} (h : Chain next p l) (hy : y ∉ l)
    : Chain (Function.update next y q) p l := by
  apply h.congr
  intro z hz
  apply Function.update_of_ne
  intro heq
  exact hy (heq ▸ hz)

theorem concat [DecidableEq α] {x y : α} {pre : List α} (h : Chain next p (pre ++ [x]))
    (hy : y ∉ pre ++ [x])
    : Chain (Function.update (Function.update next x (some y)) y none) p (pre ++ [x] ++ [y]) := by
  have hne : x ≠ y := by
    intro heq
    subst heq
    simp at hy
  rw [Function.update_comm hne]
  exact (h.update_of_not_mem hy).concat_of_none hy (Function.update_self ..)

theorem next_ne_head {x y : α} (h : Chain next p (x :: l)) (hy : y ∈ x :: l) : next y ≠ some x := by
  intro hnext
  obtain ⟨pre, suf, heq, hsuf⟩ := h.exists_suffix hy
  rw [hnext] at hsuf
  have hmem := hsuf.mem_of_head
  have hnodup := h.nodup
  rw [List.nodup_cons] at hnodup
  apply hnodup.1
  cases pre with
  | nil =>
    cases heq
    exact hmem
  | cons z zs =>
    cases heq
    simp [hmem]

/--
If the nodes of `pre` keep their pointers, only what follows them has to be a list again.
-/
theorem splice {next' : α → Option α} {x : α} {pre suf l' : List α} (h : Chain next p (pre ++ x :: suf))
    (hpre : ∀ y ∈ pre, next' y = next y) (hl : Chain next' (next' x) l')
    : Chain next' p (pre ++ x :: l') := by
  induction pre generalizing p with
  | nil => exact ⟨h.1, hl⟩
  | cons y ys ih =>
    rw [List.forall_mem_cons] at hpre
    refine ⟨h.1, ?_⟩
    rw [hpre.1]
    exact ih h.2 hpre.2

/--
If the nodes of `pre` keep their pointers, another list from the same pointer on visits them as well.
-/
theorem follow {next' : α → Option α} {x : α} {pre suf l' : List α} (h : Chain next p (pre ++ x :: suf))
    (hpre : ∀ y ∈ pre, next' y = next y) (h' : Chain next' p l')
    : ∃ suf', l' = pre ++ x :: suf' ∧ Chain next' (next' x) suf' := by
  induction pre generalizing p l' with
  | nil =>
    have hhead : p = some x := h.1
    subst hhead
    cases l' with
    | nil => cases h'
    | cons z zs =>
      cases h'.1
      exact ⟨zs, rfl, h'.2⟩
  | cons y ys ih =>
    have hhead : p = some y := h.1
    subst hhead
    rw [List.forall_mem_cons] at hpre
    cases l' with
    | nil => cases h'
    | cons z zs =>
      cases h'.1
      have hrest := h'.2
      rw [hpre.1] at hrest
      obtain ⟨suf', heq, hsuf⟩ := ih h.2 hpre.2 hrest
      exact ⟨suf', by rw [heq, List.cons_append], hsuf⟩

theorem of_append {pre suf : List α} (h : Chain next p (pre ++ suf)) : ∃ q, Chain next q suf := by
  induction pre generalizing p with
  | nil => exact ⟨p, h⟩
  | cons x xs ih => exact ih h.2

end Chain

end Lib
