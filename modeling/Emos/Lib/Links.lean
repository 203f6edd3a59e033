import Emos.Lib.Chain

/-!
This module contains walks over linked nodes whose pointers may fail to be read: to the last node, and
to the node in front of another one. The number of rounds is bounded, and a walk that needs more of
them ends with an error.
-/

namespace Lib

variable {α ε : Type}

namespace Links

variable (hang : ε) (read : α → Except ε (Option α))

/--
The last node from `p` on.
-/
def last : Nat → α → Except ε α
  | 0, _ => .error hang
  | fuel + 1, p => do
    match ← read p with
    | none => .ok p
    | some q => last fuel q

/--
The last node from `p` on whose pointer leads to `x`, or `prev` if there is none.
-/
def prev [DecidableEq α] (x : α) : Nat → Option α → α → Except ε (Option α)
  | 0, _, _ => .error hang
  | fuel + 1, prev', p => do
    match ← read p with
    | none => .ok prev'
    | some q => prev x fuel (if q = x then some p else prev') q

variable {hang read} {next : α → Option α} {p : α} {l : List α} {fuel : Nat}

theorem last_of_chain {x : α} (h : Chain next (some p) (l ++ [x]))
    (hread : ∀ y ∈ l ++ [x], read y = .ok (next y)) (hfuel : l.length < fuel)
    : last hang read fuel p = .ok x := by
  induction l generalizing p fuel with
  | nil =>
    obtain rfl := Option.some.inj h.1
    obtain ⟨n, rfl⟩ : ∃ n, fuel = n + 1 := ⟨fuel - 1, by lia⟩
    have hnone : next p = none := h.2
    simp [last, hread p (by simp), hnone, bind, Except.bind]
  | cons y ys ih =>
    obtain rfl := Option.some.inj h.1
    obtain ⟨n, rfl⟩ : ∃ n, fuel = n + 1 := ⟨fuel - 1, by lia⟩
    cases hnext : next p with
    | none =>
      have := h.2.eq_none_iff.mp hnext
      simp at this
    | some q =>
      have hchain := h.2
      rw [hnext] at hchain
      have hrest := ih hchain (fun z hz => hread z (List.mem_cons_of_mem p hz)) (by simpa using hfuel)
      simp [last, hread p (by simp), hnext, bind, Except.bind, hrest]

variable [DecidableEq α]

theorem prev_of_not_mem {x : α} {prev' : Option α} (h : Chain next (some p) (p :: l))
    (hread : ∀ y ∈ p :: l, read y = .ok (next y)) (hmem : x ∉ l) (hfuel : l.length < fuel)
    : prev hang read x fuel prev' p = .ok prev' := by
  induction l generalizing p fuel with
  | nil =>
    obtain ⟨n, rfl⟩ : ∃ n, fuel = n + 1 := ⟨fuel - 1, by lia⟩
    have hnone : next p = none := h.2
    simp [prev, hread p (by simp), hnone, bind, Except.bind]
  | cons y ys ih =>
    obtain ⟨n, rfl⟩ : ∃ n, fuel = n + 1 := ⟨fuel - 1, by lia⟩
    have hnext : next p = some y := h.2.1
    rw [List.mem_cons, not_or] at hmem
    have hrest := ih ⟨rfl, h.2.2⟩ (fun z hz => hread z (List.mem_cons_of_mem p hz)) hmem.2
      (by simpa using hfuel)
    simp [prev, hread p (by simp), hnext, bind, Except.bind, Ne.symm hmem.1, hrest]

theorem prev_of_mem {x y : α} {prev' : Option α} {pre suf : List α}
    (h : Chain next (some p) (pre ++ y :: x :: suf))
    (hread : ∀ z ∈ pre ++ y :: x :: suf, read z = .ok (next z))
    (hfuel : (pre ++ y :: x :: suf).length ≤ fuel)
    : prev hang read x fuel prev' p = .ok (some y) := by
  have hnodup := h.nodup
  induction pre generalizing p prev' fuel with
  | nil =>
    obtain rfl := Option.some.inj h.1
    rw [List.nil_append, List.length_cons, List.length_cons] at hfuel
    obtain ⟨n, rfl⟩ : ∃ n, fuel = n + 1 := ⟨fuel - 1, by lia⟩
    have hnext : next p = some x := h.2.1
    simp only [List.nil_append, List.nodup_cons] at hnodup
    have hrest : prev hang read x n (some p) x = .ok (some p) :=
      prev_of_not_mem ⟨rfl, h.2.2⟩ (fun z hz => hread z (List.mem_cons_of_mem p hz)) hnodup.2.1 (by omega)
    simp [prev, hread p (by simp), hnext, bind, Except.bind, hrest]
  | cons w ws ih =>
    obtain rfl := Option.some.inj h.1
    rw [List.cons_append, List.length_cons] at hfuel
    obtain ⟨n, rfl⟩ : ∃ n, fuel = n + 1 := ⟨fuel - 1, by lia⟩
    rw [List.cons_append, List.nodup_cons] at hnodup
    cases hnext : next p with
    | none =>
      have := h.2.eq_none_iff.mp hnext
      simp at this
    | some q =>
      have hchain := h.2
      rw [hnext] at hchain
      have hrest : prev hang read x n (if q = x then some p else prev') q = .ok (some y) :=
        ih hchain (fun z hz => hread z (List.mem_cons_of_mem p hz)) (by omega) hnodup.2
      simp [prev, hread p (by simp), hnext, bind, Except.bind, hrest]

end Links

end Lib
