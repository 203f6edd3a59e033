import Mathlib.Data.List.Basic

/-!
This module contains tokens that are read from the front of a list, where a token that is found stays the
same when more comes behind it, and that the list can be read in pieces. Another kind of tokens are the runs
between the elements of a list that separate them.
-/

namespace Lib

/--
The first token of a list, if there is a whole one, and how many elements it takes.
-/
structure Tokenizer (α β : Type) where
  first : List α → Option (β × Nat)
  first_pos : ∀ {l b n}, first l = some (b, n) → 0 < n
  first_le : ∀ {l b n}, first l = some (b, n) → n ≤ l.length
  first_append : ∀ {l r}, first l = some r → ∀ l', first (l ++ l') = some r

namespace Tokenizer

variable {α β : Type} {t : Tokenizer α β} {l l' : List α} {b : β} {n fuel : Nat}

/--
The tokens of a list, and the elements behind the last of them.
-/
def tokensFrom (t : Tokenizer α β) : Nat → List α → List β × List α
  | 0, l => ([], l)
  | fuel + 1, l =>
    match t.first l with
    | none => ([], l)
    | some (b, n) => (b :: (t.tokensFrom fuel (l.drop n)).1, (t.tokensFrom fuel (l.drop n)).2)

def tokens (t : Tokenizer α β) (l : List α) : List β := (t.tokensFrom l.length l).1

def unfinished (t : Tokenizer α β) (l : List α) : List α := (t.tokensFrom l.length l).2

theorem first_nil : t.first [] = none := by
  cases h : t.first [] with
  | none => rfl
  | some r =>
    have hpos := t.first_pos h
    have hle := t.first_le h
    rw [List.length_nil] at hle
    omega

theorem tokensFrom_of_le (hfuel : l.length ≤ fuel) : t.tokensFrom fuel l = t.tokensFrom l.length l := by
  induction hlen : l.length using Nat.strongRecOn generalizing l fuel with
  | ind len ih =>
    subst hlen
    cases l with
    | nil =>
      cases fuel with
      | zero => rfl
      | succ fuel => rw [tokensFrom, first_nil, List.length_nil, tokensFrom]
    | cons a l =>
      obtain ⟨fuel, rfl⟩ := Nat.exists_eq_add_one_of_ne_zero (Nat.ne_zero_of_lt hfuel)
      rw [List.length_cons, tokensFrom, tokensFrom]
      cases h : t.first (a :: l) with
      | none => rfl
      | some r =>
        obtain ⟨b, n⟩ := r
        have hpos := t.first_pos h
        have hlen : ((a :: l).drop n).length ≤ l.length := by
          rw [List.length_drop, List.length_cons]
          omega
        have hlt : ((a :: l).drop n).length < (a :: l).length := Nat.lt_succ_of_le hlen
        dsimp only
        rw [ih _ hlt (Nat.le_trans hlen (Nat.le_of_succ_le_succ hfuel)) rfl, ih _ hlt hlen rfl]

theorem tokensFrom_of_none (h : t.first l = none) : t.tokensFrom l.length l = ([], l) := by
  cases l with
  | nil => rfl
  | cons a l => rw [List.length_cons, tokensFrom, h]

theorem tokensFrom_of_some (h : t.first l = some (b, n))
    : t.tokensFrom l.length l = (b :: t.tokens (l.drop n), t.unfinished (l.drop n)) := by
  cases l with
  | nil =>
    rw [first_nil] at h
    contradiction
  | cons a l =>
    have hpos := t.first_pos h
    have hlen : ((a :: l).drop n).length ≤ l.length := by
      rw [List.length_drop, List.length_cons]
      omega
    rw [List.length_cons, tokensFrom, h]
    dsimp only
    rw [tokensFrom_of_le hlen]
    rfl

theorem tokens_of_none (h : t.first l = none) : t.tokens l = [] := congrArg Prod.fst (tokensFrom_of_none h)

theorem unfinished_of_none (h : t.first l = none) : t.unfinished l = l := congrArg Prod.snd (tokensFrom_of_none h)

theorem tokens_of_some (h : t.first l = some (b, n)) : t.tokens l = b :: t.tokens (l.drop n) := by
  change (t.tokensFrom l.length l).1 = _
  rw [tokensFrom_of_some h]

theorem unfinished_of_some (h : t.first l = some (b, n)) : t.unfinished l = t.unfinished (l.drop n) := by
  change (t.tokensFrom l.length l).2 = _
  rw [tokensFrom_of_some h]

/--
What holds for a list without a whole token, and for one that a token is put in front of, holds for each list.
-/
theorem tokens_induction {P : List α → Prop} (t : Tokenizer α β) (hnone : ∀ l, t.first l = none → P l)
    (hsome : ∀ l b n, t.first l = some (b, n) → P (l.drop n) → P l)
    : ∀ l, P l := by
  intro l
  induction hlen : l.length using Nat.strongRecOn generalizing l with
  | ind len ih =>
    subst hlen
    cases h : t.first l with
    | none => exact hnone l h
    | some r =>
      obtain ⟨b, n⟩ := r
      have hpos := t.first_pos h
      have hle := t.first_le h
      refine hsome l b n h (ih _ ?_ _ rfl)
      rw [List.length_drop]
      omega

theorem first_unfinished (t : Tokenizer α β) (l : List α) : t.first (t.unfinished l) = none := by
  induction l using t.tokens_induction with
  | hnone l h => rw [unfinished_of_none h, h]
  | hsome l b n h ih => rw [unfinished_of_some h, ih]

/--
A list can be read in two pieces, if what is left of the first one is put in front of the second one.
-/
theorem tokens_append (t : Tokenizer α β) (l l' : List α)
    : t.tokens (l ++ l') = t.tokens l ++ t.tokens (t.unfinished l ++ l') := by
  induction l using t.tokens_induction with
  | hnone l h =>
    rw [tokens_of_none h, unfinished_of_none h]
    rfl
  | hsome l b n h ih =>
    rw [tokens_of_some h, unfinished_of_some h, tokens_of_some (t.first_append h l'),
      List.drop_append_of_le_length (t.first_le h), ih]
    rfl

theorem unfinished_append (t : Tokenizer α β) (l l' : List α)
    : t.unfinished (l ++ l') = t.unfinished (t.unfinished l ++ l') := by
  induction l using t.tokens_induction with
  | hnone l h => rw [unfinished_of_none h]
  | hsome l b n h ih =>
    rw [unfinished_of_some h, unfinished_of_some (t.first_append h l'),
      List.drop_append_of_le_length (t.first_le h), ih]

end Tokenizer

section Runs

variable {α : Type} {p : α → Bool} {l : List α} {a : α}

/--
The longest parts of a list that are not empty and have no element with `p`.
-/
def runs (p : α → Bool) (l : List α) : List (List α) := (l.splitOnP p).filter (· ≠ [])

@[simp]
theorem runs_nil (p : α → Bool) : runs p [] = [] := by
  simp [runs]

theorem runs_append_cons (ha : p a) (l l' : List α) : runs p (l ++ a :: l') = runs p l ++ runs p l' := by
  unfold runs
  rw [List.splitOnP_append_cons l l' ha, List.filter_append]

theorem runs_cons (ha : p a) (l : List α) : runs p (a :: l) = runs p l := runs_append_cons ha [] l

theorem runs_of_forall (hne : l ≠ []) (h : ∀ b ∈ l, p b = false) : runs p l = [l] := by
  unfold runs
  rw [List.splitOnP_eq_singleton h]
  simp [hne]

theorem runs_append (l' : List α) (h : ∀ b ∈ l, p b = true) : runs p (l ++ l') = runs p l' := by
  induction l with
  | nil => rfl
  | cons b l ih =>
    rw [List.forall_mem_cons] at h
    rw [List.cons_append, runs_cons h.1, ih h.2]

end Runs

end Lib
