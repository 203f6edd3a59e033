import Mathlib.Logic.Function.Basic

/-!
This module contains two level page tables whose directory has an entry for itself, and how the
translation of pages changes if one word of a table does.
-/

namespace Lib

namespace Paging

variable {W : Type}

/--
What hardware reads from the words of a table.
-/
structure Format (W : Type) where
  present : W → Bool
  base : W → Nat
  /-- the number of words in a table -/
  entries : Nat
  entries_pos : 0 < entries

/--
Replace word `j` of frame `f`.
-/
def setWord (mem : Nat → Nat → W) (f j : Nat) (w : W) : Nat → Nat → W :=
  Function.update mem f (Function.update (mem f) j w)

theorem setWord_apply (mem : Nat → Nat → W) (f j : Nat) (w : W) (g k : Nat)
    : setWord mem f j w g k = if g = f ∧ k = j then w else mem g k := by
  unfold setWord
  by_cases hg : g = f
  . subst hg
    by_cases hk : k = j
    . simp [hk]
    . simp [hk]
  . simp [hg]

theorem setWord_same (mem : Nat → Nat → W) (f j : Nat) (w : W) : setWord mem f j w f j = w := by
  simp [setWord_apply]

theorem setWord_frame {mem : Nat → Nat → W} {f j : Nat} {w : W} {g : Nat} (h : g ≠ f) (k : Nat)
    : setWord mem f j w g k = mem g k := by
  simp [setWord_apply, h]

theorem setWord_setWord (mem : Nat → Nat → W) (f j : Nat) (v w : W)
    : setWord (setWord mem f j v) f j w = setWord mem f j w := by
  funext g k
  simp only [setWord_apply]
  split <;> rfl

namespace Format

variable (fmt : Format W)

/--
The frame that a word leads to.
-/
def target (w : W) : Option Nat := if fmt.present w then some (fmt.base w) else none

/--
The frame of page `vpn`, as found by hardware that starts at the directory in frame `dir`.
-/
def walk (mem : Nat → Nat → W) (dir vpn : Nat) : Option Nat :=
  match fmt.target (mem dir (vpn / fmt.entries)) with
  | none => none
  | some table => fmt.target (mem table (vpn % fmt.entries))

/--
Entry `slot` of the directory leads to the directory itself, and no two entries lead to the same
table.
-/
structure Tables (mem : Nat → Nat → W) (dir slot : Nat) : Prop where
  slot_lt : slot < fmt.entries
  slot_target : fmt.target (mem dir slot) = some dir
  injective : ∀ i j f, i < fmt.entries → j < fmt.entries → fmt.target (mem dir i) = some f
    → fmt.target (mem dir j) = some f → i = j

variable {fmt} {mem : Nat → Nat → W} {dir slot d f j : Nat} {w : W}

theorem Tables.ne_dir (h : fmt.Tables mem dir slot) (hd : d < fmt.entries) (hne : d ≠ slot)
    (hf : fmt.target (mem dir d) = some f)
    : f ≠ dir := by
  intro heq
  subst heq
  exact hne (h.injective d slot f hd h.slot_lt hf h.slot_target)

theorem Tables.walk_setWord (h : fmt.Tables mem dir slot) (hd : d < fmt.entries) (hne : d ≠ slot)
    (hf : fmt.target (mem dir d) = some f) (j : Nat) (w : W) {vpn : Nat}
    (hvpn : vpn / fmt.entries < fmt.entries)
    : fmt.walk (setWord mem f j w) dir vpn
        =
      if vpn / fmt.entries = d ∧ vpn % fmt.entries = j then fmt.target w
      else fmt.walk mem dir vpn := by
  have hdir := h.ne_dir hd hne hf
  unfold walk
  rw [setWord_frame (Ne.symm hdir)]
  by_cases hpage : vpn / fmt.entries = d
  . rw [hpage, hf]
    simp only [setWord_apply, true_and]
    split <;> rfl
  . rw [if_neg (by simp [hpage])]
    cases htable : fmt.target (mem dir (vpn / fmt.entries)) with
    | none => rfl
    | some table =>
      have : table ≠ f := by
        intro heq
        subst heq
        exact hpage (h.injective _ _ _ hvpn hd htable hf)
      dsimp only
      rw [setWord_frame this]

theorem Tables.setWord (h : fmt.Tables mem dir slot) (hd : d < fmt.entries) (hne : d ≠ slot)
    (hf : fmt.target (mem dir d) = some f)
    : fmt.Tables (Paging.setWord mem f j w) dir slot := by
  have hdir := Ne.symm (h.ne_dir hd hne hf)
  refine ⟨h.slot_lt, ?_, ?_⟩
  . rw [setWord_frame hdir]
    exact h.slot_target
  . intro i k g hi hk hig hkg
    rw [setWord_frame hdir] at hig hkg
    exact h.injective i k g hi hk hig hkg

theorem walk_setWord_eq_none (hw : fmt.target w = none) {vpn : Nat}
    (h : fmt.walk mem dir vpn = none)
    : fmt.walk (Paging.setWord mem f j w) dir vpn = none := by
  have hword : ∀ g k, fmt.target (Paging.setWord mem f j w g k) = none
      ∨ fmt.target (Paging.setWord mem f j w g k) = fmt.target (mem g k) := by
    intro g k
    rw [setWord_apply]
    split
    . exact .inl hw
    . exact .inr rfl
  unfold walk at h ⊢
  cases hword dir (vpn / fmt.entries) with
  | inl hnone => rw [hnone]
  | inr hsame =>
    rw [hsame]
    cases htable : fmt.target (mem dir (vpn / fmt.entries)) with
    | none => rfl
    | some table =>
      rw [htable] at h
      dsimp only at h ⊢
      cases hword table (vpn % fmt.entries) with
      | inl hnone => exact hnone
      | inr hsame =>
        rw [hsame]
        exact h

/--
A walk that finds a frame does not look at an absent word.
-/
theorem walk_setWord_of_absent (habsent : fmt.target (mem f j) = none) (w : W) {vpn : Nat}
    (h : fmt.walk mem dir vpn ≠ none)
    : fmt.walk (Paging.setWord mem f j w) dir vpn = fmt.walk mem dir vpn := by
  have hword : ∀ g k, fmt.target (mem g k) ≠ none → Paging.setWord mem f j w g k = mem g k := by
    intro g k hg
    rw [setWord_apply]
    split
    . next heq =>
      rw [heq.1, heq.2] at hg
      exact absurd habsent hg
    . rfl
  unfold walk at h ⊢
  cases htable : fmt.target (mem dir (vpn / fmt.entries)) with
  | none => simp [htable] at h
  | some table =>
    rw [htable] at h
    dsimp only at h
    rw [hword _ _ (by rw [htable]; nofun), htable]
    dsimp only
    rw [hword _ _ h]

end Format

end Paging

end Lib
