import Emos.Kernel.Mm.Lemmas.Pma
import Mathlib.Data.Finset.Card
import Mathlib.Order.Interval.Finset.Nat

/-!
This module contains the pages of a request to map several of them, the page tables that it needs, and
the number of frames that are left for them.
-/

namespace Emos

/--
Page `k` of a request, without the bits that no table has an entry for.
-/
def pageAt (vpn k : Nat) : Nat := (vpn + k) % 2 ^ 20

/--
Entry `d` of the directory is absent, and one of the first `k` pages of a request needs it.
-/
def Misses (absent : Nat → Prop) (vpn k d : Nat) : Prop := absent d ∧ ∃ j < k, pageAt vpn j / 1024 = d

instance (absent : Nat → Prop) [DecidablePred absent] (vpn k : Nat) : DecidablePred (Misses absent vpn k) := by
  unfold Misses
  infer_instance

def newTables (absent : Nat → Prop) [DecidablePred absent] (vpn k : Nat) : Finset Nat :=
  (Finset.range 1024).filter (Misses absent vpn k)

variable {absent : Nat → Prop} [DecidablePred absent] {vpn k : Nat}

theorem pageAt_dir_lt (vpn k : Nat) : pageAt vpn k / 1024 < 1024 := by
  unfold pageAt
  lia

theorem mem_newTables {d : Nat}
    : d ∈ newTables absent vpn k ↔ d < 1024 ∧ absent d ∧ ∃ j < k, pageAt vpn j / 1024 = d := by
  unfold newTables
  rw [Finset.mem_filter, Finset.mem_range]
  exact Iff.rfl

@[simp]
theorem newTables_zero : newTables absent vpn 0 = ∅ := by
  ext d
  rw [mem_newTables]
  simp

theorem card_newTables_of_absent (habsent : absent (pageAt vpn k / 1024))
    (hnew : ∀ j < k, pageAt vpn j / 1024 ≠ pageAt vpn k / 1024)
    : (newTables absent vpn (k + 1)).card = (newTables absent vpn k).card + 1 := by
  have hnot : pageAt vpn k / 1024 ∉ newTables absent vpn k := by
    rw [mem_newTables]
    intro ⟨_, _, j, hj, heq⟩
    exact hnew j hj heq
  rw [← Finset.card_insert_of_notMem hnot]
  refine congrArg Finset.card ?_
  ext d
  rw [Finset.mem_insert, mem_newTables, mem_newTables]
  constructor
  . intro ⟨hd, hnone, j, hj, heq⟩
    by_cases hlast : j = k
    . rw [hlast] at heq
      exact .inl heq.symm
    . exact .inr ⟨hd, hnone, j, by omega, heq⟩
  . intro h
    cases h with
    | inl heq =>
      rw [heq]
      exact ⟨pageAt_dir_lt vpn k, habsent, k, by omega, rfl⟩
    | inr hold =>
      obtain ⟨hd, hnone, j, hj, heq⟩ := hold
      exact ⟨hd, hnone, j, by omega, heq⟩

theorem newTables_of_present
    (h : ¬ (absent (pageAt vpn k / 1024) ∧ ∀ j < k, pageAt vpn j / 1024 ≠ pageAt vpn k / 1024))
    : newTables absent vpn (k + 1) = newTables absent vpn k := by
  ext d
  rw [mem_newTables, mem_newTables]
  constructor
  . intro ⟨hd, hnone, j, hj, heq⟩
    by_cases hlast : j = k
    . rw [hlast] at heq
      rw [heq] at h
      by_contra hnot
      apply h
      refine ⟨hnone, ?_⟩
      intro j' hj' heq'
      exact hnot ⟨hd, hnone, j', hj', heq'⟩
    . exact ⟨hd, hnone, j, by omega, heq⟩
  . intro ⟨hd, hnone, j, hj, heq⟩
    exact ⟨hd, hnone, j, by omega, heq⟩

namespace Pma

/--
The free frames with property `q` before and after an allocation.
-/
theorem MapsRange.card_free {s t : Pma} {lo hi : Nat}
    (h : MapsRange (fun d => d = pbmFree) (fun _ => pbmAllocated) lo hi s t) (q : Nat → Prop) [DecidablePred q]
    (hq : ∀ i, lo ≤ i → i < hi → q i) (hhi : hi ≤ s.frameDescCount)
    : ((Finset.range t.frameDescCount).filter fun i => q i ∧ t.desc i = some pbmFree).card + (hi - lo)
        =
      ((Finset.range s.frameDescCount).filter fun i => q i ∧ s.desc i = some pbmFree).card := by
  have hsub : Finset.Ico lo hi
      ⊆ (Finset.range s.frameDescCount).filter fun i => q i ∧ s.desc i = some pbmFree := by
    intro i hi'
    rw [Finset.mem_Ico] at hi'
    obtain ⟨d, hd, hfree, _⟩ := h.inside i hi'.1 hi'.2
    rw [hfree] at hd
    rw [Finset.mem_filter, Finset.mem_range]
    exact ⟨by omega, hq i hi'.1 hi'.2, hd⟩
  have heq : ((Finset.range t.frameDescCount).filter fun i => q i ∧ t.desc i = some pbmFree)
      = ((Finset.range s.frameDescCount).filter fun i => q i ∧ s.desc i = some pbmFree)
        \ Finset.Ico lo hi := by
    ext i
    rw [Finset.mem_sdiff, Finset.mem_filter, Finset.mem_filter, Finset.mem_Ico, h.range.frameDescCount]
    by_cases hin : lo ≤ i ∧ i < hi
    . obtain ⟨d, _, _, hallocated⟩ := h.inside i hin.1 hin.2
      simp [hallocated, hin]
    . rw [h.outside i (by omega)]
      simp [hin]
  have hcard := Finset.card_le_card hsub
  rw [Nat.card_Ico] at hcard
  rw [heq, Finset.card_sdiff_of_subset hsub, Nat.card_Ico]
  lia

end Pma

end Emos
