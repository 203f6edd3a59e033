import Emos.Kernel.Mm.Lemmas.Pma

/-!
This module contains which ranges of frames can be marked as reserved and unmarked again. The range may
lie outside of the managed one in part or as a whole.
-/

open Lib

namespace Emos

namespace Pma

variable {s t : Pma} {basePfn limitPfn : Nat}

/--
The first and the last index of the loops over a range of frames.
-/
def rangeBounds (s : Pma) (basePfn limitPfn : Nat) : Nat × Nat :=
  ⟨sub32 (if basePfn < s.basePfn then s.basePfn else basePfn) s.basePfn,
    sub32 (if limitPfn > s.limitPfn then s.limitPfn else limitPfn) s.basePfn⟩

/--
The loop over a range returns, runs over descriptors that exist, and just the descriptors of managed
frames of the range go through `f`.
-/
structure Applies (f : BitVec 2 → BitVec 2) (s : Pma) (basePfn limitPfn : Nat) (r : Run Pma) (t : Pma)
    : Prop where
  returns : r = .ok t
  touched : ∀ i, (s.rangeBounds basePfn limitPfn).1 ≤ i → i ≤ (s.rangeBounds basePfn limitPfn).2
    → i < s.frameDescCount
  range : SameRange s t
  inside : ∀ i d, i < s.frameDescCount → basePfn ≤ s.basePfn + i → s.basePfn + i ≤ limitPfn
    → s.desc i = some d → t.desc i = some (f d)
  outside : ∀ i, ¬ (i < s.frameDescCount ∧ basePfn ≤ s.basePfn + i ∧ s.basePfn + i ≤ limitPfn)
    → t.desc i = s.desc i

theorem rangeBounds_of_meets (h : Meets s basePfn limitPfn) (hs : WellFormed s)
    : s.rangeBounds basePfn limitPfn = ⟨lowIdx s basePfn, highIdx s limitPfn⟩ :=
  Prod.ext (h.clamp hs).1 (h.clamp hs).2

theorem Applies.of_mapsRange {f : BitVec 2 → BitVec 2} {r : Run Pma} (h : Meets s basePfn limitPfn)
    (hs : WellFormed s) (hr : r = .ok t)
    (hmaps : MapsRange (fun _ => True) f (lowIdx s basePfn) (highIdx s limitPfn + 1) s t)
    : Applies f s basePfn limitPfn r t := by
  have hbounds := h.bounds hs
  have hlimit := hs.base_le_limit
  have hcount := hs.frameDescCount
  have hin : ∀ i, lowIdx s basePfn ≤ i ∧ i < highIdx s limitPfn + 1
      ↔ i < s.frameDescCount ∧ basePfn ≤ s.basePfn + i ∧ s.basePfn + i ≤ limitPfn := by
    have := h.le_limit
    intro i
    unfold lowIdx highIdx
    lia
  refine ⟨hr, ?_, hmaps.range, ?_, ?_⟩
  . intro i _ hi
    rw [rangeBounds_of_meets h hs] at hi
    dsimp only at hi
    omega
  . intro i d hi hlow hhigh hd
    have hloop := (hin i).mpr ⟨hi, hlow, hhigh⟩
    obtain ⟨d', hd', _, hf⟩ := hmaps.inside i hloop.1 hloop.2
    rw [hd, Option.some.injEq] at hd'
    rw [hd']
    exact hf
  . intro i hout
    rw [← hin] at hout
    exact hmaps.outside i (by omega)

/--
A range above the managed one gives a loop without a round.
-/
theorem Applies.of_above {f : BitVec 2 → BitVec 2} {body : Pma → Nat → Run Pma} (hs : WellFormed s)
    (hlt : basePfn < 2 ^ 32) (hle : basePfn ≤ limitPfn) (habove : s.limitPfn < basePfn)
    : Applies f s basePfn limitPfn
        (forUpTo body (s.rangeBounds basePfn limitPfn).1 (s.rangeBounds basePfn limitPfn).2 s) s := by
  have hbase := hs.base_le_limit
  have hlimit := hs.limit_lt
  have hcount := hs.frameDescCount
  have hbounds : s.rangeBounds basePfn limitPfn = ⟨basePfn - s.basePfn, s.limitPfn - s.basePfn⟩ := by
    unfold rangeBounds
    rw [if_neg (by omega), if_pos (by omega), sub32_of_le (by omega) hlt, sub32_of_le hbase (by omega)]
  rw [hbounds]
  refine ⟨?_, ?_, SameRange.refl s, ?_, fun _ _ => rfl⟩
  . rw [forUpTo_eq_ok, show s.limitPfn - s.basePfn + 1 - (basePfn - s.basePfn) = 0 by lia]
    exact ⟨rfl, by lia⟩
  . intro i hlow hhigh
    rw [hbounds] at hlow hhigh
    dsimp only at hlow hhigh
    omega
  . intro i d hi hlow _ _
    lia

/--
A range below the managed one gives a loop that runs over all other indices.
-/
theorem not_applies_below {f : BitVec 2 → BitVec 2} {r : Run Pma} (hs : WellFormed s)
    (hle : basePfn ≤ limitPfn) (hbelow : limitPfn < s.basePfn)
    : ¬ Applies f s basePfn limitPfn r t := by
  intro h
  have hbase := hs.base_le_limit
  have hlimit := hs.limit_lt
  have hcount := hs.frameDescCount
  have hbounds : s.rangeBounds basePfn limitPfn = ⟨0, 2 ^ 32 - (s.basePfn - limitPfn)⟩ := by
    unfold rangeBounds
    rw [if_pos (by omega), if_neg (by omega), sub32_of_le (Nat.le_refl _) (by omega), Nat.sub_self,
      sub32_of_lt hbelow (by omega)]
  have hlast := h.touched (2 ^ 32 - (s.basePfn - limitPfn))
  rw [hbounds] at hlast
  have := hlast (Nat.zero_le _) (Nat.le_refl _)
  lia

theorem applies_iff {f : BitVec 2 → BitVec 2} {body : Pma → Nat → Run Pma} (hs : WellFormed s)
    (hle : basePfn ≤ limitPfn) (hlt : limitPfn < 2 ^ 32)
    (hmeets : Meets s basePfn limitPfn → ∃ t,
      forUpTo body (s.rangeBounds basePfn limitPfn).1 (s.rangeBounds basePfn limitPfn).2 s = .ok t
        ∧ MapsRange (fun _ => True) f (lowIdx s basePfn) (highIdx s limitPfn + 1) s t)
    : (∃ t, Applies f s basePfn limitPfn
          (forUpTo body (s.rangeBounds basePfn limitPfn).1 (s.rangeBounds basePfn limitPfn).2 s) t)
        ↔
      s.basePfn ≤ limitPfn := by
  constructor
  . intro ⟨t, ht⟩
    by_contra hbelow
    exact not_applies_below hs hle (by omega) ht
  . intro hlow
    by_cases habove : s.limitPfn < basePfn
    . exact ⟨s, Applies.of_above hs (by omega) hle habove⟩
    . have h : Meets s basePfn limitPfn := ⟨hle, hlt, by omega, hlow⟩
      obtain ⟨t, ht, hmaps⟩ := hmeets h
      exact ⟨t, Applies.of_mapsRange h hs ht hmaps⟩

end Pma

open Pma

/--
Marking and unmarking a range do what they should if and only if the range does not lie below the
managed one.
-/
theorem mmPmaReserved_iff (s : Pma) (hs : s.WellFormed) (basePfn limitPfn : Nat) (hle : basePfn ≤ limitPfn)
    (hlt : limitPfn < 2 ^ 32)
    : ((∃ t, Applies (fun _ => pbmReserved) s basePfn limitPfn (mmPmaMarkReserved s basePfn limitPfn) t)
          ↔ s.basePfn ≤ limitPfn)
        ∧ ((∃ t, Applies (fun d => if d = pbmReserved then pbmFree else d) s basePfn limitPfn
            (mmPmaUnmarkReserved s basePfn limitPfn) t)
          ↔ s.basePfn ≤ limitPfn) :=
  ⟨applies_iff hs hle hlt (mmPmaMarkReserved_spec hs), applies_iff hs hle hlt (mmPmaUnmarkReserved_spec hs)⟩

/--
Four frames, of which none is reserved.
-/
def fourFrames : Pma where
  bitmap := [0]
  frameDescCount := 4
  availableFrames := 4
  freeFrames := 4
  basePfn := 0x100
  limitPfn := 0x103
  bitmapPfnList := []

theorem fourFrames_wellFormed : fourFrames.WellFormed := by
  refine ⟨?_, ?_, ?_, ?_⟩ <;> decide

/--
A range that ends behind the managed one, and one that lies behind it.
-/
theorem mmPmaReserved_iff_fourFrames
    : (∃ t, Applies (fun _ => pbmReserved) fourFrames 0x102 0x200 (mmPmaMarkReserved fourFrames 0x102 0x200) t)
        ∧ ∃ t, Applies (fun d => if d = pbmReserved then pbmFree else d) fourFrames 0x180 0x200
          (mmPmaUnmarkReserved fourFrames 0x180 0x200) t :=
  ⟨(mmPmaReserved_iff fourFrames fourFrames_wellFormed 0x102 0x200 (by decide) (by decide)).1.mpr (by decide),
    (mmPmaReserved_iff fourFrames fourFrames_wellFormed 0x180 0x200 (by decide) (by decide)).2.mpr (by decide)⟩

/--
A range below the managed one is not left alone: the loop leaves the bitmap.
-/
theorem mmPmaReserved_false
    : ¬ ∀ (s : Pma) (basePfn limitPfn : Nat), s.WellFormed → basePfn ≤ limitPfn → limitPfn < 2 ^ 32
        → ∃ t, Applies (fun _ => pbmReserved) s basePfn limitPfn (mmPmaMarkReserved s basePfn limitPfn) t := by
  intro h
  obtain ⟨t, ht⟩ := h fourFrames 0x50 0x60 fourFrames_wellFormed (by decide) (by decide)
  have hlast := ht.touched 4 (by decide) (by decide)
  exact absurd hlast (by decide)

end Emos
