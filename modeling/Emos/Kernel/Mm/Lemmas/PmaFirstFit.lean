import Emos.Kernel.Mm.Lemmas.Pma
import Emos.Lib.FirstFit

/-!
This module contains that an allocation finds the lowest run of free frames above the first megabyte,
and that it fails only if there is none.
-/

open Lib

namespace Emos

namespace Pma

variable {s t : Pma}

/--
The frame of a descriptor may be handed out.
-/
def Usable (s : Pma) (i : Nat) : Prop := 0x100 ≤ s.basePfn + i ∧ s.desc i = some pbmFree

/--
The descriptors from `start` on are those of allocated frames now, and nothing else changed.
-/
structure AllocatesRun (s : Pma) (start count : Nat) (t : Pma) : Prop where
  range : SameRange s t
  desc : ∀ i, t.desc i = if start ≤ i ∧ i < start + count then some pbmAllocated else s.desc i
  freeFrames : t.freeFrames = sub32 s.freeFrames count
  availableFrames : t.availableFrames = s.availableFrames

theorem sub32_sub32 {a j : Nat} : sub32 (sub32 a j) 1 = sub32 a (j + 1) := by
  unfold sub32 u32
  lia

theorem allocateAt_counters {i : Nat} (h : allocateAt s i = .ok t)
    : t.freeFrames = sub32 s.freeFrames 1 ∧ t.availableFrames = s.availableFrames := by
  rw [allocateAt, bind_eq_ok] at h
  obtain ⟨u, hu, h⟩ := h
  rw [pbmSet_eq_ok] at hu
  cases h
  rw [hu.2]
  exact ⟨rfl, rfl⟩

theorem forRange_allocateAt_counters {start count : Nat} (hfree : s.freeFrames < 2 ^ 32)
    (h : forRange allocateAt count start s = .ok t)
    : t.freeFrames = sub32 s.freeFrames count ∧ t.availableFrames = s.availableFrames := by
  have hrun := forRange_invariant (fun j u => u.freeFrames = sub32 s.freeFrames (j - start)
    ∧ u.availableFrames = s.availableFrames) ?_ h ?_
  . rw [Nat.add_sub_cancel_left] at hrun
    exact hrun
  . intro j u v hlo hhi ⟨hufree, huavailable⟩ hstep
    obtain ⟨hvfree, hvavailable⟩ := allocateAt_counters hstep
    refine ⟨?_, hvavailable.trans huavailable⟩
    rw [hvfree, hufree, sub32_sub32, show j - start + 1 = j + 1 - start by lia]
  . refine ⟨?_, rfl⟩
    rw [Nat.sub_self]
    unfold sub32 u32
    lia

end Pma

open Pma

variable {s : Pma}

namespace mmPmaAllocateFrame

theorem go_firstRun (hs : WellFormed s) {count n i freeCount start : Nat} (hi : i + n = s.frameDescCount)
    (hscan : Scanned (Usable s) count i freeCount start)
    : ∃ freeCount' start', go s count n i freeCount start = .ok ⟨freeCount', start'⟩
        ∧ (count ≤ freeCount' → FirstRun (Usable s) count s.frameDescCount start')
        ∧ (freeCount' < count → ∀ b, b + count ≤ s.frameDescCount → ¬ RunAt (Usable s) count b) := by
  have hbase := hs.base_le_limit
  have hlimit := hs.limit_lt
  have hcount := hs.frameDescCount
  induction n generalizing i freeCount start with
  | zero =>
    refine ⟨freeCount, start, rfl, ?_, ?_⟩
    . intro hge
      have := hscan.short
      omega
    . intro _ b hb
      exact hscan.none b (by omega)
  | succ n ih =>
    have hwrap : u32 (s.basePfn + i) = s.basePfn + i := u32_of_lt (by lia)
    unfold go
    rw [hwrap]
    split
    . next hlow =>
      have hmiss : ¬ Usable s i := by
        intro husable
        have := husable.1
        omega
      -- the frames in front are lower still, so that no run is open
      have hzero : freeCount = 0 := by
        by_contra hne
        have hends := hscan.ends hne
        have husable := hscan.run (start + freeCount - 1) (by lia) (by lia)
        have := husable.1
        lia
      subst hzero
      exact ih (by lia) (hscan.miss hmiss start)
    . next hhigh =>
      obtain ⟨d, hd⟩ := hs.exists_desc (i := i) (by omega)
      simp only [(pbmGet_eq_ok s i d).mpr hd, bind, Except.bind]
      split
      . next hne =>
        apply ih (by lia)
        apply hscan.miss
        intro husable
        have hfree := husable.2
        rw [hd, Option.some.injEq] at hfree
        exact hne hfree
      . next heq =>
        rw [ne_eq, not_not] at heq
        subst heq
        have husable : Usable s i := ⟨by omega, hd⟩
        split
        . next hdone =>
          refine ⟨_, _, rfl, fun _ => hscan.found husable hdone (by omega), ?_⟩
          omega
        . next hmore => exact ih (by lia) (hscan.hit husable (by lia))

end mmPmaAllocateFrame

theorem allocatesRun_of_firstRun (hs : WellFormed s) (hfree : s.freeFrames < 2 ^ 32) {count start : Nat}
    (hrun : FirstRun (Usable s) count s.frameDescCount start)
    : ∃ t, forCount allocateAt start count s = .ok t ∧ AllocatesRun s start count t := by
  have hbase := hs.base_le_limit
  have hlimit := hs.limit_lt
  have hcount := hs.frameDescCount
  have hfits := hrun.fits
  have hmaps : ∃ t, forRange allocateAt count start s = .ok t
      ∧ MapsRange (fun d => d = pbmFree) (fun _ => pbmAllocated) start (start + count) s t := by
    apply forRange_mapsRange hs
    . intro u j d hq hd
      subst hq
      exact allocateAt_of_desc hd
    . exact hfits
    . intro j d h1 h2 hd
      rw [(hrun.run j h1 h2).2] at hd
      cases hd
      rfl
  obtain ⟨t, ht, hmaps⟩ := hmaps
  obtain ⟨hfrees, havailable⟩ := forRange_allocateAt_counters hfree ht
  refine ⟨t, ?_, hmaps.range, ?_, hfrees, havailable⟩
  . unfold forCount
    rw [u32_of_lt (by lia)]
    rw [show start + count - start = count by lia]
    exact ht
  . intro i
    split
    . next hin =>
      obtain ⟨d, _, _, hd⟩ := hmaps.inside i hin.1 hin.2
      exact hd
    . next hout => exact hmaps.outside i (by omega)

/--
An allocation succeeds if and only if there is a run of free frames above the first megabyte. It
returns the lowest one and marks just its frames, and a failed one leaves everything as it was.
-/
theorem mmPmaAllocateFrame_firstFit (s : Pma) (hs : s.WellFormed) (hfree : s.freeFrames < 2 ^ 32) (count : Nat)
    (hcount : 1 ≤ count)
    : ∃ r t, mmPmaAllocateFrame s count = .ok ⟨r, t⟩
        ∧ ((∃ pfn, r = .ok pfn)
            ↔ ∃ start, start + count ≤ s.frameDescCount ∧ RunAt s.Usable count start)
        ∧ (∀ pfn, r = .ok pfn → ∃ start, pfn = s.basePfn + start
            ∧ FirstRun s.Usable count s.frameDescCount start ∧ s.AllocatesRun start count t)
        ∧ (∀ status, r = .error status → status = .insufficientMemory ∧ t = s) := by
  have hbase := hs.base_le_limit
  have hlimit := hs.limit_lt
  have hdescs := hs.frameDescCount
  obtain ⟨freeCount, start, hgo, hfound, hnone⟩ := mmPmaAllocateFrame.go_firstRun hs
    (Nat.zero_add s.frameDescCount) (Scanned.zero hcount 0)
  by_cases hfew : freeCount < count
  . refine ⟨.error .insufficientMemory, s, ?_, ?_, by simp, by simp⟩
    . simp [mmPmaAllocateFrame, hgo, hfew, bind, Except.bind]
    . apply iff_of_false (by simp)
      intro h
      obtain ⟨b, hb, hrun⟩ := h
      exact hnone hfew b hb hrun
  . have hrun := hfound (by omega)
    have hfits := hrun.fits
    obtain ⟨t, ht, halloc⟩ := allocatesRun_of_firstRun hs hfree hrun
    refine ⟨.ok (s.basePfn + start), t, ?_, ?_, ?_, by simp⟩
    . simp only [mmPmaAllocateFrame, hgo, hfew, ht, bind, Except.bind, ↓reduceIte]
      rw [halloc.range.basePfn]
      rw [u32_of_lt (by lia)]
    . exact iff_of_true ⟨_, rfl⟩ ⟨start, hfits, hrun.run⟩
    . intro pfn hpfn
      cases hpfn
      exact ⟨start, rfl, hrun, halloc⟩

/--
Six frames from 0xFE on, of which the fourth one is reserved.
-/
def lowPma : Pma where
  bitmap := [0x80, 0x00]
  frameDescCount := 6
  availableFrames := 5
  freeFrames := 5
  basePfn := 0xFE
  limitPfn := 0x103
  bitmapPfnList := []

theorem lowPma_wellFormed : lowPma.WellFormed := by
  refine ⟨?_, ?_, ?_, ?_⟩ <;> decide

theorem mmPmaAllocateFrame_firstFit_lowPma
    : ∃ start t, mmPmaAllocateFrame lowPma 2 = .ok ⟨.ok (0xFE + start), t⟩
        ∧ FirstRun lowPma.Usable 2 6 start ∧ lowPma.AllocatesRun start 2 t := by
  obtain ⟨r, t, h, _, hok, herror⟩ := mmPmaAllocateFrame_firstFit lowPma lowPma_wellFormed (by decide) 2 (by decide)
  cases r with
  | ok pfn =>
    obtain ⟨start, rfl, hrun, halloc⟩ := hok pfn rfl
    exact ⟨start, t, h, hrun, halloc⟩
  | error status =>
    have hresult : mmPmaAllocateFrame lowPma 2
        = .ok ⟨.ok 0x102, { lowPma with bitmap := [0x80, 0x05], freeFrames := 3 }⟩ := by
      decide
    rw [hresult] at h
    cases h

end Emos
