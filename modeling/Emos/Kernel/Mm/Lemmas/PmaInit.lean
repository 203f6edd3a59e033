import Emos.Kernel.Mm.Impl.Pma
import Emos.Kernel.Mm.Lemmas.Pma
import Mathlib.Logic.Relation

/-!
This module contains which frames the allocator can hand out after its initialisation, compared
with the memory map and the unavailable frames that it was initialised from.
-/

open Lib

namespace Emos

open Pma

/--
A call of one of the two functions that `mm.h` offers after initialisation.
-/
def PmaUse (s t : Pma) : Prop :=
  (∃ count r, count < 2 ^ 32 ∧ mmPmaAllocateFrame s count = .ok ⟨r, t⟩)
    ∨
  (∃ pfn frameCount, pfn < 2 ^ 32 ∧ frameCount < 2 ^ 32 ∧ mmPmaFreeFrame s pfn frameCount = .ok t)

/--
Every frame that an allocation returns, after any number of other calls, is `safe`.
-/
def OnlyHandsOut (s : Pma) (safe : Nat → Prop) : Prop :=
  ∀ t, Relation.ReflTransGen PmaUse s t →
    ∀ count pfn u, count < 2 ^ 32 → mmPmaAllocateFrame t count = .ok ⟨.ok pfn, u⟩ →
      ∀ f, pfn ≤ f → f < pfn + count → safe f

/--
The range and the set of reserved descriptors are the same in both states.
-/
def SameReserved (s t : Pma) : Prop :=
  SameRange s t ∧ ∀ i, t.desc i = some pbmReserved ↔ s.desc i = some pbmReserved

theorem SameReserved.refl (s : Pma) : SameReserved s s := ⟨SameRange.refl s, by simp⟩

theorem SameReserved.trans {s t u : Pma} (h1 : SameReserved s t) (h2 : SameReserved t u)
    : SameReserved s u :=
  ⟨h1.1.trans h2.1, fun i => (h2.2 i).trans (h1.2 i)⟩

theorem SameReserved.of_mapsRange {q : BitVec 2 → Prop} {f : BitVec 2 → BitVec 2} {lo hi : Nat}
    {s t : Pma} (h : MapsRange q f lo hi s t) (hq : ∀ d, q d → d ≠ pbmReserved)
    (hf : ∀ d, f d ≠ pbmReserved)
    : SameReserved s t := by
  refine ⟨h.range, ?_⟩
  intro i
  by_cases hi : i < lo ∨ hi ≤ i
  . rw [h.outside i hi]
  . obtain ⟨d, hd, hqd, hfd⟩ := h.inside i (by omega) (by omega)
    rw [hd, hfd]
    simp [hq d hqd, hf d]

theorem PmaUse.sameReserved {s t : Pma} (hs : WellFormed s) (h : PmaUse s t)
    : SameReserved s t := by
  cases h with
  | inl h =>
    obtain ⟨count, r, _, halloc⟩ := h
    cases mmPmaAllocateFrame_spec hs count with
    | inl hfail =>
      rw [hfail] at halloc
      cases halloc
      exact SameReserved.refl s
    | inr hok =>
      obtain ⟨start, u, hu, _, _, hmaps⟩ := hok
      rw [hu] at halloc
      cases halloc
      exact SameReserved.of_mapsRange hmaps (by simp) (by simp)
  | inr h =>
    obtain ⟨pfn, frameCount, hpfn, hcnt, hfree⟩ := h
    cases mmPmaFreeFrame_spec hs hpfn hcnt hfree with
    | inl hsame =>
      subst hsame
      exact SameReserved.refl t
    | inr hmoved => exact SameReserved.of_mapsRange hmoved.2.2 (by simp) (by simp)

theorem sameReserved_of_run {s t : Pma} (hs : WellFormed s)
    (h : Relation.ReflTransGen PmaUse s t)
    : SameReserved s t := by
  induction h with
  | refl => exact SameReserved.refl s
  | tail _ huse ih => exact ih.trans (huse.sameReserved (hs.of_sameRange ih.1))

namespace mmPmaAllocateFrame

theorem go_one {s : Pma} (hs : WellFormed s) {n i j : Nat} (start : Nat)
    (hn : i + n = s.frameDescCount) (hij : i ≤ j) (hj : j < s.frameDescCount)
    (hhigh : 0x100 ≤ s.basePfn + j) (hd : s.desc j = some pbmFree)
    : ∃ k, k ≤ j ∧ 0x100 ≤ s.basePfn + k ∧ s.desc k = some pbmFree
        ∧ go s 1 n i 0 start = .ok ⟨1, k⟩ := by
  have hbase := hs.base_le_limit
  have hlimit := hs.limit_lt
  have hcount := hs.frameDescCount
  induction n generalizing i with
  | zero => omega
  | succ n ih =>
    have hwrap : u32 (s.basePfn + i) = s.basePfn + i := u32_of_lt (by lia)
    have hskip : i ≠ j → i + 1 ≤ j := by omega
    unfold go
    rw [hwrap]
    split
    . next hlow => exact ih (by lia) (hskip (by lia))
    . next hlow =>
      obtain ⟨d, hdi⟩ := hs.exists_desc (i := i) (by omega)
      simp only [(pbmGet_eq_ok s i d).mpr hdi, bind, Except.bind]
      split
      . next hne =>
        apply ih (by lia)
        apply hskip
        intro heq
        rw [heq, hd] at hdi
        cases hdi
        contradiction
      . next heq =>
        simp only [ne_eq, Decidable.not_not] at heq
        subst heq
        exact ⟨i, hij, by omega, hdi, by simp⟩

end mmPmaAllocateFrame

theorem exists_run_allocating {s : Pma} (hs : WellFormed s) {j : Nat} (hj : j < s.frameDescCount)
    (hhigh : 0x100 ≤ s.basePfn + j) (hd : s.desc j = some pbmFree)
    : ∃ t u, Relation.ReflTransGen PmaUse s t
        ∧ mmPmaAllocateFrame t 1 = .ok ⟨.ok (s.basePfn + j), u⟩ := by
  -- on the number of free frames before the wanted one
  generalize hm : countBelow j (fun k => s.desc k = some pbmFree) = m
  induction m using Nat.strong_induction_on generalizing s with
  | _ m ih =>
    obtain ⟨k, hkj, hkhigh, hkd, hgo⟩ := mmPmaAllocateFrame.go_one hs 0
      (n := s.frameDescCount) (i := 0) (by omega) (by omega) hj hhigh hd
    obtain ⟨t, halloc, hmoves⟩ : ∃ t, mmPmaAllocateFrame s 1 = .ok ⟨.ok (s.basePfn + k), t⟩
        ∧ Moves s k pbmFree pbmAllocated t := by
      have hbase := hs.base_le_limit
      have hlimit := hs.limit_lt
      have hcount := hs.frameDescCount
      obtain ⟨t, ht, hmoves⟩ := allocateAt_of_desc hkd
      refine ⟨t, ?_, hmoves⟩
      have hfor : forCount allocateAt k 1 s = .ok t := by
        unfold forCount
        rw [u32_of_lt (by lia)]
        rw [show k + 1 - k = 1 by lia]
        simp [forRange, ht, bind, Except.bind]
      simp only [mmPmaAllocateFrame, hgo, hfor, bind, Except.bind, Nat.lt_irrefl, ↓reduceIte]
      rw [hmoves.range.basePfn]
      rw [u32_of_lt (by lia)]
    by_cases heq : k = j
    . subst heq
      exact ⟨s, t, .refl, halloc⟩
    . have hless : countBelow j (fun i => t.desc i = some pbmFree) < m := by
        have := countBelow_update (n := j) (i := k) (p := fun i => s.desc i = some pbmFree)
          (q := fun i => t.desc i = some pbmFree) (by omega)
          (by intro i hi; rw [hmoves.frame i hi])
        simp only [hkd, hmoves.new, ↓reduceIte, Option.some.injEq, pbmAllocated_ne_pbmFree] at this
        omega
      obtain ⟨u, v, hrun, hu⟩ := ih _ hless (hs.of_sameRange hmoves.range)
        (by rw [hmoves.range.frameDescCount]; exact hj)
        (by rw [hmoves.range.basePfn]; exact hhigh)
        (by rw [hmoves.frame j (by omega)]; exact hd) rfl
      rw [hmoves.range.basePfn] at hu
      refine ⟨u, v, .head ?_ hrun, hu⟩
      exact .inl ⟨1, _, by omega, halloc⟩

theorem onlyHandsOut_iff {s : Pma} (hs : WellFormed s)
    (hfree : ∀ i, i < s.frameDescCount → s.desc i = some pbmFree ∨ s.desc i = some pbmReserved)
    (safe : Nat → Prop)
    : OnlyHandsOut s safe
        ↔
      ∀ i, i < s.frameDescCount → 0x100 ≤ s.basePfn + i → s.desc i ≠ some pbmReserved
        → safe (s.basePfn + i) := by
  constructor
  . intro h i hi hhigh hd
    have hd : s.desc i = some pbmFree := by
      cases hfree i hi with
      | inl hd => exact hd
      | inr hd => contradiction
    obtain ⟨t, u, hrun, halloc⟩ := exists_run_allocating hs hi hhigh hd
    exact h t hrun 1 _ u (by omega) halloc _ (Nat.le_refl _) (by omega)
  . intro h t hrun count pfn u _ halloc f hge hlt
    obtain ⟨hrange, hreserved⟩ := sameReserved_of_run hs hrun
    cases mmPmaAllocateFrame_spec (hs.of_sameRange hrange) count with
    | inl hfail =>
      rw [hfail] at halloc
      cases halloc
    | inr hok =>
      obtain ⟨start, v, hv, hle, hhigh, hmaps⟩ := hok
      rw [hv] at halloc
      cases halloc
      rw [hrange.basePfn] at hge hlt hhigh
      rw [hrange.frameDescCount] at hle
      obtain ⟨d, hd, hq, _⟩ := hmaps.inside (f - s.basePfn) (by lia) (by lia)
      have hf : s.basePfn + (f - s.basePfn) = f := by lia
      rw [← hf]
      apply h
      . omega
      . have := hhigh (by omega)
        lia
      . rw [ne_eq, ← hreserved, hd, hq]
        simp

namespace PmaSpan

theorem extend_lt {a : PmaSpan} (h : a.basePaddr < 2 ^ 32 ∧ a.limitPaddr < 2 ^ 32)
    (e : MemoryMapEntry)
    : (a.extend e).basePaddr < 2 ^ 32 ∧ (a.extend e).limitPaddr < 2 ^ 32 := by
  unfold extend
  split
  . constructor
    . dsimp
      split
      . apply u32_lt
      . exact h.1
    . dsimp
      split
      . apply u32_lt
      . exact h.2
  . exact h

theorem foldl_extend_lt {a : PmaSpan} (h : a.basePaddr < 2 ^ 32 ∧ a.limitPaddr < 2 ^ 32)
    (mment : List MemoryMapEntry)
    : (mment.foldl extend a).basePaddr < 2 ^ 32 ∧ (mment.foldl extend a).limitPaddr < 2 ^ 32 := by
  induction mment generalizing a with
  | nil => exact h
  | cons e mment ih => exact ih (extend_lt h e)

theorem pmaSpan_lt (mment : List MemoryMapEntry)
    : (pmaSpan mment).basePaddr < 2 ^ 32 ∧ (pmaSpan mment).limitPaddr < 2 ^ 32 := by
  unfold pmaSpan
  apply foldl_extend_lt
  simp

theorem basePfn_lt (mment : List MemoryMapEntry) : (pmaSpan mment).basePfn < 2 ^ 20 := by
  have := (pmaSpan_lt mment).1
  unfold basePfn pageSize
  omega

theorem limitPfn_lt (mment : List MemoryMapEntry) : (pmaSpan mment).limitPfn < 2 ^ 20 := by
  have := (pmaSpan_lt mment).2
  unfold limitPfn pageSize
  omega

theorem frameDescCount_of_le {mment : List MemoryMapEntry}
    (h : (pmaSpan mment).basePfn ≤ (pmaSpan mment).limitPfn)
    : (pmaSpan mment).frameDescCount
        =
      (pmaSpan mment).limitPfn - (pmaSpan mment).basePfn + 1 := by
  have := limitPfn_lt mment
  unfold frameDescCount
  rw [sub32_of_le h (by omega)]
  rw [u32_of_lt (by omega)]

theorem bitmapSize_of_gt {mment : List MemoryMapEntry}
    (h : (pmaSpan mment).limitPfn < (pmaSpan mment).basePfn)
    (hpages : (pmaSpan mment).bitmapPages ≤ bitmapPfnListSize)
    : (pmaSpan mment).bitmapSize = 0 := by
  have hbase := basePfn_lt mment
  have hcount : (pmaSpan mment).frameDescCount
      = u32 (2 ^ 32 - ((pmaSpan mment).basePfn - (pmaSpan mment).limitPfn) + 1) := by
    unfold frameDescCount
    rw [sub32_of_lt h (by omega)]
  unfold bitmapPages alignDiv bitmapSize bitmapPfnListSize pageSize at hpages
  unfold bitmapSize
  rw [hcount] at hpages ⊢
  unfold u32 at *
  lia

end PmaSpan

namespace pmaAllocateBitmapFrame

theorem fill_lt {pages bound n pfn : Nat} {list : List Nat} (hpfn : pfn < 2 ^ 32)
    (hlist : ∀ p ∈ list, p < 2 ^ 32)
    : ∀ p ∈ fill pages bound n pfn list, p < 2 ^ 32 := by
  induction n generalizing pfn list with
  | zero => exact hlist
  | succ n ih =>
    have hnext : ∀ p ∈ list ++ [pfn], p < 2 ^ 32 := by
      intro p hp
      rw [List.mem_append, List.mem_singleton] at hp
      cases hp with
      | inl hp => exact hlist p hp
      | inr hp => omega
    unfold fill
    split
    . dsimp
      split
      . exact hnext
      . split
        . exact hnext
        . exact ih (u32_lt _) hnext
    . exact hlist

theorem go_lt {pages limitPfn basePfn : Nat} {list : List Nat} {ufent : List UnavailableFrame}
    (hbase : basePfn < 2 ^ 32) (hlist : ∀ p ∈ list, p < 2 ^ 32)
    : ∀ p ∈ go pages limitPfn basePfn list ufent, p < 2 ^ 32 := by
  induction ufent generalizing basePfn list with
  | nil => exact hlist
  | cons e ufent ih =>
    unfold go
    split
    . exact ih hbase hlist
    . split
      . exact hlist
      . split
        . exact hlist
        . split
          . exact hlist
          . exact ih (u32_lt _) (fill_lt hbase hlist)

theorem fill_length {pages bound n pfn : Nat} {list : List Nat}
    (hlist : list.length < bitmapPfnListSize)
    : (fill pages bound n pfn list).length ≤ bitmapPfnListSize := by
  induction n generalizing pfn list with
  | zero =>
    unfold fill
    omega
  | succ n ih =>
    have hnext : (list ++ [pfn]).length ≤ bitmapPfnListSize := by
      rw [List.length_append, List.length_singleton]
      omega
    unfold fill
    split
    . dsimp only
      split
      . exact hnext
      . split
        . exact hnext
        . next hlt => exact ih (by omega)
    . omega

theorem go_length {pages limitPfn basePfn : Nat} {list : List Nat} {ufent : List UnavailableFrame}
    (hlist : list.length ≤ bitmapPfnListSize)
    : (go pages limitPfn basePfn list ufent).length ≤ bitmapPfnListSize := by
  induction ufent generalizing basePfn list with
  | nil => exact hlist
  | cons e ufent ih =>
    unfold go
    split
    . exact ih hlist
    . split
      . exact hlist
      . split
        . exact hlist
        . split
          . exact hlist
          . next hlt => exact ih (fill_length (by omega))

end pmaAllocateBitmapFrame

theorem pmaBitmapFrames_spec (pages : Nat) (ufent : List UnavailableFrame) {list : List Nat}
    (hlist : ∀ p ∈ list, p < 2 ^ 32) (hlength : list.length ≤ bitmapPfnListSize)
    (mment : List MemoryMapEntry)
    : (∀ p ∈ pmaBitmapFrames pages ufent list mment, p < 2 ^ 32)
        ∧ (pmaBitmapFrames pages ufent list mment).length ≤ bitmapPfnListSize := by
  induction mment generalizing list with
  | nil => exact ⟨hlist, hlength⟩
  | cons e mment ih =>
    unfold pmaBitmapFrames
    split
    . exact ih hlist hlength
    . split
      . exact ih hlist hlength
      . dsimp only
        generalize hnext : pmaAllocateBitmapFrame _ _ _ _ _ = next
        have hlt : ∀ p ∈ next, p < 2 ^ 32 := by
          rw [← hnext]
          exact pmaAllocateBitmapFrame.go_lt (u32_lt _) hlist
        have hle : next.length ≤ bitmapPfnListSize := by
          rw [← hnext]
          exact pmaAllocateBitmapFrame.go_length hlength
        split
        . exact ⟨hlt, hle⟩
        . exact ih hlt hle

def bitmapFrames (mment : List MemoryMapEntry) (ufent : List UnavailableFrame) : List Nat :=
  (pmaBitmapFrames (pmaSpan mment).bitmapPages ufent [] mment).take (pmaSpan mment).bitmapPages

theorem bitmapFrames_lt (mment : List MemoryMapEntry) (ufent : List UnavailableFrame)
    : ∀ p ∈ bitmapFrames mment ufent, p < 2 ^ 32 := by
  intro p hp
  exact (pmaBitmapFrames_spec _ _ (by simp) (by simp) mment).1 p (List.mem_of_mem_take hp)

theorem mmPmaUnmarkReserved_sameRange {s t : Pma} {basePfn limitPfn : Nat}
    (h : mmPmaUnmarkReserved s basePfn limitPfn = .ok t)
    : SameRange s t := by
  unfold mmPmaUnmarkReserved at h
  rw [forUpTo_eq_ok] at h
  exact (mapsRange_of_forRange (fun j u v _ _ _ hv => unmarkReservedAt_moves hv) h.1).range

theorem forRange_unmapLowerAt_sameRange {x y : (Nat → BitVec 32) × Pma} {n i : Nat}
    (h : forRange unmapLowerAt n i x = .ok y)
    : SameRange x.2 y.2 := by
  refine forRange_invariant (fun _ z => SameRange x.2 z.2) ?_ h (SameRange.refl x.2)
  intro j z w _ _ hz hstep
  apply SameRange.trans hz
  unfold unmapLowerAt at hstep
  dsimp only at hstep
  split at hstep
  . cases hstep
    exact SameRange.refl _
  . rw [bind_eq_ok] at hstep
    obtain ⟨u, hu, hstep⟩ := hstep
    cases hstep
    exact mmPmaUnmarkReserved_sameRange hu

theorem pmaBitmapInit_eq_ok {pd : Nat → BitVec 32} {low : List (BitVec 8)}
    {mment : List MemoryMapEntry} {ufent : List UnavailableFrame} {s : Pma}
    (h : pmaBitmapInit pd low mment ufent = .ok s)
    : s.basePfn = (pmaSpan mment).basePfn
        ∧ s.limitPfn = (pmaSpan mment).limitPfn
        ∧ s.frameDescCount = (pmaSpan mment).frameDescCount
        ∧ s.bitmapPfnList = bitmapFrames mment ufent
        ∧ s.bitmap = List.replicate (pmaSpan mment).bitmapSize 0
        ∧ (pmaSpan mment).bitmapPages ≤ bitmapPfnListSize := by
  unfold pmaBitmapInit at h
  dsimp only at h
  split at h
  . contradiction
  . next hpages =>
    have hlength : (pmaBitmapFrames (pmaSpan mment).bitmapPages ufent [] mment).length
        ≤ bitmapPfnListSize :=
      (pmaBitmapFrames_spec _ _ (by simp) (by simp) mment).2
    simp only [bind_eq_ok] at h
    obtain ⟨x, hrun, h⟩ := h
    cases h
    have hrange := forRange_unmapLowerAt_sameRange hrun
    exact ⟨hrange.basePfn, hrange.limitPfn, hrange.frameDescCount, hrange.bitmapPfnList, rfl,
      by omega⟩

theorem mmPmaMarkReserved_single {s t : Pma} (hs : WellFormed s) {pfn : Nat} (hpfn : pfn < 2 ^ 32)
    (h : mmPmaMarkReserved s pfn pfn = .ok t)
    : SameRange s t
        ∧ s.basePfn ≤ pfn
        ∧ ∀ i, i < s.frameDescCount
            → t.desc i = if s.basePfn + i = pfn then some pbmReserved else s.desc i := by
  have hbase := hs.base_le_limit
  have hlimit := hs.limit_lt
  have hcount := hs.frameDescCount
  have hlength := hs.length
  by_cases hlow : pfn < s.basePfn
  . -- the loop would run up to an index far behind the bitmap
    exfalso
    simp only [mmPmaMarkReserved, hlow, ↓reduceIte] at h
    rw [if_neg (by omega)] at h
    rw [sub32_of_le (Nat.le_refl _) (by omega)] at h
    rw [sub32_of_lt hlow (by omega)] at h
    rw [forUpTo_eq_ok] at h
    have hmaps := mapsRange_of_forRange (fun j u v _ _ _ hv => markReservedAt_moves hv) h.1
    obtain ⟨d, hd, _⟩ := hmaps.inside (2 ^ 20 + 4) (by lia) (by lia)
    have := desc_isSome hd
    lia
  . by_cases hhigh : s.limitPfn < pfn
    . simp only [mmPmaMarkReserved, hlow, hhigh, ↓reduceIte] at h
      rw [sub32_of_le (by omega) hpfn] at h
      rw [sub32_of_le hbase (by omega)] at h
      rw [forUpTo_eq_ok] at h
      rw [show s.limitPfn - s.basePfn + 1 - (pfn - s.basePfn) = 0 by lia] at h
      have hsame := h.1
      cases hsame
      refine ⟨SameRange.refl s, by omega, ?_⟩
      intro i hi
      rw [if_neg (by lia)]
    . have hmeets : Meets s pfn pfn := ⟨Nat.le_refl _, hpfn, by omega, by omega⟩
      obtain ⟨u, hu, hmaps⟩ := mmPmaMarkReserved_spec hs hmeets
      rw [h] at hu
      cases hu
      refine ⟨hmaps.range, by omega, ?_⟩
      intro i hi
      have hlo : lowIdx s pfn = pfn - s.basePfn := by
        unfold lowIdx
        lia
      have hhi : highIdx s pfn = pfn - s.basePfn := by
        unfold highIdx
        lia
      rw [hlo, hhi] at hmaps
      split
      . obtain ⟨d, _, _, hd⟩ := hmaps.inside i (by lia) (by lia)
        exact hd
      . exact hmaps.outside i (by lia)

/--
Reserving the frames in `p` turns state `s` into `t`.
-/
structure Reserves (p : Nat → Prop) (s t : Pma) : Prop where
  range : SameRange s t
  reserved : ∀ i, i < s.frameDescCount → p (s.basePfn + i) → t.desc i = some pbmReserved
  kept : ∀ i, i < s.frameDescCount → ¬ p (s.basePfn + i) → t.desc i = s.desc i

theorem Reserves.refl {p : Nat → Prop} (s : Pma) (h : ∀ i, i < s.frameDescCount → ¬ p (s.basePfn + i))
    : Reserves p s s where
  range := SameRange.refl s
  reserved := by
    intro i hi hp
    exact absurd hp (h i hi)
  kept := by simp

theorem Reserves.head {p q : Nat → Prop} {s t u : Pma} (h1 : Reserves p s t) (h2 : Reserves q t u)
    : Reserves (fun f => p f ∨ q f) s u where
  range := h1.range.trans h2.range
  reserved := by
    intro i hi hpq
    have hi' : i < t.frameDescCount := by
      rw [h1.range.frameDescCount]
      exact hi
    by_cases hq : q (t.basePfn + i)
    . exact h2.reserved i hi' hq
    . rw [h2.kept i hi' hq]
      rw [h1.range.basePfn] at hq
      exact h1.reserved i hi (hpq.resolve_right hq)
  kept := by
    intro i hi hpq
    have hi' : i < t.frameDescCount := by
      rw [h1.range.frameDescCount]
      exact hi
    have hq : ¬ q (t.basePfn + i) := by
      rw [h1.range.basePfn]
      intro hq
      exact hpq (.inr hq)
    rw [h2.kept i hi' hq]
    exact h1.kept i hi (fun hp => hpq (.inl hp))

theorem Reserves.congr {p q : Nat → Prop} {s t : Pma} (h : Reserves p s t)
    (hpq : ∀ i, i < s.frameDescCount → (q (s.basePfn + i) ↔ p (s.basePfn + i)))
    : Reserves q s t where
  range := h.range
  reserved := by
    intro i hi hq
    exact h.reserved i hi ((hpq i hi).mp hq)
  kept := by
    intro i hi hq
    exact h.kept i hi (fun hp => hq ((hpq i hi).mpr hp))

theorem reserves_single {s t : Pma} (hs : WellFormed s) {pfn : Nat} (hpfn : pfn < 2 ^ 32)
    (h : mmPmaMarkReserved s pfn pfn = .ok t)
    : Reserves (fun f => f = pfn) s t := by
  obtain ⟨hrange, _, hdesc⟩ := mmPmaMarkReserved_single hs hpfn h
  refine ⟨hrange, ?_, ?_⟩
  . intro i hi hp
    rw [hdesc i hi]
    rw [if_pos hp]
  . intro i hi hp
    rw [hdesc i hi]
    rw [if_neg hp]

namespace mmPmaInit

theorem markBitmap_reserves {list : List Nat} (hlist : ∀ p ∈ list, p < 2 ^ 32) {s t : Pma}
    (hs : WellFormed s) (h : markBitmap list s = .ok t)
    : Reserves (fun f => f ∈ list) s t := by
  induction list generalizing s with
  | nil =>
    cases h
    exact Reserves.refl _ (by simp)
  | cons pfn list ih =>
    rw [markBitmap, bind_eq_ok] at h
    obtain ⟨u, hu, h⟩ := h
    have hone := reserves_single hs (hlist pfn (by simp)) hu
    have hrest := ih (fun p hp => hlist p (by simp [hp])) (hs.of_sameRange hone.range) h
    apply (hone.head hrest).congr
    simp

/--
The unavailable frames that are reached before one above the managed range ends the loop.
-/
def reached (ufent : List UnavailableFrame) (limitPfn : Nat) : List Nat :=
  (ufent.map fun e => e.pfn.toNat).takeWhile fun pfn => pfn ≤ limitPfn

theorem markUnavailable_reserves {ufent : List UnavailableFrame} {s t : Pma}
    (hs : WellFormed s) (h : markUnavailable ufent s = .ok t)
    : Reserves (fun f => f ∈ reached ufent s.limitPfn) s t := by
  have hcount := hs.frameDescCount
  have hbase := hs.base_le_limit
  have hlimit := hs.limit_lt
  induction ufent generalizing s with
  | nil =>
    cases h
    exact Reserves.refl _ (by simp [reached])
  | cons e ufent ih =>
    unfold markUnavailable at h
    split at h
    . next hlow =>
      apply (ih hs h hcount hbase hlimit).congr
      intro i hi
      simp only [reached, List.map_cons, List.takeWhile_cons]
      rw [if_pos (by simp only [decide_eq_true_eq]; omega)]
      rw [List.mem_cons]
      constructor
      . intro hor
        exact hor.resolve_left (by omega)
      . exact .inr
    . split at h
      . next hhigh =>
        cases h
        apply Reserves.refl
        intro i hi
        simp only [reached, List.map_cons, List.takeWhile_cons]
        rw [if_neg (by simp only [decide_eq_true_eq]; omega)]
        simp
      . next hhigh =>
        rw [bind_eq_ok] at h
        obtain ⟨u, hu, h⟩ := h
        have hone := reserves_single hs (by omega) hu
        have hu' := hs.of_sameRange hone.range
        have hrest := ih hu' h hu'.frameDescCount hu'.base_le_limit hu'.limit_lt
        apply (hone.head hrest).congr
        intro i hi
        simp only [reached, List.map_cons, List.takeWhile_cons, hone.range.limitPfn]
        rw [if_pos (by simp only [decide_eq_true_eq]; omega)]
        rw [List.mem_cons]

end mmPmaInit

/-!
An initialisation that returns although the range is empty leaves a bitmap without bytes.
-/
section Empty

variable {s t : Pma}

theorem desc_of_empty (hs : s.bitmap = []) (i : Nat) : s.desc i = none := by
  apply Crumbs.get?_eq_none_iff.mpr
  simp [hs]

theorem forRange_of_empty {body : Pma → Nat → Run Pma}
    (hbody : ∀ i u, body s i = .ok u → ∃ d, s.desc i = some d) (hs : s.bitmap = []) {n lo : Nat}
    (h : forRange body n lo s = .ok t)
    : t = s := by
  cases n with
  | zero =>
    cases h
    rfl
  | succ n =>
    rw [forRange, bind_eq_ok] at h
    obtain ⟨u, hu, _⟩ := h
    obtain ⟨d, hd⟩ := hbody lo u hu
    rw [desc_of_empty hs lo] at hd
    contradiction

theorem mmPmaMarkReserved_of_empty (hs : s.bitmap = []) {basePfn limitPfn : Nat}
    (h : mmPmaMarkReserved s basePfn limitPfn = .ok t)
    : t = s := by
  unfold mmPmaMarkReserved at h
  rw [forUpTo_eq_ok] at h
  apply forRange_of_empty ?_ hs h.1
  intro i u hu
  obtain ⟨d, _, hmoves⟩ := markReservedAt_moves hu
  exact ⟨d, hmoves.old⟩

theorem markUnavailable_of_empty (hs : s.bitmap = []) {ufent : List UnavailableFrame}
    (h : mmPmaInit.markUnavailable ufent s = .ok t)
    : t = s := by
  induction ufent with
  | nil =>
    cases h
    rfl
  | cons e ufent ih =>
    unfold mmPmaInit.markUnavailable at h
    split at h
    . exact ih h
    . split at h
      . cases h
        rfl
      . rw [bind_eq_ok] at h
        obtain ⟨u, hu, h⟩ := h
        rw [mmPmaMarkReserved_of_empty hs hu] at h
        exact ih h

theorem allocateFrame_go_of_empty (hs : s.bitmap = []) {count n i start : Nat} {r : Nat × Nat}
    (h : mmPmaAllocateFrame.go s count n i 0 start = .ok r)
    : r = ⟨0, start⟩ := by
  induction n generalizing i with
  | zero =>
    cases h
    rfl
  | succ n ih =>
    unfold mmPmaAllocateFrame.go at h
    split at h
    . exact ih h
    . rw [bind_eq_ok] at h
      obtain ⟨d, hd, _⟩ := h
      rw [pbmGet_eq_ok, desc_of_empty hs i] at hd
      contradiction

theorem mmPmaAllocateFrame_of_empty (hs : s.bitmap = []) {count : Nat}
    {r : Except Status Nat} (h : mmPmaAllocateFrame s count = .ok ⟨r, t⟩)
    : t = s ∧ (∀ pfn, r = .ok pfn → count = 0) := by
  rw [mmPmaAllocateFrame, bind_eq_ok] at h
  obtain ⟨v, hgo, h⟩ := h
  rw [allocateFrame_go_of_empty hs hgo] at h
  dsimp only at h
  split at h
  . cases h
    exact ⟨rfl, by simp⟩
  . next hzero =>
    rw [bind_eq_ok] at h
    obtain ⟨u, hu, h⟩ := h
    rw [show count = 0 by omega] at hu
    cases hu
    cases h
    exact ⟨rfl, fun _ _ => by omega⟩

theorem PmaUse.of_empty (hs : s.bitmap = []) (h : PmaUse s t) : t = s := by
  cases h with
  | inl h =>
    obtain ⟨count, r, _, halloc⟩ := h
    exact (mmPmaAllocateFrame_of_empty hs halloc).1
  | inr h =>
    obtain ⟨pfn, frameCount, _, _, hfree⟩ := h
    unfold mmPmaFreeFrame at hfree
    split at hfree
    . contradiction
    . apply forRange_of_empty ?_ hs hfree
      intro i u hu
      obtain ⟨d, _, hmoves⟩ := freeAt_moves hu
      exact ⟨d, hmoves.old⟩

theorem onlyHandsOut_of_empty (hs : s.bitmap = []) (safe : Nat → Prop) : OnlyHandsOut s safe := by
  intro t hrun count pfn u hcount halloc f hge hlt
  have heq : t = s := by
    clear halloc
    induction hrun with
    | refl => rfl
    | tail _ huse ih =>
      rw [ih] at huse
      exact huse.of_empty hs
  rw [heq] at halloc
  have := (mmPmaAllocateFrame_of_empty hs halloc).2 pfn rfl
  omega

end Empty

/--
What a frame that is handed out should be: free according to the memory map, not unavailable, and
not part of the bitmap.
-/
structure FrameSafe (mment : List MemoryMapEntry) (ufent : List UnavailableFrame) (s : Pma)
    (pfn : Nat) : Prop where
  free : ∃ e ∈ mment, e.isFree ∧ e.Contains pfn
  available : ∀ e ∈ ufent, e.pfn.toNat ≠ pfn
  notBitmap : pfn ∉ s.bitmapPfnList

/--
Every frame from 1MiB on that lies between the first free region and the end of the last one, and
that is neither listed before the first unavailable frame beyond that end nor taken for the bitmap,
is free and not listed at all.
-/
def SpanCovered (mment : List MemoryMapEntry) (ufent : List UnavailableFrame) : Prop :=
  ∀ pfn, (pmaSpan mment).basePfn ≤ pfn → pfn ≤ (pmaSpan mment).limitPfn → 0x100 ≤ pfn →
    pfn ∉ mmPmaInit.reached ufent (pmaSpan mment).limitPfn → pfn ∉ bitmapFrames mment ufent →
      (∃ e ∈ mment, e.isFree ∧ e.Contains pfn) ∧ ∀ e ∈ ufent, e.pfn.toNat ≠ pfn

theorem pmaBitmapInit_wellFormed {pd : Nat → BitVec 32} {low : List (BitVec 8)}
    {mment : List MemoryMapEntry} {ufent : List UnavailableFrame} {s : Pma}
    (h : pmaBitmapInit pd low mment ufent = .ok s)
    (hle : (pmaSpan mment).basePfn ≤ (pmaSpan mment).limitPfn)
    : WellFormed s ∧ ∀ i, i < s.frameDescCount → s.desc i = some pbmFree := by
  obtain ⟨hbase, hlimit, hcount, _, hbitmap, _⟩ := pmaBitmapInit_eq_ok h
  have hlt := PmaSpan.limitPfn_lt mment
  have hdesc := PmaSpan.frameDescCount_of_le hle
  have hlength : s.bitmap.length = (s.frameDescCount + 3) / 4 := by
    rw [hbitmap, hcount, List.length_replicate]
    unfold PmaSpan.bitmapSize
    rw [u32_of_lt (by lia)]
  refine ⟨⟨by lia, by lia, by lia, hlength⟩, ?_⟩
  intro i hi
  unfold desc
  rw [hbitmap]
  apply Crumbs.get?_replicate_zero
  rw [hbitmap, List.length_replicate] at hlength
  lia

/--
Initialisation succeeds only with a bitmap that reserves the frames of the bitmap and the
unavailable frames that are reached. Everything else above the first MiB can be handed out, so what
can be handed out is safe exactly if the lists leave nothing unsafe uncovered.
-/
theorem mmPmaInit_onlyHandsOut_iff (pd : Nat → BitVec 32) (low : List (BitVec 8))
    (mment : List MemoryMapEntry) (ufent : List UnavailableFrame) (s : Pma)
    (hinit : mmPmaInit pd low mment ufent = .ok s)
    : OnlyHandsOut s (FrameSafe mment ufent s)
        ↔
      SpanCovered mment ufent := by
  simp only [mmPmaInit, bind_eq_ok] at hinit
  obtain ⟨u, hu, v, hv, hs⟩ := hinit
  obtain ⟨hbase, hlimit, hcount, hlist, hbitmap, hpages⟩ := pmaBitmapInit_eq_ok hu
  rw [hlist] at hv
  by_cases hle : (pmaSpan mment).basePfn ≤ (pmaSpan mment).limitPfn
  . obtain ⟨hwf, hfree⟩ := pmaBitmapInit_wellFormed hu hle
    have h1 := mmPmaInit.markBitmap_reserves (bitmapFrames_lt mment ufent) hwf hv
    have h2 := mmPmaInit.markUnavailable_reserves (hwf.of_sameRange h1.range) hs
    have h := h1.head h2
    have hcover := PmaSpan.frameDescCount_of_le hle
    rw [onlyHandsOut_iff (hwf.of_sameRange h.range) ?_]
    . rw [h.range.frameDescCount, h.range.basePfn, hbase, hcount, hcover]
      constructor
      . intro hsafe pfn hge hle hhigh hreached hbitmap
        have hidx : (pmaSpan mment).basePfn + (pfn - (pmaSpan mment).basePfn) = pfn := by lia
        have := hsafe (pfn - (pmaSpan mment).basePfn) (by lia) (by lia) ?_
        . rw [hidx] at this
          exact ⟨this.free, this.available⟩
        . rw [h.kept _ (by lia) ?_]
          . rw [hfree _ (by lia)]
            simp
          . rw [hbase, hidx, h1.range.limitPfn, hlimit]
            simp only [not_or]
            exact ⟨hbitmap, hreached⟩
      . intro hspan i hi hhigh hd
        have hnot : ¬ ((pmaSpan mment).basePfn + i ∈ bitmapFrames mment ufent
            ∨ (pmaSpan mment).basePfn + i ∈ mmPmaInit.reached ufent (pmaSpan mment).limitPfn) := by
          intro hor
          apply hd
          apply h.reserved i (by omega)
          rw [hbase, h1.range.limitPfn, hlimit]
          exact hor
        simp only [not_or] at hnot
        have := hspan _ (by omega) (by omega) hhigh hnot.2 hnot.1
        refine ⟨this.1, this.2, ?_⟩
        rw [h.range.bitmapPfnList, hlist]
        exact hnot.1
    . intro i hi
      rw [h.range.frameDescCount] at hi
      by_cases hp : u.basePfn + i ∈ bitmapFrames mment ufent
          ∨ u.basePfn + i ∈ mmPmaInit.reached ufent v.limitPfn
      . exact .inr (h.reserved i hi hp)
      . rw [h.kept i hi hp]
        exact .inl (hfree i hi)
  . have hzero := PmaSpan.bitmapSize_of_gt (by omega) hpages
    have hempty : u.bitmap = [] := by simp [hbitmap, hzero]
    have hnone : bitmapFrames mment ufent = [] := by
      simp [bitmapFrames, PmaSpan.bitmapPages, hzero, alignDiv, pageSize, u32]
    rw [hnone] at hv
    cases hv
    rw [markUnavailable_of_empty hempty hs]
    constructor
    . intro _ pfn h1 h2
      omega
    . intro _
      exact onlyHandsOut_of_empty hempty _

/--
Eight frames from 1MiB on, one of which is unavailable.
-/
def plainMap : List MemoryMapEntry := [⟨0x100000, 0x8000, 1⟩]

def plainFrames : List UnavailableFrame := [⟨0x101, 1⟩]

def plainPma : Pma where
  bitmap := [0x0A, 0]
  frameDescCount := 8
  availableFrames := 6
  freeFrames := 6
  basePfn := 0x100
  limitPfn := 0x107
  bitmapPfnList := [0x100]

theorem mmPmaInit_onlyHandsOut_iff_plainMap
    : OnlyHandsOut plainPma (FrameSafe plainMap plainFrames plainPma) := by
  have hinit : mmPmaInit (fun _ => 0) [] plainMap plainFrames = .ok plainPma := by decide +kernel
  apply (mmPmaInit_onlyHandsOut_iff _ _ _ _ _ hinit).mpr
  have hcover : ∀ k : Fin 8, 0x100 + k.val ∉ mmPmaInit.reached plainFrames 0x107 →
      (∃ e ∈ plainMap, e.isFree ∧ e.Contains (0x100 + k.val))
        ∧ ∀ e ∈ plainFrames, e.pfn.toNat ≠ 0x100 + k.val := by
    decide
  have hbase : (pmaSpan plainMap).basePfn = 0x100 := by decide
  have hlimit : (pmaSpan plainMap).limitPfn = 0x107 := by decide
  intro pfn hge hle _ hreached _
  rw [hbase] at hge
  rw [hlimit] at hle hreached
  have := hcover ⟨pfn - 0x100, by omega⟩
  rw [show 0x100 + (pfn - 0x100) = pfn by lia] at this
  exact this hreached

/--
The same eight frames, but the fifth and the sixth belong to a reserved region.
-/
def holeMap : List MemoryMapEntry :=
  [⟨0x100000, 0x4000, 1⟩, ⟨0x104000, 0x2000, 2⟩, ⟨0x106000, 0x2000, 1⟩]

theorem mmPmaInit_hands_out_reserved_region
    : ∃ s, mmPmaInit (fun _ => 0) [] holeMap plainFrames = .ok s
        ∧ ¬ OnlyHandsOut s (FrameSafe holeMap plainFrames s) := by
  have hinit : mmPmaInit (fun _ => 0) [] holeMap plainFrames = .ok plainPma := by decide +kernel
  refine ⟨plainPma, hinit, ?_⟩
  intro hsafe
  have halloc : mmPmaAllocateFrame plainPma 3
      = .ok ⟨.ok 0x102, { plainPma with bitmap := [0x5A, 0x01], freeFrames := 3 }⟩ := by
    decide
  have hframe := hsafe plainPma .refl 3 0x102 _ (by decide) halloc 0x104 (by decide) (by decide)
  have hnone : ¬ ∃ e ∈ holeMap, e.isFree ∧ e.Contains 0x104 := by decide
  exact hnone hframe.free

end Emos
