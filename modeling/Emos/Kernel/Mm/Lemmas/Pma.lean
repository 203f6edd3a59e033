import Emos.Kernel.Mm.Impl.Pma
import Emos.Lib.Count

/-!
This module contains what one call of each allocator function does to the frame descriptors and to
the two counters.
-/

open Lib

namespace Emos

@[simp]
theorem pbmFree_ne_pbmReserved : pbmFree ≠ pbmReserved := by decide

@[simp]
theorem pbmReserved_ne_pbmFree : pbmReserved ≠ pbmFree := by decide

@[simp]
theorem pbmFree_ne_pbmAllocated : pbmFree ≠ pbmAllocated := by decide

@[simp]
theorem pbmAllocated_ne_pbmFree : pbmAllocated ≠ pbmFree := by decide

@[simp]
theorem pbmAllocated_ne_pbmReserved : pbmAllocated ≠ pbmReserved := by decide

namespace Pma

/--
Everything but the descriptors and the counters is the same in both states.
-/
structure SameRange (s t : Pma) : Prop where
  basePfn : t.basePfn = s.basePfn
  limitPfn : t.limitPfn = s.limitPfn
  frameDescCount : t.frameDescCount = s.frameDescCount
  bitmapPfnList : t.bitmapPfnList = s.bitmapPfnList
  length : t.bitmap.length = s.bitmap.length

theorem SameRange.refl (s : Pma) : SameRange s s := ⟨rfl, rfl, rfl, rfl, rfl⟩

theorem SameRange.symm {s t : Pma} (h : SameRange s t) : SameRange t s :=
  ⟨h.basePfn.symm, h.limitPfn.symm, h.frameDescCount.symm, h.bitmapPfnList.symm, h.length.symm⟩

theorem SameRange.trans {s t u : Pma} (h1 : SameRange s t) (h2 : SameRange t u)
    : SameRange s u where
  basePfn := h2.basePfn.trans h1.basePfn
  limitPfn := h2.limitPfn.trans h1.limitPfn
  frameDescCount := h2.frameDescCount.trans h1.frameDescCount
  bitmapPfnList := h2.bitmapPfnList.trans h1.bitmapPfnList
  length := h2.length.trans h1.length

def descCount (s : Pma) (d : BitVec 2) : Nat :=
  countBelow s.frameDescCount fun i => s.desc i = some d

def usableCount (s : Pma) : Nat :=
  countBelow s.frameDescCount fun i => s.desc i ≠ some pbmReserved

/--
The managed frames are frames of the 32 bit address space and the bitmap has just the bytes that
their descriptors need.
-/
structure WellFormed (s : Pma) : Prop where
  base_le_limit : s.basePfn ≤ s.limitPfn
  limit_lt : s.limitPfn < 2 ^ 20
  frameDescCount : s.frameDescCount = s.limitPfn - s.basePfn + 1
  length : s.bitmap.length = (s.frameDescCount + 3) / 4

/--
A well formed state whose counters are the number of free and of usable descriptors.
-/
structure Counted (s : Pma) : Prop extends WellFormed s where
  freeFrames : s.freeFrames = s.descCount pbmFree
  availableFrames : s.availableFrames = s.usableCount

theorem WellFormed.of_sameRange {s t : Pma} (hs : WellFormed s) (h : SameRange s t)
    : WellFormed t := by
  constructor
  . rw [h.basePfn, h.limitPfn]
    exact hs.base_le_limit
  . rw [h.limitPfn]
    exact hs.limit_lt
  . rw [h.basePfn, h.limitPfn, h.frameDescCount]
    exact hs.frameDescCount
  . rw [h.frameDescCount, h.length]
    exact hs.length

theorem WellFormed.index_lt {s : Pma} (hs : WellFormed s) {i : Nat} (hi : i < s.frameDescCount)
    : i / 4 < s.bitmap.length := by
  rw [hs.length]
  omega

theorem WellFormed.exists_desc {s : Pma} (hs : WellFormed s) {i : Nat} (hi : i < s.frameDescCount)
    : ∃ d, s.desc i = some d :=
  Crumbs.exists_get? (hs.index_lt hi)

theorem pbmGet_eq_ok (s : Pma) (i : Nat) (d : BitVec 2)
    : s.pbmGet i = .ok d ↔ s.desc i = some d := by
  unfold pbmGet
  split
  . next d' h => simp [h]
  . next h => simp [h]

def withDesc (s : Pma) (i : Nat) (v : BitVec 2) : Pma :=
  { s with bitmap := Crumbs.set s.bitmap i v }

theorem desc_isSome {s : Pma} {i : Nat} {d : BitVec 2} (h : s.desc i = some d)
    : i / 4 < s.bitmap.length := by
  by_contra hge
  have : s.desc i = none := Crumbs.get?_eq_none_iff.mpr (by omega)
  rw [h] at this
  contradiction

theorem pbmSet_eq_ok (s : Pma) (i : Nat) (v : BitVec 2) (t : Pma)
    : s.pbmSet i v = .ok t ↔ i / 4 < s.bitmap.length ∧ t = s.withDesc i v := by
  unfold pbmSet
  split
  . next h =>
    simp only [Except.ok.injEq, h, true_and]
    exact eq_comm
  . next h => simp [h]

theorem desc_withDesc {s : Pma} {i : Nat} (v : BitVec 2) (h : i / 4 < s.bitmap.length) (j : Nat)
    : (s.withDesc i v).desc j = if j = i then some v else s.desc j := by
  split
  . next heq =>
    rw [heq]
    exact Crumbs.get?_set_eq v h
  . next hne => exact Crumbs.get?_set_ne v hne

/--
Descriptor `i` goes from `d` to `v`, the counters follow and nothing else changes.
-/
structure Moves (s : Pma) (i : Nat) (d v : BitVec 2) (t : Pma) : Prop where
  range : SameRange s t
  old : s.desc i = some d
  new : t.desc i = some v
  frame : ∀ j, j ≠ i → t.desc j = s.desc j
  freeFrames : t.freeFrames =
    if d = pbmFree ∧ v ≠ pbmFree then sub32 s.freeFrames 1
    else if d ≠ pbmFree ∧ v = pbmFree then u32 (s.freeFrames + 1)
    else s.freeFrames
  availableFrames : t.availableFrames =
    if d ≠ pbmReserved ∧ v = pbmReserved then sub32 s.availableFrames 1
    else if d = pbmReserved ∧ v ≠ pbmReserved then u32 (s.availableFrames + 1)
    else s.availableFrames

theorem Moves.refl {s : Pma} {i : Nat} {d : BitVec 2} (h : s.desc i = some d)
    : Moves s i d d s where
  range := SameRange.refl s
  old := h
  new := h
  frame := by simp
  freeFrames := by simp
  availableFrames := by simp

theorem Moves.of_withDesc {s : Pma} {i free available : Nat} {d v : BitVec 2}
    (hd : s.desc i = some d)
    (hfree : free =
      if d = pbmFree ∧ v ≠ pbmFree then sub32 s.freeFrames 1
      else if d ≠ pbmFree ∧ v = pbmFree then u32 (s.freeFrames + 1)
      else s.freeFrames)
    (havailable : available =
      if d ≠ pbmReserved ∧ v = pbmReserved then sub32 s.availableFrames 1
      else if d = pbmReserved ∧ v ≠ pbmReserved then u32 (s.availableFrames + 1)
      else s.availableFrames)
    : Moves s i d v { s.withDesc i v with freeFrames := free, availableFrames := available } := by
  have hi := desc_isSome hd
  have hdesc := desc_withDesc v hi
  refine ⟨?_, hd, ?_, ?_, hfree, havailable⟩
  . constructor <;> simp [withDesc]
  . have := hdesc i
    rw [if_pos rfl] at this
    exact this
  . intro j hj
    have := hdesc j
    rw [if_neg hj] at this
    exact this

theorem Moves.descCount {s t : Pma} {i : Nat} {d v : BitVec 2} (h : Moves s i d v t)
    (hi : i < s.frameDescCount) (c : BitVec 2)
    : t.descCount c + (if d = c then 1 else 0) = s.descCount c + (if v = c then 1 else 0) := by
  have := countBelow_update (n := s.frameDescCount) (i := i) (p := fun j => s.desc j = some c)
    (q := fun j => t.desc j = some c) hi (by intro j hj; rw [h.frame j hj])
  simp only [h.old, h.new, Option.some.injEq] at this
  unfold Pma.descCount
  rw [h.range.frameDescCount]
  exact this

theorem Moves.usableCount {s t : Pma} {i : Nat} {d v : BitVec 2} (h : Moves s i d v t)
    (hi : i < s.frameDescCount)
    : t.usableCount + (if d ≠ pbmReserved then 1 else 0)
        =
      s.usableCount + (if v ≠ pbmReserved then 1 else 0) := by
  have := countBelow_update (n := s.frameDescCount) (i := i)
    (p := fun j => s.desc j ≠ some pbmReserved) (q := fun j => t.desc j ≠ some pbmReserved) hi
    (by intro j hj; rw [h.frame j hj])
  simp only [h.old, h.new, ne_eq, Option.some.injEq] at this
  unfold Pma.usableCount
  rw [h.range.frameDescCount]
  exact this

theorem Counted.of_moves {s t : Pma} (hs : Counted s) {i : Nat} {d v : BitVec 2}
    (h : Moves s i d v t) (hi : i < s.frameDescCount)
    : Counted t := by
  have hlimit := hs.limit_lt
  have hcount := hs.frameDescCount
  have hfreeLe : s.descCount pbmFree ≤ s.frameDescCount := countBelow_le
  have husableLe : s.usableCount ≤ s.frameDescCount := countBelow_le
  have hfreePos : d = pbmFree → 0 < s.descCount pbmFree := by
    intro hd
    exact countBelow_pos hi (by rw [h.old, hd])
  have husablePos : d ≠ pbmReserved → 0 < s.usableCount := by
    intro hd
    apply countBelow_pos hi
    rw [h.old]
    simpa using hd
  refine ⟨hs.toWellFormed.of_sameRange h.range, ?_, ?_⟩
  . have hmove := h.descCount hi pbmFree
    rw [h.freeFrames, hs.freeFrames]
    unfold sub32 u32
    split
    . next hc => simp [hc] at hmove; have := hfreePos hc.1; lia
    . split
      . next hc => simp [hc] at hmove; lia
      . by_cases hd : d = pbmFree <;> by_cases hv : v = pbmFree <;> simp_all
  . have hmove := h.usableCount hi
    rw [h.availableFrames, hs.availableFrames]
    unfold sub32 u32
    split
    . next hc => simp [hc] at hmove; have := husablePos hc.1; lia
    . split
      . next hc => simp [hc] at hmove; lia
      . by_cases hd : d = pbmReserved <;> by_cases hv : v = pbmReserved <;> simp_all

/--
The descriptors from `lo` up to `hi` all satisfied `q` and went through `f`, the others and the
range are kept.
-/
structure MapsRange (q : BitVec 2 → Prop) (f : BitVec 2 → BitVec 2) (lo hi : Nat) (s t : Pma)
    : Prop where
  range : SameRange s t
  inside : ∀ j, lo ≤ j → j < hi → ∃ d, s.desc j = some d ∧ q d ∧ t.desc j = some (f d)
  outside : ∀ j, j < lo ∨ hi ≤ j → t.desc j = s.desc j
  counted : Counted s → hi ≤ s.frameDescCount → Counted t

theorem MapsRange.refl (q : BitVec 2 → Prop) (f : BitVec 2 → BitVec 2) (lo : Nat) (s : Pma)
    : MapsRange q f lo lo s s where
  range := SameRange.refl s
  inside := by
    intro j h1 h2
    omega
  outside := by simp
  counted := by
    intro h _
    exact h

theorem MapsRange.moves {q : BitVec 2 → Prop} {f : BitVec 2 → BitVec 2} {lo hi : Nat}
    {s t u : Pma} {d : BitVec 2} (h : MapsRange q f lo hi s t) (hlo : lo ≤ hi)
    (hm : Moves t hi d (f d) u) (hq : q d)
    : MapsRange q f lo (hi + 1) s u where
  range := h.range.trans hm.range
  inside := by
    intro j h1 h2
    cases Nat.eq_or_lt_of_le (Nat.le_of_lt_succ h2) with
    | inl heq =>
      subst heq
      refine ⟨d, ?_, hq, hm.new⟩
      rw [← h.outside j (by omega)]
      exact hm.old
    | inr hlt =>
      rw [hm.frame j (by omega)]
      exact h.inside j h1 hlt
  outside := by
    intro j hj
    rw [hm.frame j (by omega)]
    exact h.outside j (by omega)
  counted := by
    intro hs hle
    apply (h.counted hs (by omega)).of_moves hm
    rw [h.range.frameDescCount]
    omega

theorem mapsRange_of_forRange {q : BitVec 2 → Prop} {f : BitVec 2 → BitVec 2}
    {body : Pma → Nat → Run Pma} {n lo : Nat} {s t : Pma}
    (hbody : ∀ j u v, lo ≤ j → j < lo + n → u.desc j = s.desc j → body u j = .ok v
      → ∃ d, q d ∧ Moves u j d (f d) v)
    (hrun : forRange body n lo s = .ok t)
    : MapsRange q f lo (lo + n) s t := by
  have := forRange_invariant (fun j u => lo ≤ j ∧ MapsRange q f lo j s u) ?_ hrun
    ⟨Nat.le_refl lo, MapsRange.refl q f lo s⟩
  . exact this.2
  . intro j u v hlo hlt ⟨_, hu⟩ hstep
    obtain ⟨d, hq, hm⟩ := hbody j u v hlo hlt (hu.outside j (by omega)) hstep
    exact ⟨by omega, hu.moves hlo hm hq⟩

end Pma

open Pma

theorem pbmSet_of_desc {s : Pma} {i : Nat} {d : BitVec 2} (hd : s.desc i = some d) (v : BitVec 2)
    : s.pbmSet i v = .ok (s.withDesc i v) := by
  rw [pbmSet_eq_ok]
  exact ⟨desc_isSome hd, rfl⟩

theorem markReservedAt_of_desc {s : Pma} {i : Nat} {d : BitVec 2} (hd : s.desc i = some d)
    : ∃ t, markReservedAt s i = .ok t ∧ Moves s i d pbmReserved t := by
  have hget := (pbmGet_eq_ok s i d).mpr hd
  by_cases hres : d = pbmReserved
  . refine ⟨s, ?_, ?_⟩
    . simp [markReservedAt, hget, hres, bind, Except.bind]
    . rw [hres] at hd ⊢
      exact Moves.refl hd
  . refine ⟨_, ?_, Moves.of_withDesc hd rfl rfl⟩
    simp [markReservedAt, hget, hres, pbmSet_of_desc hd, bind, Except.bind, withDesc]

theorem unmarkReservedAt_of_desc {s : Pma} {i : Nat} {d : BitVec 2} (hd : s.desc i = some d)
    : ∃ t, unmarkReservedAt s i = .ok t
        ∧ Moves s i d (if d = pbmReserved then pbmFree else d) t := by
  have hget := (pbmGet_eq_ok s i d).mpr hd
  by_cases hres : d = pbmReserved
  . rw [if_pos hres]
    refine ⟨_, ?_, Moves.of_withDesc hd rfl rfl⟩
    simp [unmarkReservedAt, hget, hres, pbmSet_of_desc hd, bind, Except.bind, withDesc]
  . rw [if_neg hres]
    refine ⟨s, ?_, Moves.refl hd⟩
    simp [unmarkReservedAt, hget, hres, bind, Except.bind]

theorem allocateAt_of_desc {s : Pma} {i : Nat} (hd : s.desc i = some pbmFree)
    : ∃ t, allocateAt s i = .ok t ∧ Moves s i pbmFree pbmAllocated t := by
  refine ⟨_, ?_, Moves.of_withDesc hd rfl rfl⟩
  simp [allocateAt, pbmSet_of_desc hd, bind, Except.bind, withDesc]

theorem freeAt_of_desc {s : Pma} {i : Nat} (hd : s.desc i = some pbmAllocated)
    : ∃ t, freeAt s i = .ok t ∧ Moves s i pbmAllocated pbmFree t := by
  have hget := (pbmGet_eq_ok s i _).mpr hd
  refine ⟨_, ?_, Moves.of_withDesc hd rfl rfl⟩
  simp [freeAt, hget, pbmSet_of_desc hd, bind, Except.bind, withDesc]

theorem markReservedAt_moves {s t : Pma} {i : Nat} (h : markReservedAt s i = .ok t)
    : ∃ d, True ∧ Moves s i d pbmReserved t := by
  have h' := h
  simp only [markReservedAt, bind_eq_ok, pbmGet_eq_ok] at h'
  obtain ⟨d, hd, _⟩ := h'
  obtain ⟨u, hu, hmoves⟩ := markReservedAt_of_desc hd
  rw [h] at hu
  cases hu
  exact ⟨d, trivial, hmoves⟩

theorem unmarkReservedAt_moves {s t : Pma} {i : Nat} (h : unmarkReservedAt s i = .ok t)
    : ∃ d, True ∧ Moves s i d (if d = pbmReserved then pbmFree else d) t := by
  have h' := h
  simp only [unmarkReservedAt, bind_eq_ok, pbmGet_eq_ok] at h'
  obtain ⟨d, hd, _⟩ := h'
  obtain ⟨u, hu, hmoves⟩ := unmarkReservedAt_of_desc hd
  rw [h] at hu
  cases hu
  exact ⟨d, trivial, hmoves⟩

theorem freeAt_moves {s t : Pma} {i : Nat} (h : freeAt s i = .ok t)
    : ∃ d, d = pbmAllocated ∧ Moves s i d pbmFree t := by
  have h' := h
  simp only [freeAt, bind_eq_ok, pbmGet_eq_ok] at h'
  obtain ⟨d, hd, h'⟩ := h'
  split at h'
  . contradiction
  . next halloc =>
    simp only [ne_eq, Decidable.not_not] at halloc
    subst halloc
    obtain ⟨u, hu, hmoves⟩ := freeAt_of_desc hd
    rw [h] at hu
    cases hu
    exact ⟨pbmAllocated, rfl, hmoves⟩

theorem forUpTo_eq_ok (body : Pma → Nat → Run Pma) (lo hi : Nat) (s t : Pma)
    : forUpTo body lo hi s = .ok t
        ↔
      forRange body (hi + 1 - lo) lo s = .ok t ∧ ¬ (lo ≤ hi ∧ hi = 2 ^ 32 - 1) := by
  simp only [forUpTo, bind_eq_ok]
  constructor
  . intro ⟨u, hu, h⟩
    split at h
    . contradiction
    . next hne =>
      cases h
      exact ⟨hu, hne⟩
  . intro ⟨hu, hne⟩
    exact ⟨t, hu, by rw [if_neg hne]⟩

theorem forRange_mapsRange {f : BitVec 2 → BitVec 2} {body : Pma → Nat → Run Pma}
    {q : BitVec 2 → Prop} {s : Pma} (hs : WellFormed s)
    (hbody : ∀ u j d, q d → u.desc j = some d → ∃ v, body u j = .ok v ∧ Moves u j d (f d) v)
    {n lo : Nat} (hle : lo + n ≤ s.frameDescCount)
    (hq : ∀ j d, lo ≤ j → j < lo + n → s.desc j = some d → q d)
    : ∃ t, forRange body n lo s = .ok t ∧ MapsRange q f lo (lo + n) s t := by
  suffices ∃ t, forRange body n lo s = .ok t ∧ lo ≤ lo + n ∧ MapsRange q f lo (lo + n) s t by
    obtain ⟨t, ht, _, hmaps⟩ := this
    exact ⟨t, ht, hmaps⟩
  apply forRange_total (fun j u => lo ≤ j ∧ MapsRange q f lo j s u)
  . intro j u hlo hlt ⟨_, hu⟩
    obtain ⟨d, hd⟩ := hs.exists_desc (i := j) (by omega)
    obtain ⟨v, hv, hmoves⟩ := hbody u j d (hq j d hlo hlt hd)
      (by rw [hu.outside j (by omega)]; exact hd)
    exact ⟨v, hv, by omega, hu.moves hlo hmoves (hq j d hlo hlt hd)⟩
  . exact ⟨Nat.le_refl lo, MapsRange.refl q f lo s⟩

theorem forUpTo_mapsRange {f : BitVec 2 → BitVec 2} {body : Pma → Nat → Run Pma} {s : Pma}
    (hs : WellFormed s)
    (hbody : ∀ u j d, u.desc j = some d → ∃ v, body u j = .ok v ∧ Moves u j d (f d) v)
    {lo hi : Nat} (hle : lo ≤ hi) (hhi : hi < s.frameDescCount)
    : ∃ t, forUpTo body lo hi s = .ok t ∧ MapsRange (fun _ => True) f lo (hi + 1) s t := by
  have hlimit := hs.limit_lt
  have hcount := hs.frameDescCount
  have hsum : lo + (hi + 1 - lo) = hi + 1 := by lia
  have hmaps : ∃ t, forRange body (hi + 1 - lo) lo s = .ok t
      ∧ MapsRange (fun _ => True) f lo (lo + (hi + 1 - lo)) s t := by
    apply forRange_mapsRange hs
    . intro u j d _
      exact hbody u j d
    . omega
    . simp
  rw [hsum] at hmaps
  obtain ⟨t, ht, hmaps⟩ := hmaps
  refine ⟨t, ?_, hmaps⟩
  rw [forUpTo_eq_ok]
  exact ⟨ht, by lia⟩

/--
The index of a frame number after it was clamped to the managed range from below.
-/
def lowIdx (s : Pma) (basePfn : Nat) : Nat := max basePfn s.basePfn - s.basePfn

/--
The index of a frame number after it was clamped to the managed range from above.
-/
def highIdx (s : Pma) (limitPfn : Nat) : Nat := min limitPfn s.limitPfn - s.basePfn

/--
The frames from `basePfn` to `limitPfn` are a range that meets the managed one.
-/
structure Meets (s : Pma) (basePfn limitPfn : Nat) : Prop where
  le : basePfn ≤ limitPfn
  lt : limitPfn < 2 ^ 32
  base_le : basePfn ≤ s.limitPfn
  le_limit : s.basePfn ≤ limitPfn

theorem Meets.bounds {s : Pma} {basePfn limitPfn : Nat} (h : Meets s basePfn limitPfn)
    (hs : WellFormed s)
    : lowIdx s basePfn ≤ highIdx s limitPfn ∧ highIdx s limitPfn < s.frameDescCount := by
  have := h.le
  have := h.base_le
  have := h.le_limit
  have := hs.base_le_limit
  have := hs.frameDescCount
  unfold lowIdx highIdx
  lia

theorem Meets.clamp {s : Pma} {basePfn limitPfn : Nat} (h : Meets s basePfn limitPfn)
    (hs : WellFormed s)
    : sub32 (if basePfn < s.basePfn then s.basePfn else basePfn) s.basePfn = lowIdx s basePfn
        ∧
      sub32 (if limitPfn > s.limitPfn then s.limitPfn else limitPfn) s.basePfn
        =
      highIdx s limitPfn := by
  have := h.base_le
  have := h.le_limit
  have := hs.base_le_limit
  have := hs.limit_lt
  unfold lowIdx highIdx
  constructor
  . rw [sub32_of_le] <;> split <;> lia
  . rw [sub32_of_le] <;> split <;> lia

theorem mmPmaMarkReserved_spec {s : Pma} (hs : WellFormed s) {basePfn limitPfn : Nat}
    (h : Meets s basePfn limitPfn)
    : ∃ t, mmPmaMarkReserved s basePfn limitPfn = .ok t
        ∧ MapsRange (fun _ => True) (fun _ => pbmReserved)
            (lowIdx s basePfn) (highIdx s limitPfn + 1) s t := by
  simp only [mmPmaMarkReserved]
  rw [(h.clamp hs).1, (h.clamp hs).2]
  apply forUpTo_mapsRange hs
  . intro u j d hd
    exact markReservedAt_of_desc hd
  . exact (h.bounds hs).1
  . exact (h.bounds hs).2

theorem mmPmaUnmarkReserved_spec {s : Pma} (hs : WellFormed s) {basePfn limitPfn : Nat}
    (h : Meets s basePfn limitPfn)
    : ∃ t, mmPmaUnmarkReserved s basePfn limitPfn = .ok t
        ∧ MapsRange (fun _ => True) (fun d => if d = pbmReserved then pbmFree else d)
            (lowIdx s basePfn) (highIdx s limitPfn + 1) s t := by
  simp only [mmPmaUnmarkReserved]
  rw [(h.clamp hs).1, (h.clamp hs).2]
  apply forUpTo_mapsRange hs
  . intro u j d hd
    exact unmarkReservedAt_of_desc hd
  . exact (h.bounds hs).1
  . exact (h.bounds hs).2

theorem mmPmaFreeFrame_spec {s t : Pma} (hs : WellFormed s) {pfn frameCount : Nat}
    (hpfn : pfn < 2 ^ 32) (hcnt : frameCount < 2 ^ 32) (h : mmPmaFreeFrame s pfn frameCount = .ok t)
    : t = s
        ∨
      (s.basePfn ≤ pfn ∧ pfn - s.basePfn + frameCount ≤ s.frameDescCount
        ∧ MapsRange (fun d => d = pbmAllocated) (fun _ => pbmFree)
            (pfn - s.basePfn) (pfn - s.basePfn + frameCount) s t) := by
  have hbase := hs.base_le_limit
  have hlimit := hs.limit_lt
  have hcount := hs.frameDescCount
  have hlength := hs.length
  unfold mmPmaFreeFrame at h
  split at h
  . contradiction
  . next hin =>
    simp only [not_or, Nat.not_lt] at hin
    obtain ⟨hlow, hhigh⟩ := hin
    rw [u32_of_lt (n := s.limitPfn + 1) (by omega)] at hhigh
    rw [sub32_of_le hlow hpfn] at h
    unfold forCount at h
    have hmaps := mapsRange_of_forRange (q := fun d => d = pbmAllocated) (f := fun _ => pbmFree)
      (fun j u v _ _ _ hv => freeAt_moves hv) h
    by_cases hzero : u32 (pfn - s.basePfn + frameCount) - (pfn - s.basePfn) = 0
    . left
      rw [hzero] at h
      cases h
      rfl
    . -- the last index of the loop lies inside of the bitmap, so that no sum has wrapped around
      have hlast := hmaps.inside (u32 (pfn - s.basePfn + frameCount) - 1) (by lia) (by lia)
      obtain ⟨d, hd, _⟩ := hlast
      have := desc_isSome hd
      have hsum : u32 (pfn - s.basePfn + frameCount) = pfn - s.basePfn + frameCount := by
        unfold u32 at *
        lia
      rw [hsum] at hmaps
      rw [show pfn - s.basePfn + (pfn - s.basePfn + frameCount - (pfn - s.basePfn))
        = pfn - s.basePfn + frameCount by lia] at hmaps
      right
      refine ⟨hlow, ?_, hmaps⟩
      unfold u32 at *
      lia

/--
The frames counted by the search so far are a run of free ones that ends at index `i`.
-/
structure FreeRun (s : Pma) (i freeCount start : Nat) : Prop where
  ends : freeCount ≠ 0 → start + freeCount = i
  high : freeCount ≠ 0 → 0x100 ≤ s.basePfn + start
  free : ∀ j, start ≤ j → j < start + freeCount → s.desc j = some pbmFree

theorem FreeRun.zero (s : Pma) (i start : Nat) : FreeRun s i 0 start where
  ends := by simp
  high := by simp
  free := by
    intro j h1 h2
    omega

theorem FreeRun.succ {s : Pma} {i freeCount start : Nat} (h : FreeRun s i freeCount start)
    (hi : 0x100 ≤ s.basePfn + i) (hd : s.desc i = some pbmFree)
    : FreeRun s (i + 1) (freeCount + 1) (if freeCount = 0 then i else start) := by
  split
  . next hzero =>
    subst hzero
    constructor
    . omega
    . omega
    . intro j h1 h2
      rw [show j = i by omega]
      exact hd
  . next hne =>
    have := h.ends hne
    constructor
    . omega
    . intro _
      exact h.high hne
    . intro j h1 h2
      by_cases hj : j = i
      . rw [hj]
        exact hd
      . exact h.free j h1 (by lia)

namespace mmPmaAllocateFrame

theorem go_spec {s : Pma} (hs : WellFormed s) (count : Nat) {n i freeCount start : Nat}
    (hi : i + n = s.frameDescCount) (hlt : freeCount < max count 1)
    (hrun : FreeRun s i freeCount start)
    : ∃ freeCount' start', go s count n i freeCount start = .ok ⟨freeCount', start'⟩
        ∧ (count ≤ freeCount'
            → freeCount' ≤ max count 1 ∧ start' + freeCount' ≤ max start s.frameDescCount
              ∧ ∃ i', FreeRun s i' freeCount' start') := by
  have hbase := hs.base_le_limit
  have hlimit := hs.limit_lt
  have hcount := hs.frameDescCount
  induction n generalizing i freeCount start with
  | zero =>
    refine ⟨freeCount, start, rfl, ?_⟩
    intro hge
    refine ⟨by omega, ?_, i, hrun⟩
    by_cases hzero : freeCount = 0
    . lia
    . have := hrun.ends hzero
      lia
  | succ n ih =>
    have hwrap : u32 (s.basePfn + i) = s.basePfn + i := u32_of_lt (by lia)
    unfold go
    rw [hwrap]
    split
    . next hlow =>
      -- a run that has begun lies above the skipped frames
      have hzero : freeCount = 0 := by
        by_contra hne
        have := hrun.ends hne
        have := hrun.high hne
        lia
      subst hzero
      exact ih (by lia) hlt (FreeRun.zero s (i + 1) start)
    . next hhigh =>
      obtain ⟨d, hd⟩ := hs.exists_desc (i := i) (by omega)
      simp only [(pbmGet_eq_ok s i d).mpr hd, bind, Except.bind]
      split
      . next hne => exact ih (by lia) (by lia) (FreeRun.zero s (i + 1) start)
      . next heq =>
        simp only [ne_eq, Decidable.not_not] at heq
        subst heq
        have hnext := hrun.succ (by omega) hd
        split
        . next hdone =>
          refine ⟨_, _, rfl, ?_⟩
          intro _
          refine ⟨by omega, ?_, i + 1, hnext⟩
          have := hnext.ends (by omega)
          lia
        . next hmore =>
          obtain ⟨freeCount', start', hgo, hspec⟩ := ih (by lia) (by lia) hnext
          refine ⟨freeCount', start', hgo, ?_⟩
          intro hge
          obtain ⟨h1, h2, h3⟩ := hspec hge
          refine ⟨h1, ?_, h3⟩
          have := hnext.ends (by omega)
          lia

end mmPmaAllocateFrame

theorem mmPmaAllocateFrame_spec {s : Pma} (hs : WellFormed s) (count : Nat)
    : mmPmaAllocateFrame s count = .ok ⟨.error .insufficientMemory, s⟩
        ∨
      ∃ start t, mmPmaAllocateFrame s count = .ok ⟨.ok (s.basePfn + start), t⟩
        ∧ start + count ≤ s.frameDescCount
        ∧ (count ≠ 0 → 0x100 ≤ s.basePfn + start)
        ∧ MapsRange (fun d => d = pbmFree) (fun _ => pbmAllocated) start (start + count) s t := by
  have hbase := hs.base_le_limit
  have hlimit := hs.limit_lt
  have hcount := hs.frameDescCount
  obtain ⟨freeCount, start, hgo, hspec⟩ := mmPmaAllocateFrame.go_spec hs count
    (n := s.frameDescCount) (i := 0) (by omega) (by omega) (FreeRun.zero s 0 0)
  by_cases hfew : freeCount < count
  . left
    simp [mmPmaAllocateFrame, hgo, hfew, bind, Except.bind]
  . right
    obtain ⟨hle, hend, i, hrun⟩ := hspec (by omega)
    have hmaps : ∃ t, forRange allocateAt count start s = .ok t
        ∧ MapsRange (fun d => d = pbmFree) (fun _ => pbmAllocated) start (start + count) s t := by
      apply forRange_mapsRange hs
      . intro u j d hq hd
        subst hq
        exact allocateAt_of_desc hd
      . lia
      . intro j d h1 h2 hd
        rw [hrun.free j h1 (by omega)] at hd
        cases hd
        rfl
    obtain ⟨t, ht, hmaps⟩ := hmaps
    refine ⟨start, t, ?_, by lia, ?_, hmaps⟩
    . have hfor : forCount allocateAt start count s = .ok t := by
        unfold forCount
        rw [u32_of_lt (by lia)]
        rw [show start + count - start = count by lia]
        exact ht
      simp only [mmPmaAllocateFrame, hgo, hfew, hfor, bind, Except.bind, ↓reduceIte]
      rw [hmaps.range.basePfn]
      rw [u32_of_lt (by lia)]
    . intro hne
      exact hrun.high (by omega)

end Emos
