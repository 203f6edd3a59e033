import Emos.Boot.Mm.Impl.Mm
import Emos.Kernel.Mm.Lemmas.Page

/-!
This module contains what allocating pages at given addresses and storing bytes do to memory.
-/

open Lib

namespace Emos.Boot.Mm

namespace Pma

variable {s t : Pma}

/--
All frames have numbers of 20 bits.
-/
def InRange (s : Pma) : Prop := s.basePfn + s.frameDescCount ≤ 2 ^ 20

def Free (s : Pma) (pfn : Nat) : Prop :=
  ∃ i < s.frameDescCount, pfn = s.basePfn + i ∧ s.desc i = some pbmFree

/--
The frame `pfn` was free and is allocated now.
-/
structure Hands (s : Pma) (pfn : Nat) (t : Pma) : Prop where
  inRange : t.InRange
  free : s.Free pfn
  pfn_lt : pfn < 2 ^ 20
  free_iff : ∀ f, t.Free f ↔ s.Free f ∧ f ≠ pfn

theorem pbmGet_ok {i : Nat} {d : BitVec 2} (h : s.pbmGet i = .ok d) : s.desc i = some d := by
  unfold pbmGet at h
  cases hd : s.desc i with
  | none =>
    rw [hd] at h
    cases h
  | some e =>
    rw [hd] at h
    cases h
    rfl

theorem go_one {n i start freeCount allocStartIdx : Nat}
    (h : mmPmaAllocateFrame.go s 1 n i 0 start = .ok ⟨freeCount, allocStartIdx⟩)
    (hfound : 1 ≤ freeCount)
    : i ≤ allocStartIdx ∧ allocStartIdx < i + n ∧ s.desc allocStartIdx = some pbmFree := by
  induction n generalizing i start with
  | zero =>
    cases h
    omega
  | succ n ih =>
    rw [mmPmaAllocateFrame.go, bind_eq_ok] at h
    obtain ⟨d, hd, h⟩ := h
    split at h
    next =>
      obtain ⟨hlow, hhigh, hdesc⟩ := ih h
      exact ⟨by omega, by omega, hdesc⟩
    next hfree =>
      rw [ne_eq, not_not] at hfree
      simp only [↓reduceIte, Nat.zero_add, Nat.le_refl, ge_iff_le] at h
      cases h
      refine ⟨Nat.le_refl _, by omega, ?_⟩
      rw [pbmGet_ok hd, hfree]

theorem allocateAt_spec {i : Nat} (h : allocateAt s i = .ok t)
    : t.basePfn = s.basePfn ∧ t.frameDescCount = s.frameDescCount
        ∧ ∀ j, t.desc j = if j = i then some pbmAllocated else s.desc j := by
  rw [allocateAt, bind_eq_ok] at h
  obtain ⟨u, hu, h⟩ := h
  cases h
  unfold pbmSet at hu
  split at hu
  next hin =>
    cases hu
    refine ⟨rfl, rfl, ?_⟩
    intro j
    split
    next heq =>
      subst heq
      exact Crumbs.get?_set_eq pbmAllocated hin
    next hne => exact Crumbs.get?_set_ne pbmAllocated hne
  next => cases hu

theorem mmPmaAllocateFrame_hands (hs : s.InRange) {pfn : Nat}
    (h : mmPmaAllocateFrame s 1 = .ok ⟨.ok pfn, t⟩)
    : s.Hands pfn t := by
  rw [mmPmaAllocateFrame, bind_eq_ok] at h
  obtain ⟨⟨freeCount, idx⟩, hgo, h⟩ := h
  dsimp only at h
  split at h
  next => cases h
  next hfound =>
    rw [bind_eq_ok] at h
    obtain ⟨u, hu, h⟩ := h
    cases h
    obtain ⟨_, hlt, hdesc⟩ := go_one hgo (by omega)
    unfold InRange at hs
    rw [u32_of_lt (by omega), show idx + 1 - idx = 1 by omega, forRange, bind_eq_ok] at hu
    obtain ⟨v, hv, hu⟩ := hu
    cases hu
    obtain ⟨hbase, hcount, hdescs⟩ := allocateAt_spec hv
    rw [hbase, u32_of_lt (by omega)]
    refine ⟨?_, ⟨idx, by omega, rfl, hdesc⟩, by omega, ?_⟩
    . unfold InRange
      omega
    . intro f
      unfold Free
      rw [hbase, hcount]
      constructor
      . intro h
        obtain ⟨i, hi, hf, hfree⟩ := h
        rw [hdescs] at hfree
        split at hfree
        next => cases hfree
        next hne => exact ⟨⟨i, hi, hf, hfree⟩, by lia⟩
      . intro h
        obtain ⟨⟨i, hi, hf, hfree⟩, hne⟩ := h
        refine ⟨i, hi, hf, ?_⟩
        rw [hdescs, if_neg (by lia)]
        exact hfree

theorem mmPmaAllocateFrame_error {status : Status} (h : mmPmaAllocateFrame s 1 = .ok ⟨.error status, t⟩)
    : status = .insufficientMemory := by
  rw [mmPmaAllocateFrame, bind_eq_ok] at h
  obtain ⟨⟨freeCount, idx⟩, hgo, h⟩ := h
  dsimp only at h
  split at h
  next =>
    cases h
    rfl
  next =>
    rw [bind_eq_ok] at h
    obtain ⟨u, _, h⟩ := h
    cases h

end Pma

theorem bitsIf_lt (c : Bool) {bits : BitVec 32} (h : bits.toNat < 2 ^ 12)
    : (bitsIf c bits).toNat < 2 ^ 12 := by
  unfold bitsIf
  split
  next => exact h
  next => decide

theorem entryPresent_newEntry (pfn : Nat) (flags : MapFlags) : entryPresent (newEntry pfn flags) = true :=
  PageMemory.entryPresent_or_one _

theorem entryBase_newEntry (pfn : Nat) (flags : MapFlags) : entryBase (newEntry pfn flags) = pfn % 2 ^ 20 := by
  unfold newEntry
  rw [PageMemory.entryBase_or _ (by decide)]
  rw [PageMemory.entryBase_or _ (bitsIf_lt _ (by decide)), PageMemory.entryBase_or _ (bitsIf_lt _ (by decide)),
    PageMemory.entryBase_or _ (bitsIf_lt _ (by decide)), PageMemory.entryBase_or _ (bitsIf_lt _ (by decide)),
    PageMemory.entryBase_or _ (bitsIf_lt _ (by decide))]
  exact PageMemory.entryBase_ofNat pfn

namespace Memory

variable {m m' : Memory}

/--
Page `x` leads to frame `pfn` now. Other pages and the bytes of all frames are kept, and no frame has
become free.
-/
structure MapsPage (m : Memory) (x pfn : Nat) (m' : Memory) : Prop where
  byte : m'.byte = m.byte
  mapped : m'.frame? x = some pfn
  kept : ∀ y < 2 ^ 20, y ≠ x → m'.frame? y = m.frame? y
  inRange : m'.pma.InRange
  free : ∀ f, m'.pma.Free f → m.pma.Free f

theorem finish_mapsPage (m : Memory) {x pfn : Nat} (hx : x < 2 ^ 20) (hpfn : pfn < 2 ^ 20)
    (hpde : entryPresent (m.pde (x / 1024)) = true) (hrange : m.pma.InRange) {flags : MapFlags} {status : Status}
    (h : map.finish pfn x flags m = .ok ⟨status, m'⟩) (hok : status = .success)
    : m.MapsPage x pfn m' := by
  unfold map.finish at h
  simp only [Nat.mod_eq_of_lt hx] at h
  split at h
  next =>
    cases h
    cases hok
  next =>
    cases h
    refine ⟨rfl, ?_, ?_, hrange, fun _ hf => hf⟩
    . unfold frame?
      simp only [Function.update_self]
      rw [if_pos ⟨hpde, entryPresent_newEntry pfn flags⟩, entryBase_newEntry, Nat.mod_eq_of_lt hpfn]
    . intro y _ hne
      unfold frame?
      simp only [Function.update_of_ne hne]

theorem map_mapsPage {x pfn : Nat} (hx : x < 2 ^ 20) (hpfn : pfn < 2 ^ 20) (hrange : m.pma.InRange)
    {flags : MapFlags} {status : Status} (h : map m pfn x flags = .ok ⟨status, m'⟩) (hok : status = .success)
    : m.MapsPage x pfn m' := by
  have hd : x / 1024 % 1024 = x / 1024 := by lia
  unfold map at h
  simp only [hd] at h
  split at h
  next hpde => exact finish_mapsPage m hx hpfn hpde hrange h hok
  next hpde =>
    rw [bind_eq_ok] at h
    obtain ⟨⟨res, pma⟩, hpma, h⟩ := h
    cases res with
    | error status' =>
      rw [Pma.mmPmaAllocateFrame_error hpma] at h
      cases h
      cases hok
    | ok newPtPfn =>
      have hhands := Pma.mmPmaAllocateFrame_hands hrange hpma
      have hmaps := finish_mapsPage _ hx hpfn (by simp [entryPresent]) hhands.inRange h hok
      refine ⟨hmaps.byte, hmaps.mapped, ?_, hmaps.inRange, ?_⟩
      . intro y hy hne
        rw [hmaps.kept y hy hne]
        unfold frame?
        dsimp only
        by_cases htable : y / 1024 = x / 1024
        . -- the page is of the new table and was not present
          have hzero : entryPresent 0#32 = false := rfl
          simp [htable, hpde, hzero]
        . simp [htable]
      . intro f hf
        exact ((hhands.free_iff f).mp (hmaps.free f hf)).1

theorem mmVpnToPfn_eq {x : Nat} (hx : x < 2 ^ 20)
    : mmVpnToPfn m x
        =
      match m.frame? x with
      | none => .error .pageNotPresent
      | some pfn => .ok pfn := by
  have hd : x / 1024 % 1024 = x / 1024 := by lia
  unfold mmVpnToPfn frame?
  rw [hd, Nat.mod_eq_of_lt hx]
  by_cases hpde : entryPresent (m.pde (x / 1024)) = true
  . by_cases hpte : entryPresent (m.pte x) = true
    . simp [hpde, hpte]
    . simp [hpde, hpte]
  . simp [hpde]

theorem mmMap_one {x pfn : Nat} (hx : x < 2 ^ 20) (hpfn : pfn < 2 ^ 20) (flags : MapFlags)
    {status : Status} (h : mmMap m pfn x 1 flags = .ok ⟨status, m'⟩) (hok : status = .success)
    : ∃ status', map m pfn x flags = .ok ⟨status', m'⟩ ∧ status' = .success := by
  rw [mmMap, mmMap.go, Nat.add_zero, Nat.add_zero, u32_of_lt (by omega), u32_of_lt (by omega),
    bind_eq_ok] at h
  obtain ⟨⟨status', m''⟩, hmap, h⟩ := h
  dsimp only at h
  split at h
  next hsuccess =>
    cases h
    exact ⟨status', hmap, hsuccess⟩
  next hfailure =>
    cases h
    exact absurd hok hfailure

/--
The pages from `x` on that are mapped lead to distinct frames, none of which is free.
-/
structure Apart (m : Memory) (x n : Nat) : Prop where
  inRange : m.pma.InRange
  injective : ∀ y z f, x ≤ y → y < x + n → x ≤ z → z < x + n → m.frame? y = some f
    → m.frame? z = some f → y = z
  owned : ∀ y f, x ≤ y → y < x + n → m.frame? y = some f → ¬ m.pma.Free f

/--
What allocating the first pages of a range has done so far.
-/
structure Allocates (m : Memory) (x n : Nat) (m' : Memory) : Prop where
  byte : m'.byte = m.byte
  apart : m'.Apart x n
  kept : ∀ y f, y < 2 ^ 20 → m.frame? y = some f → m'.frame? y = some f

theorem allocatePageTo_allocates {x n y : Nat} (hle : x + n ≤ 2 ^ 20) (hlt : y < x + n)
    (hapart : m.Apart x n) {status : Status} (h : allocatePageTo m y = .ok ⟨status, m'⟩)
    (hok : status = .success)
    : m.Allocates x n m' ∧ ∃ f, m'.frame? y = some f := by
  unfold allocatePageTo at h
  rw [mmVpnToPfn_eq (by omega)] at h
  cases hframe : m.frame? y with
  | some pfn =>
    rw [hframe] at h
    cases h
    exact ⟨⟨rfl, hapart, fun _ _ _ hf => hf⟩, pfn, hframe⟩
  | none =>
    rw [hframe] at h
    dsimp only at h
    rw [if_neg (by simp), bind_eq_ok] at h
    obtain ⟨⟨res, pma⟩, hpma, h⟩ := h
    cases res with
    | error status' =>
      rw [Pma.mmPmaAllocateFrame_error hpma] at h
      cases h
      cases hok
    | ok pfn =>
      have hhands := Pma.mmPmaAllocateFrame_hands hapart.inRange hpma
      obtain ⟨status', hmap, hstatus⟩ := mmMap_one (by omega) hhands.pfn_lt pmfDefault h hok
      have hmaps := map_mapsPage (by omega) hhands.pfn_lt hhands.inRange hmap hstatus
      -- the frame was free, so no page of the range leads to it yet
      have hfresh : ∀ z, x ≤ z → z < x + n → m.frame? z ≠ some pfn := by
        intro z h1 h2 hz
        exact hapart.owned z pfn h1 h2 hz hhands.free
      have hkept : ∀ z, z < 2 ^ 20 → z ≠ y → m'.frame? z = m.frame? z := hmaps.kept
      refine ⟨⟨hmaps.byte, ⟨hmaps.inRange, ?_, ?_⟩, ?_⟩, pfn, hmaps.mapped⟩
      . intro z w f hz1 hz2 hw1 hw2 hz hw
        by_cases hzy : z = y
        . by_cases hwy : w = y
          . omega
          . rw [hkept w (by omega) hwy] at hw
            rw [hzy, hmaps.mapped] at hz
            cases hz
            exact absurd hw (hfresh w hw1 hw2)
        . rw [hkept z (by omega) hzy] at hz
          by_cases hwy : w = y
          . rw [hwy, hmaps.mapped] at hw
            cases hw
            exact absurd hz (hfresh z hz1 hz2)
          . rw [hkept w (by omega) hwy] at hw
            exact hapart.injective z w f hz1 hz2 hw1 hw2 hz hw
      . intro z f hz1 hz2 hz hfree
        have hfree' := (hhands.free_iff f).mp (hmaps.free f hfree)
        by_cases hzy : z = y
        . rw [hzy, hmaps.mapped] at hz
          cases hz
          exact hfree'.2 rfl
        . rw [hkept z (by omega) hzy] at hz
          exact hapart.owned z f hz1 hz2 hz hfree'.1
      . intro z f hz hframe'
        rw [hkept z hz]
        . exact hframe'
        . intro heq
          rw [heq, hframe] at hframe'
          cases hframe'

theorem mmAllocatePagesTo_allocates {x n : Nat} (hle : x + n ≤ 2 ^ 20) (hapart : m.Apart x n)
    {status : Status} (h : mmAllocatePagesTo m x n = .ok ⟨status, m'⟩) (hok : status = .success)
    : m.Allocates x n m' ∧ ∀ y, x ≤ y → y < x + n → ∃ f, m'.frame? y = some f := by
  have hgo : ∀ k i m0, i + k = n → m0.Apart x n → mmAllocatePagesTo.go x k i m0 = .ok ⟨status, m'⟩
      → m0.Allocates x n m' ∧ ∀ y, x + i ≤ y → y < x + n → ∃ f, m'.frame? y = some f := by
    intro k
    induction k with
    | zero =>
      intro i m0 hi hapart0 hrun
      cases hrun
      refine ⟨⟨rfl, hapart0, fun _ _ _ hf => hf⟩, ?_⟩
      intro y h1 h2
      omega
    | succ k ih =>
      intro i m0 hi hapart0 hrun
      rw [mmAllocatePagesTo.go, u32_of_lt (by omega), bind_eq_ok] at hrun
      obtain ⟨⟨status', m1⟩, hpage, hrun⟩ := hrun
      dsimp only at hrun
      split at hrun
      next hstatus =>
        obtain ⟨hfirst, f, hf⟩ := allocatePageTo_allocates hle (by omega) hapart0 hpage hstatus
        obtain ⟨hrest, hmapped⟩ := ih (i + 1) m1 (by omega) hfirst.apart hrun
        refine ⟨⟨hrest.byte.trans hfirst.byte, hrest.apart, ?_⟩, ?_⟩
        . intro y f hy hframe
          exact hrest.kept y f hy (hfirst.kept y f hy hframe)
        . intro y h1 h2
          by_cases heq : y = x + i
          . subst heq
            exact ⟨f, hrest.kept _ f (by omega) hf⟩
          . exact hmapped y (by omega) h2
      next hstatus =>
        cases hrun
        exact absurd hok hstatus
  obtain ⟨hallocates, hmapped⟩ := hgo n 0 m (by omega) hapart h
  exact ⟨hallocates, hmapped⟩

variable {a n : Nat} {g : Nat → BitVec 8}

@[simp]
theorem place?_of_frame? (h : m'.frame? = m.frame?) : m'.place? = m.place? := by
  funext x
  unfold place?
  rw [h]

theorem store_place {b : BitVec 8} {f o : Nat} (h : m.store a b = .ok m')
    : m'.frame? = m.frame? ∧ (m.place? a ≠ some (f, o) → m'.byte f o = m.byte f o)
        ∧ (m.place? a = some (f, o) → m'.byte f o = b) := by
  unfold store at h
  cases hplace : m.place? a with
  | none =>
    rw [hplace] at h
    cases h
  | some q =>
    rw [hplace] at h
    cases h
    refine ⟨rfl, ?_, ?_⟩
    . intro hne
      dsimp only
      by_cases hf : f = q.1
      . subst hf
        rw [Function.update_self, Function.update_of_ne]
        intro ho
        exact hne (by rw [ho])
      . rw [Function.update_of_ne hf]
    . intro heq
      cases heq
      dsimp only
      rw [Function.update_self, Function.update_self]

theorem exists_store (b : BitVec 8) {q : Nat × Nat} (h : m.place? a = some q) : ∃ m', m.store a b = .ok m' := by
  unfold store
  rw [h]
  exact ⟨_, rfl⟩

/--
The first `k` bytes of a range have been stored.
-/
structure Stored (m : Memory) (a k : Nat) (g : Nat → BitVec 8) (m' : Memory) : Prop where
  frame : m'.frame? = m.frame?
  outside : ∀ f o, (∀ i < k, m.place? (a + i) ≠ some (f, o)) → m'.byte f o = m.byte f o
  inside : ∀ i < k, ∀ f o, m.place? (a + i) = some (f, o)
    → (∀ j, i < j → j < k → m.place? (a + j) ≠ some (f, o)) → m'.byte f o = g i

theorem storeAll_stored (hle : a + n ≤ 2 ^ 32) (h : m.storeAll a n g = .ok m') : m.Stored a n g m' := by
  have hrun := forRange_invariant (fun k t => m.Stored a k g t) (i := 0) ?step h ?first
  case first =>
    refine ⟨rfl, fun _ _ _ => rfl, ?_⟩
    intro i hi
    omega
  case step =>
    intro k t t' _ hk ht hstore
    rw [u32_of_lt (by omega)] at hstore
    have hplace := place?_of_frame? ht.frame
    refine ⟨(store_place (f := 0) (o := 0) hstore).1.trans ht.frame, ?_, ?_⟩
    . intro f o hnone
      rw [(store_place hstore).2.1]
      . exact ht.outside f o (fun i hi => hnone i (by omega))
      . rw [hplace]
        exact hnone k (by omega)
    . intro i hi f o hat hlater
      by_cases heq : i = k
      . subst heq
        apply (store_place hstore).2.2
        rw [hplace]
        exact hat
      . rw [(store_place hstore).2.1]
        . exact ht.inside i (by omega) f o hat (fun j h1 h2 => hlater j h1 (by omega))
        . rw [hplace]
          exact hlater k (by omega) (by omega)
  rw [Nat.zero_add] at hrun
  exact hrun

theorem exists_storeAll (hle : a + n ≤ 2 ^ 32) (h : ∀ i < n, ∃ q, m.place? (a + i) = some q)
    : ∃ m', m.storeAll a n g = .ok m' := by
  have hrun : ∃ m', m.storeAll a n g = .ok m' ∧ m'.frame? = m.frame? := by
    unfold storeAll
    apply forRange_total (fun _ (t : Memory) => t.frame? = m.frame?) _ rfl
    intro j t _ hj ht
    obtain ⟨q, hq⟩ := h j (by omega)
    rw [← place?_of_frame? ht] at hq
    rw [u32_of_lt (by omega)]
    obtain ⟨t', ht'⟩ := exists_store (g j) hq
    exact ⟨t', ht', (store_place (f := 0) (o := 0) ht').1.trans ht⟩
  obtain ⟨m', hm', -⟩ := hrun
  exact ⟨m', hm'⟩

end Memory

end Emos.Boot.Mm
