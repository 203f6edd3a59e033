import Emos.Boot.Mm.Impl.Mm
import Emos.Kernel.Mm.Lemmas.Pma
import Emos.Lib.FirstFit
import Emos.Lib.Trace

/-!
This module contains which sequences of calls the allocator of the boot loader handles. Its
descriptors and counters are those of an allocator of the kernel that manages as many frames.
-/

open Lib

namespace Emos.Boot.Mm

open Emos.Pma (MapsRange Moves SameRange)

namespace Pma

variable {s t : Pma}

/--
The allocator of the kernel for the frames that have a descriptor.
-/
def view (s : Pma) : Emos.Pma where
  bitmap := s.bitmap
  frameDescCount := s.frameDescCount
  availableFrames := s.availableFrames
  freeFrames := s.freeFrames
  basePfn := s.basePfn
  limitPfn := s.basePfn + s.frameDescCount - 1
  bitmapPfnList := []

/--
The allocator was set up for the frames from `basePfn` to `limitPfn`, and its counters are the number
of free and of usable descriptors.
-/
structure Manages (s : Pma) (basePfn limitPfn : Nat) : Prop where
  counted : s.view.Counted
  lt : basePfn < limitPfn
  limit_lt : limitPfn < 2 ^ 20
  base : s.basePfn = basePfn
  limit : s.limitPfn = limitPfn
  count : s.frameDescCount = limitPfn - basePfn

/--
The descriptors from `lo` up to `hi` satisfied `q` and went through `f`, and nothing else happened.
-/
structure Maps (q : BitVec 2 → Prop) (f : BitVec 2 → BitVec 2) (lo hi : Nat) (s t : Pma) : Prop where
  limit : t.limitPfn = s.limitPfn
  view : MapsRange q f lo hi s.view t.view

theorem Manages.of_maps {basePfn limitPfn lo hi : Nat} {q : BitVec 2 → Prop} {f : BitVec 2 → BitVec 2}
    (hs : s.Manages basePfn limitPfn) (h : Maps q f lo hi s t) (hhi : hi ≤ s.frameDescCount)
    : t.Manages basePfn limitPfn where
  counted := h.view.counted hs.counted hhi
  lt := hs.lt
  limit_lt := hs.limit_lt
  base := h.view.range.basePfn.trans hs.base
  limit := h.limit.trans hs.limit
  count := h.view.range.frameDescCount.trans hs.count

theorem pbmGet_of_desc {i : Nat} {d : BitVec 2} (hd : s.desc i = some d) : s.pbmGet i = .ok d := by
  unfold pbmGet
  rw [hd]

theorem pbmSet_of_desc {i : Nat} {d : BitVec 2} (hd : s.desc i = some d) (v : BitVec 2)
    : s.pbmSet i v = .ok { s with bitmap := Crumbs.set s.bitmap i v } := by
  have hi : i / 4 < s.bitmap.length := Emos.Pma.desc_isSome (s := s.view) hd
  unfold pbmSet
  rw [if_pos hi]

theorem forRange_maps {q : BitVec 2 → Prop} {f : BitVec 2 → BitVec 2} {body : Pma → Nat → Run Pma}
    (hs : s.view.WellFormed)
    (hbody : ∀ u j d, q d → u.desc j = some d
      → ∃ v, body u j = .ok v ∧ v.limitPfn = u.limitPfn ∧ Moves u.view j d (f d) v.view)
    {n lo : Nat} (hle : lo + n ≤ s.frameDescCount)
    (hq : ∀ j d, lo ≤ j → j < lo + n → s.desc j = some d → q d)
    : ∃ t, forRange body n lo s = .ok t ∧ Maps q f lo (lo + n) s t := by
  suffices ∃ t, forRange body n lo s = .ok t ∧ lo ≤ lo + n ∧ Maps q f lo (lo + n) s t by
    obtain ⟨t, ht, _, hmaps⟩ := this
    exact ⟨t, ht, hmaps⟩
  apply forRange_total (fun j u => lo ≤ j ∧ Maps q f lo j s u)
  . intro j u hlo hlt ⟨_, hu⟩
    have hin : j < s.view.frameDescCount := Nat.lt_of_lt_of_le hlt hle
    obtain ⟨d, hd⟩ := hs.exists_desc hin
    have hkept : u.desc j = some d := (hu.view.outside j (by omega)).trans hd
    obtain ⟨v, hv, hlimit, hmoves⟩ := hbody u j d (hq j d hlo hlt hd) hkept
    exact ⟨v, hv, by omega, hlimit.trans hu.limit, hu.view.moves hlo hmoves (hq j d hlo hlt hd)⟩
  . exact ⟨Nat.le_refl lo, rfl, MapsRange.refl q f lo s.view⟩

theorem markReservedAt_of_desc {i : Nat} {d : BitVec 2} (hd : s.desc i = some d)
    : ∃ t, markReservedAt s i = .ok t ∧ t.limitPfn = s.limitPfn ∧ Moves s.view i d pbmReserved t.view := by
  by_cases hres : d = pbmReserved
  . refine ⟨s, ?_, rfl, ?_⟩
    . simp [markReservedAt, pbmGet_of_desc hd, hres, bind, Except.bind]
    . rw [hres] at hd ⊢
      exact Moves.refl hd
  . let freeFrames := if d = pbmFree then sub32 s.freeFrames 1 else s.freeFrames
    let bitmap := Crumbs.set s.bitmap i pbmReserved
    refine ⟨{ s with bitmap, freeFrames, availableFrames := sub32 s.availableFrames 1 }, ?_, rfl, ?_⟩
    . simp [markReservedAt, pbmGet_of_desc hd, hres, pbmSet_of_desc hd, bind, Except.bind, freeFrames,
        bitmap]
    . apply Moves.of_withDesc (s := s.view) hd
      . simp [freeFrames, view]
      . simp [hres, view]

theorem allocateAt_of_desc {i : Nat} (hd : s.desc i = some pbmFree)
    : ∃ t, allocateAt s i = .ok t ∧ t.limitPfn = s.limitPfn ∧ Moves s.view i pbmFree pbmAllocated t.view := by
  let bitmap := Crumbs.set s.bitmap i pbmAllocated
  refine ⟨{ s with bitmap, freeFrames := sub32 s.freeFrames 1 }, ?_, rfl, ?_⟩
  . simp [allocateAt, pbmSet_of_desc hd, bind, Except.bind, bitmap]
  . apply Moves.of_withDesc (s := s.view) hd
    . simp [view]
    . simp [view]

def freed (d : BitVec 2) : BitVec 2 := if d = pbmAllocated then pbmFree else d

theorem freeAt_of_desc {i : Nat} {d : BitVec 2} (hd : s.desc i = some d)
    : ∃ t, freeAt s i = .ok t ∧ t.limitPfn = s.limitPfn ∧ Moves s.view i d (freed d) t.view := by
  by_cases halloc : d = pbmAllocated
  . subst halloc
    let bitmap := Crumbs.set s.bitmap i pbmFree
    refine ⟨{ s with bitmap, freeFrames := u32 (s.freeFrames + 1) }, ?_, rfl, ?_⟩
    . simp [freeAt, pbmGet_of_desc hd, pbmSet_of_desc hd, bind, Except.bind, bitmap]
    . apply Moves.of_withDesc (s := s.view) hd
      . simp [view, freed]
      . simp [view, freed]
  . refine ⟨s, ?_, rfl, ?_⟩
    . simp [freeAt, pbmGet_of_desc hd, halloc, bind, Except.bind]
    . unfold freed
      rw [if_neg halloc]
      exact Moves.refl hd

theorem go_spec (hs : s.view.WellFormed) {count n i freeCount start : Nat}
    (hi : i + n = s.frameDescCount)
    (hscan : Scanned (fun j => s.desc j = some pbmFree) count i freeCount start)
    : ∃ freeCount' start', mmPmaAllocateFrame.go s count n i freeCount start = .ok ⟨freeCount', start'⟩
        ∧ (count ≤ freeCount'
            → FirstRun (fun j => s.desc j = some pbmFree) count s.frameDescCount start')
        ∧ (freeCount' < count
            → ∀ b, b + count ≤ s.frameDescCount → ¬ RunAt (fun j => s.desc j = some pbmFree) count b) := by
  induction n generalizing i freeCount start with
  | zero =>
    refine ⟨freeCount, start, rfl, ?_, ?_⟩
    . intro hge
      have := hscan.short
      omega
    . intro _ b hb
      exact hscan.none b (by omega)
  | succ n ih =>
    have hin : i < s.view.frameDescCount := by
      change i < s.frameDescCount
      omega
    obtain ⟨d, hd⟩ := hs.exists_desc hin
    change s.desc i = some d at hd
    unfold mmPmaAllocateFrame.go
    simp only [pbmGet_of_desc hd, bind, Except.bind]
    split
    . next hne =>
      apply ih (by omega)
      apply hscan.miss
      simpa [hd] using hne
    . next heq =>
      rw [ne_eq, not_not] at heq
      subst heq
      split
      . next hdone => exact ⟨_, _, rfl, fun _ => hscan.found hd hdone hin, fun hfew => by omega⟩
      . next hmore => exact ih (by omega) (hscan.hit hd (by omega))

theorem mmPmaAllocateFrame_maps {basePfn limitPfn count : Nat} (hs : s.Manages basePfn limitPfn)
    (hcount : 1 ≤ count) {freeCount start : Nat}
    (hgo : mmPmaAllocateFrame.go s count s.frameDescCount 0 0 0 = .ok ⟨freeCount, start⟩)
    (hfound : count ≤ freeCount)
    : u32 (start + count) = start + count ∧ start + count ≤ s.frameDescCount
        ∧ ∃ t, forRange allocateAt count start s = .ok t
          ∧ Maps (fun d => d = pbmFree) (fun _ => pbmAllocated) start (start + count) s t := by
  obtain ⟨freeCount', start', hgo', hspec, _⟩ := go_spec hs.counted.toWellFormed
    (Nat.zero_add s.frameDescCount) (Scanned.zero hcount 0)
  rw [hgo] at hgo'
  cases hgo'
  have hrun := hspec hfound
  have hfits := hrun.fits
  have := hs.count
  have := hs.limit_lt
  refine ⟨u32_of_lt (by lia), hfits, ?_⟩
  apply forRange_maps hs.counted.toWellFormed _ hfits
  . intro j d hlo hhi hd
    rw [hrun.run j hlo hhi] at hd
    cases hd
    rfl
  . intro u j d hq hd
    subst hq
    exact allocateAt_of_desc hd

end Pma

/--
A call of one of the three functions that change frame descriptors.
-/
inductive PmaCall where
  | mark (basePaddr limitPaddr : Nat)
  | allocate (count : Nat)
  | free (pfn frameCount : Nat)
  deriving DecidableEq, Repr

namespace PmaCall

/--
The arguments are values of the 32 bit types, at least one frame is asked for, and marked ranges meet
the managed one.
-/
def Admissible (basePfn limitPfn : Nat) : PmaCall → Prop
  | .mark basePaddr limitPaddr =>
    basePaddr ≤ limitPaddr ∧ limitPaddr < 2 ^ 32 ∧ basePaddr / pageSize ≤ limitPfn
      ∧ basePfn ≤ limitPaddr / pageSize
  | .allocate count => 1 ≤ count ∧ count < 2 ^ 32
  | .free pfn frameCount => pfn < 2 ^ 32 ∧ frameCount < 2 ^ 32

instance (basePfn limitPfn : Nat) : (c : PmaCall) → Decidable (c.Admissible basePfn limitPfn)
  | .mark _ _ => inferInstanceAs (Decidable (_ ∧ _ ∧ _ ∧ _))
  | .allocate _ => inferInstanceAs (Decidable (_ ∧ _))
  | .free _ _ => inferInstanceAs (Decidable (_ ∧ _))

end PmaCall

namespace Pma

variable {s t : Pma}

def call (s : Pma) : PmaCall → Run Pma
  | .mark basePaddr limitPaddr => mmPmaMarkReserved s basePaddr limitPaddr
  | .allocate count => do
    let ⟨_, s⟩ ← mmPmaAllocateFrame s count
    .ok s
  | .free pfn frameCount => mmPmaFreeFrame s pfn frameCount

/--
The indices that the loops of a call run over.
-/
def Touches (s : Pma) (i : Nat) : PmaCall → Prop
  | .mark basePaddr limitPaddr =>
    (markBounds s basePaddr limitPaddr).1 ≤ i ∧ i ≤ (markBounds s basePaddr limitPaddr).2
  | .allocate count =>
    i < s.frameDescCount
      ∨
    ∃ freeCount start, mmPmaAllocateFrame.go s count s.frameDescCount 0 0 0 = .ok ⟨freeCount, start⟩
      ∧ count ≤ freeCount ∧ start ≤ i ∧ i < u32 (start + count)
  | .free pfn frameCount => ∃ lo hi, freeBounds s pfn frameCount = some ⟨lo, hi⟩ ∧ lo ≤ i ∧ i < hi

/--
The frames of the managed range that a request to free `frameCount` frames names.
-/
def Requested (s : Pma) (pfn frameCount i : Nat) : Prop :=
  i < s.frameDescCount ∧ pfn ≤ s.basePfn + i ∧ s.basePfn + i < pfn + frameCount

/--
The call returns, touches only descriptors that exist, leaves both counters right, and if it is a request
to free frames, just those that it names and that are allocated have become free.
-/
structure Sound (s : Pma) (c : PmaCall) (t : Pma) : Prop where
  returns : s.call c = .ok t
  touched : ∀ i, s.Touches i c → i < s.frameDescCount
  freeFrames : t.freeFrames = countBelow t.frameDescCount fun i => t.desc i = some pbmFree
  availableFrames : t.availableFrames = countBelow t.frameDescCount fun i => t.desc i ≠ some pbmReserved
  frees : ∀ pfn frameCount, c = .free pfn frameCount → ∀ i < s.frameDescCount,
    (s.Requested pfn frameCount i ∧ s.desc i = some pbmAllocated → t.desc i = some pbmFree)
      ∧ (¬ (s.Requested pfn frameCount i ∧ s.desc i = some pbmAllocated) → t.desc i = s.desc i)

/--
No frame from `lo` up to `hi` is allocated.
-/
def NoneAllocated (s : Pma) (lo hi : Nat) : Prop :=
  ∀ i < s.frameDescCount, lo ≤ s.basePfn + i → s.basePfn + i < hi → s.desc i ≠ some pbmAllocated

/--
A marked range ends below the frame of the limit. A request to free frames ends below it as well, or
names no allocated frame, or what is left of it after its length was reduced ends below the limit
and what it misses is not allocated.
-/
def Fits (s : Pma) : PmaCall → Prop
  | .mark _ limitPaddr => limitPaddr / pageSize < s.limitPfn
  | .allocate _ => True
  | .free pfn frameCount =>
    if pfn < s.basePfn then
      s.NoneAllocated pfn (pfn + frameCount)
    else if pfn > s.limitPfn ∨ pfn + frameCount ≤ s.limitPfn then
      True
    else if pfn + frameCount = s.limitPfn + 1 then
      False
    else if pfn + frameCount < 2 ^ 32 then
      2 * pfn + frameCount ≤ 2 * s.limitPfn + 1
        ∧ s.NoneAllocated (2 * pfn + frameCount - (s.limitPfn + 1)) s.limitPfn
    else
      2 ^ 32 + s.basePfn ≤ pfn + frameCount ∧ s.NoneAllocated pfn s.limitPfn

instance (s : Pma) (lo hi : Nat) : Decidable (s.NoneAllocated lo hi) := by
  unfold NoneAllocated
  infer_instance

instance (s : Pma) : (c : PmaCall) → Decidable (Fits s c)
  | .mark _ _ => by
    unfold Fits
    infer_instance
  | .allocate _ => .isTrue trivial
  | .free _ _ => by
    unfold Fits
    infer_instance

section

variable {basePfn limitPfn : Nat}

theorem Manages.counters (hs : s.Manages basePfn limitPfn)
    : s.freeFrames = (countBelow s.frameDescCount fun i => s.desc i = some pbmFree)
        ∧ s.availableFrames = countBelow s.frameDescCount fun i => s.desc i ≠ some pbmReserved :=
  ⟨hs.counted.freeFrames, hs.counted.availableFrames⟩

theorem markBounds_eq (hs : s.Manages basePfn limitPfn) {basePaddr limitPaddr : Nat}
    (hadm : (PmaCall.mark basePaddr limitPaddr).Admissible basePfn limitPfn)
    : markBounds s basePaddr limitPaddr
        =
      ⟨max (basePaddr / pageSize) basePfn - basePfn, min (limitPaddr / pageSize) limitPfn - basePfn⟩ := by
  obtain ⟨_, _, hbase, hlimit⟩ := hadm
  have := hs.lt
  have := hs.limit_lt
  unfold markBounds
  simp only [hs.base, hs.limit, Prod.mk.injEq]
  constructor
  . rw [sub32_of_le] <;> split <;> lia
  . rw [sub32_of_le] <;> split <;> lia

theorem mark_maps (hs : s.Manages basePfn limitPfn) {lo hi basePaddr limitPaddr : Nat}
    (hbounds : markBounds s basePaddr limitPaddr = ⟨lo, hi⟩) (hle : lo ≤ hi) (hhi : hi < s.frameDescCount)
    : ∃ t, mmPmaMarkReserved s basePaddr limitPaddr = .ok t
        ∧ Maps (fun _ => True) (fun _ => pbmReserved) lo (hi + 1) s t := by
  have hcount := hs.count
  have := hs.limit_lt
  have hmaps : ∃ t, forRange markReservedAt (hi + 1 - lo) lo s = .ok t
      ∧ Maps (fun _ => True) (fun _ => pbmReserved) lo (lo + (hi + 1 - lo)) s t := by
    apply forRange_maps hs.counted.toWellFormed
    . intro u j d _ hd
      exact markReservedAt_of_desc hd
    . omega
    . simp
  obtain ⟨t, ht, hmaps⟩ := hmaps
  rw [show lo + (hi + 1 - lo) = hi + 1 by lia] at hmaps
  refine ⟨t, ?_, hmaps⟩
  simp only [mmPmaMarkReserved, hbounds]
  rw [bind_eq_ok]
  refine ⟨t, ht, ?_⟩
  rw [if_neg (by lia)]

theorem mark_sound (hs : s.Manages basePfn limitPfn) {lo hi basePaddr limitPaddr : Nat}
    (hbounds : markBounds s basePaddr limitPaddr = ⟨lo, hi⟩) (hle : lo ≤ hi) (hhi : hi < s.frameDescCount)
    : ∃ t, Sound s (.mark basePaddr limitPaddr) t ∧ t.Manages basePfn limitPfn := by
  obtain ⟨t, ht, hmaps⟩ := mark_maps hs hbounds hle hhi
  have hs' := hs.of_maps hmaps hhi
  refine ⟨t, ⟨ht, ?_, hs'.counters.1, hs'.counters.2, ?_⟩, hs'⟩
  . intro i hi
    simp only [Touches, hbounds] at hi
    omega
  . intro pfn frameCount h
    cases h

theorem mark_sound_iff (hs : s.Manages basePfn limitPfn) {basePaddr limitPaddr : Nat}
    (hadm : (PmaCall.mark basePaddr limitPaddr).Admissible basePfn limitPfn)
    : (∃ t, Sound s (.mark basePaddr limitPaddr) t) ↔ Fits s (.mark basePaddr limitPaddr) := by
  have hbounds := markBounds_eq hs hadm
  obtain ⟨hle, _, hbase, hlimit⟩ := hadm
  have hpages : basePaddr / pageSize ≤ limitPaddr / pageSize := Nat.div_le_div_right hle
  have := hs.lt
  have hcount := hs.count
  unfold Fits
  rw [hs.limit]
  constructor
  . intro ⟨t, ht⟩
    have htop := ht.touched (min (limitPaddr / pageSize) limitPfn - basePfn)
    simp only [Touches, hbounds] at htop
    lia
  . intro hlt
    obtain ⟨t, ht, _⟩ := mark_sound hs hbounds (by lia) (by lia)
    exact ⟨t, ht⟩

theorem allocate_sound (hs : s.Manages basePfn limitPfn) {count : Nat} (hcount : 1 ≤ count)
    : ∃ t, Sound s (.allocate count) t ∧ t.Manages basePfn limitPfn := by
  obtain ⟨freeCount, start, hgo, _⟩ := go_spec hs.counted.toWellFormed
    (Nat.zero_add s.frameDescCount) (Scanned.zero hcount 0)
  by_cases hfew : freeCount < count
  . refine ⟨s, ⟨?_, ?_, hs.counters.1, hs.counters.2, ?_⟩, hs⟩
    . simp [call, mmPmaAllocateFrame, hgo, hfew, bind, Except.bind]
    . intro i hi
      cases hi with
      | inl hsearch => exact hsearch
      | inr hmark =>
        obtain ⟨_, _, hgo', hge, _⟩ := hmark
        rw [hgo] at hgo'
        cases hgo'
        omega
    . intro pfn frameCount h
      cases h
  . rw [Nat.not_lt] at hfew
    obtain ⟨hsum, hle, t, ht, hmaps⟩ := mmPmaAllocateFrame_maps hs hcount hgo hfew
    have hs' := hs.of_maps hmaps hle
    refine ⟨t, ⟨?_, ?_, hs'.counters.1, hs'.counters.2, ?_⟩, hs'⟩
    . have hrounds : start + count - start = count := by omega
      simp [call, mmPmaAllocateFrame, hgo, Nat.not_lt.mpr hfew, hsum, hrounds, ht, bind, Except.bind]
    . intro i hi
      cases hi with
      | inl hsearch => exact hsearch
      | inr hmark =>
        obtain ⟨_, _, hgo', _, _, hlt⟩ := hmark
        rw [hgo] at hgo'
        cases hgo'
        omega
    . intro pfn frameCount h
      cases h

theorem NoneAllocated.congr {lo hi hi' : Nat} (h : s.basePfn + s.frameDescCount ≤ hi)
    (h' : s.basePfn + s.frameDescCount ≤ hi')
    : s.NoneAllocated lo hi ↔ s.NoneAllocated lo hi' := by
  constructor
  . intro hnone i hi hlo _
    exact hnone i hi hlo (by omega)
  . intro hnone i hi hlo _
    exact hnone i hi hlo (by omega)

theorem NoneAllocated.of_le {lo hi : Nat} (h : hi ≤ lo) : s.NoneAllocated lo hi := by
  intro i _ hlo hhi
  omega

theorem free_none_sound (hs : s.Manages basePfn limitPfn) {pfn frameCount : Nat}
    (hbounds : freeBounds s pfn frameCount = none) (hnone : s.NoneAllocated pfn (pfn + frameCount))
    : Sound s (.free pfn frameCount) s := by
  refine ⟨?_, ?_, hs.counters.1, hs.counters.2, ?_⟩
  . simp [call, mmPmaFreeFrame, hbounds]
  . intro i ⟨_, _, hbounds', _⟩
    rw [hbounds] at hbounds'
    cases hbounds'
  . intro _ _ h i hi
    cases h
    refine ⟨?_, fun _ => rfl⟩
    intro ⟨hreq, halloc⟩
    exact absurd halloc (hnone i hi hreq.2.1 hreq.2.2)

theorem free_none_sound_iff (hs : s.Manages basePfn limitPfn) {pfn frameCount : Nat}
    (hbounds : freeBounds s pfn frameCount = none)
    : (∃ t, Sound s (.free pfn frameCount) t) ↔ s.NoneAllocated pfn (pfn + frameCount) := by
  constructor
  . intro ⟨t, ht⟩ i hi hlo hhi halloc
    have hreturns := ht.returns
    simp only [call, mmPmaFreeFrame, hbounds, Except.ok.injEq] at hreturns
    subst hreturns
    have hfree := (ht.frees pfn frameCount rfl i hi).1 ⟨⟨hi, hlo, hhi⟩, halloc⟩
    rw [halloc] at hfree
    cases hfree
  . intro hnone
    exact ⟨s, free_none_sound hs hbounds hnone⟩

theorem free_maps (hs : s.Manages basePfn limitPfn) {pfn frameCount lo hi : Nat}
    (hbounds : freeBounds s pfn frameCount = some ⟨lo, hi⟩) (hhi : lo < hi → hi ≤ s.frameDescCount)
    : ∃ t, mmPmaFreeFrame s pfn frameCount = .ok t
        ∧ (t = s ∧ hi ≤ lo ∨ hi ≤ s.frameDescCount ∧ Maps (fun _ => True) freed lo hi s t) := by
  by_cases hlt : lo < hi
  . have hmaps : ∃ t, forRange freeAt (hi - lo) lo s = .ok t
        ∧ Maps (fun _ => True) freed lo (lo + (hi - lo)) s t := by
      apply forRange_maps hs.counted.toWellFormed
      . intro u j d _ hd
        exact freeAt_of_desc hd
      . have := hhi hlt
        omega
      . simp
    obtain ⟨t, ht, hmaps⟩ := hmaps
    rw [show lo + (hi - lo) = hi by omega] at hmaps
    refine ⟨t, ?_, .inr ⟨hhi hlt, hmaps⟩⟩
    simp only [mmPmaFreeFrame, hbounds]
    exact ht
  . refine ⟨s, ?_, .inl ⟨rfl, by omega⟩⟩
    simp only [mmPmaFreeFrame, hbounds]
    rw [show hi - lo = 0 by omega]
    rfl

theorem free_some_sound (hs : s.Manages basePfn limitPfn) {pfn frameCount stop : Nat} (hpfn : s.basePfn ≤ pfn)
    (hbounds : freeBounds s pfn frameCount = some ⟨pfn - s.basePfn, stop⟩)
    (hle : stop ≤ pfn - s.basePfn + frameCount) (hstop : pfn - s.basePfn < stop → stop ≤ s.frameDescCount)
    (hnone : s.NoneAllocated (max pfn (s.basePfn + stop)) (pfn + frameCount))
    : ∃ t, Sound s (.free pfn frameCount) t ∧ t.Manages basePfn limitPfn := by
  have htouched : ∀ i, s.Touches i (.free pfn frameCount) → i < s.frameDescCount := by
    intro i ⟨_, _, hbounds', hlo, hlt⟩
    rw [hbounds] at hbounds'
    cases hbounds'
    omega
  obtain ⟨t, ht, hcases⟩ := free_maps hs hbounds hstop
  cases hcases with
  | inl hsame =>
    obtain ⟨rfl, hempty⟩ := hsame
    refine ⟨t, ⟨ht, htouched, hs.counters.1, hs.counters.2, ?_⟩, hs⟩
    intro _ _ h i hi
    cases h
    refine ⟨?_, fun _ => rfl⟩
    intro ⟨⟨_, hlow, hhigh⟩, halloc⟩
    exact absurd halloc (hnone i hi (by lia) hhigh)
  | inr hmaps =>
    obtain ⟨hin, hmaps⟩ := hmaps
    have hs' := hs.of_maps hmaps hin
    refine ⟨t, ⟨ht, htouched, hs'.counters.1, hs'.counters.2, ?_⟩, hs'⟩
    intro _ _ h i hi
    cases h
    by_cases hloop : pfn - s.basePfn ≤ i ∧ i < stop
    . obtain ⟨d, hd, _, hd'⟩ := hmaps.view.inside i hloop.1 hloop.2
      change s.desc i = some d at hd
      change t.desc i = some (freed d) at hd'
      rw [hd, hd']
      simp only [Option.some.injEq, freed]
      constructor
      . intro ⟨_, halloc⟩
        rw [if_pos halloc]
      . intro hnot
        rw [if_neg]
        intro halloc
        exact hnot ⟨⟨by omega, by omega, by omega⟩, halloc⟩
    . have hsame : t.desc i = s.desc i := hmaps.view.outside i (by omega)
      refine ⟨?_, fun _ => hsame⟩
      intro ⟨⟨_, hlow, hhigh⟩, halloc⟩
      exact absurd halloc (hnone i hi (by lia) hhigh)

theorem free_some_sound_iff (hs : s.Manages basePfn limitPfn) {pfn frameCount stop : Nat}
    (hpfn : s.basePfn ≤ pfn) (hbounds : freeBounds s pfn frameCount = some ⟨pfn - s.basePfn, stop⟩)
    (hle : stop ≤ pfn - s.basePfn + frameCount)
    : (∃ t, Sound s (.free pfn frameCount) t)
        ↔
      (pfn - s.basePfn < stop → stop ≤ s.frameDescCount)
        ∧ s.NoneAllocated (max pfn (s.basePfn + stop)) (pfn + frameCount) := by
  constructor
  . intro ⟨t, ht⟩
    have hstop : pfn - s.basePfn < stop → stop ≤ s.frameDescCount := by
      intro hlt
      have := ht.touched (stop - 1) ⟨_, _, hbounds, by omega, by omega⟩
      omega
    refine ⟨hstop, ?_⟩
    intro i hi hlow hhigh halloc
    have hfree := (ht.frees pfn frameCount rfl i hi).1 ⟨⟨hi, by lia, hhigh⟩, halloc⟩
    obtain ⟨u, hu, hcases⟩ := free_maps hs hbounds hstop
    have hreturns : mmPmaFreeFrame s pfn frameCount = .ok t := ht.returns
    rw [hu, Except.ok.injEq] at hreturns
    subst hreturns
    -- an index outside of the loop keeps its descriptor
    have hsame : u.desc i = s.desc i := by
      cases hcases with
      | inl hempty => rw [hempty.1]
      | inr hmaps => exact hmaps.2.view.outside i (by lia)
    rw [hsame, halloc] at hfree
    cases hfree
  . intro ⟨hstop, hnone⟩
    obtain ⟨t, ht, _⟩ := free_some_sound hs hpfn hbounds hle hstop hnone
    exact ⟨t, ht⟩

/--
Where the loop of a request stops.
-/
def freeStop (basePfn limitPfn pfn frameCount : Nat) : Nat :=
  if pfn + frameCount ≤ limitPfn + 1 then pfn - basePfn + frameCount
  else if pfn + frameCount < 2 ^ 32 then 2 * pfn + frameCount - (limitPfn + 1) - basePfn
  else if pfn + frameCount < 2 ^ 32 + basePfn then pfn - basePfn + frameCount
  else pfn + frameCount - 2 ^ 32 - basePfn

theorem freeBounds_eq (hs : s.Manages basePfn limitPfn) {pfn frameCount : Nat} (hlow : basePfn ≤ pfn)
    (hhigh : pfn ≤ limitPfn) (hcount : frameCount < 2 ^ 32)
    : freeBounds s pfn frameCount = some ⟨pfn - s.basePfn, freeStop basePfn limitPfn pfn frameCount⟩ := by
  have := hs.limit_lt
  have htop : u32 (limitPfn + 1) = limitPfn + 1 := u32_of_lt (by omega)
  have hroom : sub32 (limitPfn + 1) pfn = limitPfn + 1 - pfn := sub32_of_le (by omega) (by omega)
  have hstart : sub32 pfn basePfn = pfn - basePfn := sub32_of_le hlow (by omega)
  unfold freeBounds
  rw [hs.base, hs.limit, htop, hroom, hstart]
  rw [if_neg (by omega)]
  simp only [Option.some.injEq, Prod.mk.injEq, true_and]
  unfold freeStop
  by_cases hfits : pfn + frameCount ≤ limitPfn + 1
  . rw [if_pos hfits, u32_of_lt (n := pfn + frameCount) (by omega), if_neg (by omega)]
    exact u32_of_lt (by lia)
  . rw [if_neg hfits]
    by_cases hwraps : pfn + frameCount < 2 ^ 32
    . rw [if_pos hwraps, u32_of_lt hwraps, if_pos (by omega), sub32_of_le (by omega) hcount]
      rw [u32_of_lt (by lia)]
      lia
    . rw [if_neg hwraps]
      have hsum : u32 (pfn + frameCount) = pfn + frameCount - 2 ^ 32 := by
        unfold u32
        lia
      rw [hsum, if_neg (by lia)]
      unfold u32
      split <;> lia

theorem freeStop_le {pfn frameCount : Nat} (hlow : basePfn ≤ pfn) (hhigh : pfn ≤ limitPfn)
    : freeStop basePfn limitPfn pfn frameCount ≤ pfn - basePfn + frameCount := by
  unfold freeStop
  split
  . exact Nat.le_refl _
  . split
    . omega
    . split <;> lia

theorem fits_free_iff (hs : s.Manages basePfn limitPfn) {pfn frameCount : Nat} (hlow : basePfn ≤ pfn)
    (hhigh : pfn ≤ limitPfn) (hn : frameCount < 2 ^ 32)
    : Fits s (.free pfn frameCount)
        ↔
      (pfn - s.basePfn < freeStop basePfn limitPfn pfn frameCount
          → freeStop basePfn limitPfn pfn frameCount ≤ s.frameDescCount)
        ∧ s.NoneAllocated (max pfn (s.basePfn + freeStop basePfn limitPfn pfn frameCount))
            (pfn + frameCount) := by
  have hlimit := hs.limit_lt
  have hcount := hs.count
  have hlt := hs.lt
  unfold Fits freeStop
  simp only [hs.base, hs.limit]
  rw [if_neg (by omega)]
  by_cases hfits : pfn + frameCount ≤ limitPfn + 1
  . rw [if_pos hfits]
    by_cases hin : pfn + frameCount ≤ limitPfn
    . rw [if_pos (.inr hin), iff_true_left trivial]
      exact ⟨by omega, NoneAllocated.of_le (by omega)⟩
    . rw [if_neg (by omega), if_pos (by omega), iff_false_left not_false]
      lia
  . rw [if_neg hfits, if_neg (by omega), if_neg (by omega)]
    by_cases hwraps : pfn + frameCount < 2 ^ 32
    . rw [if_pos hwraps, if_pos hwraps]
      have hstop : max pfn (basePfn + (2 * pfn + frameCount - (limitPfn + 1) - basePfn))
          = 2 * pfn + frameCount - (limitPfn + 1) := by
        lia
      rw [hstop]
      apply and_congr
      . lia
      . apply NoneAllocated.congr
        . rw [hs.base]
          lia
        . rw [hs.base]
          lia
    . rw [if_neg hwraps, if_neg hwraps]
      by_cases hbase : pfn + frameCount < 2 ^ 32 + basePfn
      . rw [if_pos hbase]
        lia
      . rw [if_neg hbase]
        have hstop : max pfn (basePfn + (pfn + frameCount - 2 ^ 32 - basePfn)) = pfn := by
          omega
        rw [hstop]
        apply and_congr
        . omega
        . apply NoneAllocated.congr
          . rw [hs.base]
            lia
          . rw [hs.base]
            lia

theorem freeBounds_eq_none (hs : s.Manages basePfn limitPfn) {pfn frameCount : Nat}
    (hout : ¬ (basePfn ≤ pfn ∧ pfn ≤ limitPfn))
    : freeBounds s pfn frameCount = none := by
  unfold freeBounds
  rw [hs.base, hs.limit]
  rw [if_pos (by omega)]

theorem fits_free_outside (hs : s.Manages basePfn limitPfn) {pfn frameCount : Nat}
    (hout : ¬ (basePfn ≤ pfn ∧ pfn ≤ limitPfn))
    : Fits s (.free pfn frameCount) ↔ s.NoneAllocated pfn (pfn + frameCount) := by
  unfold Fits
  simp only [hs.base, hs.limit]
  by_cases hlow : pfn < basePfn
  . rw [if_pos hlow]
  . rw [if_neg hlow, if_pos (by omega), iff_true_left trivial]
    intro i hi hge _
    have := hs.base
    have := hs.count
    omega

theorem free_sound_iff (hs : s.Manages basePfn limitPfn) {pfn frameCount : Nat}
    (hadm : (PmaCall.free pfn frameCount).Admissible basePfn limitPfn)
    : (∃ t, Sound s (.free pfn frameCount) t) ↔ Fits s (.free pfn frameCount) := by
  by_cases hin : basePfn ≤ pfn ∧ pfn ≤ limitPfn
  . obtain ⟨hlow, hhigh⟩ := hin
    rw [fits_free_iff hs hlow hhigh hadm.2]
    apply free_some_sound_iff hs
    . rw [hs.base]
      exact hlow
    . exact freeBounds_eq hs hlow hhigh hadm.2
    . rw [hs.base]
      exact freeStop_le hlow hhigh
  . rw [free_none_sound_iff hs (freeBounds_eq_none hs hin)]
    exact (fits_free_outside hs hin).symm

theorem sound_iff (hs : s.Manages basePfn limitPfn) {c : PmaCall} (hadm : c.Admissible basePfn limitPfn)
    : (∃ t, Sound s c t) ↔ Fits s c := by
  cases c with
  | mark basePaddr limitPaddr => exact mark_sound_iff hs hadm
  | allocate count =>
    apply iff_of_true _ trivial
    obtain ⟨t, ht, _⟩ := allocate_sound hs hadm.1
    exact ⟨t, ht⟩
  | free pfn frameCount => exact free_sound_iff hs hadm

theorem Fits.manages (hs : s.Manages basePfn limitPfn) {c : PmaCall} (hadm : c.Admissible basePfn limitPfn)
    (hfits : Fits s c) (h : s.call c = .ok t)
    : t.Manages basePfn limitPfn := by
  suffices ∃ u, Sound s c u ∧ u.Manages basePfn limitPfn by
    obtain ⟨u, hu, hmanages⟩ := this
    have hreturns := hu.returns
    rw [h, Except.ok.injEq] at hreturns
    rw [hreturns]
    exact hmanages
  cases c with
  | mark basePaddr limitPaddr =>
    have hbounds := markBounds_eq hs hadm
    obtain ⟨hle, _, hbase, hlimit⟩ := hadm
    have hpages : basePaddr / pageSize ≤ limitPaddr / pageSize := Nat.div_le_div_right hle
    have := hs.lt
    have := hs.count
    unfold Fits at hfits
    rw [hs.limit] at hfits
    exact mark_sound hs hbounds (by lia) (by lia)
  | allocate count => exact allocate_sound hs hadm.1
  | free pfn frameCount =>
    by_cases hin : basePfn ≤ pfn ∧ pfn ≤ limitPfn
    . obtain ⟨hlow, hhigh⟩ := hin
      rw [fits_free_iff hs hlow hhigh hadm.2] at hfits
      have hpfn : s.basePfn ≤ pfn := by
        rw [hs.base]
        exact hlow
      apply free_some_sound hs hpfn (freeBounds_eq hs hlow hhigh hadm.2) _ hfits.1 hfits.2
      rw [hs.base]
      exact freeStop_le hlow hhigh
    . have hnone := (fits_free_outside hs hin).mp hfits
      exact ⟨s, free_none_sound hs (freeBounds_eq_none hs hin) hnone, hs⟩

end

section

variable {endAddr basePaddr limitPaddr : Nat} {cs : List PmaCall}

theorem along_sound_iff {basePfn limitPfn : Nat} (hs : s.Manages basePfn limitPfn)
    (hadm : ∀ c ∈ cs, c.Admissible basePfn limitPfn)
    : Along call (fun s c => ∃ t, Sound s c t) s cs ↔ Along call Fits s cs := by
  apply Along.iff_of_step (I := fun s => s.Manages basePfn limitPfn) (A := fun _ c => c.Admissible basePfn limitPfn)
    (fun _ => 0) _ _ hs (Nat.le_of_eq (Nat.zero_add cs.length)) (Along.of_forall_mem fun c hc _ => hadm c hc)
  . intro s c hs hadm _
    exact sound_iff hs hadm
  . intro s c t hs hadm _ hfits ht
    exact ⟨Fits.manages hs hadm hfits ht, by omega⟩

theorem page_lt {paddr : Nat} (h : paddr < 2 ^ 32) : paddr / pageSize < 2 ^ 20 := by
  unfold pageSize
  omega

theorem fresh_count (hle : basePaddr ≤ limitPaddr) (hlt : limitPaddr < 2 ^ 32)
    : (fresh basePaddr limitPaddr).frameDescCount = limitPaddr / pageSize - basePaddr / pageSize := by
  have hpages : basePaddr / pageSize ≤ limitPaddr / pageSize := Nat.div_le_div_right hle
  have htop := page_lt hlt
  exact sub32_of_le hpages (by omega)

theorem fresh_desc (hle : basePaddr ≤ limitPaddr) (hlt : limitPaddr < 2 ^ 32) {i : Nat}
    (hi : i < (fresh basePaddr limitPaddr).frameDescCount)
    : (fresh basePaddr limitPaddr).desc i = some pbmFree := by
  apply Crumbs.get?_replicate_zero
  change i < sub32 (limitPaddr / pageSize) (basePaddr / pageSize) at hi
  have hcount := fresh_count hle hlt
  change sub32 (limitPaddr / pageSize) (basePaddr / pageSize) = _ at hcount
  have htop := page_lt hlt
  have := Nat.sub_le (limitPaddr / pageSize) (basePaddr / pageSize)
  unfold bitmapSize
  rw [u32_of_lt (by omega)]
  lia

theorem fresh_manages (hle : basePaddr ≤ limitPaddr) (hlt : limitPaddr < 2 ^ 32)
    (hpages : basePaddr / pageSize < limitPaddr / pageSize)
    : (fresh basePaddr limitPaddr).Manages (basePaddr / pageSize) (limitPaddr / pageSize) := by
  have hcount := fresh_count hle hlt
  have htop := page_lt hlt
  have := Nat.sub_le (limitPaddr / pageSize) (basePaddr / pageSize)
  have hwell : (fresh basePaddr limitPaddr).view.WellFormed := by
    constructor
    . change basePaddr / pageSize ≤ basePaddr / pageSize + (fresh basePaddr limitPaddr).frameDescCount - 1
      omega
    . change basePaddr / pageSize + (fresh basePaddr limitPaddr).frameDescCount - 1 < 2 ^ 20
      lia
    . change (fresh basePaddr limitPaddr).frameDescCount
        = basePaddr / pageSize + (fresh basePaddr limitPaddr).frameDescCount - 1 - basePaddr / pageSize + 1
      omega
    . change (List.replicate (bitmapSize (fresh basePaddr limitPaddr).frameDescCount) 0#8).length
        = ((fresh basePaddr limitPaddr).frameDescCount + 3) / 4
      rw [List.length_replicate, bitmapSize, u32_of_lt (by omega)]
  refine ⟨⟨hwell, ?_, ?_⟩, hpages, htop, rfl, rfl, hcount⟩
  . exact (countBelow_eq_self fun i hi => fresh_desc hle hlt hi).symm
  . refine (countBelow_eq_self ?_).symm
    intro i hi
    have hfree : (fresh basePaddr limitPaddr).view.desc i = some pbmFree := fresh_desc hle hlt hi
    rw [hfree]
    simp

/--
What `mm_pma_init` marks: the frames up to the last one of the bitmap.
-/
def initMark (endAddr basePaddr limitPaddr : Nat) : PmaCall :=
  .mark basePaddr (bitmapLimit endAddr (fresh basePaddr limitPaddr).frameDescCount)

/--
The bitmap ends in the managed range, below the frame of its limit.
-/
def InitFits (endAddr basePaddr limitPaddr : Nat) : Prop :=
  let bitmapLimit := bitmapLimit endAddr (limitPaddr / pageSize - basePaddr / pageSize)
  basePaddr / pageSize ≤ bitmapLimit / pageSize ∧ bitmapLimit / pageSize < limitPaddr / pageSize

instance (endAddr basePaddr limitPaddr : Nat) : Decidable (InitFits endAddr basePaddr limitPaddr) :=
  inferInstanceAs (Decidable (_ ∧ _))

theorem init_markBounds (hle : basePaddr ≤ limitPaddr) (hlt : limitPaddr < 2 ^ 32) (limit : Nat)
    : markBounds (fresh basePaddr limitPaddr) basePaddr limit
        =
      ⟨0, sub32 (min (limit / pageSize) (limitPaddr / pageSize)) (basePaddr / pageSize)⟩ := by
  have hpages : basePaddr / pageSize ≤ limitPaddr / pageSize := Nat.div_le_div_right hle
  have htop := page_lt hlt
  have hclamp : (if limit / pageSize > limitPaddr / pageSize then limitPaddr / pageSize else limit / pageSize)
      = min (limit / pageSize) (limitPaddr / pageSize) := by
    split <;> lia
  unfold markBounds
  change (sub32 (if basePaddr / pageSize < basePaddr / pageSize then basePaddr / pageSize
      else basePaddr / pageSize) (basePaddr / pageSize),
    sub32 (if limit / pageSize > limitPaddr / pageSize then limitPaddr / pageSize else limit / pageSize)
      (basePaddr / pageSize)) = _
  rw [hclamp, if_neg (Nat.lt_irrefl _), sub32_of_le (Nat.le_refl _) (by omega), Nat.sub_self]

theorem init_sound (hle : basePaddr ≤ limitPaddr) (hlt : limitPaddr < 2 ^ 32)
    (hfits : InitFits endAddr basePaddr limitPaddr)
    : ∃ s, Sound (fresh basePaddr limitPaddr) (initMark endAddr basePaddr limitPaddr) s
        ∧ s.Manages (basePaddr / pageSize) (limitPaddr / pageSize) := by
  have hcount := fresh_count hle hlt
  have htop := page_lt hlt
  unfold InitFits at hfits
  unfold initMark
  rw [hcount]
  have hbounds := init_markBounds hle hlt
    (bitmapLimit endAddr (limitPaddr / pageSize - basePaddr / pageSize))
  rw [sub32_of_le (by omega) (by omega)] at hbounds
  apply mark_sound (fresh_manages hle hlt (by omega)) hbounds (Nat.zero_le _)
  omega

theorem init_sound_iff (hle : basePaddr ≤ limitPaddr) (hlt : limitPaddr < 2 ^ 32)
    : (∃ s, Sound (fresh basePaddr limitPaddr) (initMark endAddr basePaddr limitPaddr) s)
        ↔
      InitFits endAddr basePaddr limitPaddr := by
  constructor
  . intro ⟨s, hs⟩
    have hcount := fresh_count hle hlt
    have htop := page_lt hlt
    have hpages : basePaddr / pageSize ≤ limitPaddr / pageSize := Nat.div_le_div_right hle
    unfold initMark at hs
    rw [hcount] at hs
    have hlast := hs.touched (sub32 (min
      (bitmapLimit endAddr (limitPaddr / pageSize - basePaddr / pageSize) / pageSize)
      (limitPaddr / pageSize)) (basePaddr / pageSize))
    rw [Touches, init_markBounds hle hlt] at hlast
    have hlast := hlast ⟨Nat.zero_le _, Nat.le_refl _⟩
    rw [hcount] at hlast
    unfold InitFits
    dsimp only
    generalize bitmapLimit endAddr (limitPaddr / pageSize - basePaddr / pageSize) / pageSize = page at hlast ⊢
    -- a last frame below the range would wrap the bound of the loop around
    have hlow : basePaddr / pageSize ≤ page := by
      by_contra hlow
      rw [sub32_of_lt (by lia) (by lia)] at hlast
      lia
    rw [sub32_of_le (by lia) (by lia)] at hlast
    lia
  . intro hfits
    obtain ⟨s, hs, _⟩ := init_sound hle hlt hfits
    exact ⟨s, hs⟩

/--
Setting up the allocator and each call after it touch only descriptors that exist, leave both counters
right and free just what was asked for, if and only if the bitmap ends below the frame of the limit of
the managed range and the arguments of each call fit the state it is made in.
-/
theorem init_run_sound_iff (endAddr basePaddr limitPaddr : Nat) (hle : basePaddr ≤ limitPaddr)
    (hlt : limitPaddr < 2 ^ 32) (cs : List PmaCall)
    (hadm : ∀ c ∈ cs, c.Admissible (basePaddr / pageSize) (limitPaddr / pageSize))
    : (∃ s, mmPmaInit endAddr basePaddr limitPaddr = .ok s
          ∧ Sound (fresh basePaddr limitPaddr) (initMark endAddr basePaddr limitPaddr) s
          ∧ Along call (fun s c => ∃ t, Sound s c t) s cs)
        ↔
      InitFits endAddr basePaddr limitPaddr
        ∧ ∀ s, mmPmaInit endAddr basePaddr limitPaddr = .ok s → Along call Fits s cs := by
  constructor
  . intro ⟨s, hs, hsound, hall⟩
    have hfits := (init_sound_iff hle hlt).mp ⟨s, hsound⟩
    refine ⟨hfits, ?_⟩
    intro t ht
    rw [hs, Except.ok.injEq] at ht
    subst ht
    obtain ⟨t, ht, hmanages⟩ := init_sound hle hlt hfits
    have hreturns : mmPmaInit endAddr basePaddr limitPaddr = .ok t := ht.returns
    rw [hs, Except.ok.injEq] at hreturns
    subst hreturns
    exact (along_sound_iff hmanages hadm).mp hall
  . intro ⟨hfits, hall⟩
    obtain ⟨s, hs, hmanages⟩ := init_sound hle hlt hfits
    have hreturns : mmPmaInit endAddr basePaddr limitPaddr = .ok s := hs.returns
    exact ⟨s, hreturns, hs, (along_sound_iff hmanages hadm).mpr (hall s hreturns)⟩

end

/--
Four frames of which the bitmap takes two, and a limit in a fifth one.
-/
def smallInit : Pma where
  bitmap := [0x0A]
  frameDescCount := 4
  availableFrames := 2
  freeFrames := 2
  basePfn := 0x100
  limitPfn := 0x104

theorem mmPmaInit_small : mmPmaInit 0x100800 0x100000 0x104FFF = .ok smallInit := by
  decide

/--
A frame is handed out and taken back, and one that does not exist is marked.
-/
theorem init_run_sound_iff_small
    : ∃ s, mmPmaInit 0x100800 0x100000 0x104FFF = .ok s
        ∧ Sound (fresh 0x100000 0x104FFF) (initMark 0x100800 0x100000 0x104FFF) s
        ∧ Along call (fun s c => ∃ t, Sound s c t) s
            [.allocate 1, .mark 0x103000 0x103FFF, .free 0x102 1, .free 0x105 7] := by
  apply (init_run_sound_iff 0x100800 0x100000 0x104FFF (by decide) (by decide) _ _).mpr
  . refine ⟨by decide, ?_⟩
    intro s hs
    rw [mmPmaInit_small, Except.ok.injEq] at hs
    subst hs
    decide
  . intro c hc
    simp only [List.mem_cons, List.not_mem_nil, or_false] at hc
    obtain rfl | rfl | rfl | rfl := hc <;> decide

/--
To free the frame of the limit itself looks at a descriptor that does not exist.
-/
theorem init_run_sound_false
    : ¬ ∀ (endAddr basePaddr limitPaddr : Nat) (cs : List PmaCall), basePaddr ≤ limitPaddr
        → limitPaddr < 2 ^ 32
        → (∀ c ∈ cs, c.Admissible (basePaddr / pageSize) (limitPaddr / pageSize))
        → ∃ s, mmPmaInit endAddr basePaddr limitPaddr = .ok s
          ∧ Sound (fresh basePaddr limitPaddr) (initMark endAddr basePaddr limitPaddr) s
          ∧ Along call (fun s c => ∃ t, Sound s c t) s cs := by
  intro hall
  obtain ⟨s, hs, _, ⟨t, ht⟩, _⟩ :=
    hall 0x100800 0x100000 0x104FFF [.free 0x104 1] (by decide) (by decide) (by simp [PmaCall.Admissible])
  rw [mmPmaInit_small, Except.ok.injEq] at hs
  subst hs
  have hbounds : freeBounds smallInit 0x104 1 = some ⟨4, 5⟩ := by decide
  have hlt := ht.touched 4 ⟨4, 5, hbounds, by decide, by decide⟩
  exact absurd hlt (by decide)

end Pma

end Emos.Boot.Mm
