import Emos.Boot.Mm.Lemmas.AllOrNothing
import Emos.Kernel.Mm.Lemmas.AllOrNothing
import Emos.Kernel.Thread.Lemmas.Stack

/-!
This module contains when the allocation of a kernel mode stack that fails leaves no page behind that leads
to a frame which it has freed.
-/

open Lib

namespace Emos

variable {τ : Type}

namespace Mm

/--
Every page that leads to a free frame did so before.
-/
def LeavesNoFreed (m m' : Mm) : Prop :=
  ∀ x f, x < 2 ^ 20 → m'.page.frame? x = some f → m'.pma.frameDesc f = some pbmFree
    → m.page.frame? x = some f ∧ m.pma.frameDesc f = some pbmFree

/--
If the allocation of a stack fails then no page leads to a frame that it has freed.
-/
def StackKeeps (m : Mm) (r : Run (Status × Thread τ × Mm)) : Prop :=
  ∀ status th' m', r = .ok ⟨status, th', m'⟩ → status ≠ .success → LeavesNoFreed m m'

/--
If there are frames and pages for the stack then its pages are mapped as a whole, or already the first one
cannot be mapped.
-/
def StackFits (m : Mm) (n : Nat) : Prop :=
  (∃ pfn pma, mmPmaAllocateFrame m.pma n = .ok ⟨.ok pfn, pma⟩)
    → u32 (m.vma.kernelAllocVpn + n) < m.vma.kernelLimitVpn
    → FailsAtOnce m.page (m.pma.usableFrames - n) m.vma.kernelAllocVpn n

variable {m : Mm} {th : Thread τ} {pfn n : Nat} {pma : Pma}

theorem leavesNoFreed_of_frames {m m' : Mm} (hpage : m'.page = m.page)
    (hframes : ∀ f, m'.pma.frameDesc f = some pbmFree → m.pma.frameDesc f = some pbmFree)
    : LeavesNoFreed m m' := by
  intro x f _ hx hf
  rw [hpage] at hx
  exact ⟨hx, hframes f hf⟩

/--
The frames are as they were before they were allocated.
-/
theorem frameDesc_of_freed {t : Pma} (hm : m.Paged) (hhands : m.pma.Hands pfn n pma)
    (hfree : mmPmaFreeFrame pma pfn n = .ok t) {f : Nat} (hf : t.frameDesc f = some pbmFree)
    : m.pma.frameDesc f = some pbmFree := by
  have hbounds := hhands.bounds
  have hlimit := hm.pma.limit_lt
  have hpma := hm.pma.of_sameRange hhands.range
  by_cases hin : pfn ≤ f ∧ f < pfn + n
  . exact hhands.free f hin.1 hin.2
  . have hsame : t.frameDesc f = pma.frameDesc f := by
      obtain heq | ⟨hlow, _, hmaps⟩ := mmPmaFreeFrame_spec hpma (by omega) (by omega) hfree
      . rw [heq]
      . unfold Pma.frameDesc
        rw [hmaps.range.basePfn, hmaps.range.limitPfn]
        split
        . next hmanaged => exact hmaps.outside _ (by lia)
        . rfl
    rw [← hhands.kept f (by omega), ← hsame]
    exact hf

/--
The cleanup behind `mm_map` if it has mapped no page.
-/
theorem hasError_leavesNoFreed {m1 m' : Mm} {th' : Thread τ} {status status' : Status} (hm : m.Paged)
    (h : pcThreadAllocateKthreadStack.hasError th m1 pfn status = .ok ⟨status', th', m'⟩)
    (hhands : m.pma.Hands pfn th.kmodeStackPageCount m1.pma) (hpage : m1.page = m.page)
    : LeavesNoFreed m m' := by
  unfold pcThreadAllocateKthreadStack.hasError at h
  split at h
  . rw [bind_eq_ok] at h
    obtain ⟨pma, hfree, h⟩ := h
    cases h
    exact leavesNoFreed_of_frames hpage (fun f hf => frameDesc_of_freed hm hhands hfree hf)
  . cases h
    apply leavesNoFreed_of_frames hpage
    intro f hf
    by_cases hin : pfn ≤ f ∧ f < pfn + th.kmodeStackPageCount
    . exact hhands.free f hin.1 hin.2
    . rw [← hhands.kept f (by omega)]
      exact hf

/--
A page that was mapped in front of the one that could not be leads to a frame that the cleanup frees.
-/
theorem hasError_leavesFreed {m1 t : Mm} {vpn k : Nat} (hm : m.Paged) (status : Status)
    (hhands : m.pma.Hands pfn th.kmodeStackPageCount m1.pma) (hpfn : pfn ≠ 0) (hk : 0 < k)
    (hcount : k < th.kmodeStackPageCount) (hnone : m.page.frame? (pageAt vpn 0) = none)
    (hbegun : m1.Begun pfn vpn k t) (hordinary : vpn + th.kmodeStackPageCount ≤ 0xFFC00)
    : ∃ m', pcThreadAllocateKthreadStack.hasError th t pfn status = .ok ⟨status, th, m'⟩
        ∧ ¬ LeavesNoFreed m m' := by
  have hbounds := hhands.bounds
  have hlimit := hm.pma.limit_lt
  obtain ⟨hpaged, _, _⟩ := hbegun.paged (by
    intro j hj
    unfold Ordinary pageAt
    lia)
  have hallocated : ∀ f, pfn ≤ f → f < pfn + th.kmodeStackPageCount → t.pma.frameDesc f = some pbmAllocated := by
    intro f h1 h2
    rw [hbegun.frames f (by rw [hhands.allocated f h1 h2]; decide)]
    exact hhands.allocated f h1 h2
  have hmanaged : ∀ f, t.pma.frameDesc f = some pbmAllocated → t.pma.basePfn ≤ f ∧ f ≤ t.pma.limitPfn := by
    intro f hf
    by_contra hout
    unfold Pma.frameDesc at hf
    rw [if_neg hout] at hf
    cases hf
  have hfirst := hmanaged pfn (hallocated pfn (Nat.le_refl pfn) (by omega))
  have hlast := hmanaged (pfn + th.kmodeStackPageCount - 1) (hallocated _ (by lia) (by lia))
  obtain ⟨pma, hfree, hfreed, _⟩ := mmPmaFreeFrame_handsAll hpaged.pma hfirst.1 (by lia) hallocated
  refine ⟨{ t with pma }, ?_, ?_⟩
  . unfold pcThreadAllocateKthreadStack.hasError
    rw [if_pos hpfn, hfree]
    rfl
  . intro hkeeps
    have hmapped := hbegun.mapped 0 hk
    rw [Nat.add_zero, Nat.mod_eq_of_lt (by omega)] at hmapped
    have hwas := hkeeps (pageAt vpn 0) pfn (by unfold pageAt; omega) hmapped
      (hfreed.free pfn (Nat.le_refl pfn) (by omega))
    rw [hnone] at hwas
    cases hwas.1

theorem stackKeeps_iff (hm : m.Sound) (th : Thread τ)
    : StackKeeps m (pcThreadAllocateKthreadStack m th) ↔ StackFits m th.kmodeStackPageCount := by
  have hlimit := hm.pma.limit_lt
  have hge := hm.alloc_ge
  have hle := hm.alloc_le
  have hlimitVpn := hm.limit_le
  unfold StackKeeps StackFits pcThreadAllocateKthreadStack
  cases mmPmaAllocateFrame_spec hm.pma th.kmodeStackPageCount with
  | inl hfail =>
    rw [hfail]
    apply iff_of_true
    . intro status th' m' h _
      cases h
      exact leavesNoFreed_of_frames rfl (fun _ hf => hf)
    . intro h
      obtain ⟨pfn, pma, h⟩ := h
      cases h
  | inr hok =>
    obtain ⟨start, pma, halloc, hfits, hhigh, hmaps⟩ := hok
    have hhands := mmPmaAllocateFrame_hands hm.pma halloc
    have hbounds := hhands.bounds
    have husable := hmaps.usableFrames (fun hlt => hhigh (by omega)) hfits
    rw [halloc]
    simp only [bind, Except.bind, mmVmaAllocatePage, ↓reduceIte]
    by_cases hfull : u32 (m.vma.kernelAllocVpn + th.kmodeStackPageCount) ≥ m.vma.kernelLimitVpn
    . rw [if_pos hfull]
      apply iff_of_true
      . intro status th' m' h _
        exact hasError_leavesNoFreed hm.toPaged h hhands rfl
      . intro _ hroom
        omega
    . rw [if_neg hfull]
      dsimp only
      rw [u32_of_lt (by lia)] at hfull ⊢
      have hm1 : ({ m with pma, vma := { m.vma with
          kernelAllocVpn := m.vma.kernelAllocVpn + th.kmodeStackPageCount } } : Mm).Paged :=
        hm.toPaged.of_hands hhands
      have hleft : m.pma.usableFrames - th.kmodeStackPageCount = pma.usableFrames := by lia
      rw [hleft]
      obtain ⟨t, ht, hnone⟩ | ⟨k, hk, b, t, hb, ht, ⟨hbegun, hstart⟩, hblocked, hnone⟩ :=
        mmMap_cases hm1 (m.pma.basePfn + start) m.vma.kernelAllocVpn th.kmodeStackPageCount pmfDefault
      . rw [ht]
        apply iff_of_true
        . intro status th' m' h hstatus
          cases h
          contradiction
        . intro _ _ h
          obtain ⟨k, hk, hblocked⟩ := h
          exact absurd hblocked (hnone k hk)
      . rw [ht]
        simp only [ne_eq, hb, not_false_eq_true, ↓reduceIte]
        by_cases hzero : k = 0
        . rw [hstart hzero]
          apply iff_of_true
          . intro status th' m' h _
            exact hasError_leavesNoFreed hm.toPaged h hhands rfl
          . intro _ _ _
            rw [hzero] at hblocked
            exact hblocked
        . have hfirst := hnone 0 (by omega)
          have habsent : m.page.frame? (pageAt m.vma.kernelAllocVpn 0) = none := by
            by_contra hpresent
            exact hfirst (.inl hpresent)
          have hpfn : m.pma.basePfn + start ≠ 0 := by
            have := hhigh (by omega)
            omega
          obtain ⟨m', hcleanup, hleaves⟩ := hasError_leavesFreed hm.toPaged b hhands hpfn (by lia) hk habsent
            hbegun (by omega)
          apply iff_of_false
          . intro hkeeps
            exact hleaves (hkeeps b th m' hcleanup hb)
          . intro hfits
            exact hfirst (hfits ⟨_, _, rfl⟩ (by omega) ⟨k, hk, hblocked⟩)

/--
`small` with page 0xC1001 mapped.
-/
def occupied : Mm := { small with page := small.page.put 0x51 1 0x00007003#32 }

theorem occupied_sound : occupied.Sound := by
  have hordinary : Ordinary 0xC1001 := by
    unfold Ordinary
    decide
  obtain ⟨hmaps, _⟩ := map.mapsPage_put small_paged hordinary (f := 0x51) rfl
    (show pageFormat.target 0x00007003#32 = some 7 from rfl)
  exact ⟨hmaps.paged, by decide, by decide, by decide⟩

end Mm

/--
Mapping several pages is all or nothing in the kernel if and only if the request fails with its first page
or not at all, and the allocation of a stack leaves no page that leads to a freed frame if and only if the
same is true of the pages of the stack. In the boot loader the pages in front of the one that cannot be
mapped may also lead to their frames already.
-/
theorem mmMap_allOrNothing_iff
    : (∀ (m : Mm) (pfn vpn n : Nat) (flags : MapFlags), m.Paged
          → (Mm.KeepsOnFailure m vpn n (mmMap m pfn vpn n flags)
            ↔ Mm.FailsAtOnce m.page m.pma.usableFrames vpn n))
        ∧ (∀ (m : Mm) (th : Thread τ), m.Sound
          → (Mm.StackKeeps m (pcThreadAllocateKthreadStack m th) ↔ Mm.StackFits m th.kmodeStackPageCount))
        ∧ (∀ (m : Boot.Mm.Memory) (pfn vpn n : Nat) (flags : MapFlags),
          (∃ basePfn limitPfn, m.pma.Manages basePfn limitPfn) → vpn % 2 ^ 20 + n ≤ 0xFFC00
          → (Boot.Mm.Memory.KeepsOnFailure m vpn n (Boot.Mm.mmMap m pfn vpn n flags)
            ↔ m.FailsInPlace flags pfn vpn n)) :=
  ⟨fun _ pfn vpn n flags hm => Mm.mmMap_keeps_iff hm pfn vpn n flags,
    fun _ th hm => Mm.stackKeeps_iff hm th,
    fun _ pfn _ _ flags hm hvpn => Boot.Mm.Memory.mmMap_keeps_iff hm pfn hvpn flags⟩

/--
A request whose first page is mapped, a stack whose pages are free, and a request for one page.
-/
theorem mmMap_allOrNothing_iff_small
    : Mm.KeepsOnFailure Mm.occupied 0xC1001 2 (mmMap Mm.occupied 0x20 0xC1001 2 pmfDefault)
        ∧ Mm.StackKeeps Mm.small (pcThreadAllocateKthreadStack Mm.small Mm.smallThread)
        ∧ ∀ pde pte byte, Boot.Mm.Memory.KeepsOnFailure ⟨pde, pte, byte, Boot.Mm.Pma.fresh 0x100000 0x104FFF⟩ 0x100 1
          (Boot.Mm.mmMap ⟨pde, pte, byte, Boot.Mm.Pma.fresh 0x100000 0x104FFF⟩ 0x100 0x100 1 pmfDefault) := by
  obtain ⟨hmap, hstack, hboot⟩ := mmMap_allOrNothing_iff (τ := Nat)
  refine ⟨?_, ?_, ?_⟩
  . apply (hmap Mm.occupied 0x20 0xC1001 2 pmfDefault Mm.occupied_sound.toPaged).mpr
    intro _
    exact .inl (by decide)
  . apply (hstack Mm.small Mm.smallThread Mm.small_sound).mpr
    have hfree : ∀ k < 2, ¬ Mm.Blocked Mm.small.page (Mm.small.pma.usableFrames - 2) 0xC1000 k := by
      decide
    intro _ _ ⟨k, hk, hblocked⟩
    exact absurd hblocked (hfree k hk)
  . intro pde pte byte
    apply (hboot _ 0x100 0x100 1 pmfDefault ⟨_, _, Boot.Mm.Pma.fresh_manages (by decide) (by decide) (by decide)⟩
      (by decide)).mpr
    intro k hk _ _ j hj
    omega

/--
The second page of a stack is mapped already.
-/
theorem mmMap_allOrNothing_false
    : (¬ ∀ (m : Mm) (pfn vpn n : Nat) (flags : MapFlags), m.Paged
          → Mm.KeepsOnFailure m vpn n (mmMap m pfn vpn n flags))
        ∧ ¬ ∀ (m : Mm) (th : Thread Nat), m.Sound → Mm.StackKeeps m (pcThreadAllocateKthreadStack m th) := by
  constructor
  . intro hall
    have hrun : (mmMap Mm.occupied 0x20 0xC1000 2 pmfDefault).map (fun r => (r.1, r.2.page.frame? 0xC1000))
        = .ok (.conflictingState, some 0x20) := by
      decide +kernel
    cases hmap : mmMap Mm.occupied 0x20 0xC1000 2 pmfDefault with
    | error fault =>
      rw [hmap] at hrun
      cases hrun
    | ok r =>
      rw [hmap] at hrun
      simp only [Except.map, Except.ok.injEq, Prod.mk.injEq] at hrun
      have hsame := hall Mm.occupied 0x20 0xC1000 2 pmfDefault Mm.occupied_sound.toPaged r.1 r.2 hmap
        (by rw [hrun.1]; decide) 0 (by decide)
      have hwas : Mm.occupied.page.frame? 0xC1000 = none := by decide
      rw [show pageAt 0xC1000 0 = 0xC1000 from rfl, hrun.2, hwas] at hsame
      cases hsame
  . intro hall
    have hrun : (pcThreadAllocateKthreadStack Mm.occupied Mm.smallThread).map
        (fun r => (r.1, r.2.2.page.frame? 0xC1000, r.2.2.pma.frameDesc 0x100))
        = .ok (.conflictingState, some 0x100, some pbmFree) := by
      decide +kernel
    cases halloc : pcThreadAllocateKthreadStack Mm.occupied Mm.smallThread with
    | error fault =>
      rw [halloc] at hrun
      cases hrun
    | ok r =>
      rw [halloc] at hrun
      simp only [Except.map, Except.ok.injEq, Prod.mk.injEq] at hrun
      have hkeeps := hall Mm.occupied Mm.smallThread Mm.occupied_sound r.1 r.2.1 r.2.2 halloc
        (by rw [hrun.1]; decide)
      have hwas := hkeeps 0xC1000 0x100 (by decide) hrun.2.1 hrun.2.2
      have hnone : Mm.occupied.page.frame? 0xC1000 = none := by decide
      rw [hnone] at hwas
      cases hwas.1

end Emos
