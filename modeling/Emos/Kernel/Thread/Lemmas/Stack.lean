import Emos.Kernel.Mm.Lemmas.Mm
import Emos.Kernel.Thread.Impl.Maintain

/-!
This module contains the allocation of a kernel mode stack, and that its release never gives back
what was allocated.
-/

open Lib

namespace Emos

variable {τ : Type}

namespace Mm

/--
Page tables are well formed and the kernel area is the one that `_pc_init` sets up.
-/
structure Sound (m : Mm) : Prop extends Paged m where
  alloc_ge : 0xC1000 ≤ m.vma.kernelAllocVpn
  alloc_le : m.vma.kernelAllocVpn ≤ m.vma.kernelLimitVpn
  limit_le : m.vma.kernelLimitVpn ≤ 0xFEFFF

/--
The `n` pages from `vpn` on lead to allocated frames, which are the ones from `pfn` on.
-/
structure Stack (m : Mm) (vpn pfn n : Nat) : Prop where
  mapped : ∀ i, i < n → m.page.frame? (vpn + i) = some (pfn + i)
  allocated : ∀ i, i < n → m.pma.frameDesc (pfn + i) = some pbmAllocated

/--
Just the `n` pages from `vpn` on were unmapped, and just the `n` frames from `pfn` on were freed.
-/
structure Releases (m : Mm) (vpn pfn n : Nat) (m' : Mm) : Prop where
  unmapped : ∀ i, i < n → m'.page.frame? (vpn + i) = none
  pages : ∀ x, x < 2 ^ 20 → x < vpn ∨ vpn + n ≤ x → m'.page.frame? x = m.page.frame? x
  freed : ∀ i, i < n → m'.pma.frameDesc (pfn + i) = some pbmFree
  frames : ∀ f, f < pfn ∨ pfn + n ≤ f → m'.pma.frameDesc f = m.pma.frameDesc f

end Mm

namespace PageMemory

/--
What is left of page memory `m` while pages are unmapped: page `x` still leads to its frame and at
most pages from `vpn` on have changed, or some other page was unmapped for good.
-/
def Remains (m : PageMemory) (vpn n x : Nat) (page : PageMemory) : Prop :=
  (page.Tables
      ∧ page.frame? x = m.frame? x
      ∧ ∀ y, y < 2 ^ 20 → y < vpn ∨ vpn + n ≤ y → page.frame? y = m.frame? y)
    ∨
  (∃ y, y < 2 ^ 20 ∧ (y < vpn ∨ vpn + n ≤ y) ∧ m.frame? y ≠ none ∧ page.frame? y = none)

variable {m page page' : PageMemory} {vpn n x : Nat}

theorem frame?_put_zero {f : Nat} (hx : x < 2 ^ 20) (hf : m.table? x = some f)
    : (m.put f (x % 1024) 0).frame? x = none := by
  have hput : ∀ g k, (m.put f (x % 1024) 0).word g k
      = if g = f ∧ k = x % 1024 then 0 else m.word g k :=
    fun g k => Paging.setWord_apply m.word f (x % 1024) 0 g k
  rw [frame?_of_table? hx]
  have htable : (m.put f (x % 1024) 0).table? x = none
      ∨ (m.put f (x % 1024) 0).table? x = some f := by
    unfold table? at hf ⊢
    rw [hput]
    split
    . exact .inl rfl
    . exact .inr hf
  cases htable with
  | inl hnone => rw [hnone]
  | inr hsome =>
    rw [hsome]
    dsimp only
    rw [hput, if_pos ⟨rfl, rfl⟩]
    rfl

theorem Remains.unmap (h : m.Remains vpn n x page) (hvpn : vpn + n ≤ 0xFFC00) (hx : x < 2 ^ 20)
    {y : Nat} (hne : y % 2 ^ 20 ≠ x) (hstep : Emos.unmap page y = .ok page')
    : m.Remains vpn n x page' := by
  cases h with
  | inl h =>
    obtain ⟨htables, hxsame, hsame⟩ := h
    cases unmap_eq htables y with
    | inl habsent =>
      rw [hstep] at habsent
      cases habsent.2
      exact .inl ⟨htables, hxsame, hsame⟩
    | inr hpresent =>
      obtain ⟨f, hpresent, hf, heq⟩ := hpresent
      rw [hstep] at heq
      cases heq
      by_cases hin : vpn ≤ y % 2 ^ 20 ∧ y % 2 ^ 20 < vpn + n
      . left
        have hwindow : y % 2 ^ 20 / 1024 ≠ 1023 := by lia
        have hput := fun z hz => frame?_put htables (by omega) hwindow hf 0 (x := z) hz
        refine ⟨htables.put (by lia) hf _ _, ?_, ?_⟩
        . rw [hput x hx, if_neg (Ne.symm hne)]
          exact hxsame
        . intro z hz hout
          rw [hput z hz, if_neg (by lia)]
          exact hsame z hz hout
      . right
        refine ⟨y % 2 ^ 20, by omega, by omega, ?_, frame?_put_zero (by omega) hf⟩
        rw [← hsame _ (by omega) (by omega)]
        exact hpresent
  | inr h =>
    obtain ⟨z, hz, hout, hwas, hnone⟩ := h
    right
    refine ⟨z, hz, hout, hwas, ?_⟩
    cases unmap_clears hstep with
    | inl hsame =>
      rw [hsame]
      exact hnone
    | inr hcleared =>
      obtain ⟨f, j, hcleared⟩ := hcleared
      rw [hcleared]
      exact Paging.Format.walk_setWord_eq_none rfl hnone

theorem mmUnmap_remains (h : m.Tables) (hvpn : vpn + n ≤ 0xFFC00) (hx : x < 2 ^ 20) {base : Nat}
    (hne : ∀ i, i < n → u32 (base + i) % 2 ^ 20 ≠ x) (hrun : mmUnmap m base n = .ok page)
    : m.Remains vpn n x page := by
  refine forRange_invariant (fun _ page => m.Remains vpn n x page) ?_ hrun
    (.inl ⟨h, rfl, fun _ _ _ => rfl⟩)
  intro i t t' _ hi ht hstep
  exact ht.unmap hvpn hx (hne i (by omega)) hstep

end PageMemory

namespace Mm

variable {m m' : Mm} {th th' : Thread τ}

/--
A successful allocation maps the pages of the stack. What it stores in the thread is the address of
the first page, and not its number.
-/
structure AllocatesStack (m' : Mm) (th th' : Thread τ) (vpn pfn : Nat) : Prop where
  sound : m'.Sound
  stack : m'.Stack vpn pfn th.kmodeStackPageCount
  vpn_ge : 0xC1000 ≤ vpn
  vpn_lt : vpn + th.kmodeStackPageCount < 0xFEFFF
  base : th'.kmodeStackBaseVpn = u32 (vpn * pageSize)
  pageCount : th'.kmodeStackPageCount = th.kmodeStackPageCount

theorem hasError_ne_success {pfn : Nat} {status : Status} (hstatus : status ≠ .success)
    : pcThreadAllocateKthreadStack.hasError th m pfn status ≠ .ok ⟨.success, th', m'⟩ := by
  intro h
  unfold pcThreadAllocateKthreadStack.hasError at h
  split at h
  . rw [bind_eq_ok] at h
    obtain ⟨pma, _, h⟩ := h
    cases h
    contradiction
  . cases h
    contradiction

theorem pcThreadAllocateKthreadStack_spec (hm : m.Sound)
    (hrun : pcThreadAllocateKthreadStack m th = .ok ⟨.success, th', m'⟩)
    : ∃ vpn pfn, AllocatesStack m' th th' vpn pfn := by
  have hlimit := hm.pma.limit_lt
  have hge := hm.alloc_ge
  have hlimitVpn := hm.limit_le
  have hle := hm.alloc_le
  rw [pcThreadAllocateKthreadStack, bind_eq_ok] at hrun
  obtain ⟨⟨res, pma⟩, halloc, hrun⟩ := hrun
  dsimp only at hrun
  split at hrun
  . next status =>
    cases hrun
    cases mmPmaAllocateFrame_spec hm.pma th.kmodeStackPageCount with
    | inl hfail =>
      rw [halloc] at hfail
      cases hfail
    | inr hok =>
      obtain ⟨start, t, hok, _⟩ := hok
      rw [halloc] at hok
      cases hok
  . next pfn =>
    have hhands := mmPmaAllocateFrame_hands hm.pma halloc
    have hbounds := hhands.bounds
    by_cases hfull : u32 (m.vma.kernelAllocVpn + th.kmodeStackPageCount) ≥ m.vma.kernelLimitVpn
    . simp only [mmVmaAllocatePage, hfull, ↓reduceIte] at hrun
      exact absurd hrun (hasError_ne_success (by simp))
    . simp only [mmVmaAllocatePage, hfull, ↓reduceIte] at hrun
      rw [bind_eq_ok] at hrun
      obtain ⟨⟨status, m1⟩, hmap, hrun⟩ := hrun
      dsimp only at hrun
      split at hrun
      . next hne => exact absurd hrun (hasError_ne_success hne)
      . next heq =>
        simp only [ne_eq, Decidable.not_not] at heq
        subst heq
        cases hrun
        rw [u32_of_lt (by lia)] at hfull hmap
        have hpaged : ({ m with pma, vma := { m.vma with
            kernelAllocVpn := m.vma.kernelAllocVpn + th.kmodeStackPageCount } } : Mm).Paged :=
          hm.toPaged.of_hands hhands
        have hmaps := mmMap_spec hpaged (by omega) (by omega) hmap
        refine ⟨m.vma.kernelAllocVpn, pfn, ⟨hmaps.paged, ?_, ?_, ?_⟩, ⟨hmaps.mapped, ?_⟩, hge,
          by omega, rfl, rfl⟩
        . rw [hmaps.vma]
          dsimp only
          omega
        . rw [hmaps.vma]
          dsimp only
          omega
        . rw [hmaps.vma]
          exact hlimitVpn
        . intro i hi
          have hallocated := hhands.allocated (pfn + i) (by omega) (by omega)
          rw [hmaps.frames (pfn + i) (by rw [hallocated]; simp)]
          exact hallocated

theorem exists_page_not_unmapped {vpn n : Nat} (hn : 1 ≤ n) (hge : 0xC1000 ≤ vpn)
    (hlt : vpn + n < 0xFEFFF)
    : ∃ j, j < n ∧ ∀ i, i < n → u32 (u32 (vpn * pageSize) + i) % 2 ^ 20 ≠ vpn + j := by
  have hpage : ∀ i, u32 (u32 (vpn * pageSize) + i) % 2 ^ 20 = (vpn * 4096 % 2 ^ 20 + i) % 2 ^ 20 := by
    intro i
    unfold u32 pageSize
    lia
  have hne : vpn * 4096 % 2 ^ 20 ≠ vpn := by lia
  by_cases hless : vpn * 4096 % 2 ^ 20 < vpn
  . refine ⟨n - 1, by omega, ?_⟩
    intro i hi
    rw [hpage]
    generalize vpn * 4096 % 2 ^ 20 = a at *
    lia
  . refine ⟨0, by omega, ?_⟩
    intro i hi
    rw [hpage]
    have hbound : vpn * 4096 % 2 ^ 20 < 2 ^ 20 := by omega
    generalize vpn * 4096 % 2 ^ 20 = a at *
    lia

theorem pcThreadFreeKthreadStack_not_releases {vpn pfn : Nat} (hm : m.Sound)
    (hn : 1 ≤ th.kmodeStackPageCount) (hge : 0xC1000 ≤ vpn)
    (hlt : vpn + th.kmodeStackPageCount < 0xFEFFF)
    (hbase : th.kmodeStackBaseVpn = u32 (vpn * pageSize))
    (hstack : m.Stack vpn pfn th.kmodeStackPageCount)
    (hrun : pcThreadFreeKthreadStack m th = .ok m')
    : ¬ m.Releases vpn pfn th.kmodeStackPageCount m' := by
  intro hreleases
  obtain ⟨j, hj, hne⟩ := exists_page_not_unmapped hn hge hlt
  rw [pcThreadFreeKthreadStack, bind_eq_ok] at hrun
  obtain ⟨res, _, hrun⟩ := hrun
  split at hrun
  . contradiction
  . rw [bind_eq_ok] at hrun
    obtain ⟨page, hpage, hrun⟩ := hrun
    rw [bind_eq_ok] at hrun
    obtain ⟨pma, _, hrun⟩ := hrun
    cases hrun
    rw [hbase] at hpage
    have hordinary : vpn + th.kmodeStackPageCount ≤ 0xFFC00 := by omega
    cases PageMemory.mmUnmap_remains hm.tables hordinary (by omega) hne hpage with
    | inl hkept =>
      have hunmapped := hreleases.unmapped j hj
      dsimp only at hunmapped
      rw [hkept.2.1, hstack.mapped j hj] at hunmapped
      contradiction
    | inr hlost =>
      obtain ⟨y, hy, hout, hwas, hnone⟩ := hlost
      have hsame := hreleases.pages y hy hout
      dsimp only at hsame
      rw [hnone] at hsame
      exact hwas hsame.symm

/--
Whenever the allocation of a stack succeeds, the stack is mapped, and in no later state in which it
still is mapped its release unmaps just its pages and frees just its frames.
-/
theorem freeKthreadStack_never_releases (m m' : Mm) (th th' : Thread τ) (hm : m.Sound)
    (hn : 1 ≤ th.kmodeStackPageCount)
    (halloc : pcThreadAllocateKthreadStack m th = .ok ⟨.success, th', m'⟩)
    : ∃ vpn pfn, m'.Sound ∧ m'.Stack vpn pfn th.kmodeStackPageCount
        ∧ ∀ later : Mm, later.Sound → later.Stack vpn pfn th.kmodeStackPageCount
          → ¬ ∃ last, pcThreadFreeKthreadStack later th' = .ok last
            ∧ later.Releases vpn pfn th.kmodeStackPageCount last := by
  obtain ⟨vpn, pfn, h⟩ := pcThreadAllocateKthreadStack_spec hm halloc
  refine ⟨vpn, pfn, h.sound, h.stack, ?_⟩
  intro later hlater hstack ⟨last, hrun, hreleases⟩
  rw [← h.pageCount] at hn hstack hreleases
  refine pcThreadFreeKthreadStack_not_releases hlater hn h.vpn_ge ?_ h.base hstack hrun hreleases
  rw [h.pageCount]
  exact h.vpn_lt

theorem small_sound : small.Sound := ⟨small_paged, by decide, by decide, by decide⟩

def smallThread : Thread Nat where
  next := none
  status := .pending
  type := .kernel
  kmodeStackPageCount := 2
  kmodeStackBaseVpn := 0
  kmodeStackPtr := 0
  detached := false
  waitList := none
  waitCount := 0
  mutexBlockingNext := none

theorem freeKthreadStack_never_releases_small
    : ∃ th' m', pcThreadAllocateKthreadStack small smallThread = .ok ⟨.success, th', m'⟩
        ∧ ∃ vpn pfn, m'.Sound ∧ m'.Stack vpn pfn 2
          ∧ ∀ later : Mm, later.Sound → later.Stack vpn pfn 2
            → ¬ ∃ last, pcThreadFreeKthreadStack later th' = .ok last
              ∧ later.Releases vpn pfn 2 last := by
  have halloc : ∃ th' m', pcThreadAllocateKthreadStack small smallThread
      = .ok ⟨.success, th', m'⟩ := ⟨_, _, rfl⟩
  obtain ⟨th', m', halloc⟩ := halloc
  refine ⟨th', m', halloc, ?_⟩
  exact freeKthreadStack_never_releases small m' smallThread th' small_sound (by decide) halloc

/--
The release of a stack that was just allocated panics, page 0 is not present.
-/
theorem freeKthreadStack_panics
    : ∃ th' m', pcThreadAllocateKthreadStack small smallThread = .ok ⟨.success, th', m'⟩
        ∧ pcThreadFreeKthreadStack m' th' = .error (.panic .pageNotPresent) :=
  ⟨_, _, rfl, rfl⟩

end Mm

end Emos
