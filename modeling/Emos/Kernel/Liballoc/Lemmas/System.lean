import Emos.Kernel.Liballoc.Lemmas.Platform
import Emos.Kernel.Liballoc.Lemmas.Runs

/-!
This module contains the heap of the kernel, which gets its pages from `liballoc_alloc`.
-/

open Lib

namespace Emos

namespace Liballoc

open Mm

/--
A page of one of the regions.
-/
def PageOf (owned : List (Nat × Nat)) (x : Nat) : Prop := ∃ r ∈ owned, r.1 / pageSize ≤ x ∧ x < r.1 / pageSize + r.2

/--
The page is backed by a frame that is no page table.
-/
def Backed (m : Mm) (x f : Nat) : Prop :=
  m.page.frame? x = some f ∧ m.pma.frameDesc f = some pbmAllocated ∧ ∀ y, m.page.table? y ≠ some f

/--
The regions are apart, and each of their pages is backed by a frame of its own.
-/
structure KernelOwns (m : Mm) (owned : List (Nat × Nat)) : Prop where
  heap : m.Heap
  pos : 0 < m.vma.kernelAllocVpn
  whole : ∀ r ∈ owned, r.1 % pageSize = 0
  ends : ∀ r ∈ owned, r.1 / pageSize + r.2 ≤ m.vma.kernelAllocVpn
  apart : owned.Pairwise fun r s => r.1 + r.2 * pageSize ≤ s.1 ∨ s.1 + s.2 * pageSize ≤ r.1
  backed : ∀ x, PageOf owned x → ∃ f, Backed m x f
  distinct : ∀ x y f, PageOf owned x → PageOf owned y → m.page.frame? x = some f → m.page.frame? y = some f → x = y

variable {m m' : Mm} {owned : List (Nat × Nat)} {vpn n k x f : Nat} {g : Nat → Nat}

/--
A page that was backed is backed by the same frame after others have been filled.
-/
theorem Backed.fills {vma : Vma} (h : Backed m x f) (hfills : ({ m with vma } : Mm).Fills vpn g k m') (hx : Ordinary x)
    (hout : x < vpn ∨ vpn + k ≤ x)
    : Backed m' x f := by
  obtain ⟨hmapped, hdesc, htable⟩ := h
  have hused : m.pma.frameDesc f ≠ some pbmFree := by
    rw [hdesc]
    decide
  have hne : ∀ i, i < k → f ≠ g i := by
    intro i hi heq
    rw [heq] at hused
    exact hused (hfills.free i hi)
  refine ⟨(hfills.kept x hx hout).trans hmapped, ?_, ?_⟩
  . cases hfills.frames f hne with
    | inl hsame => exact hsame.trans hdesc
    | inr hnew => exact absurd hnew.1 hused
  . intro y hy
    cases hfills.fresh y f hy with
    | inl hold => exact htable y hold
    | inr hfree => exact hused hfree

theorem Backed.drains (h : Backed m x f) (hdrains : Drains m vpn g k m') (hx : Ordinary x)
    (hout : x < vpn ∨ vpn + k ≤ x) (hne : ∀ i, i < k → f ≠ g i)
    : Backed m' x f :=
  ⟨(hdrains.kept x hx hout).trans h.1, (hdrains.frames f hne).trans h.2.1, fun y => hdrains.tables y ▸ h.2.2 y⟩

namespace KernelOwns

theorem empty (h : m.Heap) (hpos : 0 < m.vma.kernelAllocVpn) : KernelOwns m [] where
  heap := h
  pos := hpos
  whole := fun _ hr => absurd hr List.not_mem_nil
  ends := fun _ hr => absurd hr List.not_mem_nil
  apart := .nil
  backed := fun _ ⟨_, hr, _⟩ => absurd hr List.not_mem_nil
  distinct := fun _ _ _ ⟨_, hr, _⟩ => absurd hr List.not_mem_nil

theorem below (h : KernelOwns m owned) (hx : PageOf owned x) : x < m.vma.kernelAllocVpn := by
  obtain ⟨r, hr, _, hlt⟩ := hx
  exact Nat.lt_of_lt_of_le hlt (h.ends r hr)

theorem ordinary (h : KernelOwns m owned) (hx : PageOf owned x) : Ordinary x := by
  have hlt := h.below hx
  have hle := h.heap.alloc_le
  have hlimit := h.heap.limit_lt
  unfold Ordinary
  omega

theorem pageOf_cons {front back : List (Nat × Nat)} {r : Nat × Nat} (hx : PageOf (front ++ back) x)
    : PageOf (front ++ r :: back) x := by
  obtain ⟨s, hs, hin⟩ := hx
  refine ⟨s, ?_, hin⟩
  obtain hs | hs := List.mem_append.mp hs
  . exact List.mem_append_left _ hs
  . exact List.mem_append_right _ (List.mem_cons_of_mem _ hs)

/--
The pages of a region can be given back.
-/
theorem take {front back : List (Nat × Nat)} {a : Nat} (h : KernelOwns m (front ++ (a, n) :: back))
    : ∃ m', liballocFree m a n = .ok m' ∧ KernelOwns m' (front ++ back) := by
  have hpage : 0 < pageSize := by decide
  have hregion : (a, n) ∈ front ++ (a, n) :: back := List.mem_append_right _ List.mem_cons_self
  have hlimit := h.heap.limit_lt
  have hle := h.heap.alloc_le
  have hends := h.ends _ hregion
  dsimp only at hends
  have hpageOf : ∀ i, i < n → PageOf (front ++ (a, n) :: back) (a / pageSize + i) :=
    fun i hi => ⟨(a, n), hregion, Nat.le_add_right .., Nat.add_lt_add_left hi _⟩
  have hframe : ∀ i, ∃ f, i < n → Backed m (a / pageSize + i) f := by
    intro i
    by_cases hi : i < n
    . obtain ⟨f, hf⟩ := h.backed _ (hpageOf i hi)
      exact ⟨f, fun _ => hf⟩
    . exact ⟨0, fun hlt => absurd hlt hi⟩
  choose g hg using hframe
  have hholds : Holds m (a / pageSize) g n := by
    refine ⟨h.heap.toPaged, by omega, fun i hi => (hg i hi).1, ?_, fun i hi => (hg i hi).2.1,
      fun i x hi => (hg i hi).2.2 x⟩
    intro i j hi hj heq
    have hj' := (hg j hj).1
    rw [← heq] at hj'
    have := h.distinct _ _ _ (hpageOf i hi) (hpageOf j hj) (hg i hi).1 hj'
    omega
  obtain ⟨m', hrun, hheap, hdrains⟩ := liballocFree_drains h.heap hholds hends
  rw [Nat.div_mul_cancel (Nat.dvd_of_mod_eq_zero (h.whole _ hregion))] at hrun
  have hvma : m'.vma = m.vma := hdrains.vma
  -- the pages that stay are not those that have gone
  have hout : ∀ x, PageOf (front ++ back) x → x < a / pageSize ∨ a / pageSize + n ≤ x := by
    intro x ⟨r, hr, hlow, hhigh⟩
    have hapart : r.1 + r.2 * pageSize ≤ a ∨ a + n * pageSize ≤ r.1 := by
      have hall := h.apart
      rw [List.pairwise_append, List.pairwise_cons] at hall
      obtain hr | hr := List.mem_append.mp hr
      . exact hall.2.2 r hr _ List.mem_cons_self
      . exact (hall.2.1.1 r hr).symm
    have hr' : r ∈ front ++ (a, n) :: back := by
      obtain hr | hr := List.mem_append.mp hr
      . exact List.mem_append_left _ hr
      . exact List.mem_append_right _ (List.mem_cons_of_mem _ hr)
    have hwhole := Nat.div_add_mod r.1 pageSize
    have hwhole' := Nat.div_add_mod a pageSize
    rw [h.whole r hr'] at hwhole
    rw [h.whole _ hregion] at hwhole'
    unfold pageSize at *
    lia
  have hkept : ∀ x, PageOf (front ++ back) x → m'.page.frame? x = m.page.frame? x :=
    fun x hx => hdrains.kept x (h.ordinary (pageOf_cons hx)) (hout x hx)
  refine ⟨m', hrun, hheap, ?_, ?_, ?_, ?_, ?_, ?_⟩
  . rw [hvma]
    exact h.pos
  . intro r hr
    obtain hr | hr := List.mem_append.mp hr
    . exact h.whole r (List.mem_append_left _ hr)
    . exact h.whole r (List.mem_append_right _ (List.mem_cons_of_mem _ hr))
  . intro r hr
    rw [hvma]
    obtain hr | hr := List.mem_append.mp hr
    . exact h.ends r (List.mem_append_left _ hr)
    . exact h.ends r (List.mem_append_right _ (List.mem_cons_of_mem _ hr))
  . exact h.apart.sublist (List.Sublist.append (List.Sublist.refl _) (List.sublist_cons_self _ _))
  . intro x hx
    obtain ⟨f, hf⟩ := h.backed x (pageOf_cons hx)
    refine ⟨f, hf.drains hdrains (h.ordinary (pageOf_cons hx)) (hout x hx) ?_⟩
    intro i hi heq
    have hx' := hf.1
    rw [heq] at hx'
    have := h.distinct x _ _ (pageOf_cons hx) (hpageOf i hi) hx' (hg i hi).1
    have := hout x hx
    lia
  . intro x y f hx hy hfx hfy
    rw [hkept x hx] at hfx
    rw [hkept y hy] at hfy
    exact h.distinct x y f (pageOf_cons hx) (pageOf_cons hy) hfx hfy

end KernelOwns

end Liballoc

end Emos
