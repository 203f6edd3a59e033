import Emos.Kernel.Mm.Impl.Mm
import Mathlib.Logic.Relation

/-!
This module contains what holds after every sequence of allocations of virtual pages. The limit of an
area is its last page, but the allocator compares the page behind an allocation with it.
-/

namespace Emos

/--
The pages of one area and the first one that has not been allocated.
-/
structure VmaArea where
  baseVpn : Nat
  limitVpn : Nat
  allocVpn : Nat
  deriving DecidableEq, Repr

namespace Vma

def area (a : Vma) : Bool → VmaArea
  | true => ⟨a.kernelBaseVpn, a.kernelLimitVpn, a.kernelAllocVpn⟩
  | false => ⟨a.userBaseVpn, a.userLimitVpn, a.userAllocVpn⟩

def freePageCount (a : Vma) (kernel : Bool) : Nat :=
  if kernel then mmVmaGetFreeKernelPageCount a else mmVmaGetFreeUserPageCount a

theorem freePageCount_eq (a : Vma) (kernel : Bool)
    : a.freePageCount kernel
        =
      u32 (sub32 (a.area kernel).limitVpn (a.area kernel).allocVpn + 1) := by
  cases kernel <;> rfl

end Vma

structure VmaCall where
  pageCount : Nat
  kernel : Bool
  deriving DecidableEq, Repr

variable {a : Vma} {c : VmaCall}

theorem mmVmaAllocatePage_fails
    (h : (a.area c.kernel).limitVpn ≤ u32 ((a.area c.kernel).allocVpn + c.pageCount))
    : mmVmaAllocatePage a c.pageCount c.kernel = ⟨.error .insufficientMemory, a⟩ := by
  obtain ⟨pageCount, kernel⟩ := c
  unfold mmVmaAllocatePage
  cases kernel with
  | true =>
    rw [if_pos rfl]
    exact if_pos h
  | false =>
    rw [if_neg Bool.false_ne_true]
    exact if_pos h

theorem mmVmaAllocatePage_succeeds
    (h : u32 ((a.area c.kernel).allocVpn + c.pageCount) < (a.area c.kernel).limitVpn)
    : ∃ a', mmVmaAllocatePage a c.pageCount c.kernel = ⟨.ok (a.area c.kernel).allocVpn, a'⟩
        ∧ ∀ kernel, a'.area kernel
          =
        if kernel = c.kernel then
          { a.area kernel with allocVpn := u32 ((a.area kernel).allocVpn + c.pageCount) }
        else
          a.area kernel := by
  obtain ⟨pageCount, kernel⟩ := c
  unfold mmVmaAllocatePage
  cases kernel with
  | true =>
    rw [if_pos rfl]
    refine ⟨_, if_neg (Nat.not_le.mpr h), ?_⟩
    intro kernel
    cases kernel <;> rfl
  | false =>
    rw [if_neg Bool.false_ne_true]
    refine ⟨_, if_neg (Nat.not_le.mpr h), ?_⟩
    intro kernel
    cases kernel <;> rfl

structure VmaGrant where
  kernel : Bool
  vpn : Nat
  pageCount : Nat
  deriving DecidableEq, Repr

/--
The allocator together with all pages that it has handed out, the last ones first.
-/
structure VmaHistory where
  vma : Vma
  grants : List VmaGrant
  deriving DecidableEq, Repr

namespace VmaHistory

def call (h : VmaHistory) (c : VmaCall) : VmaHistory :=
  match mmVmaAllocatePage h.vma c.pageCount c.kernel with
  | ⟨.ok vpn, vma⟩ => ⟨vma, ⟨c.kernel, vpn, c.pageCount⟩ :: h.grants⟩
  | ⟨.error _, vma⟩ => ⟨vma, h.grants⟩

/--
The count is less than the number of free pages by at least two, or it exceeds it without making the sum
in the allocator wrap around. The number of free pages is one that can be reported.
-/
def Meets (a : Vma) (c : VmaCall) : Prop :=
  (a.area c.kernel).limitVpn - (a.area c.kernel).allocVpn + 1 < 2 ^ 32
    ∧ ((a.area c.kernel).allocVpn + c.pageCount < (a.area c.kernel).limitVpn
      ∨ (a.area c.kernel).limitVpn + 1 < (a.area c.kernel).allocVpn + c.pageCount
        ∧ (a.area c.kernel).allocVpn + c.pageCount < 2 ^ 32)

/--
The call succeeds just if there are enough free pages, and changes nothing if it fails.
-/
structure Answers (a : Vma) (c : VmaCall) : Prop where
  succeeds_iff : (mmVmaAllocatePage a c.pageCount c.kernel).1.isOk
    ↔ c.pageCount ≤ a.freePageCount c.kernel
  unchanged : ¬(mmVmaAllocatePage a c.pageCount c.kernel).1.isOk
    → (mmVmaAllocatePage a c.pageCount c.kernel).2 = a

/--
All that was handed out is inside of its area, and no page was handed out twice.
-/
structure Sound (h : VmaHistory) : Prop where
  inside : ∀ g ∈ h.grants, (h.vma.area g.kernel).baseVpn ≤ g.vpn
    ∧ g.vpn + g.pageCount ≤ (h.vma.area g.kernel).limitVpn + 1
  disjoint : h.grants.Pairwise fun g g' =>
    g.kernel = g'.kernel → g.vpn + g.pageCount ≤ g'.vpn ∨ g'.vpn + g'.pageCount ≤ g.vpn

/--
One call that meets the condition.
-/
def Step (h h' : VmaHistory) : Prop :=
  ∃ c : VmaCall, c.pageCount < 2 ^ 32 ∧ Meets h.vma c ∧ h' = h.call c

/--
The cursor of each area is inside of it and behind all that was handed out.
-/
structure Inv (h : VmaHistory) : Prop where
  sound : h.Sound
  base_le : ∀ kernel, (h.vma.area kernel).baseVpn ≤ (h.vma.area kernel).allocVpn
  le_limit : ∀ kernel, (h.vma.area kernel).allocVpn ≤ (h.vma.area kernel).limitVpn
  limit_lt : ∀ kernel, (h.vma.area kernel).limitVpn < 2 ^ 32
  behind : ∀ g ∈ h.grants, g.vpn + g.pageCount ≤ (h.vma.area g.kernel).allocVpn

variable {h h' : VmaHistory}

theorem Inv.freePageCount_eq (hinv : h.Inv) (kernel : Bool)
    (hlt : (h.vma.area kernel).limitVpn - (h.vma.area kernel).allocVpn + 1 < 2 ^ 32)
    : h.vma.freePageCount kernel
        =
      (h.vma.area kernel).limitVpn - (h.vma.area kernel).allocVpn + 1 := by
  rw [Vma.freePageCount_eq]
  rw [sub32_of_le (hinv.le_limit kernel) (hinv.limit_lt kernel)]
  rw [u32_of_lt hlt]

theorem isOk_iff
    : (mmVmaAllocatePage a c.pageCount c.kernel).1.isOk
        ↔
      u32 ((a.area c.kernel).allocVpn + c.pageCount) < (a.area c.kernel).limitVpn := by
  by_cases hfits : u32 ((a.area c.kernel).allocVpn + c.pageCount) < (a.area c.kernel).limitVpn
  . obtain ⟨a', hcall, _⟩ := mmVmaAllocatePage_succeeds hfits
    rw [hcall]
    simp [hfits, Except.isOk, Except.toBool]
  . rw [mmVmaAllocatePage_fails (Nat.not_lt.mp hfits)]
    simp [hfits, Except.isOk, Except.toBool]

theorem unchanged_of_fails (hfails : ¬(mmVmaAllocatePage a c.pageCount c.kernel).1.isOk)
    : (mmVmaAllocatePage a c.pageCount c.kernel).2 = a := by
  rw [isOk_iff] at hfails
  rw [mmVmaAllocatePage_fails (Nat.not_lt.mp hfails)]

theorem Inv.answers (hinv : h.Inv) (hmeets : Meets h.vma c) : Answers h.vma c := by
  obtain ⟨hlt, hcount⟩ := hmeets
  have hle := hinv.le_limit c.kernel
  have hlimit := hinv.limit_lt c.kernel
  refine ⟨?_, unchanged_of_fails⟩
  rw [isOk_iff, hinv.freePageCount_eq c.kernel hlt]
  cases hcount with
  | inl hfits =>
    rw [u32_of_lt (by omega)]
    omega
  | inr hmore =>
    rw [u32_of_lt (by omega)]
    omega

theorem Inv.meets (hinv : h.Inv) (hcount : c.pageCount < 2 ^ 32)
    (hlimit : (h.vma.area c.kernel).limitVpn + 1 < 2 ^ 32) (hanswers : Answers h.vma c)
    : Meets h.vma c := by
  have hle := hinv.le_limit c.kernel
  have hiff := hanswers.succeeds_iff
  rw [isOk_iff, hinv.freePageCount_eq c.kernel (by omega)] at hiff
  refine ⟨by omega, ?_⟩
  unfold u32 at hiff
  lia

theorem Inv.step (hinv : h.Inv) (hstep : Step h h') : h'.Inv := by
  obtain ⟨c, hcount, ⟨_, hmeets⟩, rfl⟩ := hstep
  have hlimit := hinv.limit_lt c.kernel
  cases hmeets with
  | inr hmore =>
    unfold call
    rw [mmVmaAllocatePage_fails (by rw [u32_of_lt (by omega)]; omega)]
    exact hinv
  | inl hfits =>
    have hsum : u32 ((h.vma.area c.kernel).allocVpn + c.pageCount)
        = (h.vma.area c.kernel).allocVpn + c.pageCount := by
      apply u32_of_lt
      omega
    obtain ⟨a', hcall, harea⟩ := mmVmaAllocatePage_succeeds (a := h.vma) (c := c) (by rw [hsum]; exact hfits)
    -- only the cursor of this area moves, and it moves upwards
    have hbase : ∀ kernel, (a'.area kernel).baseVpn = (h.vma.area kernel).baseVpn := by
      intro kernel
      rw [harea]
      split <;> rfl
    have hlimitVpn : ∀ kernel, (a'.area kernel).limitVpn = (h.vma.area kernel).limitVpn := by
      intro kernel
      rw [harea]
      split <;> rfl
    have hsame : (a'.area c.kernel).allocVpn = (h.vma.area c.kernel).allocVpn + c.pageCount := by
      rw [harea, if_pos rfl]
      exact hsum
    have hother : ∀ kernel, kernel ≠ c.kernel
        → (a'.area kernel).allocVpn = (h.vma.area kernel).allocVpn := by
      intro kernel hne
      rw [harea, if_neg hne]
    have hmono : ∀ kernel, (h.vma.area kernel).allocVpn ≤ (a'.area kernel).allocVpn := by
      intro kernel
      by_cases heq : kernel = c.kernel
      . rw [heq, hsame]
        lia
      . rw [hother kernel heq]
    unfold call
    rw [hcall]
    constructor
    . constructor
      . intro g hg
        dsimp only
        rw [hbase, hlimitVpn]
        rw [List.mem_cons] at hg
        cases hg with
        | inl heq =>
          subst heq
          have := hinv.base_le c.kernel
          dsimp only
          lia
        | inr hmem => exact hinv.sound.inside g hmem
      . apply List.Pairwise.cons
        . intro g hg heq
          right
          have := hinv.behind g hg
          rw [← heq] at this
          exact this
        . exact hinv.sound.disjoint
    . intro kernel
      have := hinv.base_le kernel
      have := hmono kernel
      dsimp only
      rw [hbase]
      omega
    . intro kernel
      dsimp only
      rw [hlimitVpn]
      by_cases heq : kernel = c.kernel
      . rw [heq, hsame]
        lia
      . rw [hother kernel heq]
        exact hinv.le_limit kernel
    . intro kernel
      dsimp only
      rw [hlimitVpn]
      exact hinv.limit_lt kernel
    . intro g hg
      rw [List.mem_cons] at hg
      cases hg with
      | inl heq =>
        subst heq
        dsimp only
        rw [hsame]
      | inr hmem =>
        have := hinv.behind g hmem
        have := hmono g.kernel
        dsimp only
        omega

theorem Inv.run (hinv : h.Inv) (hrun : Relation.ReflTransGen Step h h') : h'.Inv := by
  induction hrun with
  | refl => exact hinv
  | tail _ hstep ih => exact ih.step hstep

theorem inv_mmVmaInit {userBase userLimit kernelBase kernelLimit : Nat} (hu : userBase ≤ userLimit)
    (hk : kernelBase ≤ kernelLimit) (hul : userLimit < 2 ^ 32) (hkl : kernelLimit < 2 ^ 32)
    : Inv ⟨mmVmaInit userBase userLimit kernelBase kernelLimit, []⟩ := by
  constructor
  . constructor
    . intro g hg
      contradiction
    . exact List.Pairwise.nil
  . intro kernel
    cases kernel <;> exact Nat.le_refl _
  . intro kernel
    cases kernel <;> assumption
  . intro kernel
    cases kernel <;> assumption
  . intro g hg
    contradiction

/--
As long as all calls meet the condition, whatever is handed out is disjoint and inside of its area, and
each call succeeds just if there are enough free pages.
-/
theorem run_sound (userBase userLimit kernelBase kernelLimit : Nat) (hu : userBase ≤ userLimit)
    (hk : kernelBase ≤ kernelLimit) (hul : userLimit < 2 ^ 32) (hkl : kernelLimit < 2 ^ 32)
    (h : VmaHistory)
    (hrun : Relation.ReflTransGen Step ⟨mmVmaInit userBase userLimit kernelBase kernelLimit, []⟩ h)
    : h.Sound
        ∧ ∀ c : VmaCall, c.pageCount < 2 ^ 32
          → (Meets h.vma c → Answers h.vma c)
            ∧ ((h.vma.area c.kernel).limitVpn + 1 < 2 ^ 32 → Answers h.vma c → Meets h.vma c) := by
  have hinv := (inv_mmVmaInit hu hk hul hkl).run hrun
  refine ⟨hinv.sound, ?_⟩
  intro c hcount
  constructor
  . intro hmeets
    exact hinv.answers hmeets
  . intro hlimit hanswers
    exact hinv.meets hcount hlimit hanswers

def pcAreas : VmaHistory := ⟨mmVmaInit 0x100 0xBFFFF 0xC1000 0xFEFFF, []⟩

theorem run_sound_pcAreas
    : (pcAreas.call ⟨16, true⟩).grants = [⟨true, 0xC1000, 16⟩]
        ∧ (pcAreas.call ⟨16, true⟩).Sound
        ∧ Answers (pcAreas.call ⟨16, true⟩).vma ⟨1, true⟩ := by
  have hstep : Step pcAreas (pcAreas.call ⟨16, true⟩) :=
    ⟨⟨16, true⟩, by decide, ⟨by decide, .inl (by decide)⟩, rfl⟩
  obtain ⟨hsound, hanswers⟩ := run_sound 0x100 0xBFFFF 0xC1000 0xFEFFF (by decide) (by decide) (by decide)
    (by decide) _ (Relation.ReflTransGen.single hstep)
  exact ⟨by decide, hsound, (hanswers ⟨1, true⟩ (by decide)).1 ⟨by decide, .inl (by decide)⟩⟩

/--
All free pages are asked for in vain, and a count at which the sum wraps around makes the allocator hand
out pages in front of its area, and the same pages again.
-/
theorem last_pages_not_allocated
    : mmVmaGetFreeKernelPageCount pcAreas.vma = 0x3E000
        ∧ ¬(mmVmaAllocatePage pcAreas.vma 0x3E000 true).1.isOk
        ∧ ¬Answers pcAreas.vma ⟨0x3E000, true⟩
        ∧ ((pcAreas.call ⟨0xFFFFFFFF, true⟩).call ⟨1, true⟩).grants
          = [⟨true, 0xC0FFF, 1⟩, ⟨true, 0xC1000, 0xFFFFFFFF⟩]
        ∧ ¬((pcAreas.call ⟨0xFFFFFFFF, true⟩).call ⟨1, true⟩).Sound := by
  refine ⟨by decide, by decide, ?_, by decide, ?_⟩
  . intro hanswers
    exact absurd (hanswers.succeeds_iff.mpr (by decide)) (by decide)
  . intro hsound
    have := hsound.inside ⟨true, 0xC0FFF, 1⟩ (by decide)
    exact absurd this.1 (by decide)

end VmaHistory

end Emos
