import Emos.Kernel.Liballoc.Impl.Liballoc
import Emos.Kernel.Mm.Lemmas.Translation

/-!
This module contains that the pages of the heap are backed by frames of their own, and that a request
that fails gives back all frames but those of new page tables.
-/

open Lib

namespace Emos

namespace Mm

/--
No page of the kernel area is mapped from the next one to be allocated on.
-/
structure Heap (m : Mm) : Prop extends Paged m where
  alloc_le : m.vma.kernelAllocVpn ≤ m.vma.kernelLimitVpn
  limit_lt : m.vma.kernelLimitVpn < 0xFFC00
  unmapped : ∀ x, m.vma.kernelAllocVpn ≤ x → x ≤ m.vma.kernelLimitVpn → m.page.frame? x = none

/--
A free frame has become a page table.
-/
def NewTable (m m' : Mm) (f : Nat) : Prop :=
  m.pma.frameDesc f = some pbmFree ∧ m'.pma.frameDesc f = some pbmAllocated
    ∧ ∃ x, m.page.table? x = none ∧ m'.page.table? x = some f

/--
The page that a page table is reached through now.
-/
def NewWindow (m m' : Mm) (x : Nat) : Prop :=
  0xFFC00 ≤ x ∧ m.page.frame? x = none ∧ ∃ f, m'.page.frame? x = some f ∧ m.NewTable m' f

/--
The `n` pages from `vpn` on have been mapped, page `vpn + i` to the free frame `g i`.
-/
structure Backs (m : Mm) (vpn : Nat) (g : Nat → Nat) (n : Nat) (m' : Mm) : Prop where
  absent : ∀ i, i < n → m.page.frame? (vpn + i) = none
  mapped : ∀ i, i < n → m'.page.frame? (vpn + i) = some (g i)
  pages : ∀ x, x < 2 ^ 20 → x < vpn ∨ vpn + n ≤ x
    → m'.page.frame? x = m.page.frame? x ∨ m.NewWindow m' x
  distinct : ∀ i j, i < n → j < n → g i = g j → i = j
  free : ∀ i, i < n → m.pma.frameDesc (g i) = some pbmFree
  allocated : ∀ i, i < n → m'.pma.frameDesc (g i) = some pbmAllocated
  frames : ∀ f, (∀ i, i < n → f ≠ g i)
    → m'.pma.frameDesc f = m.pma.frameDesc f ∨ m.NewTable m' f
  counted : m.pma.Counted → m'.pma.Counted

/--
Nothing has changed but that there may be new page tables.
-/
structure Restores (m m' : Mm) : Prop where
  pages : ∀ x, x < 2 ^ 20 → m'.page.frame? x = m.page.frame? x ∨ m.NewWindow m' x
  frames : ∀ f, m'.pma.frameDesc f = m.pma.frameDesc f ∨ m.NewTable m' f
  counted : m.pma.Counted → m'.pma.Counted

/--
Just these pages were unmapped, and just their frames were freed.
-/
structure Frees (m : Mm) (vpn : Nat) (g : Nat → Nat) (n : Nat) (m' : Mm) : Prop where
  unmapped : ∀ i, i < n → m'.page.frame? (vpn + i) = none
  pages : ∀ x, x < 2 ^ 20 → x < vpn ∨ vpn + n ≤ x → m'.page.frame? x = m.page.frame? x
  freed : ∀ i, i < n → m'.pma.frameDesc (g i) = some pbmFree
  frames : ∀ f, (∀ i, i < n → f ≠ g i) → m'.pma.frameDesc f = m.pma.frameDesc f
  counted : m.pma.Counted → m'.pma.Counted

variable {m m' m'' : Mm} {vpn n : Nat} {g : Nat → Nat}

theorem Paged.frame?_window (h : m.Paged) {x : Nat} (hx : 0xFFC00 ≤ x) (hlt : x < 2 ^ 20)
    : m.page.frame? x = m.page.table? ((x - 0xFFC00) * 1024) := by
  have := PageMemory.frame?_window h.tables (show x - 0xFFC00 < 1024 by omega)
  rw [show 0xFFC00 + (x - 0xFFC00) = x by omega] at this
  rw [this]
  unfold PageMemory.table?
  rw [show (x - 0xFFC00) * 1024 / 1024 % 1024 = x - 0xFFC00 by lia]

/--
What holds after `k` rounds of the allocating loop.
-/
structure Fills (m : Mm) (vpn : Nat) (g : Nat → Nat) (k : Nat) (m' : Mm) : Prop where
  paged : m'.Paged
  vma : m'.vma = m.vma
  counted : m.pma.Counted → m'.pma.Counted
  tables : ∀ x f, m.page.table? x = some f → m'.page.table? x = some f
  fresh : ∀ x f, m'.page.table? x = some f
    → m.page.table? x = some f ∨ m.pma.frameDesc f = some pbmFree
  mapped : ∀ i, i < k → m'.page.frame? (vpn + i) = some (g i)
  kept : ∀ x, Ordinary x → x < vpn ∨ vpn + k ≤ x → m'.page.frame? x = m.page.frame? x
  distinct : ∀ i j, i < k → j < k → g i = g j → i = j
  free : ∀ i, i < k → m.pma.frameDesc (g i) = some pbmFree
  allocated : ∀ i, i < k → m'.pma.frameDesc (g i) = some pbmAllocated
  data : ∀ i x, i < k → m'.page.table? x ≠ some (g i)
  frames : ∀ f, (∀ i, i < k → f ≠ g i)
    → m'.pma.frameDesc f = m.pma.frameDesc f ∨ m.NewTable m' f

theorem Fills.start (h : m.Paged) (vpn : Nat) (g : Nat → Nat) : m.Fills vpn g 0 m := by
  refine ⟨h, rfl, id, fun _ _ hf => hf, fun _ _ hf => .inl hf, ?_, fun _ _ _ => rfl, ?_, ?_, ?_, ?_,
    fun _ _ => .inl rfl⟩
  . intro i hi
    omega
  . intro i j hi
    omega
  . intro i hi
    omega
  . intro i hi
    omega
  . intro i x hi
    omega

theorem Fills.free_before {k f : Nat} (h : m.Fills vpn g k m')
    (hf : m'.pma.frameDesc f = some pbmFree)
    : (∀ i, i < k → f ≠ g i) ∧ m.pma.frameDesc f = some pbmFree := by
  have hne : ∀ i, i < k → f ≠ g i := by
    intro i hi heq
    rw [heq, h.allocated i hi] at hf
    simp at hf
  refine ⟨hne, ?_⟩
  cases h.frames f hne with
  | inl hsame =>
    rw [← hsame]
    exact hf
  | inr hnew => exact hnew.1

theorem Fills.of_frameDesc {k : Nat} {pma : Pma} (h : m.Fills vpn g k m')
    (hwell : pma.WellFormed) (hcounted : m'.pma.Counted → pma.Counted)
    (hsame : ∀ f, pma.frameDesc f = m'.pma.frameDesc f)
    : m.Fills vpn g k { m' with pma } := by
  constructor
  . refine ⟨h.paged.tables, hwell, ?_⟩
    intro d f hd hf
    dsimp only
    rw [hsame]
    exact h.paged.owned d f hd hf
  . exact h.vma
  . intro hc
    exact hcounted (h.counted hc)
  . exact h.tables
  . exact h.fresh
  . exact h.mapped
  . exact h.kept
  . exact h.distinct
  . exact h.free
  . intro i hi
    dsimp only
    rw [hsame]
    exact h.allocated i hi
  . exact h.data
  . intro f hf
    unfold NewTable
    dsimp only
    rw [hsame]
    exact h.frames f hf

theorem Fills.map {k f : Nat} {pma : Pma} (h : m.Fills vpn g k m')
    (hhands : m'.pma.Hands f 1 pma) (hcounted : m'.pma.Counted → pma.Counted)
    (hmaps : ({ m' with pma } : Mm).MapsPage (vpn + k) f m'')
    (hgrows : ({ m' with pma } : Mm).Grows m'') (hvpn : Ordinary (vpn + k))
    : m.Fills vpn (Function.update g k f) (k + 1) m'' := by
  have hfree := hhands.free f (Nat.le_refl f) (by omega)
  have halloc := hhands.allocated f (Nat.le_refl f) (by omega)
  obtain ⟨hne, hbefore⟩ := h.free_before hfree
  have hold : ∀ i, i < k → Function.update g k f i = g i :=
    fun i hi => Function.update_of_ne (by omega) _ _
  have hnew : Function.update g k f k = f := Function.update_self ..
  have hkept : ∀ x, x ≠ f → pma.frameDesc x = m'.pma.frameDesc x :=
    fun x hx => hhands.kept x (by omega)
  have hframe : ∀ i, i < k + 1 → m''.pma.frameDesc (Function.update g k f i) = some pbmAllocated := by
    intro i hi
    have hpma : pma.frameDesc (Function.update g k f i) = some pbmAllocated := by
      by_cases heq : i = k
      . rw [heq, hnew]
        exact halloc
      . rw [hold i (by omega), hkept _ (Ne.symm (hne i (by omega)))]
        exact h.allocated i (by omega)
    rw [hmaps.frames _ (by dsimp only; rw [hpma]; decide)]
    exact hpma
  constructor
  . exact hmaps.paged
  . exact hmaps.vma.trans h.vma
  . intro hc
    exact hgrows.counted (hcounted (h.counted hc))
  . intro x t ht
    exact hgrows.tables x t (h.tables x t ht)
  . intro x t ht
    cases hgrows.fresh x t ht with
    | inl hold => exact h.fresh x t hold
    | inr hfree' =>
      have htf : t ≠ f := by
        intro heq
        rw [heq] at hfree'
        dsimp only at hfree'
        rw [halloc] at hfree'
        simp at hfree'
      dsimp only at hfree'
      rw [hkept t htf] at hfree'
      exact .inr (h.free_before hfree').2
  . intro i hi
    by_cases heq : i = k
    . rw [heq, hnew]
      exact hmaps.mapped
    . rw [hold i (by omega), hmaps.kept (vpn + i) (by unfold Ordinary at *; omega) (by omega)]
      exact h.mapped i (by omega)
  . intro x hx hout
    rw [hmaps.kept x hx (by omega)]
    exact h.kept x hx (by omega)
  . intro i j hi hj heq
    by_cases hik : i = k
    . by_cases hjk : j = k
      . omega
      . rw [hik, hnew, hold j (by lia)] at heq
        exact absurd heq (hne j (by lia))
    . by_cases hjk : j = k
      . rw [hjk, hnew, hold i (by lia)] at heq
        exact absurd heq.symm (hne i (by lia))
      . rw [hold i (by lia), hold j (by lia)] at heq
        exact h.distinct i j (by lia) (by lia) heq
  . intro i hi
    by_cases heq : i = k
    . rw [heq, hnew]
      exact hbefore
    . rw [hold i (by omega)]
      exact h.free i (by omega)
  . exact hframe
  . intro i x hi hx
    cases hgrows.fresh x _ hx with
    | inl htable =>
      dsimp only at htable
      by_cases heq : i = k
      . rw [heq, hnew] at htable
        exact h.paged.owned _ f (Nat.mod_lt _ (by decide)) htable hfree
      . rw [hold i (by omega)] at htable
        exact h.data i x (by omega) htable
    | inr hfree' =>
      by_cases heq : i = k
      . rw [heq, hnew, halloc] at hfree'
        simp at hfree'
      . rw [hold i (by omega), hkept _ (Ne.symm (hne i (by omega))), h.allocated i (by omega)] at hfree'
        simp at hfree'
  . intro x hx
    have hxf : x ≠ f := by
      have := hx k (by omega)
      rw [hnew] at this
      exact this
    have hxg : ∀ i, i < k → x ≠ g i := by
      intro i hi
      have := hx i (by omega)
      rw [hold i hi] at this
      exact this
    have hsame := hkept x hxf
    have hframes := h.frames x hxg
    cases hgrows.frames x with
    | inl hlater =>
      rw [hlater, hsame]
      cases hframes with
      | inl hsame' => exact .inl hsame'
      | inr htable =>
        obtain ⟨hwas, his, y, hnone, hsome⟩ := htable
        refine .inr ⟨hwas, ?_, y, hnone, hgrows.tables y x hsome⟩
        rw [hlater, hsame]
        exact his
    | inr htable =>
      obtain ⟨hwas, his, y, hnone, hsome⟩ := htable
      dsimp only at hwas hnone
      rw [hsame] at hwas
      have hnone' : m.page.table? y = none := by
        cases hy : m.page.table? y with
        | none => rfl
        | some t =>
          rw [h.tables y t hy] at hnone
          contradiction
      exact .inr ⟨(h.free_before hwas).2, his, y, hnone', hsome⟩

theorem Fills.window {k x : Nat} (h : m.Fills vpn g k m') (hm : m.Paged) (hx : 0xFFC00 ≤ x)
    (hlt : x < 2 ^ 20)
    : m'.page.frame? x = m.page.frame? x ∨ m.NewWindow m' x := by
  have hbefore := hm.frame?_window hx hlt
  have hafter := h.paged.frame?_window hx hlt
  cases hold : m.page.table? ((x - 0xFFC00) * 1024) with
  | some f =>
    left
    rw [hbefore, hafter, hold]
    exact h.tables _ f hold
  | none =>
    cases hnew : m'.page.table? ((x - 0xFFC00) * 1024) with
    | none =>
      left
      rw [hbefore, hafter, hold, hnew]
    | some f =>
      right
      refine ⟨hx, hbefore.trans hold, f, hafter.trans hnew, ?_⟩
      have hdata : ∀ i, i < k → f ≠ g i := by
        intro i hi heq
        rw [heq] at hnew
        exact h.data i _ hi hnew
      cases h.frames f hdata with
      | inr htable => exact htable
      | inl hsame =>
        have hnot := h.paged.owned _ f (Nat.mod_lt _ (by decide)) hnew
        cases h.fresh _ f hnew with
        | inl htable =>
          rw [hold] at htable
          contradiction
        | inr hfree =>
          rw [hsame] at hnot
          contradiction

theorem Fills.pages {k : Nat} (h : m.Fills vpn g k m') (hm : m.Paged) {x : Nat} (hlt : x < 2 ^ 20)
    (hout : x < vpn ∨ vpn + k ≤ x)
    : m'.page.frame? x = m.page.frame? x ∨ m.NewWindow m' x := by
  by_cases hx : Ordinary x
  . exact .inl (h.kept x hx hout)
  . unfold Ordinary at hx
    exact h.window hm (by omega) hlt

theorem Fills.backs {k : Nat} {vma : Vma} (h : ({ m with vma } : Mm).Fills vpn g k m') (hm : m.Paged)
    (habsent : ∀ i, i < k → m.page.frame? (vpn + i) = none)
    : m.Backs vpn g k m' where
  absent := habsent
  mapped := h.mapped
  pages := fun _ => h.pages ⟨hm.tables, hm.pma, hm.owned⟩
  distinct := h.distinct
  free := h.free
  allocated := h.allocated
  frames := h.frames
  counted := h.counted

theorem Fills.restores {vma : Vma} (h : ({ m with vma } : Mm).Fills vpn g 0 m') (hm : m.Paged)
    : m.Restores m' where
  pages := fun x hx => h.pages ⟨hm.tables, hm.pma, hm.owned⟩ hx (by omega)
  frames := fun f => h.frames f (fun i hi => absurd hi (by omega))
  counted := h.counted

end Mm

namespace Liballoc

open Mm

variable {m m' : Mm} {vpn k : Nat} {g : Nat → Nat}

theorem back_total (h : m.Fills vpn g k m') (hvpn : Ordinary (vpn + k))
    (habsent : m.page.frame? (vpn + k) = none)
    : (∃ m'', back m' (vpn + k) = .ok ⟨false, m''⟩ ∧ m.Fills vpn g k m'')
        ∨
      ∃ m'' f, back m' (vpn + k) = .ok ⟨true, m''⟩
        ∧ m.Fills vpn (Function.update g k f) (k + 1) m'' := by
  have hnone : m'.page.frame? (vpn + k) = none := by
    rw [h.kept (vpn + k) hvpn (by omega)]
    exact habsent
  unfold back
  rw [mmVpnToPfn_of_ordinary h.paged hvpn, hnone]
  dsimp only [bind, Except.bind]
  cases mmPmaAllocateFrame_total h.paged.pma 1 with
  | inl hfail =>
    left
    rw [hfail]
    exact ⟨m', rfl, h⟩
  | inr hok =>
    obtain ⟨f, pma, halloc, hhands, hcounted⟩ := hok
    have hbounds := hhands.bounds
    have hlimit := h.paged.pma.limit_lt
    have hpaged : ({ m' with pma } : Mm).Paged := h.paged.of_hands hhands
    rw [halloc]
    dsimp only
    rw [mmMap_one f (vpn + k) pmfDefault (by omega) hvpn]
    obtain ⟨hpresent, _⟩ | ⟨_, _, hmap⟩ | ⟨m'', _, hmap, hmaps, hgrows, _⟩ :=
      map_total hpaged hvpn f pmfDefault
    . exact absurd hnone hpresent
    . left
      rw [hmap]
      dsimp only
      rw [if_neg (by decide)]
      obtain ⟨pma', hfree, hhands', hcounted'⟩ :=
        mmPmaFreeFrame_hands hpaged.pma (hhands.allocated f (Nat.le_refl f) (by omega))
      rw [hfree]
      refine ⟨_, rfl, h.of_frameDesc ?_ (fun hc => hcounted' (hcounted hc)) ?_⟩
      . exact hpaged.pma.of_sameRange hhands'.range.symm
      . intro x
        by_cases hx : x = f
        . rw [hx, hhands'.free f (Nat.le_refl f) (by omega), hhands.free f (Nat.le_refl f) (by omega)]
        . rw [← hhands'.kept x (by omega)]
          exact hhands.kept x (by omega)
    . right
      rw [hmap]
      rw [Nat.mod_eq_of_lt (by omega)] at hmaps
      exact ⟨m'', f, rfl, h.map hhands hcounted hmaps hgrows hvpn⟩

theorem backAll_total (hm : m.Paged) {n : Nat} (hvpn : vpn + n ≤ 0xFFC00)
    (habsent : ∀ i, i < n → m.page.frame? (vpn + i) = none)
    : ∃ k m' g, backAll vpn n 0 m = .ok ⟨k, m'⟩ ∧ k ≤ n ∧ m.Fills vpn g k m' := by
  suffices ∀ l k m' g, k + l = n → m.Fills vpn g k m'
      → ∃ k' m'' g', backAll vpn l k m' = .ok ⟨k', m''⟩ ∧ k' ≤ n ∧ m.Fills vpn g' k' m'' by
    exact this n 0 m id (by omega) (Fills.start hm vpn id)
  intro l
  induction l with
  | zero =>
    intro k m' g hk h
    exact ⟨k, m', g, rfl, by omega, h⟩
  | succ l ih =>
    intro k m' g hk h
    have hord : Ordinary (vpn + k) := by
      unfold Ordinary
      omega
    rw [backAll, u32_of_lt (by omega)]
    cases back_total h hord (habsent k (by omega)) with
    | inl hstop =>
      obtain ⟨m'', hback, h'⟩ := hstop
      rw [hback]
      exact ⟨k, m'', g, rfl, by omega, h'⟩
    | inr hgo =>
      obtain ⟨m'', f, hback, h'⟩ := hgo
      rw [hback]
      exact ih (k + 1) m'' _ (by omega) h'

/--
The pages are backed by frames of their own, which are not page tables.
-/
structure Holds (m : Mm) (vpn : Nat) (g : Nat → Nat) (n : Nat) : Prop where
  paged : m.Paged
  below : vpn + n ≤ 0xFFC00
  mapped : ∀ i, i < n → m.page.frame? (vpn + i) = some (g i)
  distinct : ∀ i j, i < n → j < n → g i = g j → i = j
  allocated : ∀ i, i < n → m.pma.frameDesc (g i) = some pbmAllocated
  data : ∀ i x, i < n → m.page.table? x ≠ some (g i)

/--
What holds after `k` pages have been released.
-/
structure Drains (m : Mm) (vpn : Nat) (g : Nat → Nat) (k : Nat) (m' : Mm) : Prop where
  paged : m'.Paged
  vma : m'.vma = m.vma
  counted : m.pma.Counted → m'.pma.Counted
  tables : ∀ x, m'.page.table? x = m.page.table? x
  unmapped : ∀ i, i < k → m'.page.frame? (vpn + i) = none
  kept : ∀ x, Ordinary x → x < vpn ∨ vpn + k ≤ x → m'.page.frame? x = m.page.frame? x
  freed : ∀ i, i < k → m'.pma.frameDesc (g i) = some pbmFree
  frames : ∀ f, (∀ i, i < k → f ≠ g i) → m'.pma.frameDesc f = m.pma.frameDesc f

theorem Drains.start (h : m.Paged) (vpn : Nat) (g : Nat → Nat) : Drains m vpn g 0 m := by
  refine ⟨h, rfl, id, fun _ => rfl, ?_, fun _ _ _ => rfl, ?_, fun _ _ => rfl⟩
  . intro i hi
    omega
  . intro i hi
    omega

theorem release_total {n : Nat} (h : Holds m vpn g n) (hd : Drains m vpn g k m') (hk : k < n)
    : ∃ m'', release m' (vpn + k) (g k) = .ok m'' ∧ Drains m vpn g (k + 1) m'' := by
  have hbelow := h.below
  have hvpn : Ordinary (vpn + k) := by
    unfold Ordinary
    omega
  have hne : ∀ i, i < k → g k ≠ g i := by
    intro i hi heq
    have := h.distinct k i hk (by omega) heq
    omega
  have halloc : m'.pma.frameDesc (g k) = some pbmAllocated := by
    rw [hd.frames (g k) hne]
    exact h.allocated k hk
  obtain ⟨page, hunmap, hspec⟩ := unmap_total hd.paged hvpn
  obtain ⟨pma, hfree, hhands, hcounted⟩ := mmPmaFreeFrame_hands hd.paged.pma halloc
  have hkept : ∀ f, f ≠ g k → pma.frameDesc f = m'.pma.frameDesc f :=
    fun f hf => (hhands.kept f (by omega)).symm
  refine ⟨{ m' with page, pma }, ?_, ?_⟩
  . unfold release
    rw [mmUnmap_one (vpn + k) hvpn, hunmap, hfree]
    rfl
  constructor
  . refine ⟨hspec.paged.tables, hd.paged.pma.of_sameRange hhands.range.symm, ?_⟩
    intro d f hlt hf
    have hnot := hspec.paged.owned d f hlt hf
    have hfk : f ≠ g k := by
      intro heq
      have htable := hspec.tables (d * 1024)
      rw [hd.tables] at htable
      apply h.data k (d * 1024) hk
      rw [← htable]
      unfold PageMemory.table?
      rw [show d * 1024 / 1024 % 1024 = d by lia, ← heq]
      exact hf
    dsimp only
    rw [hkept f hfk]
    exact hnot
  . exact hd.vma
  . intro hc
    exact hcounted (hd.counted hc)
  . intro x
    dsimp only
    rw [hspec.tables, hd.tables]
  . intro i hi
    dsimp only
    by_cases heq : i = k
    . rw [heq]
      exact hspec.unmapped
    . rw [hspec.kept (vpn + i) (by unfold Ordinary; omega) (by omega)]
      exact hd.unmapped i (by omega)
  . intro x hx hout
    dsimp only
    rw [hspec.kept x hx (by omega)]
    exact hd.kept x hx (by omega)
  . intro i hi
    dsimp only
    by_cases heq : i = k
    . rw [heq]
      exact hhands.free (g k) (Nat.le_refl _) (by omega)
    . rw [hkept _ (Ne.symm (hne i (by omega)))]
      exact hd.freed i (by omega)
  . intro f hf
    dsimp only
    rw [hkept f (hf k (by omega))]
    exact hd.frames f (fun i hi => hf i (by omega))

theorem releaseAll_total {n : Nat} {body : Mm → Nat → Run Mm} (h : Holds m vpn g n)
    (hbody : ∀ m i pfn, i < n → mmVpnToPfn m.page (vpn + i) = .ok (.ok pfn)
      → body m i = release m (vpn + i) pfn)
    : ∃ m', forRange body n 0 m = .ok m' ∧ Drains m vpn g n m' := by
  have hbelow := h.below
  have hloop : ∃ m', forRange body n 0 m = .ok m' ∧ Drains m vpn g (0 + n) m' := by
    apply forRange_total (Drains m vpn g)
    . intro k m' _ hk hd
      have hvpn : Ordinary (vpn + k) := by
        unfold Ordinary
        omega
      have hfound : mmVpnToPfn m'.page (vpn + k) = .ok (.ok (g k)) := by
        rw [mmVpnToPfn_of_ordinary hd.paged hvpn, hd.kept (vpn + k) hvpn (by omega)]
        rw [h.mapped k (by omega)]
      rw [hbody m' k (g k) (by omega) hfound]
      exact release_total h hd (by omega)
    . exact Drains.start h.paged vpn g
  rw [Nat.zero_add] at hloop
  exact hloop

theorem Drains.frees (h : Drains m vpn g k m') (hm : m.Paged)
    : m.Frees vpn g k m' := by
  refine ⟨h.unmapped, ?_, h.freed, h.frames, h.counted⟩
  intro x hx hout
  by_cases hord : Ordinary x
  . exact h.kept x hord hout
  . unfold Ordinary at hord
    rw [hm.frame?_window (by omega) hx, h.paged.frame?_window (by omega) hx]
    exact h.tables _

theorem holds_of_fills {m0 : Mm} (h : m0.Fills vpn g k m) (hvpn : vpn + k ≤ 0xFFC00)
    : Holds m vpn g k :=
  ⟨h.paged, hvpn, h.mapped, h.distinct, h.allocated, h.data⟩

theorem Drains.fills {m0 : Mm} (h : m0.Fills vpn g k m) (hd : Drains m vpn g k m')
    (habsent : ∀ i, i < k → m0.page.frame? (vpn + i) = none)
    : m0.Fills vpn g 0 m' := by
  constructor
  . exact hd.paged
  . exact hd.vma.trans h.vma
  . intro hc
    exact hd.counted (h.counted hc)
  . intro x f hf
    rw [hd.tables]
    exact h.tables x f hf
  . intro x f hf
    rw [hd.tables] at hf
    exact h.fresh x f hf
  . intro i hi
    omega
  . intro x hx _
    by_cases hin : vpn ≤ x ∧ x < vpn + k
    . have hold := habsent (x - vpn) (by omega)
      have hnew := hd.unmapped (x - vpn) (by omega)
      rw [show vpn + (x - vpn) = x by omega] at hold hnew
      rw [hold, hnew]
    . rw [hd.kept x hx (by omega)]
      exact h.kept x hx (by omega)
  . intro i j hi
    omega
  . intro i hi
    omega
  . intro i hi
    omega
  . intro i x hi
    omega
  . intro f _
    by_cases hin : ∃ i, i < k ∧ f = g i
    . obtain ⟨i, hi, heq⟩ := hin
      left
      rw [heq, hd.freed i hi, h.free i hi]
    . have hne : ∀ i, i < k → f ≠ g i := fun i hi heq => hin ⟨i, hi, heq⟩
      unfold NewTable
      rw [hd.frames f hne]
      simp only [hd.tables]
      exact h.frames f hne

end Liballoc

open Liballoc

namespace Mm.Heap

variable {m m' : Mm} {n : Nat}

theorem mmVmaAllocatePage_eq (h : m.Heap) (hn : n < 2 ^ 31)
    : mmVmaAllocatePage m.vma n true = ⟨.error .insufficientMemory, m.vma⟩
        ∨
      (m.vma.kernelAllocVpn + n < m.vma.kernelLimitVpn
        ∧ mmVmaAllocatePage m.vma n true
          = ⟨.ok m.vma.kernelAllocVpn, { m.vma with kernelAllocVpn := m.vma.kernelAllocVpn + n }⟩) := by
  have hle := h.alloc_le
  have hlt := h.limit_lt
  unfold mmVmaAllocatePage
  rw [if_pos rfl, u32_of_lt (by omega)]
  split
  . exact .inl rfl
  . next hfit => exact .inr ⟨by omega, rfl⟩

theorem of_kept (h : m.Heap) (hpaged : m'.Paged) (hle : m.vma.kernelAllocVpn ≤ m'.vma.kernelAllocVpn)
    (hfit : m'.vma.kernelAllocVpn ≤ m.vma.kernelLimitVpn)
    (hlimit : m'.vma.kernelLimitVpn = m.vma.kernelLimitVpn)
    (hkept : ∀ x, Ordinary x → m'.vma.kernelAllocVpn ≤ x → m'.page.frame? x = m.page.frame? x)
    : m'.Heap := by
  have hlt := h.limit_lt
  refine ⟨hpaged, by omega, by omega, ?_⟩
  intro x hx hxle
  rw [hkept x (by unfold Ordinary; omega) hx]
  exact h.unmapped x (by omega) (by omega)

theorem of_fills {k : Nat} {g : Nat → Nat} (h : m.Heap)
    (hfit : m.vma.kernelAllocVpn + n < m.vma.kernelLimitVpn) (hk : k ≤ n)
    (hfills : ({ m with vma := { m.vma with kernelAllocVpn := m.vma.kernelAllocVpn + n } } : Mm).Fills
      m.vma.kernelAllocVpn g k m')
    : m'.Heap := by
  have hvma := hfills.vma
  apply h.of_kept hfills.paged
  . rw [hvma]
    exact Nat.le_add_right ..
  . rw [hvma]
    exact Nat.le_of_lt hfit
  . rw [hvma]
  . intro x hx hxle
    rw [hvma] at hxle
    dsimp only at hxle
    exact hfills.kept x hx (by omega)

end Mm.Heap

variable {m m' : Mm} {vpn n : Nat} {g : Nat → Nat}

theorem liballocFree_drains (h : m.Heap) (hholds : Holds m vpn g n) (hvpn : vpn + n ≤ m.vma.kernelAllocVpn)
    : ∃ m', liballocFree m (vpn * pageSize) n = .ok m' ∧ m'.Heap ∧ Drains m vpn g n m' := by
  have hbelow := hholds.below
  have hloop : ∃ m', liballocFree m (vpn * pageSize) n = .ok m' ∧ Drains m vpn g n m' := by
    apply releaseAll_total hholds
    intro m i pfn hi hfound
    unfold liballocFree.body
    rw [Nat.mul_div_cancel _ (by decide), u32_of_lt (by omega)]
    dsimp only
    rw [hfound]
    rfl
  obtain ⟨m', hrun, hdrains⟩ := hloop
  refine ⟨m', hrun, ?_, hdrains⟩
  have hvma := hdrains.vma
  have hle := h.alloc_le
  apply h.of_kept hdrains.paged
  . rw [hvma]
  . rw [hvma]
    exact hle
  . rw [hvma]
  . intro x hx hxle
    rw [hvma] at hxle
    exact hdrains.kept x hx (by omega)

theorem liballocFree_total (h : m.Heap) (hholds : Holds m vpn g n)
    (hvpn : vpn + n ≤ m.vma.kernelAllocVpn)
    : ∃ m', liballocFree m (vpn * pageSize) n = .ok m' ∧ m'.Heap ∧ m.Frees vpn g n m' := by
  obtain ⟨m', hrun, hheap, hdrains⟩ := liballocFree_drains h hholds hvpn
  exact ⟨m', hrun, hheap, hdrains.frees h.toPaged⟩

/--
The virtual pages are taken in any case, and frames are found for all of them or for none.
-/
theorem liballocAlloc_fills (h : m.Heap) (hn : n < 2 ^ 31)
    : (∃ vma g m', liballocAlloc m n = .ok ⟨none, m'⟩ ∧ m'.Heap ∧ m.vma.kernelAllocVpn ≤ vma.kernelAllocVpn
          ∧ ({ m with vma } : Mm).Fills m.vma.kernelAllocVpn g 0 m')
        ∨
      ∃ g m', liballocAlloc m n = .ok ⟨some (m.vma.kernelAllocVpn * pageSize), m'⟩ ∧ m'.Heap
        ∧ m.vma.kernelAllocVpn + n < m.vma.kernelLimitVpn
        ∧ ({ m with vma := { m.vma with kernelAllocVpn := m.vma.kernelAllocVpn + n } } : Mm).Fills
          m.vma.kernelAllocVpn g n m' := by
  unfold liballocAlloc
  cases h.mmVmaAllocatePage_eq hn with
  | inl hfail =>
    left
    rw [hfail]
    exact ⟨m.vma, id, m, rfl, h, Nat.le_refl _, Mm.Fills.start h.toPaged _ id⟩
  | inr hok =>
    obtain ⟨hfit, hvma⟩ := hok
    have hlt := h.limit_lt
    have hpaged : ({ m with vma := { m.vma with kernelAllocVpn := m.vma.kernelAllocVpn + n } } : Mm).Paged :=
      ⟨h.tables, h.pma, h.owned⟩
    have habsent : ∀ i, i < n → m.page.frame? (m.vma.kernelAllocVpn + i) = none :=
      fun i hi => h.unmapped _ (by omega) (by omega)
    rw [hvma]
    dsimp only
    obtain ⟨k, m1, g, hrun, hk, hfills⟩ := backAll_total hpaged (by omega) habsent
    have hbelow : m.vma.kernelAllocVpn + k ≤ 0xFFC00 := by omega
    rw [hrun]
    dsimp only [bind, Except.bind]
    split
    . next hlt' =>
      left
      have hloop : ∃ m', forRange (fun t i => rollback t (u32 (m.vma.kernelAllocVpn + i))) k 0 m1
            = .ok m'
          ∧ Drains m1 m.vma.kernelAllocVpn g k m' := by
        apply releaseAll_total (holds_of_fills hfills hbelow)
        intro t i pfn hi hfound
        unfold rollback
        rw [u32_of_lt (by omega), hfound]
        rfl
      obtain ⟨m', hroll, hdrains⟩ := hloop
      have hrestored := hdrains.fills hfills (fun i hi => habsent i (by omega))
      rw [hroll]
      exact ⟨_, g, m', rfl, h.of_fills hfit (Nat.zero_le n) hrestored, Nat.le_add_right _ n, hrestored⟩
    . next hge =>
      right
      obtain rfl : k = n := by omega
      refine ⟨g, m1, ?_, h.of_fills hfit (Nat.le_refl k) hfills, hfit, hfills⟩
      rw [u32_of_lt (by unfold pageSize; omega)]

theorem liballocAlloc_total (h : m.Heap) (hn : n < 2 ^ 31)
    : (∃ m', liballocAlloc m n = .ok ⟨none, m'⟩ ∧ m'.Heap ∧ m.Restores m')
        ∨
      ∃ vpn g m', liballocAlloc m n = .ok ⟨some (vpn * pageSize), m'⟩ ∧ m'.Heap ∧ m.Backs vpn g n m'
        ∧ Holds m' vpn g n ∧ vpn + n ≤ m'.vma.kernelAllocVpn := by
  have hlt := h.limit_lt
  obtain ⟨vma, g, m', hrun, hheap, _, hfills⟩ | ⟨g, m', hrun, hheap, hfit, hfills⟩ := liballocAlloc_fills h hn
  . exact .inl ⟨m', hrun, hheap, hfills.restores h.toPaged⟩
  . have habsent : ∀ i, i < n → m.page.frame? (m.vma.kernelAllocVpn + i) = none :=
      fun i hi => h.unmapped _ (by omega) (by omega)
    refine .inr ⟨m.vma.kernelAllocVpn, g, m', hrun, hheap, hfills.backs h.toPaged habsent,
      holds_of_fills hfills (by omega), ?_⟩
    rw [hfills.vma]

/--
A request for pages either fails and gives back what it has taken, or its pages can be given back.
-/
theorem liballocAlloc_liballocFree (m : Mm) (n : Nat) (h : m.Heap) (hn : n < 2 ^ 31)
    : (∃ m', liballocAlloc m n = .ok ⟨none, m'⟩ ∧ m'.Heap ∧ m.Restores m')
        ∨
      ∃ vpn g m', liballocAlloc m n = .ok ⟨some (vpn * pageSize), m'⟩ ∧ m'.Heap ∧ m.Backs vpn g n m'
        ∧ ∃ m'', liballocFree m' (vpn * pageSize) n = .ok m'' ∧ m''.Heap ∧ m'.Frees vpn g n m'' := by
  cases liballocAlloc_total h hn with
  | inl hfail => exact .inl hfail
  | inr hok =>
    right
    obtain ⟨vpn, g, m', hrun, hheap, hbacks, hholds, hvpn⟩ := hok
    exact ⟨vpn, g, m', hrun, hheap, hbacks, liballocFree_total hheap hholds hvpn⟩

namespace Mm

theorem small_heap : small.Heap := by
  refine ⟨small_paged, by decide, by decide, ?_⟩
  intro x hle hlt
  replace hle : 0xC1000 ≤ x := hle
  replace hlt : x ≤ 0xFEFFF := hlt
  rw [PageMemory.frame?_of_table? (by omega)]
  cases htable : small.page.table? x with
  | none => rfl
  | some f =>
    obtain ⟨hd, _⟩ | ⟨_, hf⟩ := small_target htable
    . omega
    . have hword : small.page.word 0x51 (x % 1024) = 0 := by
        simp [small]
      rw [hf]
      dsimp only
      rw [hword]
      rfl

/--
A directory in frame `0x50` without page tables, and two free frames.
-/
def scarce : Mm where
  page := {
    word := fun f j => if f = 0x50 ∧ j = 1023 then 0x00050003#32 else 0
    dirPfn := 0x50
  }
  pma := {
    bitmap := [0]
    frameDescCount := 2
    availableFrames := 2
    freeFrames := 2
    basePfn := 0x100
    limitPfn := 0x101
    bitmapPfnList := []
  }
  vma := small.vma

theorem scarce_target {d f : Nat} (h : pageFormat.target (scarce.page.word 0x50 d) = some f)
    : d = 1023 ∧ f = 0x50 := by
  simp only [scarce, true_and] at h
  split at h
  . next heq => exact ⟨heq, (Option.some.inj h).symm⟩
  . cases h

theorem scarce_table? {x : Nat} (hx : x < 0xFFC00) : scarce.page.table? x = none := by
  cases htable : scarce.page.table? x with
  | none => rfl
  | some f =>
    have := (scarce_target htable).1
    omega

theorem scarce_free {f : Nat} (h : scarce.pma.frameDesc f = some pbmFree) : f = 0x100 ∨ f = 0x101 := by
  unfold Pma.frameDesc at h
  split at h
  . next hin =>
    have : 0x100 ≤ f := hin.1
    have : f ≤ 0x101 := hin.2
    omega
  . contradiction

theorem scarce_heap : scarce.Heap := by
  refine ⟨⟨⟨by decide, by decide, ?_⟩, ?_, ?_⟩, by decide, by decide, ?_⟩
  . intro i j f _ _ hi hj
    rw [(scarce_target hi).1, (scarce_target hj).1]
  . refine ⟨?_, ?_, ?_, ?_⟩ <;> decide
  . intro d f _ hf
    rw [(scarce_target hf).2]
    decide
  . intro x _ hlt
    replace hlt : x ≤ 0xFEFFF := hlt
    rw [PageMemory.frame?_of_table? (by omega), scarce_table? (by omega)]

end Mm

theorem liballocAlloc_liballocFree_small
    : (liballocAlloc Mm.small 2).map Prod.fst = .ok (some (0xC1000 * pageSize))
        ∧
      ((∃ m', liballocAlloc Mm.small 2 = .ok ⟨none, m'⟩ ∧ m'.Heap ∧ Mm.small.Restores m')
        ∨
      ∃ vpn g m', liballocAlloc Mm.small 2 = .ok ⟨some (vpn * pageSize), m'⟩ ∧ m'.Heap
        ∧ Mm.small.Backs vpn g 2 m'
        ∧ ∃ m'', liballocFree m' (vpn * pageSize) 2 = .ok m'' ∧ m''.Heap ∧ m'.Frees vpn g 2 m'') := by
  constructor
  . decide
  . exact liballocAlloc_liballocFree Mm.small 2 Mm.small_heap (by decide)

theorem Mm.scarce_paged (vma : Vma) : ({ scarce with vma } : Mm).Paged :=
  ⟨scarce_heap.tables, scarce_heap.pma, scarce_heap.owned⟩

theorem back_of_allocate {m : Mm} {vpn f : Nat} {pma : Pma} (h : m.Paged) (hvpn : Mm.Ordinary vpn)
    (habsent : m.page.frame? vpn = none) (hfirst : mmPmaAllocateFrame m.pma 1 = .ok ⟨.ok f, pma⟩)
    (hsecond : mmPmaAllocateFrame pma 1 ≠ .ok ⟨.error .insufficientMemory, pma⟩)
    : ∃ m' g, back m vpn = .ok ⟨true, m'⟩ ∧ m.Fills vpn g 1 m' := by
  cases back_total (Mm.Fills.start h vpn id) hvpn habsent with
  | inr hok =>
    obtain ⟨m', g, hback, hfills⟩ := hok
    exact ⟨m', _, hback, hfills⟩
  | inl hstop =>
    exfalso
    obtain ⟨m', hback, _⟩ := hstop
    have hhands := mmPmaAllocateFrame_hands h.pma hfirst
    have hpaged : ({ m with pma } : Mm).Paged := h.of_hands hhands
    have hbounds := hhands.bounds
    have hlimit := h.pma.limit_lt
    unfold back at hback
    rw [Nat.add_zero, mmVpnToPfn_of_ordinary h hvpn, habsent] at hback
    dsimp only [bind, Except.bind] at hback
    rw [hfirst] at hback
    dsimp only at hback
    rw [mmMap_one f vpn pmfDefault (by omega) hvpn] at hback
    obtain ⟨hpresent, _⟩ | ⟨_, hfail, _⟩ | ⟨m1, _, hmap, _, _⟩ :=
      Mm.map_total hpaged hvpn f pmfDefault
    . exact hpresent habsent
    . exact hsecond hfail.2
    . rw [hmap] at hback
      cases hback

theorem back_scarce (vma : Vma)
    : ∃ m g, back { Mm.scarce with vma } 0xC1000 = .ok ⟨true, m⟩
        ∧ ({ Mm.scarce with vma } : Mm).Fills 0xC1000 g 1 m := by
  have hframes : (mmPmaAllocateFrame Mm.scarce.pma 1 >>= fun r => mmPmaAllocateFrame r.2 1).map Prod.fst
      = .ok (.ok 0x101) := by
    decide
  cases mmPmaAllocateFrame_total Mm.scarce_heap.pma 1 with
  | inl hfail =>
    simp only [hfail, bind, Except.bind] at hframes
    cases hframes
  | inr hok =>
    obtain ⟨f, pma, halloc, _, _⟩ := hok
    apply back_of_allocate (Mm.scarce_paged vma) _ _ halloc
    . intro hfail
      simp only [halloc, hfail, bind, Except.bind] at hframes
      cases hframes
    . unfold Mm.Ordinary
      decide
    . exact Mm.scarce_heap.unmapped 0xC1000 (by decide) (by decide)

theorem back_scarce_again {vma : Vma} {m : Mm} {g : Nat → Nat}
    (h : ({ Mm.scarce with vma } : Mm).Fills 0xC1000 g 1 m)
    : ∃ t, m.page.table? 0xC1000 = some t ∧ back m 0xC1001 = .ok ⟨false, m⟩ := by
  have hmapped := h.mapped 0 (by decide)
  rw [PageMemory.frame?_of_table? (by decide)] at hmapped
  cases htable : m.page.table? 0xC1000 with
  | none =>
    rw [htable] at hmapped
    contradiction
  | some t =>
    refine ⟨t, rfl, ?_⟩
    have hfresh : Mm.scarce.pma.frameDesc t = some pbmFree := by
      cases h.fresh _ t htable with
      | inl hold =>
        rw [Mm.scarce_table? (by decide)] at hold
        contradiction
      | inr hfree => exact hfree
    have hdata : t ≠ g 0 := by
      intro heq
      rw [heq] at htable
      exact h.data 0 _ (by decide) htable
    have htaken : ∀ f, m.pma.frameDesc f ≠ some pbmFree := by
      intro f hf
      obtain ⟨hne, hwas⟩ := h.free_before hf
      have hft : f ≠ t := by
        intro heq
        rw [heq] at hf
        exact h.paged.owned _ t (Nat.mod_lt _ (by decide)) htable hf
      have := hne 0 (by decide)
      have := Mm.scarce_free hwas
      have := Mm.scarce_free hfresh
      have := Mm.scarce_free (h.free 0 (by decide))
      lia
    have hfail : mmPmaAllocateFrame m.pma 1 = .ok ⟨.error .insufficientMemory, m.pma⟩ := by
      cases mmPmaAllocateFrame_total h.paged.pma 1 with
      | inl hfail => exact hfail
      | inr hok =>
        obtain ⟨f, pma, _, hhands, _⟩ := hok
        exact absurd (hhands.free f (Nat.le_refl f) (by omega)) (htaken f)
    have hvpn : Mm.Ordinary 0xC1001 := by
      unfold Mm.Ordinary
      decide
    have habsent : m.page.frame? 0xC1001 = none := by
      rw [h.kept 0xC1001 hvpn (by decide)]
      exact Mm.scarce_heap.unmapped 0xC1001 (by decide) (by decide)
    unfold back
    rw [mmVpnToPfn_of_ordinary h.paged hvpn, habsent]
    dsimp only [bind, Except.bind]
    rw [hfail]

/--
A page table that was made for a request stays if the request fails, and with it the page that the
table is reached through.
-/
theorem liballocAlloc_null_keeps_table
    : Mm.scarce.Heap
        ∧ ∃ m', liballocAlloc Mm.scarce 2 = .ok ⟨none, m'⟩
          ∧ ∃ x, x < 2 ^ 20 ∧ m'.page.frame? x ≠ Mm.scarce.page.frame? x := by
  refine ⟨Mm.scarce_heap, ?_⟩
  let vma := (mmVmaAllocatePage Mm.scarce.vma 2 true).2
  have hvma : mmVmaAllocatePage Mm.scarce.vma 2 true = ⟨.ok 0xC1000, vma⟩ := by
    decide
  obtain ⟨m, g, hback, hfills⟩ := back_scarce vma
  obtain ⟨t, htable, hagain⟩ := back_scarce_again hfills
  have hloop : ∃ m', forRange (fun t i => rollback t (u32 (0xC1000 + i))) 1 0 m = .ok m'
      ∧ Drains m 0xC1000 g 1 m' := by
    apply releaseAll_total (holds_of_fills hfills (by decide))
    intro t i pfn hi hfound
    unfold rollback
    rw [u32_of_lt (by omega), hfound]
    rfl
  obtain ⟨m', hroll, hdrains⟩ := hloop
  refine ⟨m', ?_, 0xFFC00 + 772, by decide, ?_⟩
  . unfold liballocAlloc
    rw [hvma]
    dsimp only
    rw [backAll, show u32 (0xC1000 + 0) = 0xC1000 by decide, hback]
    dsimp only [bind, Except.bind]
    rw [if_pos rfl, backAll, show u32 (0xC1000 + (0 + 1)) = 0xC1001 by decide, hagain]
    dsimp only [bind, Except.bind]
    rw [if_neg (by decide)]
    dsimp only
    rw [if_pos (by decide), hroll]
  . rw [hdrains.paged.frame?_window (by decide) (by decide), hdrains.tables]
    rw [Mm.scarce_heap.frame?_window (by decide) (by decide), Mm.scarce_table? (by decide)]
    rw [show (0xFFC00 + 772 - 0xFFC00) * 1024 = 772 * 1024 by decide]
    have hsame : m.page.table? (772 * 1024) = m.page.table? 0xC1000 := by
      unfold PageMemory.table?
      rw [show 772 * 1024 / 1024 % 1024 = 0xC1000 / 1024 % 1024 by decide]
    rw [hsame, htable]
    nofun

end Emos
