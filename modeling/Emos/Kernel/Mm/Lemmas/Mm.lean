import Emos.Kernel.Mm.Lemmas.Page
import Emos.Kernel.Mm.Lemmas.Pma

/-!
This module contains what mapping a page does to translations and frames.
-/

open Lib

namespace Emos

def Pma.frameDesc (s : Pma) (pfn : Nat) : Option (BitVec 2) :=
  if s.basePfn ≤ pfn ∧ pfn ≤ s.limitPfn then s.desc (pfn - s.basePfn) else none

/--
The frames from `pfn` on were free and are allocated now, the others are kept.
-/
structure Pma.Hands (s : Pma) (pfn count : Nat) (t : Pma) : Prop where
  range : SameRange s t
  bounds : s.basePfn ≤ pfn ∧ pfn + count ≤ s.limitPfn + 1
  free : ∀ f, pfn ≤ f → f < pfn + count → s.frameDesc f = some pbmFree
  allocated : ∀ f, pfn ≤ f → f < pfn + count → t.frameDesc f = some pbmAllocated
  kept : ∀ f, f < pfn ∨ pfn + count ≤ f → t.frameDesc f = s.frameDesc f

theorem mmPmaAllocateFrame_hands {s t : Pma} (hs : s.WellFormed) {count pfn : Nat}
    (h : mmPmaAllocateFrame s count = .ok ⟨.ok pfn, t⟩)
    : s.Hands pfn count t := by
  have hcount := hs.frameDescCount
  have hbase := hs.base_le_limit
  cases mmPmaAllocateFrame_spec hs count with
  | inl hfail =>
    rw [h] at hfail
    cases hfail
  | inr hok =>
    obtain ⟨start, u, hu, hle, _, hmaps⟩ := hok
    rw [h] at hu
    cases hu
    refine ⟨hmaps.range, by lia, ?_, ?_, ?_⟩
    . intro f h1 h2
      unfold Pma.frameDesc
      rw [if_pos (by lia)]
      obtain ⟨d, hd, hq, _⟩ := hmaps.inside (f - s.basePfn) (by lia) (by lia)
      rw [hd, hq]
    . intro f h1 h2
      unfold Pma.frameDesc
      rw [hmaps.range.basePfn, hmaps.range.limitPfn]
      rw [if_pos (by lia)]
      obtain ⟨d, _, _, hd⟩ := hmaps.inside (f - s.basePfn) (by lia) (by lia)
      exact hd
    . intro f hf
      unfold Pma.frameDesc
      rw [hmaps.range.basePfn, hmaps.range.limitPfn]
      split
      . next hin => exact hmaps.outside _ (by lia)
      . rfl

theorem mmPmaAllocateFrame_total {s : Pma} (hs : s.WellFormed) (count : Nat)
    : mmPmaAllocateFrame s count = .ok ⟨.error .insufficientMemory, s⟩
        ∨
      ∃ pfn t, mmPmaAllocateFrame s count = .ok ⟨.ok pfn, t⟩ ∧ s.Hands pfn count t
        ∧ (s.Counted → t.Counted) := by
  cases mmPmaAllocateFrame_spec hs count with
  | inl hfail => exact .inl hfail
  | inr hok =>
    right
    obtain ⟨start, t, halloc, hstart, _, hmaps⟩ := hok
    refine ⟨_, t, halloc, mmPmaAllocateFrame_hands hs halloc, ?_⟩
    intro hcounted
    exact hmaps.counted hcounted hstart

theorem mmPmaFreeFrame_handsAll {s : Pma} (hs : s.WellFormed) {pfn count : Nat} (hlow : s.basePfn ≤ pfn)
    (hhigh : pfn + count ≤ s.limitPfn + 1)
    (h : ∀ f, pfn ≤ f → f < pfn + count → s.frameDesc f = some pbmAllocated)
    : ∃ t, mmPmaFreeFrame s pfn count = .ok t ∧ t.Hands pfn count s ∧ (s.Counted → t.Counted) := by
  have hbase := hs.base_le_limit
  have hcount := hs.frameDescCount
  have hlimit := hs.limit_lt
  have hdesc : ∀ j, pfn - s.basePfn ≤ j → j < pfn - s.basePfn + count → s.desc j = some pbmAllocated := by
    intro j h1 h2
    have hj := h (s.basePfn + j) (by omega) (by omega)
    unfold Pma.frameDesc at hj
    rw [if_pos (by lia), Nat.add_sub_cancel_left] at hj
    exact hj
  have hmaps : ∃ t, forRange freeAt count (pfn - s.basePfn) s = .ok t
      ∧ Pma.MapsRange (· = pbmAllocated) (fun _ => pbmFree)
        (pfn - s.basePfn) (pfn - s.basePfn + count) s t := by
    apply forRange_mapsRange hs
    . intro u j d hd hdesc
      subst hd
      exact freeAt_of_desc hdesc
    . lia
    . intro j d hlo hhi hd
      rw [hdesc j hlo hhi] at hd
      exact (Option.some.inj hd).symm
  obtain ⟨t, ht, hmaps⟩ := hmaps
  have hrange := hmaps.range
  refine ⟨t, ?_, ⟨?_, ?_, ?_, h, ?_⟩, fun hc => hmaps.counted hc (by lia)⟩
  . unfold mmPmaFreeFrame forCount
    rw [u32_of_lt (n := pfn + count) (by omega), u32_of_lt (n := s.limitPfn + 1) (by omega)]
    rw [if_neg (by omega), sub32_of_le hlow (by omega), u32_of_lt (by omega)]
    rw [Nat.add_sub_cancel_left]
    exact ht
  . exact hrange.symm
  . rw [hrange.basePfn, hrange.limitPfn]
    exact ⟨hlow, hhigh⟩
  . intro f h1 h2
    obtain ⟨d, _, _, hd⟩ := hmaps.inside (f - s.basePfn) (by lia) (by lia)
    unfold Pma.frameDesc
    rw [hrange.basePfn, hrange.limitPfn, if_pos (by omega)]
    exact hd
  . intro f hf
    unfold Pma.frameDesc
    rw [hrange.basePfn, hrange.limitPfn]
    split
    . exact (hmaps.outside _ (by lia)).symm
    . rfl

theorem mmPmaFreeFrame_hands {s : Pma} (hs : s.WellFormed) {pfn : Nat}
    (h : s.frameDesc pfn = some pbmAllocated)
    : ∃ t, mmPmaFreeFrame s pfn 1 = .ok t ∧ t.Hands pfn 1 s ∧ (s.Counted → t.Counted) := by
  have hin : s.basePfn ≤ pfn ∧ pfn ≤ s.limitPfn := by
    by_contra hout
    unfold Pma.frameDesc at h
    rw [if_neg hout] at h
    cases h
  apply mmPmaFreeFrame_handsAll hs hin.1 (by omega)
  intro f h1 h2
  rw [show f = pfn by omega]
  exact h

namespace Mm

/--
Page tables are well formed and their frames cannot be allocated again.
-/
structure Paged (m : Mm) : Prop where
  tables : m.page.Tables
  pma : m.pma.WellFormed
  owned : ∀ d f, d < 1024 → pageFormat.target (m.page.word m.page.dirPfn d) = some f
    → m.pma.frameDesc f ≠ some pbmFree

theorem Paged.of_hands {m : Mm} (h : m.Paged) {pfn count : Nat} {pma : Pma} {vma : Vma}
    (hhands : m.pma.Hands pfn count pma)
    : ({ m with pma, vma } : Mm).Paged := by
  refine ⟨h.tables, h.pma.of_sameRange hhands.range, ?_⟩
  intro d f hd hf
  have hnot := h.owned d f hd hf
  dsimp only
  rw [hhands.kept f]
  . exact hnot
  . by_contra hin
    exact hnot (hhands.free f (by omega) (by omega))

/--
The pages below the page tables.
-/
def Ordinary (vpn : Nat) : Prop := vpn < 0xFFC00

/--
Page `vpn` leads to frame `pfn` now, other pages are kept and frames were at most allocated.
-/
structure MapsPage (m : Mm) (vpn pfn : Nat) (m' : Mm) : Prop where
  paged : m'.Paged
  vma : m'.vma = m.vma
  mapped : m'.page.frame? vpn = some pfn
  kept : ∀ x, Ordinary x → x ≠ vpn → m'.page.frame? x = m.page.frame? x
  frames : ∀ f, m.pma.frameDesc f ≠ some pbmFree → m'.pma.frameDesc f = m.pma.frameDesc f

/--
Page tables and frames are kept, except that frames that were free may be page tables now.
-/
structure Grows (m m' : Mm) : Prop where
  paged : m'.Paged
  vma : m'.vma = m.vma
  range : m.pma.SameRange m'.pma
  counted : m.pma.Counted → m'.pma.Counted
  tables : ∀ x f, m.page.table? x = some f → m'.page.table? x = some f
  fresh : ∀ x f, m'.page.table? x = some f
    → m.page.table? x = some f ∨ m.pma.frameDesc f = some pbmFree
  frames : ∀ f, m'.pma.frameDesc f = m.pma.frameDesc f
    ∨ m.pma.frameDesc f = some pbmFree ∧ m'.pma.frameDesc f = some pbmAllocated
      ∧ ∃ x, m.page.table? x = none ∧ m'.page.table? x = some f

/--
At most the entry of the directory for page `vpn` is new, and with it a frame is allocated.
-/
structure Takes (m : Mm) (vpn : Nat) (m' : Mm) : Prop where
  dirPfn : m'.page.dirPfn = m.page.dirPfn
  others : ∀ d, d ≠ vpn / 1024 % 1024 → m'.page.word m.page.dirPfn d = m.page.word m.page.dirPfn d
  kept : m.page.table? vpn ≠ none → m'.pma = m.pma
  taken : m.page.table? vpn = none → ∃ f, mmPmaAllocateFrame m.pma 1 = .ok ⟨.ok f, m'.pma⟩

theorem Grows.refl {m : Mm} (h : m.Paged) : m.Grows m :=
  ⟨h, rfl, Pma.SameRange.refl _, id, fun _ _ hf => hf, fun _ _ hf => .inl hf, fun _ => .inl rfl⟩

theorem Grows.trans {m m' m'' : Mm} (h1 : m.Grows m') (h2 : m'.Grows m'') : m.Grows m'' := by
  have hnone : ∀ x, m'.page.table? x = none → m.page.table? x = none := by
    intro x hx
    cases htable : m.page.table? x with
    | none => rfl
    | some f =>
      rw [h1.tables x f htable] at hx
      contradiction
  constructor
  . exact h2.paged
  . exact h2.vma.trans h1.vma
  . exact h1.range.trans h2.range
  . intro hcounted
    exact h2.counted (h1.counted hcounted)
  . intro x f hf
    exact h2.tables x f (h1.tables x f hf)
  . intro x f hf
    cases h2.fresh x f hf with
    | inl hold => exact h1.fresh x f hold
    | inr hfree =>
      right
      cases h1.frames f with
      | inl hsame => exact hsame.symm.trans hfree
      | inr hnew => exact hnew.1
  . intro f
    cases h2.frames f with
    | inl hsame2 =>
      cases h1.frames f with
      | inl hsame1 => exact .inl (hsame2.trans hsame1)
      | inr hnew1 =>
        obtain ⟨hfree, halloc, x, hx, hx'⟩ := hnew1
        exact .inr ⟨hfree, hsame2.trans halloc, x, hx, h2.tables x f hx'⟩
    | inr hnew2 =>
      obtain ⟨hfree, halloc, x, hx, hx'⟩ := hnew2
      cases h1.frames f with
      | inl hsame1 => exact .inr ⟨hsame1.symm.trans hfree, halloc, x, hnone x hx, hx'⟩
      | inr hnew1 =>
        rw [hnew1.2.1] at hfree
        simp at hfree

end Mm

namespace map

variable {m m' : Mm} {pfn vpn f : Nat} {flags : MapFlags}

theorem mapsPage_put (h : m.Paged) (hvpn : Mm.Ordinary vpn) (hf : m.page.table? vpn = some f)
    {raw : BitVec 32} (hraw : pageFormat.target raw = some pfn)
    : m.MapsPage vpn pfn { m with page := m.page.put f (vpn % 1024) raw }
        ∧ m.Grows { m with page := m.page.put f (vpn % 1024) raw } := by
  unfold Mm.Ordinary at hvpn
  have hne : vpn / 1024 % 1024 ≠ 1023 := by omega
  have hpaged : ({ m with page := m.page.put f (vpn % 1024) raw } : Mm).Paged := by
    refine ⟨h.tables.put hne hf _ raw, h.pma, ?_⟩
    intro d g hd hg
    have := PageMemory.table?_put h.tables hne hf (vpn % 1024) raw (d * 1024)
    unfold PageMemory.table? at this
    rw [show d * 1024 / 1024 % 1024 = d by lia] at this
    rw [this] at hg
    exact h.owned d g hd hg
  constructor
  . refine ⟨hpaged, rfl, ?_, ?_, fun _ _ => rfl⟩
    . dsimp only
      rw [PageMemory.frame?_put h.tables (by omega) (by omega) hf raw (by omega)]
      rw [if_pos rfl, hraw]
    . intro x hx hxne
      unfold Mm.Ordinary at hx
      dsimp only
      rw [PageMemory.frame?_put h.tables (by omega) (by omega) hf raw (by omega)]
      rw [if_neg hxne]
  . refine ⟨hpaged, rfl, Pma.SameRange.refl _, id, ?_, ?_, fun _ => .inl rfl⟩
    . intro x g hg
      dsimp only
      rw [PageMemory.table?_put h.tables hne hf]
      exact hg
    . intro x g hg
      dsimp only at hg
      rw [PageMemory.table?_put h.tables hne hf] at hg
      exact .inl hg

theorem finish_total (h : m.Paged) (hvpn : Mm.Ordinary vpn) (hf : m.page.table? vpn = some f)
    (pfn : Nat) (flags : MapFlags)
    : (m.page.frame? vpn ≠ none ∧ finish pfn vpn flags m = .ok ⟨.conflictingState, m⟩)
        ∨
      ∃ m', m.page.frame? vpn = none ∧ finish pfn vpn flags m = .ok ⟨.success, m'⟩
        ∧ m.MapsPage vpn (pfn % 2 ^ 20) m' ∧ m.Grows m' ∧ m.Takes vpn m' := by
  have hlt : vpn % 1024 < 1024 := Nat.mod_lt _ (by decide)
  have hread := PageMemory.read_ptAddr h.tables hf hlt
  have hframe : m.page.frame? vpn = pageFormat.target (m.page.word f (vpn % 1024)) := by
    unfold Mm.Ordinary at hvpn
    rw [PageMemory.frame?_of_table? (by omega), hf]
  rw [hframe, pageFormat_target]
  unfold finish pteAddr
  rw [hread]
  dsimp only [bind, Except.bind]
  by_cases hpresent : entryPresent (m.page.word f (vpn % 1024)) = true
  . left
    rw [if_pos hpresent, if_pos hpresent]
    exact ⟨nofun, rfl⟩
  . right
    have hne : vpn / 1024 % 1024 ≠ 1023 := by
      unfold Mm.Ordinary at hvpn
      omega
    obtain ⟨raw, hentry, htarget⟩ := PageMemory.mapEntry_spec h.tables hne hf pfn flags
    rw [if_neg hpresent, if_neg hpresent, hentry]
    obtain ⟨hmaps, hgrows⟩ := mapsPage_put h hvpn hf htarget
    refine ⟨_, rfl, rfl, hmaps, hgrows, rfl, ?_, fun _ => rfl, ?_⟩
    . intro d _
      have hdir := Paging.Format.Tables.ne_dir h.tables (Nat.mod_lt _ (by decide)) hne hf
      unfold PageMemory.put
      dsimp only
      rw [Paging.setWord_frame (Ne.symm hdir)]
    . intro hnone
      rw [hf] at hnone
      cases hnone

/--
What the directory looks like once it has an entry for the new page table, and the page table once
`i` of its entries have been cleared.
-/
structure Clears (m : Mm) (vpn f i : Nat) (page : PageMemory) : Prop where
  dirPfn : page.dirPfn = m.page.dirPfn
  entry : pageFormat.target (page.word m.page.dirPfn (vpn / 1024 % 1024)) = some f
  directory : ∀ d, d ≠ vpn / 1024 % 1024 →
    page.word m.page.dirPfn d = m.page.word m.page.dirPfn d
  others : ∀ g k, g ≠ f → g ≠ m.page.dirPfn → page.word g k = m.page.word g k
  cleared : ∀ k, k < i → page.word f k = 0

theorem Clears.first {raw : BitVec 32} (hraw : pageFormat.target raw = some f)
    : Clears m vpn f 0 (m.page.put m.page.dirPfn (vpn / 1024 % 1024) raw) := by
  have hput : ∀ g k, (m.page.put m.page.dirPfn (vpn / 1024 % 1024) raw).word g k
      = if g = m.page.dirPfn ∧ k = vpn / 1024 % 1024 then raw else m.page.word g k :=
    fun g k => Paging.setWord_apply m.page.word m.page.dirPfn (vpn / 1024 % 1024) raw g k
  refine ⟨rfl, ?_, ?_, ?_, by simp⟩
  . rw [hput, if_pos ⟨rfl, rfl⟩]
    exact hraw
  . intro d hd
    rw [hput, if_neg (fun heq => hd heq.2)]
  . intro g k _ hg
    rw [hput, if_neg (fun heq => hg heq.1)]

theorem Clears.tables {i : Nat} {page : PageMemory} (h : m.Paged) (hvpn : Mm.Ordinary vpn)
    (hfree : m.pma.frameDesc f = some pbmFree) (hc : Clears m vpn f i page)
    : page.Tables := by
  unfold Mm.Ordinary at hvpn
  have htarget : ∀ d g, d < 1024 → pageFormat.target (page.word m.page.dirPfn d) = some g
      → d = vpn / 1024 % 1024 ∧ g = f
        ∨ d ≠ vpn / 1024 % 1024 ∧ g ≠ f
          ∧ pageFormat.target (m.page.word m.page.dirPfn d) = some g := by
    intro d g hd hg
    by_cases heq : d = vpn / 1024 % 1024
    . rw [heq, hc.entry] at hg
      exact .inl ⟨heq, (Option.some.inj hg).symm⟩
    . rw [hc.directory d heq] at hg
      refine .inr ⟨heq, ?_, hg⟩
      intro hgf
      rw [hgf] at hg
      exact h.owned d f hd hg hfree
  refine ⟨by decide, ?_, ?_⟩
  . rw [hc.dirPfn, hc.directory 1023 (by omega)]
    exact h.tables.slot_target
  . intro i j g hi hj hig hjg
    rw [hc.dirPfn] at hig hjg
    cases htarget i g hi hig with
    | inl hi' =>
      cases htarget j g hj hjg with
      | inl hj' => exact hi'.1.trans hj'.1.symm
      | inr hj' => exact absurd hi'.2 hj'.2.1
    | inr hi' =>
      cases htarget j g hj hjg with
      | inl hj' => exact absurd hj'.2 hi'.2.1
      | inr hj' => exact h.tables.injective i j g hi hj hi'.2.2 hj'.2.2

theorem Clears.write {i : Nat} {page : PageMemory} (h : m.Paged) (hvpn : Mm.Ordinary vpn)
    (hfree : m.pma.frameDesc f = some pbmFree) (hi : i < 1024) (hc : Clears m vpn f i page)
    : ∃ page', page.write (ptAddr vpn i) 0 = .ok page' ∧ Clears m vpn f (i + 1) page' := by
  have hdir : f ≠ m.page.dirPfn := by
    intro heq
    exact h.owned 1023 f (by omega) (by rw [heq]; exact h.tables.slot_target) hfree
  have htable : page.table? vpn = some f := by
    unfold PageMemory.table?
    rw [hc.dirPfn]
    exact hc.entry
  refine ⟨_, PageMemory.write_ptAddr (hc.tables h hvpn hfree) htable hi 0, ?_⟩
  have hput : ∀ g k, (page.put f i 0).word g k = if g = f ∧ k = i then 0 else page.word g k :=
    fun g k => Paging.setWord_apply page.word f i 0 g k
  refine ⟨hc.dirPfn, ?_, ?_, ?_, ?_⟩
  . rw [hput, if_neg (fun heq => hdir heq.1.symm)]
    exact hc.entry
  . intro d hd
    rw [hput, if_neg (fun heq => hdir heq.1.symm)]
    exact hc.directory d hd
  . intro g k hg hgdir
    rw [hput, if_neg (fun heq => hg heq.1)]
    exact hc.others g k hg hgdir
  . intro k hk
    rw [hput]
    split
    . rfl
    . next hne => exact hc.cleared k (by omega)

theorem Clears.frame? {page : PageMemory} (h : m.Paged)
    (hnone : m.page.table? vpn = none) (hfree : m.pma.frameDesc f = some pbmFree)
    (hc : Clears m vpn f 1024 page) {x : Nat} (hx : Mm.Ordinary x)
    : page.frame? x = m.page.frame? x := by
  unfold Mm.Ordinary at hx
  rw [PageMemory.frame?_of_table? (by omega), PageMemory.frame?_of_table? (by omega)]
  by_cases heq : x / 1024 % 1024 = vpn / 1024 % 1024
  . have hold : m.page.table? x = none := by
      unfold PageMemory.table? at hnone ⊢
      rw [heq]
      exact hnone
    have hnew : page.table? x = some f := by
      unfold PageMemory.table?
      rw [hc.dirPfn, heq]
      exact hc.entry
    rw [hold, hnew]
    dsimp only
    rw [hc.cleared _ (Nat.mod_lt _ (by decide))]
    rfl
  . have hsame : page.table? x = m.page.table? x := by
      unfold PageMemory.table?
      rw [hc.dirPfn, hc.directory _ heq]
    rw [hsame]
    cases htable : m.page.table? x with
    | none => rfl
    | some g =>
      have hgf : g ≠ f := by
        intro hgf
        rw [hgf] at htable
        exact h.owned _ f (Nat.mod_lt _ (by decide)) htable hfree
      have hgdir : g ≠ m.page.dirPfn :=
        Paging.Format.Tables.ne_dir h.tables (Nat.mod_lt _ (by decide))
          (show x / 1024 % 1024 ≠ 1023 by omega) htable
      dsimp only
      rw [hc.others g _ hgf hgdir]

end map

namespace Mm

variable {m m' : Mm} {pfn vpn : Nat} {flags : MapFlags}

theorem grows_clears {f : Nat} {page : PageMemory} {pma : Pma} (h : m.Paged) (hvpn : Ordinary vpn)
    (hnone : m.page.table? vpn = none) (hhands : m.pma.Hands f 1 pma)
    (hcounted : m.pma.Counted → pma.Counted) (hclears : map.Clears m vpn f 1024 page)
    : m.Grows { m with page, pma } := by
  have hfree := hhands.free f (Nat.le_refl f) (by omega)
  have htable : ∀ d, d ≠ vpn / 1024 % 1024
      → page.word page.dirPfn d = m.page.word m.page.dirPfn d := by
    intro d hd
    rw [hclears.dirPfn]
    exact hclears.directory d hd
  have hentry : page.table? vpn = some f := by
    unfold PageMemory.table?
    rw [hclears.dirPfn]
    exact hclears.entry
  have hkept : ∀ g, m.pma.frameDesc g ≠ some pbmFree → pma.frameDesc g = m.pma.frameDesc g := by
    intro g hg
    apply hhands.kept
    by_contra hin
    exact hg (hhands.free g (by omega) (by omega))
  constructor
  . refine ⟨hclears.tables h hvpn hfree, h.pma.of_sameRange hhands.range, ?_⟩
    intro d g hd hg
    dsimp only at hg ⊢
    by_cases hdeq : d = vpn / 1024 % 1024
    . rw [hdeq, hclears.dirPfn, hclears.entry] at hg
      cases hg
      rw [hhands.allocated f (Nat.le_refl f) (by omega)]
      simp
    . rw [htable d hdeq] at hg
      have hnot := h.owned d g hd hg
      rw [hkept g hnot]
      exact hnot
  . rfl
  . exact hhands.range
  . exact hcounted
  . intro x g hg
    have hx : x / 1024 % 1024 ≠ vpn / 1024 % 1024 := by
      intro heq
      unfold PageMemory.table? at hnone hg
      rw [heq, hnone] at hg
      contradiction
    unfold PageMemory.table? at hg ⊢
    dsimp only
    rw [htable _ hx]
    exact hg
  . intro x g hg
    dsimp only at hg ⊢
    by_cases hx : x / 1024 % 1024 = vpn / 1024 % 1024
    . right
      unfold PageMemory.table? at hg
      rw [hx, hclears.dirPfn, hclears.entry] at hg
      cases hg
      exact hfree
    . left
      unfold PageMemory.table? at hg ⊢
      rw [htable _ hx] at hg
      exact hg
  . intro g
    by_cases hg : g = f
    . subst hg
      right
      exact ⟨hfree, hhands.allocated g (Nat.le_refl g) (by omega), vpn, hnone, hentry⟩
    . left
      apply hhands.kept
      omega

theorem map_total (h : m.Paged) (hvpn : Ordinary vpn) (pfn : Nat) (flags : MapFlags)
    : (m.page.frame? vpn ≠ none ∧ map m pfn vpn flags = .ok ⟨.conflictingState, m⟩)
        ∨
      (m.page.frame? vpn = none
        ∧ (m.page.table? vpn = none ∧ mmPmaAllocateFrame m.pma 1 = .ok ⟨.error .insufficientMemory, m.pma⟩)
        ∧ map m pfn vpn flags = .ok ⟨.insufficientMemory, m⟩)
        ∨
      ∃ m', m.page.frame? vpn = none ∧ map m pfn vpn flags = .ok ⟨.success, m'⟩
        ∧ m.MapsPage vpn (pfn % 2 ^ 20) m' ∧ m.Grows m' ∧ m.Takes vpn m' := by
  unfold map
  rw [PageMemory.read_pdeAddr h.tables]
  dsimp only [bind, Except.bind]
  by_cases hpresent : entryPresent (m.page.word m.page.dirPfn (vpn / 1024 % 1024)) = true
  . have htable : m.page.table? vpn
        = some (entryBase (m.page.word m.page.dirPfn (vpn / 1024 % 1024))) := by
      simp [PageMemory.table?, pageFormat_target, hpresent]
    rw [if_pos hpresent]
    cases map.finish_total h hvpn htable pfn flags with
    | inl hconflict => exact .inl hconflict
    | inr hmapped => exact .inr (.inr hmapped)
  . have hnone : m.page.table? vpn = none := by
      simp [PageMemory.table?, pageFormat_target, hpresent]
    have habsent : m.page.frame? vpn = none := by
      have : vpn < 2 ^ 20 := by
        unfold Ordinary at hvpn
        omega
      rw [PageMemory.frame?_of_table? this, hnone]
    rw [if_neg hpresent]
    right
    cases mmPmaAllocateFrame_total h.pma 1 with
    | inl hfail =>
      left
      rw [hfail]
      exact ⟨habsent, ⟨hnone, rfl⟩, rfl⟩
    | inr hok =>
      right
      obtain ⟨f, pma, halloc, hhands, hcounted⟩ := hok
      have hlimit := h.pma.limit_lt
      have hbounds := hhands.bounds
      have hfree := hhands.free f (Nat.le_refl f) (by omega)
      have hfirst : map.Clears m vpn f 0 (m.page.put m.page.dirPfn (vpn / 1024 % 1024)
          (3#32 ||| BitVec.ofNat 32 (f * 2 ^ 12))) := by
        apply map.Clears.first
        rw [BitVec.or_comm, pageFormat_target, show 3#32 = 2#32 ||| 1#32 by decide,
          ← BitVec.or_assoc, PageMemory.entryPresent_or_one, if_pos rfl,
          PageMemory.entryBase_or _ (by decide), PageMemory.entryBase_or _ (by decide),
          PageMemory.entryBase_ofNat, Nat.mod_eq_of_lt (by omega)]
      obtain ⟨page, hpage, hclears⟩ := forRange_total (map.Clears m vpn f)
        (n := 1024) (fun j t _ hj hc => hc.write h hvpn hfree (by omega)) hfirst
      have hgrows := grows_clears h hvpn hnone hhands hcounted hclears
      have htable : page.table? vpn = some f := by
        unfold PageMemory.table?
        rw [hclears.dirPfn]
        exact hclears.entry
      have hframe : ∀ x, Ordinary x → page.frame? x = m.page.frame? x := by
        intro x hx
        exact map.Clears.frame? h hnone hfree hclears hx
      rw [halloc]
      dsimp only
      rw [PageMemory.write_pdeAddr h.tables]
      dsimp only
      rw [hpage]
      dsimp only
      cases map.finish_total hgrows.paged hvpn htable pfn flags with
      | inl hconflict =>
        have := hconflict.1
        dsimp only at this
        rw [hframe vpn hvpn] at this
        contradiction
      | inr hmapped =>
        obtain ⟨m', _, hfinish, hmaps, hgrows', htakes⟩ := hmapped
        have hpma : m'.pma = pma := htakes.kept (by rw [htable]; exact Option.some_ne_none f)
        refine ⟨m', habsent, hfinish, ⟨hmaps.paged, hmaps.vma, hmaps.mapped, ?_, ?_⟩,
          hgrows.trans hgrows', htakes.dirPfn.trans hclears.dirPfn, ?_, ?_, fun _ => ⟨f, by rw [hpma]; exact halloc⟩⟩
        . intro x hx hxne
          rw [hmaps.kept x hx hxne]
          exact hframe x hx
        . intro g hg
          have hkept : pma.frameDesc g = m.pma.frameDesc g := by
            cases hgrows.frames g with
            | inl hsame => exact hsame
            | inr hnew => exact absurd hnew.1 hg
          rw [hmaps.frames g (by rw [hkept]; exact hg)]
          exact hkept
        . intro d hd
          have hothers := htakes.others d hd
          dsimp only at hothers
          rw [hclears.dirPfn] at hothers
          rw [hothers]
          exact hclears.directory d hd
        . intro hsome
          exact absurd hnone hsome

theorem map_spec (h : m.Paged) (hvpn : Ordinary vpn)
    (hrun : map m pfn vpn flags = .ok ⟨.success, m'⟩)
    : m.MapsPage vpn (pfn % 2 ^ 20) m' := by
  obtain ⟨_, hmap⟩ | ⟨_, _, hmap⟩ | ⟨m1, _, hmap, hmaps, _⟩ := map_total h hvpn pfn flags
  . rw [hrun] at hmap
    cases hmap
  . rw [hrun] at hmap
    cases hmap
  . rw [hrun] at hmap
    cases hmap
    exact hmaps

/--
The pages from `vpn` on lead to the frames from `pfn` on now, other pages are kept.
-/
structure MapsPages (m : Mm) (vpn pfn n : Nat) (m' : Mm) : Prop where
  paged : m'.Paged
  vma : m'.vma = m.vma
  mapped : ∀ i, i < n → m'.page.frame? (vpn + i) = some (pfn + i)
  kept : ∀ x, Ordinary x → x < vpn ∨ vpn + n ≤ x → m'.page.frame? x = m.page.frame? x
  frames : ∀ f, m.pma.frameDesc f ≠ some pbmFree → m'.pma.frameDesc f = m.pma.frameDesc f

theorem mmMap_spec (h : m.Paged) {n : Nat} (hvpn : vpn + n ≤ 0xFFC00) (hpfn : pfn + n ≤ 2 ^ 20)
    (hrun : mmMap m pfn vpn n flags = .ok ⟨.success, m'⟩)
    : m.MapsPages vpn pfn n m' := by
  suffices ∀ k i m, m.Paged → i + k = n → mmMap.go pfn vpn flags k i m = .ok ⟨.success, m'⟩
      → m.MapsPages (vpn + i) (pfn + i) k m' from
    this n 0 m h (by omega) hrun
  intro k
  induction k with
  | zero =>
    intro i m h _ hrun
    cases hrun
    refine ⟨h, rfl, ?_, fun _ _ _ => rfl, fun _ _ => rfl⟩
    intro j hj
    omega
  | succ k ih =>
    intro i m h hi hrun
    rw [mmMap.go, bind_eq_ok] at hrun
    obtain ⟨⟨status, m1⟩, hmap, hrun⟩ := hrun
    dsimp only at hrun
    split at hrun
    . next hstatus =>
      subst hstatus
      rw [u32_of_lt (by omega), u32_of_lt (by omega)] at hmap
      have hone := map_spec h (show Ordinary (vpn + i) by unfold Ordinary; omega) hmap
      rw [Nat.mod_eq_of_lt (by omega)] at hone
      have hrest := ih (i + 1) m1 hone.paged (by omega) hrun
      refine ⟨hrest.paged, hrest.vma.trans hone.vma, ?_, ?_, ?_⟩
      . intro j hj
        cases j with
        | zero =>
          rw [hrest.kept (vpn + i + 0) (by unfold Ordinary; omega) (by omega)]
          exact hone.mapped
        | succ j =>
          have := hrest.mapped j (by omega)
          rw [show vpn + (i + 1) + j = vpn + i + (j + 1) by omega] at this
          rw [show pfn + (i + 1) + j = pfn + i + (j + 1) by omega] at this
          exact this
      . intro x hx hout
        rw [hrest.kept x hx (by omega)]
        exact hone.kept x hx (by lia)
      . intro f hf
        rw [hrest.frames f (by rw [hone.frames f hf]; exact hf)]
        exact hone.frames f hf
    . next hne =>
      cases hrun
      contradiction

/--
A directory in frame `0x50` with one empty page table, in frame `0x51`, for the begin of the kernel
area, and four free frames.
-/
def small : Mm where
  page := {
    word := fun f j =>
      if f = 0x50 ∧ j = 1023 then 0x00050003#32
      else if f = 0x50 ∧ j = 772 then 0x00051003#32
      else 0
    dirPfn := 0x50
  }
  pma := {
    bitmap := [0]
    frameDescCount := 4
    availableFrames := 4
    freeFrames := 4
    basePfn := 0x100
    limitPfn := 0x103
    bitmapPfnList := []
  }
  vma := mmVmaInit 0x00100 0xBFFFF 0xC1000 0xFEFFF

theorem small_target {d f : Nat} (h : pageFormat.target (small.page.word 0x50 d) = some f)
    : (d = 1023 ∧ f = 0x50) ∨ (d = 772 ∧ f = 0x51) := by
  simp only [small, true_and] at h
  split at h
  . next heq => exact .inl ⟨heq, (Option.some.inj h).symm⟩
  . split at h
    . next heq => exact .inr ⟨heq, (Option.some.inj h).symm⟩
    . cases h

theorem small_paged : small.Paged := by
  refine ⟨⟨by decide, by decide, ?_⟩, ?_, ?_⟩
  . intro i j f _ _ hi hj
    have := small_target hi
    have := small_target hj
    lia
  . refine ⟨?_, ?_, ?_, ?_⟩ <;> decide
  . intro d f _ hf
    have hcases := small_target hf
    have : f = 0x50 ∨ f = 0x51 := by lia
    cases this with
    | inl heq =>
      subst heq
      decide
    | inr heq =>
      subst heq
      decide

end Mm

end Emos
