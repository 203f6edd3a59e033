import Emos.Kernel.Mm.Lemmas.Mm

/-!
This module contains that mapping and unmapping single pages through the page tables does to the
translation of pages what it does to a partial function.
-/

open Lib

namespace Emos

/--
The frame of each page that is mapped.
-/
abbrev Translation := Nat → Option Nat

inductive PageCall where
  | map (pfn vpn : Nat) (flags : MapFlags)
  | unmap (vpn : Nat)
  deriving DecidableEq, Repr

namespace PageCall

def exec (m : Mm) : PageCall → Run (Status × Mm)
  | .map pfn vpn flags => mmMap m pfn vpn 1 flags
  | .unmap vpn => do
    let page ← mmUnmap m.page vpn 1
    .ok ⟨.success, { m with page }⟩

/--
What a call that returned `status` does to the abstract translation.
-/
def apply (status : Status) (t : Translation) : PageCall → Translation
  | .map pfn vpn _ => if status = .success then Function.update t vpn (some pfn) else t
  | .unmap vpn => Function.update t vpn none

/--
The page is below the page tables and the frame is one of the 32 bit address space.
-/
def InRange : PageCall → Prop
  | .map pfn vpn _ => pfn < 2 ^ 20 ∧ Mm.Ordinary vpn
  | .unmap vpn => Mm.Ordinary vpn

/--
The status that a call has to return. A page that is present is not mapped again, whatever else there is
to change.
-/
def Answers (t : Translation) (m m' : Mm) (status : Status) : PageCall → Prop
  | .map _ vpn _ =>
    if t vpn = none then
      status = .success ∨ status = .insufficientMemory
    else
      status = .conflictingState ∧ m' = m
  | .unmap _ => status = .success

end PageCall

/--
`mm_vpn_to_pfn` finds the frame of each of these pages.
-/
def Agrees (pages : Nat → Prop) (m : Mm) (t : Translation) : Prop :=
  ∀ vpn, pages vpn → mmVpnToPfn m.page vpn
    = .ok (match t vpn with
      | none => .error .pageNotPresent
      | some pfn => .ok pfn)

/--
The calls return one after another, and before and after each of them the translations agree.
-/
def Refines (pages : Nat → Prop) : Mm → Translation → List PageCall → Prop
  | m, t, [] => Agrees pages m t
  | m, t, c :: cs => Agrees pages m t ∧ ∃ status m', c.exec m = .ok ⟨status, m'⟩
    ∧ c.Answers t m m' status ∧ Refines pages m' (c.apply status t) cs

variable {m m' : Mm} {t : Translation} {c : PageCall}

theorem mmVpnToPfn_of_ordinary (h : m.Paged) {vpn : Nat} (hvpn : Mm.Ordinary vpn)
    : mmVpnToPfn m.page vpn
        =
      .ok (match m.page.frame? vpn with
        | none => .error .pageNotPresent
        | some pfn => .ok pfn) := by
  have hlt : vpn % 2 ^ 20 = vpn := by
    unfold Mm.Ordinary at hvpn
    lia
  have heq := PageMemory.mmVpnToPfn_eq h.tables vpn
  rw [hlt] at heq
  exact heq

theorem agrees_iff (h : m.Paged)
    : Agrees Mm.Ordinary m t ↔ ∀ vpn, Mm.Ordinary vpn → m.page.frame? vpn = t vpn := by
  constructor
  . intro hagrees vpn hvpn
    have heq := hagrees vpn hvpn
    rw [mmVpnToPfn_of_ordinary h hvpn] at heq
    cases hframe : m.page.frame? vpn <;> cases ht : t vpn <;> simp_all
  . intro heq vpn hvpn
    rw [mmVpnToPfn_of_ordinary h hvpn, heq vpn hvpn]

theorem mmMap_one (pfn vpn : Nat) (flags : MapFlags) (hpfn : pfn < 2 ^ 20) (hvpn : Mm.Ordinary vpn)
    : mmMap m pfn vpn 1 flags = map m pfn vpn flags := by
  unfold Mm.Ordinary at hvpn
  unfold mmMap
  rw [mmMap.go, Nat.add_zero, Nat.add_zero]
  rw [u32_of_lt (by omega), u32_of_lt (by omega)]
  cases map m pfn vpn flags with
  | error fault => rfl
  | ok r =>
    obtain ⟨status, m'⟩ := r
    dsimp only [bind, Except.bind, mmMap.go]
    split
    . next hstatus => rw [hstatus]
    . rfl

theorem mmUnmap_one {m : PageMemory} (vpn : Nat) (hvpn : Mm.Ordinary vpn)
    : mmUnmap m vpn 1 = unmap m vpn := by
  unfold Mm.Ordinary at hvpn
  unfold mmUnmap
  rw [forRange, Nat.add_zero]
  rw [u32_of_lt (by omega)]
  cases unmap m vpn with
  | error fault => rfl
  | ok m' => rfl

/--
Unmapping an ordinary page makes it absent and keeps everything else.
-/
structure Mm.UnmapsPage (m : Mm) (vpn : Nat) (page : PageMemory) : Prop where
  paged : ({ m with page } : Mm).Paged
  unmapped : page.frame? vpn = none
  kept : ∀ x, Ordinary x → x ≠ vpn → page.frame? x = m.page.frame? x
  tables : ∀ x, page.table? x = m.page.table? x

theorem unmap_total (h : m.Paged) {vpn : Nat} (hvpn : Mm.Ordinary vpn)
    : ∃ page, unmap m.page vpn = .ok page ∧ m.UnmapsPage vpn page := by
  have hne : vpn / 1024 % 1024 ≠ 1023 := by
    unfold Mm.Ordinary at hvpn
    omega
  have hlt : vpn % 2 ^ 20 = vpn := by
    unfold Mm.Ordinary at hvpn
    lia
  cases PageMemory.unmap_eq h.tables vpn with
  | inl hnone =>
    rw [hlt] at hnone
    exact ⟨m.page, hnone.2, h, hnone.1, fun _ _ _ => rfl, fun _ => rfl⟩
  | inr hsome =>
    obtain ⟨f, _, hf, hunmap⟩ := hsome
    rw [hlt] at hf hunmap
    have htable := PageMemory.table?_put h.tables hne hf (vpn % 1024) 0
    have hframe : ∀ x, Mm.Ordinary x → (m.page.put f (vpn % 1024) 0).frame? x
        = if x = vpn then none else m.page.frame? x := by
      intro x hx
      unfold Mm.Ordinary at hx hvpn
      rw [PageMemory.frame?_put h.tables (by omega) (by omega) hf 0 (by omega)]
      rfl
    refine ⟨_, hunmap, ⟨h.tables.put hne hf _ 0, h.pma, ?_⟩, ?_, ?_, htable⟩
    . intro d g hd hg
      have := htable (d * 1024)
      unfold PageMemory.table? at this
      rw [show d * 1024 / 1024 % 1024 = d by lia] at this
      dsimp only at hg
      rw [this] at hg
      exact h.owned d g hd hg
    . rw [hframe vpn hvpn, if_pos rfl]
    . intro x hx hxne
      rw [hframe x hx, if_neg hxne]

theorem exec_refines (h : m.Paged) (hc : c.InRange) (hagrees : Agrees Mm.Ordinary m t)
    : ∃ status m', c.exec m = .ok ⟨status, m'⟩ ∧ m'.Paged ∧ c.Answers t m m' status
        ∧ Agrees Mm.Ordinary m' (c.apply status t) := by
  rw [agrees_iff h] at hagrees
  cases c with
  | map pfn vpn flags =>
    obtain ⟨hpfn, hvpn⟩ := hc
    have hmod : pfn % 2 ^ 20 = pfn := Nat.mod_eq_of_lt hpfn
    unfold PageCall.exec PageCall.Answers PageCall.apply
    dsimp only
    rw [mmMap_one pfn vpn flags hpfn hvpn, ← hagrees vpn hvpn]
    obtain ⟨hpresent, hmap⟩ | ⟨habsent, _, hmap⟩ | ⟨m', habsent, hmap, hmaps, _⟩ :=
      Mm.map_total h hvpn pfn flags
    . refine ⟨_, m, hmap, h, ?_, ?_⟩
      . rw [if_neg hpresent]
        exact ⟨rfl, rfl⟩
      . rw [if_neg (by decide)]
        exact (agrees_iff h).mpr hagrees
    . refine ⟨_, m, hmap, h, ?_, ?_⟩
      . rw [if_pos habsent]
        exact .inr rfl
      . rw [if_neg (by decide)]
        exact (agrees_iff h).mpr hagrees
    . refine ⟨_, m', hmap, hmaps.paged, ?_, ?_⟩
      . rw [if_pos habsent]
        exact .inl rfl
      . rw [if_pos rfl, agrees_iff hmaps.paged]
        intro x hx
        by_cases heq : x = vpn
        . rw [heq, hmaps.mapped, hmod, Function.update_self]
        . rw [hmaps.kept x hx heq, hagrees x hx, Function.update_of_ne heq]
  | unmap vpn =>
    obtain ⟨page, hunmap, hspec⟩ := unmap_total h hc
    refine ⟨.success, { m with page }, ?_, hspec.paged, rfl, ?_⟩
    . unfold PageCall.exec
      dsimp only
      rw [mmUnmap_one vpn hc, hunmap]
      rfl
    . rw [agrees_iff hspec.paged]
      unfold PageCall.apply
      intro x hx
      dsimp only
      by_cases heq : x = vpn
      . rw [heq, hspec.unmapped, Function.update_self]
      . rw [hspec.kept x hx heq, hagrees x hx, Function.update_of_ne heq]

/--
Any sequence of calls with single pages, from a state in which the directory and the page tables are in
distinct frames that are not free.
-/
theorem mmMap_mmUnmap_refine (m : Mm) (t : Translation) (cs : List PageCall) (h : m.Paged)
    (ht : Agrees Mm.Ordinary m t) (hcs : ∀ c ∈ cs, c.InRange)
    : Refines Mm.Ordinary m t cs := by
  induction cs generalizing m t with
  | nil => exact ht
  | cons c cs ih =>
    rw [List.forall_mem_cons] at hcs
    obtain ⟨status, m', hexec, hpaged, hanswers, hagrees⟩ := exec_refines h hcs.1 ht
    exact ⟨ht, status, m', hexec, hanswers, ih m' _ hpaged hagrees hcs.2⟩

theorem mmMap_mmUnmap_refine_small
    : Mm.small.page.frame? 5 = none
        ∧ Refines Mm.Ordinary Mm.small Mm.small.page.frame?
          [.map 7 5 pmfDefault, .map 8 5 pmfDefault, .unmap 5] := by
  refine ⟨by decide, ?_⟩
  apply mmMap_mmUnmap_refine Mm.small Mm.small.page.frame? _ Mm.small_paged
  . rw [agrees_iff Mm.small_paged]
    intro vpn _
    rfl
  . intro c hc
    simp only [List.mem_cons, List.not_mem_nil, or_false] at hc
    obtain rfl | rfl | rfl := hc
    . exact ⟨by decide, show 5 < 0xFFC00 by decide⟩
    . exact ⟨by decide, show 5 < 0xFFC00 by decide⟩
    . exact show 5 < 0xFFC00 by decide

namespace Mm

/--
`small` with two entries of the directory that lead to one page table.
-/
def aliased : Mm where
  page := {
    word := fun f j =>
      if f = 0x50 ∧ j = 1023 then 0x00050003#32
      else if f = 0x50 ∧ (j = 772 ∨ j = 773) then 0x00051003#32
      else 0
    dirPfn := 0x50
  }
  pma := small.pma
  vma := small.vma

theorem aliased_owned {d f : Nat} (h : pageFormat.target (aliased.page.word 0x50 d) = some f)
    : aliased.pma.frameDesc f ≠ some pbmFree := by
  have hcases : f = 0x50 ∨ f = 0x51 := by
    simp only [aliased, true_and] at h
    split at h
    . exact .inl (Option.some.inj h).symm
    . split at h
      . exact .inr (Option.some.inj h).symm
      . cases h
  cases hcases with
  | inl heq =>
    subst heq
    decide
  | inr heq =>
    subst heq
    decide

end Mm

theorem not_refines {pages : Nat → Prop} {pfn vpn x : Nat} {flags : MapFlags} {status : Status}
    (hx : pages x) (hne : x ≠ vpn) (hnone : m.page.frame? x = none)
    (hexec : (PageCall.map pfn vpn flags).exec m = .ok ⟨status, m'⟩)
    (hfound : mmVpnToPfn m'.page x ≠ .ok (.error .pageNotPresent))
    : ¬Refines pages m m.page.frame? [.map pfn vpn flags] := by
  intro ⟨_, status', m1, hrun, _, hagrees⟩
  rw [hexec] at hrun
  cases hrun
  have hsame : (PageCall.map pfn vpn flags).apply status m.page.frame? x = none := by
    unfold PageCall.apply
    dsimp only
    split
    . rw [Function.update_of_ne hne, hnone]
    . exact hnone
  have heq := hagrees x hx
  rw [hsame] at heq
  exact hfound heq

theorem mmVpnToPfn_window (h : m.Paged) {vpn pfn : Nat} (hvpn : Mm.Ordinary vpn)
    (hframe : m.page.frame? vpn = some pfn)
    : mmVpnToPfn m.page (0xFFC00 + vpn / 1024) ≠ .ok (.error .pageNotPresent) := by
  unfold Mm.Ordinary at hvpn
  rw [PageMemory.frame?_of_table? (by omega)] at hframe
  rw [PageMemory.mmVpnToPfn_eq h.tables, Nat.mod_eq_of_lt (by omega)]
  rw [PageMemory.frame?_window h.tables (by omega)]
  unfold PageMemory.table? at hframe
  rw [show vpn / 1024 % 1024 = vpn / 1024 by lia] at hframe
  cases htable : pageFormat.target (m.page.word m.page.dirPfn (vpn / 1024)) with
  | none =>
    rw [htable] at hframe
    contradiction
  | some f => nofun

/--
Where two entries of the directory lead to one page table, mapping a page maps another one as well. And
a new page table is itself mapped, at the pages that the tables are reached through.
-/
theorem mapping_changes_other_pages
    : (pageFormat.target (Mm.aliased.page.word Mm.aliased.page.dirPfn 1023) = some Mm.aliased.page.dirPfn
        ∧ (∀ d f, d < 1024 → pageFormat.target (Mm.aliased.page.word Mm.aliased.page.dirPfn d) = some f
          → Mm.aliased.pma.frameDesc f ≠ some pbmFree)
        ∧ ¬Refines Mm.Ordinary Mm.aliased Mm.aliased.page.frame? [.map 7 0xC1000 pmfDefault])
        ∧ Mm.small.Paged
        ∧ ¬Refines (· < 2 ^ 20) Mm.small Mm.small.page.frame? [.map 7 5 pmfDefault] := by
  refine ⟨⟨by decide, ?_, ?_⟩, Mm.small_paged, ?_⟩
  . intro d f _ hf
    exact Mm.aliased_owned hf
  . have hfound : ((PageCall.map 7 0xC1000 pmfDefault).exec Mm.aliased).map
        (fun r => mmVpnToPfn r.2.page 0xC1400) = .ok (.ok (.ok 7)) := by
      decide
    cases hexec : (PageCall.map 7 0xC1000 pmfDefault).exec Mm.aliased with
    | error fault =>
      rw [hexec] at hfound
      cases hfound
    | ok r =>
      rw [hexec] at hfound
      apply not_refines (x := 0xC1400) (by unfold Mm.Ordinary; decide) (by decide) (by decide) hexec
      have : mmVpnToPfn r.2.page 0xC1400 = .ok (.ok 7) := Except.ok.inj hfound
      rw [this]
      nofun
  . have hvpn : Mm.Ordinary 5 := by
      unfold Mm.Ordinary
      decide
    obtain ⟨hpresent, _⟩ | ⟨_, hfail, _⟩ | ⟨m', _, hmap, hmaps, _⟩ :=
      Mm.map_total Mm.small_paged hvpn 7 pmfDefault
    . exact absurd (by decide) hpresent
    . have : (mmPmaAllocateFrame Mm.small.pma 1).map Prod.fst ≠ .ok (.error .insufficientMemory) := by
        decide
      rw [hfail.2] at this
      contradiction
    . have hexec : (PageCall.map 7 5 pmfDefault).exec Mm.small = .ok ⟨.success, m'⟩ :=
        (mmMap_one 7 5 pmfDefault (by decide) hvpn).trans hmap
      have hnone : Mm.small.page.frame? 0xFFC00 = none := by
        decide
      have hfound := mmVpnToPfn_window hmaps.paged hvpn hmaps.mapped
      rw [show 0xFFC00 + 5 / 1024 = 0xFFC00 by decide] at hfound
      exact not_refines (by decide) (by decide) hnone hexec hfound

end Emos
