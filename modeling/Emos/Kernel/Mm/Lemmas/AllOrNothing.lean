import Emos.Kernel.Mm.Lemmas.Mm
import Emos.Kernel.Mm.Lemmas.PmaFirstFit
import Emos.Kernel.Mm.Lemmas.Request

/-!
This module contains when mapping several pages leaves their translations alone if it fails: the pages in
front of the one that cannot be mapped stay mapped.
-/

open Lib

namespace Emos

namespace Pma

variable {s t : Pma}

instance (s : Pma) (i : Nat) : Decidable (s.Usable i) := by
  unfold Usable
  infer_instance

/--
The number of frames that can be allocated.
-/
def usableFrames (s : Pma) : Nat := ((Finset.range s.frameDescCount).filter s.Usable).card

theorem MapsRange.usableFrames {lo hi : Nat}
    (h : MapsRange (fun d => d = pbmFree) (fun _ => pbmAllocated) lo hi s t) (hlo : lo < hi → 0x100 ≤ s.basePfn + lo)
    (hhi : hi ≤ s.frameDescCount)
    : t.usableFrames + (hi - lo) = s.usableFrames := by
  have hcard := h.card_free (fun i => 0x100 ≤ s.basePfn + i) (fun i h1 h2 => by omega) hhi
  rw [← h.range.basePfn] at hcard
  unfold Pma.usableFrames Usable
  rw [hcard, h.range.basePfn]

theorem usableFrames_eq_zero (h : ∀ i < s.frameDescCount, ¬ s.Usable i) : s.usableFrames = 0 := by
  unfold usableFrames
  rw [Finset.card_eq_zero, Finset.filter_eq_empty_iff]
  intro i hi
  exact h i (Finset.mem_range.mp hi)

/--
One frame is allocated if there is one.
-/
theorem allocateFrame_usableFrames (hs : s.WellFormed)
    : (s.usableFrames = 0 ∧ mmPmaAllocateFrame s 1 = .ok ⟨.error .insufficientMemory, s⟩)
        ∨
      ∃ f t, mmPmaAllocateFrame s 1 = .ok ⟨.ok f, t⟩ ∧ t.usableFrames + 1 = s.usableFrames := by
  cases mmPmaAllocateFrame_spec hs 1 with
  | inl hfail =>
    left
    refine ⟨usableFrames_eq_zero ?_, hfail⟩
    obtain ⟨freeCount, start, hgo, _, hnone⟩ := mmPmaAllocateFrame.go_firstRun hs
      (Nat.zero_add s.frameDescCount) (Scanned.zero (Nat.one_pos) 0)
    rw [mmPmaAllocateFrame, bind_eq_ok] at hfail
    obtain ⟨⟨freeCount', start'⟩, hgo', hfail⟩ := hfail
    rw [hgo] at hgo'
    cases hgo'
    dsimp only at hfail
    split at hfail
    . next hfew =>
      intro i hi husable
      apply hnone hfew i (by omega)
      intro j h1 h2
      rw [show j = i by omega]
      exact husable
    . rw [bind_eq_ok] at hfail
      obtain ⟨u, _, hfail⟩ := hfail
      cases hfail
  | inr hok =>
    right
    obtain ⟨start, t, halloc, hle, hhigh, hmaps⟩ := hok
    refine ⟨_, t, halloc, ?_⟩
    have := hmaps.usableFrames (fun _ => hhigh Nat.one_ne_zero) hle
    lia

end Pma

namespace Mm

/--
Entry `d` of the directory does not lead to a page table.
-/
def Absent (m : PageMemory) (d : Nat) : Prop := pageFormat.target (m.word m.dirPfn d) = none

instance (m : PageMemory) : DecidablePred (Absent m) := by
  unfold Absent
  infer_instance

/--
Once the pages in front of it are mapped, page `k` of a request cannot be mapped: it is present, or it
is itself the page table of one of them, or the first page of an absent page table and no frame is left.
-/
def Blocked (m : PageMemory) (usable vpn k : Nat) : Prop :=
  m.frame? (pageAt vpn k) ≠ none
    ∨ (∃ j < k, pageAt vpn k = 0xFFC00 + pageAt vpn j / 1024)
    ∨ (m.table? (pageAt vpn k) = none ∧ (∀ j < k, pageAt vpn j / 1024 ≠ pageAt vpn k / 1024)
      ∧ usable ≤ (newTables (Absent m) vpn k).card)

instance (m : PageMemory) (usable vpn k : Nat) : Decidable (Blocked m usable vpn k) := by
  unfold Blocked
  infer_instance

/--
A request that cannot be mapped as a whole cannot be mapped at all.
-/
def FailsAtOnce (m : PageMemory) (usable vpn n : Nat) : Prop :=
  (∃ k < n, Blocked m usable vpn k) → Blocked m usable vpn 0

theorem map_pageAt (m : Mm) (pfn vpn k : Nat) (flags : MapFlags)
    : map m pfn (u32 (vpn + k)) flags = map m pfn (pageAt vpn k) flags := by
  have hdir : u32 (vpn + k) / 1024 % 1024 = pageAt vpn k / 1024 % 1024 := by
    unfold u32 pageAt
    omega
  have hentry : u32 (vpn + k) % 1024 = pageAt vpn k % 1024 := by
    unfold u32 pageAt
    omega
  unfold map map.finish mapEntry pteAddr pdeAddr ptAddr
  rw [hdir, hentry]

/--
The first `i` pages of a request are mapped.
-/
structure Begun (m : Mm) (pfn vpn i : Nat) (m' : Mm) : Prop where
  slot : m'.page.Slot
  inside : vpn % 2 ^ 20 + i ≤ 0xFFFFF
  absent : ∀ d < 1024, pageFormat.target (m'.page.word m'.page.dirPfn d) = none
    ↔ pageFormat.target (m.page.word m.page.dirPfn d) = none
      ∧ ∀ j < i, pageAt vpn j / 1024 ≠ d ∧ pageAt vpn j ≠ 0xFFC00 + d
  mapped : ∀ j < i, m'.page.frame? (pageAt vpn j) = some ((pfn + j) % 2 ^ 20)
  frames : ∀ f, m.pma.frameDesc f ≠ some pbmFree → m'.pma.frameDesc f = m.pma.frameDesc f
  paged : (∀ j < i, Ordinary (pageAt vpn j)) → m'.Paged
    ∧ (∀ x, Ordinary x → (∀ j < i, x ≠ pageAt vpn j) → m'.page.frame? x = m.page.frame? x)
    ∧ m'.pma.usableFrames + (newTables (Absent m.page) vpn i).card = m.pma.usableFrames

variable {m m' : Mm} {pfn vpn i : Nat}

theorem Begun.zero (h : m.Paged) (pfn vpn : Nat) : m.Begun pfn vpn 0 m where
  slot := h.tables.slot_target
  inside := by omega
  absent := by simp
  mapped := by simp
  frames := fun _ _ => rfl
  paged := by
    intro _
    refine ⟨h, fun _ _ _ => rfl, ?_⟩
    simp

theorem Begun.pageAt_eq (h : m.Begun pfn vpn i m') {j : Nat} (hj : j ≤ i) : pageAt vpn j = vpn % 2 ^ 20 + j := by
  have := h.inside
  unfold pageAt
  lia

theorem Begun.ordinary (h : m.Begun pfn vpn i m') (hi : Ordinary (pageAt vpn i)) {j : Nat} (hj : j < i)
    : Ordinary (pageAt vpn j) := by
  unfold Ordinary at *
  rw [h.pageAt_eq (Nat.le_refl i)] at hi
  rw [h.pageAt_eq (by omega)]
  omega

theorem u32_mod_page (n : Nat) : u32 n % 2 ^ 20 = n % 2 ^ 20 := by
  unfold u32
  lia

theorem Begun.table?_eq_none (h : m.Begun pfn vpn i m') (hi : Ordinary (pageAt vpn i))
    : m'.page.table? (pageAt vpn i) = none
        ↔
      pageFormat.target (m.page.word m.page.dirPfn (pageAt vpn i / 1024)) = none
        ∧ ∀ j < i, pageAt vpn j / 1024 ≠ pageAt vpn i / 1024 := by
  have hlt : pageAt vpn i / 1024 < 1024 := by
    unfold pageAt
    lia
  unfold PageMemory.table?
  rw [Nat.mod_eq_of_lt hlt, h.absent _ hlt]
  constructor
  . intro ⟨hnone, hnew⟩
    exact ⟨hnone, fun j hj => (hnew j hj).1⟩
  . intro ⟨hnone, hnew⟩
    refine ⟨hnone, ?_⟩
    intro j hj
    have hordinary := h.ordinary hi hj
    unfold Ordinary at hordinary
    exact ⟨hnew j hj, by omega⟩

theorem Begun.next (h : m.Begun pfn vpn i m') (hi : Ordinary (pageAt vpn i)) {m'' : Mm}
    (hpaged' : m'.Paged) (hmaps : m'.MapsPage (pageAt vpn i) (u32 (pfn + i) % 2 ^ 20) m'') (htakes : m'.Takes (pageAt vpn i) m'')
    : m.Begun pfn vpn (i + 1) m'' := by
  have hlast := h.pageAt_eq (Nat.le_refl i)
  have hlt : pageAt vpn i / 1024 < 1024 := by
    unfold pageAt
    lia
  have hbefore : ∀ j < i, Ordinary (pageAt vpn j) ∧ pageAt vpn j ≠ pageAt vpn i := by
    intro j hj
    refine ⟨h.ordinary hi hj, ?_⟩
    rw [h.pageAt_eq (by omega), hlast]
    omega
  obtain ⟨_, hkept, hcount⟩ := h.paged (fun j hj => (hbefore j hj).1)
  constructor
  . exact hmaps.paged.tables.slot_target
  . unfold Ordinary at hi
    omega
  . intro d hd
    by_cases heq : d = pageAt vpn i / 1024
    . have hframe := hmaps.mapped
      rw [PageMemory.frame?_of_table? (by unfold pageAt; omega)] at hframe
      unfold PageMemory.table? at hframe
      rw [Nat.mod_eq_of_lt hlt, ← heq] at hframe
      apply iff_of_false
      . intro hnone
        rw [hnone] at hframe
        cases hframe
      . intro ⟨_, hnew⟩
        exact (hnew i (by omega)).1 heq.symm
    . rw [htakes.dirPfn, htakes.others d (by lia), h.absent d hd]
      unfold Ordinary at hi
      constructor
      . intro ⟨hnone, hnew⟩
        refine ⟨hnone, ?_⟩
        intro j hj
        by_cases hji : j = i
        . rw [hji]
          exact ⟨fun h => heq h.symm, by lia⟩
        . exact hnew j (by lia)
      . intro ⟨hnone, hnew⟩
        exact ⟨hnone, fun j hj => hnew j (by omega)⟩
  . intro j hj
    by_cases hji : j = i
    . rw [hji, hmaps.mapped, u32_mod_page]
    . have hj' := hbefore j (by lia)
      rw [hmaps.kept _ hj'.1 hj'.2]
      exact h.mapped j (by lia)
  . intro f hf
    have hsame := h.frames f hf
    rw [hmaps.frames f (by rw [hsame]; exact hf)]
    exact hsame
  . intro _
    refine ⟨hmaps.paged, ?_, ?_⟩
    . intro x hx hne
      rw [hmaps.kept x hx (hne i (by omega))]
      exact hkept x hx (fun j hj => hne j (by omega))
    . have htable := h.table?_eq_none hi
      by_cases hnone : m'.page.table? (pageAt vpn i) = none
      . obtain ⟨g, halloc⟩ := htakes.taken hnone
        have hnew := htable.mp hnone
        rw [card_newTables_of_absent hnew.1 hnew.2]
        obtain ⟨_, hfail⟩ | ⟨g', t, hok, husable⟩ := Pma.allocateFrame_usableFrames hpaged'.pma
        . rw [halloc] at hfail
          cases hfail
        . rw [halloc] at hok
          cases hok
          lia
      . rw [htakes.kept hnone, newTables_of_present (fun hnew => hnone (htable.mpr hnew))]
        exact hcount

theorem Begun.map_ordinary (h : m.Begun pfn vpn i m') (hi : Ordinary (pageAt vpn i)) (flags : MapFlags)
    : (Blocked m.page m.pma.usableFrames vpn i
          ∧ ∃ b, b ≠ .success ∧ map m' (u32 (pfn + i)) (pageAt vpn i) flags = .ok ⟨b, m'⟩)
        ∨
      (¬ Blocked m.page m.pma.usableFrames vpn i
          ∧ ∃ m'', map m' (u32 (pfn + i)) (pageAt vpn i) flags = .ok ⟨.success, m''⟩ ∧ m.Begun pfn vpn (i + 1) m'') := by
  have hlast := h.pageAt_eq (Nat.le_refl i)
  obtain ⟨hpaged, hkept, hcount⟩ := h.paged (fun j hj => h.ordinary hi hj)
  have hframe : m'.page.frame? (pageAt vpn i) = m.page.frame? (pageAt vpn i) := by
    apply hkept _ hi
    intro j hj
    rw [hlast, h.pageAt_eq (by omega)]
    omega
  have htable := h.table?_eq_none hi
  have hold : m.page.table? (pageAt vpn i)
      = pageFormat.target (m.page.word m.page.dirPfn (pageAt vpn i / 1024)) := by
    have hmod : pageAt vpn i / 1024 % 1024 = pageAt vpn i / 1024 := by
      unfold pageAt
      lia
    unfold PageMemory.table?
    rw [hmod]
  obtain ⟨hpresent, hmap⟩ | ⟨_, ⟨hnone, hfail⟩, hmap⟩ | ⟨m'', habsent, hmap, hmaps, _, htakes⟩ :=
    map_total hpaged hi (u32 (pfn + i)) flags
  . left
    rw [hframe] at hpresent
    exact ⟨.inl hpresent, _, by decide, hmap⟩
  . left
    refine ⟨.inr (.inr ?_), _, by decide, hmap⟩
    obtain ⟨hzero, _⟩ | ⟨g, t, hok, _⟩ := Pma.allocateFrame_usableFrames hpaged.pma
    . rw [hold]
      obtain ⟨hnone, hnew⟩ := htable.mp hnone
      exact ⟨hnone, hnew, by omega⟩
    . rw [hfail] at hok
      cases hok
  . right
    refine ⟨?_, m'', hmap, h.next hi hpaged hmaps htakes⟩
    intro hblocked
    obtain hpresent | ⟨j, _, hwindow⟩ | ⟨hnone, hnew, hfew⟩ := hblocked
    . rw [hframe] at habsent
      exact hpresent habsent
    . unfold Ordinary at hi
      lia
    . rw [hold] at hnone
      obtain ⟨g, halloc⟩ := htakes.taken (htable.mpr ⟨hnone, hnew⟩)
      obtain ⟨_, hfail⟩ | ⟨g', t, _, husable⟩ := Pma.allocateFrame_usableFrames hpaged.pma
      . rw [halloc] at hfail
        cases hfail
      . omega

theorem map_window (hslot : m.page.Slot) {d : Nat} (hd : d < 1024) (pfn : Nat) (flags : MapFlags)
    : (pageFormat.target (m.page.word m.page.dirPfn d) ≠ none
          ∧ map m pfn (0xFFC00 + d) flags = .ok ⟨.conflictingState, m⟩)
        ∨
      (pageFormat.target (m.page.word m.page.dirPfn d) = none ∧ d ≠ 1023 ∧ ∃ raw,
        map m pfn (0xFFC00 + d) flags = .ok ⟨.success, { m with page := m.page.put m.page.dirPfn d raw }⟩
          ∧ pageFormat.target raw = some (pfn % 2 ^ 20)) := by
  have hdir : (0xFFC00 + d) / 1024 % 1024 = 1023 := by
    rw [show 0xFFC00 + d = d + 1023 * 1024 from Nat.add_comm _ _, Nat.add_mul_div_right _ _ (by decide),
      Nat.div_eq_of_lt hd]
  have hpresent : entryPresent (m.page.word m.page.dirPfn 1023) = true := by
    by_contra hnot
    unfold PageMemory.Slot at hslot
    rw [pageFormat_target, if_neg hnot] at hslot
    cases hslot
  have haddr : pteAddr (0xFFC00 + d) = pdeAddr (d * 1024) := by
    unfold pteAddr ptAddr pdeAddr
    lia
  have hread : m.page.read (pteAddr (0xFFC00 + d)) = .ok (m.page.word m.page.dirPfn d) := by
    rw [haddr, hslot.read_pdeAddr, show d * 1024 / 1024 % 1024 = d by lia]
  unfold map
  rw [hslot.read_pdeAddr, hdir]
  simp only [bind, Except.bind, hpresent, ↓reduceIte, map.finish, hread]
  rw [pageFormat_target]
  by_cases hentry : entryPresent (m.page.word m.page.dirPfn d) = true
  . left
    rw [if_pos hentry, if_pos hentry]
    exact ⟨nofun, rfl⟩
  . right
    have hne : d ≠ 1023 := by
      intro heq
      rw [heq] at hentry
      exact hentry hpresent
    obtain ⟨raw, hmap, htarget⟩ := (PageMemory.Cell.of_slot hslot (show d < 1023 by omega)).mapEntry pfn flags
    rw [if_neg hentry, if_neg hentry, hmap]
    exact ⟨rfl, hne, raw, rfl, htarget⟩

theorem Begun.map_window (hm : m.Paged) (h : m.Begun pfn vpn i m') (hi : ¬ Ordinary (pageAt vpn i))
    (flags : MapFlags)
    : (Blocked m.page m.pma.usableFrames vpn i
          ∧ ∃ b, b ≠ .success ∧ map m' (u32 (pfn + i)) (pageAt vpn i) flags = .ok ⟨b, m'⟩)
        ∨
      (¬ Blocked m.page m.pma.usableFrames vpn i
          ∧ ∃ m'', map m' (u32 (pfn + i)) (pageAt vpn i) flags = .ok ⟨.success, m''⟩ ∧ m.Begun pfn vpn (i + 1) m'') := by
  have hlast := h.pageAt_eq (Nat.le_refl i)
  have hinside := h.inside
  have hmslot : pageFormat.target (m.page.word m.page.dirPfn 1023) = some m.page.dirPfn := hm.tables.slot_target
  obtain ⟨d, hd, hpage⟩ : ∃ d < 1024, pageAt vpn i = 0xFFC00 + d := by
    unfold Ordinary at hi
    exact ⟨pageAt vpn i - 0xFFC00, by lia, by lia⟩
  have hbefore : ∀ j < i, pageAt vpn j ≠ 0xFFC00 + d := by
    intro j hj
    rw [h.pageAt_eq (by omega), ← hpage, hlast]
    omega
  have hframe : m.page.frame? (pageAt vpn i) = pageFormat.target (m.page.word m.page.dirPfn d) := by
    rw [hpage]
    exact PageMemory.frame?_window hm.tables hd
  rw [hpage]
  obtain ⟨hpresent, hmap⟩ | ⟨habsent, hne, raw, hmap, hraw⟩ := Mm.map_window h.slot hd (u32 (pfn + i)) flags
  . left
    refine ⟨?_, _, by decide, hmap⟩
    by_cases hold : m.page.frame? (pageAt vpn i) = none
    . rw [hframe] at hold
      by_contra hnot
      apply hpresent
      rw [h.absent d hd]
      refine ⟨hold, ?_⟩
      intro j hj
      refine ⟨?_, hbefore j hj⟩
      intro heq
      exact hnot (.inr (.inl ⟨j, hj, by rw [heq, hpage]⟩))
    . exact .inl hold
  . right
    obtain ⟨hold, hnew⟩ := (h.absent d hd).mp habsent
    refine ⟨?_, _, hmap, ?_⟩
    . intro hblocked
      obtain hpresent | ⟨j, hj, hwindow⟩ | ⟨hnone, _⟩ := hblocked
      . rw [hframe] at hpresent
        exact hpresent hold
      . exact (hnew j hj).1 (by lia)
      . unfold PageMemory.table? at hnone
        rw [hpage, show (0xFFC00 + d) / 1024 % 1024 = 1023 by omega, hmslot] at hnone
        cases hnone
    . have hword : ∀ g k, (m'.page.put m'.page.dirPfn d raw).word g k
          = if g = m'.page.dirPfn ∧ k = d then raw else m'.page.word g k :=
        fun g k => Paging.setWord_apply m'.page.word m'.page.dirPfn d raw g k
      have hslot : (m'.page.put m'.page.dirPfn d raw).Slot := by
        unfold PageMemory.Slot
        rw [hword, if_neg (by omega)]
        exact h.slot
      refine ⟨hslot, by lia, ?_, ?_, ?_, ?_⟩
      . intro e he
        dsimp only
        rw [hword]
        by_cases heq : e = d
        . rw [if_pos ⟨rfl, heq⟩, hraw]
          apply iff_of_false nofun
          intro ⟨_, hnew'⟩
          exact (hnew' i (by omega)).2 (by rw [heq, hpage])
        . rw [if_neg (fun h => heq h.2)]
          refine (h.absent e he).trans ?_
          constructor
          . intro ⟨hnone, hnew'⟩
            refine ⟨hnone, ?_⟩
            intro j hj
            by_cases hji : j = i
            . rw [hji]
              have : e ≠ 1023 := by
                intro heq
                rw [heq, hmslot] at hnone
                cases hnone
              lia
            . exact hnew' j (by omega)
          . intro ⟨hnone, hnew'⟩
            exact ⟨hnone, fun j hj => hnew' j (by omega)⟩
      . intro j hj
        dsimp only
        by_cases hji : j = i
        . rw [hji, hpage, hslot.frame?_window hd, hword, if_pos ⟨rfl, rfl⟩, hraw, u32_mod_page]
        . have hmapped := h.mapped j (by omega)
          unfold PageMemory.frame? at hmapped ⊢
          unfold PageMemory.put
          dsimp only
          rw [Paging.Format.walk_setWord_of_absent habsent raw (by rw [hmapped]; nofun)]
          exact hmapped
      . exact h.frames
      . intro hordinary
        exact absurd (hordinary i (by omega)) hi

theorem Begun.map (hm : m.Paged) (h : m.Begun pfn vpn i m') (flags : MapFlags)
    : (Blocked m.page m.pma.usableFrames vpn i
          ∧ ∃ b, b ≠ .success ∧ Emos.map m' (u32 (pfn + i)) (pageAt vpn i) flags = .ok ⟨b, m'⟩)
        ∨
      (¬ Blocked m.page m.pma.usableFrames vpn i
          ∧ ∃ m'', Emos.map m' (u32 (pfn + i)) (pageAt vpn i) flags = .ok ⟨.success, m''⟩ ∧ m.Begun pfn vpn (i + 1) m'') := by
  by_cases hordinary : Ordinary (pageAt vpn i)
  . exact h.map_ordinary hordinary flags
  . exact h.map_window hm hordinary flags

/--
`mm_map` maps the pages in front of the first one that is blocked.
-/
theorem mmMap_cases (hm : m.Paged) (pfn vpn n : Nat) (flags : MapFlags)
    : (∃ t, mmMap m pfn vpn n flags = .ok ⟨.success, t⟩
          ∧ ∀ k < n, ¬ Blocked m.page m.pma.usableFrames vpn k)
        ∨
      ∃ k < n, ∃ b t, b ≠ .success ∧ mmMap m pfn vpn n flags = .ok ⟨b, t⟩
        ∧ (m.Begun pfn vpn k t ∧ (k = 0 → t = m))
        ∧ Blocked m.page m.pma.usableFrames vpn k ∧ ∀ j < k, ¬ Blocked m.page m.pma.usableFrames vpn j := by
  let step : Nat → Mm → Run (Status × Mm) := fun i m => map m (u32 (pfn + i)) (u32 (vpn + i)) flags
  have hnext : ∀ n i s t, step i s = .ok ⟨.success, t⟩
      → mmMap.go pfn vpn flags (n + 1) i s = mmMap.go pfn vpn flags n (i + 1) t := by
    intro n i s t h
    rw [mmMap.go, show map s (u32 (pfn + i)) (u32 (vpn + i)) flags = _ from h]
    rfl
  have hfail : ∀ n i s b t, step i s = .ok ⟨b, t⟩ → b ≠ .success
      → mmMap.go pfn vpn flags (n + 1) i s = .ok ⟨b, t⟩ := by
    intro n i s b t h hb
    rw [mmMap.go, show map s (u32 (pfn + i)) (u32 (vpn + i)) flags = _ from h]
    simp only [bind, Except.bind, if_neg hb]
  have hstep : ∀ j t, 0 ≤ j → j < 0 + n → (m.Begun pfn vpn j t ∧ (j = 0 → t = m))
      → (Blocked m.page m.pma.usableFrames vpn j ∧ ∃ b, b ≠ .success ∧ step j t = .ok ⟨b, t⟩)
        ∨ (¬ Blocked m.page m.pma.usableFrames vpn j
          ∧ ∃ t', step j t = .ok ⟨.success, t'⟩ ∧ (m.Begun pfn vpn (j + 1) t' ∧ (j + 1 = 0 → t' = m))) := by
    intro j t _ _ ht
    have hpage : step j t = map t (u32 (pfn + j)) (pageAt vpn j) flags := map_pageAt t (u32 (pfn + j)) vpn j flags
    rw [hpage]
    obtain hblocked | ⟨hfree, t', hmap, hbegun⟩ := ht.1.map hm flags
    . exact .inl hblocked
    . exact .inr ⟨hfree, t', hmap, hbegun, by omega⟩
  have hrun := first_blocked (fun _ _ => rfl) hnext hfail (fun j t => m.Begun pfn vpn j t ∧ (j = 0 → t = m)) _ hstep
    ⟨Begun.zero hm pfn vpn, fun _ => rfl⟩
  rw [Nat.zero_add] at hrun
  cases hrun with
  | inl hall =>
    obtain ⟨t, ht, _, hnone⟩ := hall
    exact .inl ⟨t, ht, fun k hk => hnone k (Nat.zero_le k) hk⟩
  | inr hstop =>
    obtain ⟨k, b, t, _, hk, hb, ht, hbegun, hblocked, hnone⟩ := hstop
    exact .inr ⟨k, hk, b, t, hb, ht, hbegun, hblocked, fun j hj => hnone j (Nat.zero_le j) hj⟩

/--
If mapping fails then the pages lead to where they did.
-/
def KeepsOnFailure (m : Mm) (vpn n : Nat) (r : Run (Status × Mm)) : Prop :=
  ∀ status m', r = .ok ⟨status, m'⟩ → status ≠ .success
    → ∀ i < n, m'.page.frame? (pageAt vpn i) = m.page.frame? (pageAt vpn i)

theorem mmMap_keeps_iff (hm : m.Paged) (pfn vpn n : Nat) (flags : MapFlags)
    : KeepsOnFailure m vpn n (mmMap m pfn vpn n flags) ↔ FailsAtOnce m.page m.pma.usableFrames vpn n := by
  obtain ⟨t, ht, hnone⟩ | ⟨k, hk, b, t, hb, ht, ⟨hbegun, hstart⟩, hblocked, hnone⟩ := mmMap_cases hm pfn vpn n flags
  . apply iff_of_true
    . intro status m' h hstatus
      rw [ht] at h
      cases h
      contradiction
    . intro ⟨k, hk, hblocked⟩
      exact absurd hblocked (hnone k hk)
  . constructor
    . intro hkeeps _
      by_contra hfirst
      have hpos : 0 < k := by
        by_contra hzero
        rw [show k = 0 by omega] at hblocked
        exact hfirst hblocked
      have hsame := hkeeps b t ht hb 0 (by omega)
      have hwas : m.page.frame? (pageAt vpn 0) = none := by
        by_contra hpresent
        exact hfirst (.inl hpresent)
      rw [hwas, hbegun.mapped 0 hpos] at hsame
      cases hsame
    . intro hfails status m' h _ i hi
      have hzero : k = 0 := by
        by_contra hne
        exact hnone 0 (by omega) (hfails ⟨k, hk, hblocked⟩)
      rw [ht, hstart hzero] at h
      cases h
      rfl

end Mm

end Emos
