import Emos.Boot.Mm.Lemmas.Mm
import Emos.Boot.Mm.Lemmas.Pma
import Emos.Kernel.Mm.Lemmas.Request

/-!
This module contains when mapping several pages in the boot loader leaves their translations alone if it
fails. Pages that are present may be mapped again here, if the flags agree.
-/

open Lib

namespace Emos.Boot.Mm

namespace Pma

variable {s t : Pma}

def usableFrames (s : Pma) : Nat :=
  ((Finset.range s.frameDescCount).filter fun i => s.desc i = some pbmFree).card

theorem Maps.usableFrames {lo hi : Nat}
    (h : Maps (fun d => d = pbmFree) (fun _ => pbmAllocated) lo hi s t) (hhi : hi ≤ s.frameDescCount)
    : t.usableFrames + (hi - lo) = s.usableFrames := by
  have hcard := h.view.card_free (fun _ => True) (fun _ _ _ => trivial) hhi
  simp only [true_and] at hcard
  exact hcard

theorem allocateFrame_usableFrames {basePfn limitPfn : Nat} (hs : s.Manages basePfn limitPfn)
    : (s.usableFrames = 0 ∧ mmPmaAllocateFrame s 1 = .ok ⟨.error .insufficientMemory, s⟩)
        ∨
      ∃ f t, mmPmaAllocateFrame s 1 = .ok ⟨.ok f, t⟩ ∧ t.Manages basePfn limitPfn
        ∧ t.usableFrames + 1 = s.usableFrames := by
  obtain ⟨freeCount, start, hgo, _, hnone⟩ := go_spec hs.counted.toWellFormed
    (Nat.zero_add s.frameDescCount) (Scanned.zero Nat.one_pos 0)
  by_cases hfew : freeCount < 1
  . left
    refine ⟨?_, ?_⟩
    . unfold usableFrames
      rw [Finset.card_eq_zero, Finset.filter_eq_empty_iff]
      intro i hi hfree
      rw [Finset.mem_range] at hi
      apply hnone hfew i (by omega)
      intro j h1 h2
      rw [show j = i by omega]
      exact hfree
    . unfold mmPmaAllocateFrame
      simp only [hgo, bind, Except.bind, if_pos hfew]
  . right
    obtain ⟨hwrap, hfits, t, ht, hmaps⟩ := mmPmaAllocateFrame_maps hs (Nat.le_refl 1) hgo (by omega)
    have husable := hmaps.usableFrames hfits
    refine ⟨u32 (t.basePfn + start), t, ?_, hs.of_maps hmaps hfits, by lia⟩
    have hrun : forRange allocateAt (u32 (start + 1) - start) start s = .ok t := by
      rw [hwrap, Nat.add_sub_cancel_left]
      exact ht
    unfold mmPmaAllocateFrame
    simp only [hgo, bind, Except.bind, if_neg hfew, hrun]

end Pma

namespace Memory

def Absent (m : Memory) (d : Nat) : Prop := entryPresent (m.pde d) = false

instance (m : Memory) : DecidablePred m.Absent := by
  unfold Absent
  infer_instance

/--
Once the pages in front of it are mapped, page `k` of a request cannot be mapped: it is present with other
flags, or the first page of an absent page table and no frame is left.
-/
def Blocked (m : Memory) (flags : MapFlags) (vpn k : Nat) : Prop :=
  (m.frame? (pageAt vpn k) ≠ none ∧ flagsConflict (m.pte (pageAt vpn k)) flags = true)
    ∨ (m.Absent (pageAt vpn k / 1024) ∧ (∀ j < k, pageAt vpn j / 1024 ≠ pageAt vpn k / 1024)
      ∧ m.pma.usableFrames ≤ (newTables m.Absent vpn k).card)

/--
The pages in front of the first one that cannot be mapped lead to the frames already.
-/
def FailsInPlace (m : Memory) (flags : MapFlags) (pfn vpn n : Nat) : Prop :=
  ∀ k < n, m.Blocked flags vpn k → (∀ j < k, ¬ m.Blocked flags vpn j)
    → ∀ j < k, m.frame? (pageAt vpn j) = some ((pfn + j) % 2 ^ 20)

/--
There are page tables for the first `n` pages of a request, and the first `i` pages are mapped.
-/
structure Begun (m : Memory) (pfn vpn n i : Nat) (m' : Memory) : Prop where
  manages : ∃ basePfn limitPfn, m'.pma.Manages basePfn limitPfn
  usable : m'.pma.usableFrames + (newTables m.Absent vpn n).card = m.pma.usableFrames
  absent : ∀ d < 1024, m'.Absent d ↔ m.Absent d ∧ ∀ j < n, pageAt vpn j / 1024 ≠ d
  mapped : ∀ j < i, m'.frame? (pageAt vpn j) = some ((pfn + j) % 2 ^ 20)
  kept : ∀ x < 2 ^ 20, (∀ j < i, x ≠ pageAt vpn j) → m'.frame? x = m.frame? x
    ∧ (m.frame? x ≠ none → m'.pte x = m.pte x)

variable {m m' : Memory} {pfn vpn i : Nat}

theorem Begun.zero (h : ∃ basePfn limitPfn, m.pma.Manages basePfn limitPfn) (pfn vpn : Nat)
    : m.Begun pfn vpn 0 0 m where
  manages := h
  usable := by simp
  absent := by simp
  mapped := by simp
  kept := by simp

theorem frame?_eq_none_of_absent {x : Nat} (h : m.Absent (x / 1024)) : m.frame? x = none := by
  unfold Absent at h
  unfold frame?
  rw [if_neg (by simp [h])]

theorem frame?_of_present {x : Nat} (h : ¬ m.Absent (x / 1024))
    : m.frame? x = if entryPresent (m.pte x) then some (entryBase (m.pte x)) else none := by
  unfold Absent at h
  rw [Bool.not_eq_false] at h
  unfold frame?
  simp only [h, true_and]

theorem map_pageAt (m : Memory) (pfn vpn k : Nat) (flags : MapFlags)
    : map m pfn (u32 (vpn + k)) flags = map m pfn (pageAt vpn k) flags := by
  have hdir : u32 (vpn + k) / 1024 % 1024 = pageAt vpn k / 1024 % 1024 := by
    unfold u32 pageAt
    omega
  have hentry : u32 (vpn + k) % 2 ^ 20 = pageAt vpn k % 2 ^ 20 := by
    unfold u32 pageAt
    omega
  unfold map map.finish
  rw [hdir, hentry]

theorem Begun.absent_iff (h : m.Begun pfn vpn i i m')
    : m'.Absent (pageAt vpn i / 1024)
        ↔
      m.Absent (pageAt vpn i / 1024) ∧ ∀ j < i, pageAt vpn j / 1024 ≠ pageAt vpn i / 1024 :=
  h.absent _ (pageAt_dir_lt vpn i)

/--
The page table is there already.
-/
theorem Begun.of_present (h : m.Begun pfn vpn i i m') (hpresent : ¬ m'.Absent (pageAt vpn i / 1024))
    : m.Begun pfn vpn (i + 1) i m' := by
  refine ⟨h.manages, ?_, ?_, h.mapped, h.kept⟩
  . rw [newTables_of_present (fun hnew => hpresent (h.absent_iff.mpr hnew))]
    exact h.usable
  . intro d hd
    rw [h.absent d hd]
    constructor
    . intro ⟨hnone, hnew⟩
      refine ⟨hnone, ?_⟩
      intro j hj heq
      by_cases hji : j = i
      . subst hji
        rw [← heq] at hnone hnew
        exact hpresent (h.absent_iff.mpr ⟨hnone, hnew⟩)
      . exact hnew j (by omega) heq
    . intro ⟨hnone, hnew⟩
      exact ⟨hnone, fun j hj => hnew j (by omega)⟩

/--
A new page table is cleared.
-/
theorem Begun.of_absent (h : m.Begun pfn vpn i i m') (habsent : m'.Absent (pageAt vpn i / 1024)) {pma : Pma}
    (hmanages : ∃ basePfn limitPfn, pma.Manages basePfn limitPfn)
    (husable : pma.usableFrames + 1 = m'.pma.usableFrames) {raw : BitVec 32} (hraw : entryPresent raw = true)
    : m.Begun pfn vpn (i + 1) i {
        m' with
        pde := Function.update m'.pde (pageAt vpn i / 1024) raw
        pte := fun x => if x / 1024 = pageAt vpn i / 1024 then 0 else m'.pte x
        pma
      } := by
  obtain ⟨hnone, hnew⟩ := h.absent_iff.mp habsent
  have hzero : entryPresent 0#32 = false := rfl
  have hframe : ∀ x, ({
        m' with
        pde := Function.update m'.pde (pageAt vpn i / 1024) raw
        pte := fun x => if x / 1024 = pageAt vpn i / 1024 then 0 else m'.pte x
        pma
      } : Memory).frame? x = m'.frame? x := by
    intro x
    by_cases hx : x / 1024 = pageAt vpn i / 1024
    . rw [frame?_eq_none_of_absent (m := m') (by rw [hx]; exact habsent)]
      simp [frame?, hx, hzero]
    . simp [frame?, hx]
  refine ⟨hmanages, ?_, ?_, ?_, ?_⟩
  . have := h.usable
    rw [card_newTables_of_absent hnone hnew]
    dsimp only
    omega
  . intro d hd
    unfold Absent
    dsimp only
    by_cases heq : d = pageAt vpn i / 1024
    . rw [heq, Function.update_self, hraw]
      apply iff_of_false (by simp)
      intro ⟨_, hnew'⟩
      exact hnew' i (by omega) rfl
    . rw [Function.update_of_ne heq]
      refine (h.absent d hd).trans ?_
      constructor
      . intro ⟨hnone, hnew'⟩
        refine ⟨hnone, ?_⟩
        intro j hj
        by_cases hji : j = i
        . rw [hji]
          exact Ne.symm heq
        . exact hnew' j (by omega)
      . intro ⟨hnone, hnew'⟩
        exact ⟨hnone, fun j hj => hnew' j (by omega)⟩
  . intro j hj
    rw [hframe]
    exact h.mapped j hj
  . intro x hx hne
    rw [hframe]
    obtain ⟨hsame, hpte⟩ := h.kept x hx hne
    refine ⟨hsame, ?_⟩
    intro hsome
    dsimp only
    rw [if_neg, hpte hsome]
    intro heq
    rw [← hsame, frame?_eq_none_of_absent (by rw [heq]; exact habsent)] at hsome
    exact hsome rfl

theorem Begun.store (h : m.Begun pfn vpn (i + 1) i m') (hne : ∀ j < i, pageAt vpn j ≠ pageAt vpn i)
    (flags : MapFlags)
    : m.Begun pfn vpn (i + 1) (i + 1)
        { m' with pte := Function.update m'.pte (pageAt vpn i) (newEntry (u32 (pfn + i)) flags) } := by
  have hpresent : ¬ m'.Absent (pageAt vpn i / 1024) := by
    rw [h.absent _ (pageAt_dir_lt vpn i)]
    intro ⟨_, hnew⟩
    exact hnew i (by omega) rfl
  have hother : ∀ x, x ≠ pageAt vpn i
      → ({ m' with pte := Function.update m'.pte (pageAt vpn i) (newEntry (u32 (pfn + i)) flags) } : Memory).frame? x
        = m'.frame? x := by
    intro x hx
    unfold frame?
    simp only [Function.update_of_ne hx]
  refine ⟨h.manages, h.usable, h.absent, ?_, ?_⟩
  . intro j hj
    by_cases hji : j = i
    . have hmod : u32 (pfn + i) % 2 ^ 20 = (pfn + i) % 2 ^ 20 := by
        unfold u32
        lia
      have hstill : ¬ ({ m' with pte := Function.update m'.pte (pageAt vpn i) (newEntry (u32 (pfn + i)) flags) }
          : Memory).Absent (pageAt vpn i / 1024) := hpresent
      rw [hji, frame?_of_present hstill]
      simp only [Function.update_self, entryPresent_newEntry, ↓reduceIte, entryBase_newEntry, hmod]
    . rw [hother _ (hne j (by omega))]
      exact h.mapped j (by omega)
  . intro x hx hx'
    rw [hother x (hx' i (by omega))]
    dsimp only
    rw [Function.update_of_ne (hx' i (by omega))]
    exact h.kept x hx (fun j hj => hx' j (by omega))

theorem Begun.finish (h : m.Begun pfn vpn (i + 1) i m') (hne : ∀ j < i, pageAt vpn j ≠ pageAt vpn i)
    (flags : MapFlags)
    : ((m.frame? (pageAt vpn i) ≠ none ∧ flagsConflict (m.pte (pageAt vpn i)) flags = true)
          ∧ map.finish (u32 (pfn + i)) (pageAt vpn i) flags m' = .ok ⟨.conflictingState, m'⟩)
        ∨
      (¬ (m.frame? (pageAt vpn i) ≠ none ∧ flagsConflict (m.pte (pageAt vpn i)) flags = true)
          ∧ ∃ t, map.finish (u32 (pfn + i)) (pageAt vpn i) flags m' = .ok ⟨.success, t⟩
            ∧ m.Begun pfn vpn (i + 1) (i + 1) t) := by
  have hlt : pageAt vpn i < 2 ^ 20 := by
    unfold pageAt
    omega
  have hpresent : ¬ m'.Absent (pageAt vpn i / 1024) := by
    rw [h.absent _ (pageAt_dir_lt vpn i)]
    intro ⟨_, hnew⟩
    exact hnew i (by omega) rfl
  obtain ⟨hsame, hpte⟩ := h.kept _ hlt (fun j hj => Ne.symm (hne j hj))
  have hframe := frame?_of_present hpresent
  rw [hsame] at hframe
  unfold map.finish
  rw [Nat.mod_eq_of_lt hlt]
  dsimp only
  by_cases hentry : entryPresent (m'.pte (pageAt vpn i)) = true
  . rw [if_pos hentry] at hframe
    have hsome : m.frame? (pageAt vpn i) ≠ none := by
      rw [hframe]
      nofun
    rw [hentry, Bool.true_and, hpte hsome]
    by_cases hconflict : flagsConflict (m.pte (pageAt vpn i)) flags = true
    . left
      rw [if_pos hconflict]
      exact ⟨⟨hsome, hconflict⟩, rfl⟩
    . right
      rw [if_neg hconflict]
      exact ⟨fun hboth => hconflict hboth.2, _, rfl, h.store hne flags⟩
  . rw [if_neg hentry] at hframe
    right
    rw [Bool.not_eq_true] at hentry
    rw [hentry, Bool.false_and, if_neg (by decide)]
    exact ⟨fun hboth => hboth.1 hframe, _, rfl, h.store hne flags⟩

theorem Begun.map (h : m.Begun pfn vpn i i m') (hne : ∀ j < i, pageAt vpn j ≠ pageAt vpn i) (flags : MapFlags)
    : (m.Blocked flags vpn i ∧ ∃ b, b ≠ .success ∧ Mm.map m' (u32 (pfn + i)) (pageAt vpn i) flags = .ok ⟨b, m'⟩)
        ∨
      (¬ m.Blocked flags vpn i
          ∧ ∃ t, Mm.map m' (u32 (pfn + i)) (pageAt vpn i) flags = .ok ⟨.success, t⟩
            ∧ m.Begun pfn vpn (i + 1) (i + 1) t) := by
  have hdir : pageAt vpn i / 1024 % 1024 = pageAt vpn i / 1024 := Nat.mod_eq_of_lt (pageAt_dir_lt vpn i)
  have hlt : pageAt vpn i < 2 ^ 20 := by
    unfold pageAt
    omega
  have husable := h.usable
  unfold Mm.map
  rw [hdir]
  dsimp only
  by_cases habsent : m'.Absent (pageAt vpn i / 1024)
  . have hentry : entryPresent (m'.pde (pageAt vpn i / 1024)) = false := habsent
    have hnew := h.absent_iff.mp habsent
    have hnone : m.frame? (pageAt vpn i) = none := by
      rw [← (h.kept _ hlt (fun j hj => Ne.symm (hne j hj))).1]
      exact frame?_eq_none_of_absent habsent
    obtain ⟨basePfn, limitPfn, hmanages⟩ := h.manages
    rw [hentry, if_neg (by decide)]
    obtain ⟨hzero, hfail⟩ | ⟨f, pma, hok, hmanages', hcount⟩ := Pma.allocateFrame_usableFrames hmanages
    . left
      rw [hfail]
      exact ⟨.inr ⟨hnew.1, hnew.2, by omega⟩, _, by decide, rfl⟩
    . right
      have hraw : entryPresent (3 ||| BitVec.ofNat 32 (f * 2 ^ 12)) = true := by simp [entryPresent]
      have hready := h.of_absent habsent ⟨_, _, hmanages'⟩ hcount hraw
      rw [hok]
      obtain ⟨hconflict, _⟩ | ⟨_, t, ht, hbegun⟩ := hready.finish hne flags
      . exact absurd hnone hconflict.1
      . refine ⟨?_, t, ht, hbegun⟩
        intro hblocked
        cases hblocked with
        | inl hconflict => exact hconflict.1 hnone
        | inr hfew => omega
  . have hentry : entryPresent (m'.pde (pageAt vpn i / 1024)) = true := by
      unfold Absent at habsent
      rwa [Bool.not_eq_false] at habsent
    rw [hentry, if_pos rfl]
    obtain ⟨hconflict, hmap⟩ | ⟨hfree, t, ht, hbegun⟩ := (h.of_present habsent).finish hne flags
    . exact .inl ⟨.inl hconflict, _, by decide, hmap⟩
    . right
      refine ⟨?_, t, ht, hbegun⟩
      intro hblocked
      cases hblocked with
      | inl hconflict => exact hfree hconflict
      | inr hfew => exact habsent (h.absent_iff.mpr ⟨hfew.1, hfew.2.1⟩)

/--
`mm_map` maps the pages in front of the first one that is blocked.
-/
theorem mmMap_cases (hm : ∃ basePfn limitPfn, m.pma.Manages basePfn limitPfn) (pfn : Nat) {vpn n : Nat}
    (hvpn : vpn % 2 ^ 20 + n ≤ 0xFFC00) (flags : MapFlags)
    : (∃ t, mmMap m pfn vpn n flags = .ok ⟨.success, t⟩ ∧ ∀ k < n, ¬ m.Blocked flags vpn k)
        ∨
      ∃ k < n, ∃ b t, b ≠ .success ∧ mmMap m pfn vpn n flags = .ok ⟨b, t⟩ ∧ m.Begun pfn vpn k k t
        ∧ m.Blocked flags vpn k ∧ ∀ j < k, ¬ m.Blocked flags vpn j := by
  let step : Nat → Memory → Run (Status × Memory) := fun i m => Mm.map m (u32 (pfn + i)) (u32 (vpn + i)) flags
  have hnext : ∀ n i s t, step i s = .ok ⟨.success, t⟩
      → mmMap.go pfn vpn flags (n + 1) i s = mmMap.go pfn vpn flags n (i + 1) t := by
    intro n i s t h
    rw [mmMap.go, show Mm.map s (u32 (pfn + i)) (u32 (vpn + i)) flags = _ from h]
    rfl
  have hfail : ∀ n i s b t, step i s = .ok ⟨b, t⟩ → b ≠ .success
      → mmMap.go pfn vpn flags (n + 1) i s = .ok ⟨b, t⟩ := by
    intro n i s b t h hb
    rw [mmMap.go, show Mm.map s (u32 (pfn + i)) (u32 (vpn + i)) flags = _ from h]
    simp only [bind, Except.bind, if_neg hb]
  have hstep : ∀ j t, 0 ≤ j → j < 0 + n → m.Begun pfn vpn j j t
      → (m.Blocked flags vpn j ∧ ∃ b, b ≠ .success ∧ step j t = .ok ⟨b, t⟩)
        ∨ (¬ m.Blocked flags vpn j
          ∧ ∃ t', step j t = .ok ⟨.success, t'⟩ ∧ m.Begun pfn vpn (j + 1) (j + 1) t') := by
    intro j t _ hj ht
    have hpage : step j t = Mm.map t (u32 (pfn + j)) (pageAt vpn j) flags :=
      map_pageAt t (u32 (pfn + j)) vpn j flags
    rw [hpage]
    apply ht.map
    intro i hi
    unfold pageAt
    lia
  have hrun := first_blocked (fun _ _ => rfl) hnext hfail (fun j t => m.Begun pfn vpn j j t) _ hstep
    (Begun.zero hm pfn vpn)
  rw [Nat.zero_add] at hrun
  cases hrun with
  | inl hall =>
    obtain ⟨t, ht, _, hnone⟩ := hall
    exact .inl ⟨t, ht, fun k hk => hnone k (Nat.zero_le k) hk⟩
  | inr hstop =>
    obtain ⟨k, b, t, _, hk, hb, ht, hbegun, hblocked, hnone⟩ := hstop
    exact .inr ⟨k, hk, b, t, hb, ht, hbegun, hblocked, fun j hj => hnone j (Nat.zero_le j) hj⟩

/--
If mapping fails then the pages lead to where they did.
-/
def KeepsOnFailure (m : Memory) (vpn n : Nat) (r : Run (Status × Memory)) : Prop :=
  ∀ status m', r = .ok ⟨status, m'⟩ → status ≠ .success
    → ∀ i < n, m'.frame? (pageAt vpn i) = m.frame? (pageAt vpn i)

theorem mmMap_keeps_iff (hm : ∃ basePfn limitPfn, m.pma.Manages basePfn limitPfn) (pfn : Nat) {vpn n : Nat}
    (hvpn : vpn % 2 ^ 20 + n ≤ 0xFFC00) (flags : MapFlags)
    : KeepsOnFailure m vpn n (mmMap m pfn vpn n flags) ↔ m.FailsInPlace flags pfn vpn n := by
  obtain ⟨t, ht, hnone⟩ | ⟨k, hk, b, t, hb, ht, hbegun, hblocked, hnone⟩ := mmMap_cases hm pfn hvpn flags
  . apply iff_of_true
    . intro status m' h hstatus
      rw [ht] at h
      cases h
      contradiction
    . intro k hk hblocked
      exact absurd hblocked (hnone k hk)
  . constructor
    . intro hkeeps k' hk' hblocked' hnone' j hj
      have heq : k' = k := by
        by_contra hne
        by_cases hlt : k' < k
        . exact hnone k' hlt hblocked'
        . exact hnone' k (by omega) hblocked
      rw [heq] at hj
      rw [← hkeeps b t ht hb j (by omega)]
      exact hbegun.mapped j hj
    . intro hfails status m' h _ i hi
      rw [ht] at h
      cases h
      by_cases hik : i < k
      . rw [hbegun.mapped i hik, hfails k hk hblocked hnone i hik]
      . refine (hbegun.kept _ (by unfold pageAt; omega) ?_).1
        intro j hj
        unfold pageAt
        lia

end Memory

end Emos.Boot.Mm
