import Emos.Kernel.Mm.Impl.Mm

/-!
This module contains what reading, writing, mapping and unmapping do to the translation of pages if
the last entry of the page directory leads to the directory itself.
-/

open Lib

namespace Emos

@[simp]
theorem pageFormat_entries : pageFormat.entries = 1024 := rfl

theorem pageFormat_target (raw : BitVec 32)
    : pageFormat.target raw = if entryPresent raw then some (entryBase raw) else none := rfl

namespace PageMemory

/--
Distinct entries of the directory lead to distinct tables, the last one to the directory.
-/
def Tables (m : PageMemory) : Prop := pageFormat.Tables m.word m.dirPfn 1023

/--
The page table for a page.
-/
def table? (m : PageMemory) (vpn : Nat) : Option Nat :=
  pageFormat.target (m.word m.dirPfn (vpn / 1024 % 1024))

def put (m : PageMemory) (f j : Nat) (raw : BitVec 32) : PageMemory :=
  { m with word := Paging.setWord m.word f j raw }

variable {m m' : PageMemory} {vpn f : Nat}

/--
The last entry of the directory leads to the directory.
-/
def Slot (m : PageMemory) : Prop := pageFormat.target (m.word m.dirPfn 1023) = some m.dirPfn

theorem Slot.frame?_window (h : m.Slot) {d : Nat} (hd : d < 1024)
    : m.frame? (0xFFC00 + d) = pageFormat.target (m.word m.dirPfn d) := by
  have hdiv : (0xFFC00 + d) / pageFormat.entries = 1023 := by
    rw [pageFormat_entries]
    lia
  have hmod : (0xFFC00 + d) % pageFormat.entries = d := by
    rw [pageFormat_entries]
    lia
  unfold Slot at h
  unfold frame? Paging.Format.walk
  rw [hdiv, h, hmod]

theorem frame?_window (h : m.Tables) {d : Nat} (hd : d < 1024)
    : m.frame? (0xFFC00 + d) = pageFormat.target (m.word m.dirPfn d) :=
  Slot.frame?_window h.slot_target hd

theorem frame?_of_table? (hvpn : vpn < 2 ^ 20)
    : m.frame? vpn
        =
      match m.table? vpn with
      | none => none
      | some f => pageFormat.target (m.word f (vpn % 1024)) := by
  have hmod : vpn / 1024 % 1024 = vpn / 1024 := by lia
  unfold frame? table? Paging.Format.walk
  rw [hmod]
  rfl

theorem pdeAddr_page (vpn : Nat) : pdeAddr vpn / pageSize = 0xFFC00 + 1023 := by
  unfold pdeAddr pageSize
  lia

theorem pdeAddr_word (vpn : Nat) : pdeAddr vpn % pageSize / 4 = vpn / 1024 % 1024 := by
  unfold pdeAddr pageSize
  lia

theorem Slot.read_pdeAddr (h : m.Slot) (vpn : Nat)
    : m.read (pdeAddr vpn) = .ok (m.word m.dirPfn (vpn / 1024 % 1024)) := by
  unfold read
  rw [pdeAddr_page, h.frame?_window (by omega), show pageFormat.target _ = _ from h, pdeAddr_word]

theorem read_pdeAddr (h : m.Tables) (vpn : Nat)
    : m.read (pdeAddr vpn) = .ok (m.word m.dirPfn (vpn / 1024 % 1024)) :=
  Slot.read_pdeAddr h.slot_target vpn

theorem Slot.write_pdeAddr (h : m.Slot) (vpn : Nat) (raw : BitVec 32)
    : m.write (pdeAddr vpn) raw = .ok (m.put m.dirPfn (vpn / 1024 % 1024) raw) := by
  unfold write
  rw [pdeAddr_page, h.frame?_window (by omega), show pageFormat.target _ = _ from h, pdeAddr_word]
  rfl

theorem write_pdeAddr (h : m.Tables) (vpn : Nat) (raw : BitVec 32)
    : m.write (pdeAddr vpn) raw = .ok (m.put m.dirPfn (vpn / 1024 % 1024) raw) :=
  Slot.write_pdeAddr h.slot_target vpn raw

theorem frame?_ptAddr (h : m.Tables) {i : Nat} (hi : i < 1024)
    : m.frame? (ptAddr vpn i / pageSize) = m.table? vpn := by
  have hpage : ptAddr vpn i / pageSize = 0xFFC00 + vpn / 1024 % 1024 := by
    unfold ptAddr pageSize
    lia
  rw [hpage, frame?_window h (by omega)]
  rfl

theorem ptAddr_word {i : Nat} (hi : i < 1024) : ptAddr vpn i % pageSize / 4 = i := by
  unfold ptAddr pageSize
  lia

theorem read_ptAddr (h : m.Tables) (hf : m.table? vpn = some f) {i : Nat} (hi : i < 1024)
    : m.read (ptAddr vpn i) = .ok (m.word f i) := by
  unfold read
  rw [frame?_ptAddr h hi, hf, ptAddr_word hi]

theorem write_ptAddr (h : m.Tables) (hf : m.table? vpn = some f) {i : Nat} (hi : i < 1024)
    (raw : BitVec 32)
    : m.write (ptAddr vpn i) raw = .ok (m.put f i raw) := by
  unfold write
  rw [frame?_ptAddr h hi, hf, ptAddr_word hi]
  rfl

theorem mmVpnToPfn_eq (h : m.Tables) (vpn : Nat)
    : mmVpnToPfn m vpn
        =
      .ok (match m.frame? (vpn % 2 ^ 20) with
        | none => .error .pageNotPresent
        | some pfn => .ok pfn) := by
  have htable : m.table? (vpn % 2 ^ 20) = m.table? vpn := by
    unfold table?
    rw [show vpn % 2 ^ 20 / 1024 % 1024 = vpn / 1024 % 1024 by omega]
  have hmod : vpn % 2 ^ 20 % 1024 = vpn % 1024 := by omega
  rw [frame?_of_table? (by omega), htable, hmod]
  unfold mmVpnToPfn
  simp only [read_pdeAddr h, bind, Except.bind]
  by_cases hpde : entryPresent (m.word m.dirPfn (vpn / 1024 % 1024)) = true
  . have hf : m.table? vpn = some (entryBase (m.word m.dirPfn (vpn / 1024 % 1024))) := by
      simp [table?, pageFormat_target, hpde]
    simp only [hpde, pteAddr, read_ptAddr h hf (Nat.mod_lt vpn (by omega)), hf]
    by_cases hpte : entryPresent
        (m.word (entryBase (m.word m.dirPfn (vpn / 1024 % 1024))) (vpn % 1024)) = true
    . simp [pageFormat_target, hpte]
    . simp [pageFormat_target, hpte]
  . have hf : m.table? vpn = none := by
      simp [table?, pageFormat_target, hpde]
    simp [hpde, hf]

theorem Tables.put (h : m.Tables) (hvpn : vpn / 1024 % 1024 ≠ 1023) (hf : m.table? vpn = some f)
    (j : Nat) (raw : BitVec 32)
    : (m.put f j raw).Tables :=
  Paging.Format.Tables.setWord h (Nat.mod_lt _ (by decide)) hvpn hf

theorem table?_put (h : m.Tables) (hvpn : vpn / 1024 % 1024 ≠ 1023) (hf : m.table? vpn = some f)
    (j : Nat) (raw : BitVec 32) (x : Nat)
    : (m.put f j raw).table? x = m.table? x := by
  have hne := Paging.Format.Tables.ne_dir h (Nat.mod_lt _ (by decide)) hvpn hf
  unfold table? PageMemory.put
  dsimp only
  rw [Paging.setWord_frame (Ne.symm hne)]

theorem frame?_put (h : m.Tables) (hvpn : vpn < 2 ^ 20) (hne : vpn / 1024 ≠ 1023)
    (hf : m.table? vpn = some f) (raw : BitVec 32) {x : Nat} (hx : x < 2 ^ 20)
    : (m.put f (vpn % 1024) raw).frame? x
        =
      if x = vpn then pageFormat.target raw else m.frame? x := by
  have hmod : vpn / 1024 % 1024 = vpn / 1024 := by lia
  unfold table? at hf
  rw [hmod] at hf
  have hlt : x / pageFormat.entries < pageFormat.entries := by
    rw [pageFormat_entries]
    omega
  have := Paging.Format.Tables.walk_setWord h (by rw [pageFormat_entries]; omega) hne hf
    (vpn % 1024) raw hlt
  rw [pageFormat_entries] at this
  unfold frame? PageMemory.put
  rw [this]
  by_cases heq : x = vpn
  . rw [if_pos heq, if_pos (by lia)]
  . rw [if_neg heq, if_neg (by lia)]

theorem put_put (m : PageMemory) (f j : Nat) (v w : BitVec 32)
    : (m.put f j v).put f j w = m.put f j w := by
  unfold PageMemory.put
  rw [Paging.setWord_setWord]

/--
Reading and writing at an address is reading and writing word `j` of frame `f`, whatever it holds.
-/
structure Cell (m : PageMemory) (addr f j : Nat) : Prop where
  first : ∀ raw, m.write addr raw = .ok (m.put f j raw)
  read : ∀ raw, (m.put f j raw).read addr = .ok raw
  write : ∀ raw raw', (m.put f j raw).write addr raw' = .ok (m.put f j raw')

theorem Cell.of_table? (h : m.Tables) (hvpn : vpn / 1024 % 1024 ≠ 1023) (hf : m.table? vpn = some f)
    : m.Cell (pteAddr vpn) f (vpn % 1024) := by
  have hlt : vpn % 1024 < 1024 := Nat.mod_lt _ (by decide)
  have htables := fun raw => h.put hvpn hf (vpn % 1024) raw
  have htable := fun raw => (table?_put h hvpn hf (vpn % 1024) raw vpn).trans hf
  unfold pteAddr
  refine ⟨write_ptAddr h hf hlt, ?_, ?_⟩
  . intro raw
    rw [read_ptAddr (htables raw) (htable raw) hlt]
    rw [show (m.put f (vpn % 1024) raw).word f (vpn % 1024) = raw from Paging.setWord_same ..]
  . intro raw raw'
    rw [write_ptAddr (htables raw) (htable raw) hlt, put_put]

/--
The entries of the directory are the pages of the page tables.
-/
theorem Cell.of_slot (h : m.Slot) {d : Nat} (hd : d < 1023) : m.Cell (pteAddr (0xFFC00 + d)) m.dirPfn d := by
  have haddr : pteAddr (0xFFC00 + d) = pdeAddr (d * 1024) := by
    unfold pteAddr ptAddr pdeAddr
    lia
  have hword : d * 1024 / 1024 % 1024 = d := by lia
  have hslot : ∀ raw, (m.put m.dirPfn d raw).Slot := by
    intro raw
    unfold Slot PageMemory.put
    dsimp only
    rw [Paging.setWord_apply, if_neg (by lia)]
    exact h
  rw [haddr]
  refine ⟨?_, ?_, ?_⟩
  . intro raw
    rw [h.write_pdeAddr, hword]
  . intro raw
    rw [(hslot raw).read_pdeAddr, hword]
    rw [show (m.put m.dirPfn d raw).word (m.put m.dirPfn d raw).dirPfn d = raw from Paging.setWord_same ..]
  . intro raw raw'
    rw [(hslot raw).write_pdeAddr, hword]
    exact congrArg Except.ok (put_put m m.dirPfn d raw raw')

theorem Cell.setBits {addr j : Nat} (h : m.Cell addr f j) (raw bits : BitVec 32)
    : (m.put f j raw).setBits addr bits = .ok (m.put f j (raw ||| bits)) := by
  unfold PageMemory.setBits
  simp only [h.read, bind, Except.bind]
  exact h.write raw _

theorem entryBase_or (raw : BitVec 32) {bits : BitVec 32} (h : bits.toNat < 2 ^ 12)
    : entryBase (raw ||| bits) = entryBase raw := by
  unfold entryBase
  rw [BitVec.toNat_or]
  rw [← Nat.shiftRight_eq_div_pow, ← Nat.shiftRight_eq_div_pow]
  rw [Nat.shiftRight_or_distrib]
  rw [Nat.shiftRight_eq_div_pow bits.toNat, Nat.div_eq_of_lt h]
  simp

theorem entryBase_ofNat (pfn : Nat) : entryBase (BitVec.ofNat 32 (pfn * 2 ^ 12)) = pfn % 2 ^ 20 := by
  unfold entryBase
  rw [BitVec.toNat_ofNat]
  lia

theorem entryPresent_or_one (raw : BitVec 32) : entryPresent (raw ||| 1#32) = true := by
  simp [entryPresent]

theorem Cell.setBitsIf {addr j : Nat} (h : m.Cell addr f j) (raw bits : BitVec 32) (c : Bool)
    (hbits : bits.toNat < 2 ^ 12)
    : ∃ raw', (m.put f j raw).setBitsIf c addr bits = .ok (m.put f j raw')
        ∧ entryBase raw' = entryBase raw := by
  cases c with
  | false => exact ⟨raw, rfl, rfl⟩
  | true => exact ⟨raw ||| bits, h.setBits raw bits, entryBase_or raw hbits⟩

theorem Cell.mapEntry {j : Nat} (h : m.Cell (pteAddr vpn) f j) (pfn : Nat) (flags : MapFlags)
    : ∃ raw, Emos.mapEntry m pfn vpn flags = .ok (m.put f j raw)
        ∧ pageFormat.target raw = some (pfn % 2 ^ 20) := by
  obtain ⟨r1, h1, hb1⟩ := h.setBitsIf (BitVec.ofNat 32 (pfn * 2 ^ 12)) 0x002#32 (!flags.readonly) (by decide)
  obtain ⟨r2, h2, hb2⟩ := h.setBitsIf r1 0x004#32 flags.user (by decide)
  obtain ⟨r3, h3, hb3⟩ := h.setBitsIf r2 0x080#32 (flags.nocache || flags.wtcache) (by decide)
  obtain ⟨r4, h4, hb4⟩ := h.setBitsIf r3 0x010#32 flags.nocache (by decide)
  obtain ⟨r5, h5, hb5⟩ := h.setBitsIf r4 0x008#32 flags.wtcache (by decide)
  refine ⟨r5 ||| 1#32, ?_, ?_⟩
  . unfold Emos.mapEntry
    simp only [h.first, h1, h2, h3, h4, h5, bind, Except.bind]
    exact h.setBits r5 1#32
  . rw [pageFormat_target, entryPresent_or_one, if_pos rfl]
    rw [entryBase_or _ (by decide), hb5, hb4, hb3, hb2, hb1, entryBase_ofNat]

theorem mapEntry_spec (h : m.Tables) (hvpn : vpn / 1024 % 1024 ≠ 1023) (hf : m.table? vpn = some f)
    (pfn : Nat) (flags : MapFlags)
    : ∃ raw, mapEntry m pfn vpn flags = .ok (m.put f (vpn % 1024) raw)
        ∧ pageFormat.target raw = some (pfn % 2 ^ 20) :=
  (Cell.of_table? h hvpn hf).mapEntry pfn flags

theorem unmap_clears (h : unmap m vpn = .ok m') : m' = m ∨ ∃ f j, m' = m.put f j 0 := by
  rw [unmap, bind_eq_ok] at h
  obtain ⟨pde, _, h⟩ := h
  split at h
  . cases h
    exact .inl rfl
  . rw [bind_eq_ok] at h
    obtain ⟨pte, _, h⟩ := h
    split at h
    . cases h
      exact .inl rfl
    . unfold write at h
      split at h
      . contradiction
      . cases h
        exact .inr ⟨_, _, rfl⟩

theorem unmap_eq (h : m.Tables) (vpn : Nat)
    : (m.frame? (vpn % 2 ^ 20) = none ∧ unmap m vpn = .ok m)
        ∨
      ∃ f, m.frame? (vpn % 2 ^ 20) ≠ none ∧ m.table? (vpn % 2 ^ 20) = some f
        ∧ unmap m vpn = .ok (m.put f (vpn % 2 ^ 20 % 1024) 0) := by
  have htable : m.table? (vpn % 2 ^ 20) = m.table? vpn := by
    unfold table?
    rw [show vpn % 2 ^ 20 / 1024 % 1024 = vpn / 1024 % 1024 by omega]
  have hmod : vpn % 2 ^ 20 % 1024 = vpn % 1024 := by omega
  have hlt : vpn % 1024 < 1024 := Nat.mod_lt _ (by decide)
  rw [frame?_of_table? (by omega), htable, hmod]
  unfold unmap
  simp only [read_pdeAddr h, bind, Except.bind]
  by_cases hpde : entryPresent (m.word m.dirPfn (vpn / 1024 % 1024)) = true
  . have hf : m.table? vpn = some (entryBase (m.word m.dirPfn (vpn / 1024 % 1024))) := by
      simp [table?, pageFormat_target, hpde]
    simp only [hpde, pteAddr, read_ptAddr h hf hlt, write_ptAddr h hf hlt, hf]
    by_cases hpte : entryPresent
        (m.word (entryBase (m.word m.dirPfn (vpn / 1024 % 1024))) (vpn % 1024)) = true
    . right
      simp [pageFormat_target, hpte]
    . left
      simp [pageFormat_target, hpte]
  . left
    have hf : m.table? vpn = none := by
      simp [table?, pageFormat_target, hpde]
    simp [hpde, hf]

end PageMemory

end Emos
