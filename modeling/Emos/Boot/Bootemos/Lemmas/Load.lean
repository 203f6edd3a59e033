import Emos.Boot.Bootemos.Impl.Main
import Emos.Boot.Elf.Lemmas.Load
import Mathlib.Data.List.Infix
import Mathlib.Data.List.TakeWhile

/-!
This module contains for which tables of program headers the kernel gets the memory that it takes.
-/

open Lib Emos.Boot.Mm Emos.Boot.Elf

namespace Emos.Boot

namespace Elf

namespace Elf32Phdr

def start (h : Elf32Phdr) : Nat := h.vaddr.toNat

def stop (h : Elf32Phdr) : Nat := h.vaddr.toNat + h.memsz.toNat

/--
The byte at this address belongs to the segment.
-/
def Has (h : Elf32Phdr) (a : Nat) : Prop := h.start ≤ a ∧ a < h.stop

instance (h : Elf32Phdr) (a : Nat) : Decidable (h.Has a) := instDecidableAnd

end Elf32Phdr

namespace ElfFile

variable (elf : ElfFile)

def headers : List Elf32Phdr := (List.range elf.phnum.toNat).map elf.header

/--
The whole table is in the file.
-/
structure HasTable : Prop where
  identClass : elf.identClass = elfclass32
  phentsize : phdrSize ≤ elf.phentsize.toNat
  inFile : elf.phoff.toNat + elf.phnum.toNat * elf.phentsize.toNat ≤ elf.file.size

end ElfFile

end Elf

/--
The lowest address of the headers behind the last one at address 0, and 0 if that one is the last.
-/
def lowest (hs : List Elf32Phdr) : Nat :=
  ((hs.reverse.takeWhile fun h => h.vaddr ≠ 0).map Elf32Phdr.start).min?.getD 0

/--
The smallest range with all bytes of all segments.
-/
structure IsExtent (hs : List Elf32Phdr) (start size : Nat) : Prop where
  contains : ∀ h ∈ hs, ∀ a, h.Has a → start ≤ a ∧ a < start + size
  smallest : ∀ start' size', (∀ h ∈ hs, ∀ a, h.Has a → start' ≤ a ∧ a < start' + size')
    → ∀ a, start ≤ a → a < start + size → start' ≤ a ∧ a < start' + size'

namespace ProgramExtent

def Has (e : ProgramExtent) (a : Nat) : Prop :=
  e.loadVaddr.toNat ≤ a ∧ a < e.loadVaddr.toNat + e.programSize.toNat

instance (e : ProgramExtent) (a : Nat) : Decidable (e.Has a) := instDecidableAnd

/--
The range is the one that the kernel takes, its pages are allocated, and its frames are those that the
kernel is told about.
-/
structure Right (hs : List Elf32Phdr) (e : ProgramExtent) : Prop where
  extent : IsExtent hs e.loadVaddr.toNat e.programSize.toNat
  pages : ∀ a, e.Has a → ∃ i < e.pageCount, u32 (e.loadVaddr.toNat / pageSize + i) = a / pageSize
  frames : ∀ (b : BootemosInput) a pfn, e.Has a → (b.withExtent e).mmVpnToPfn (a >>> 12) = .ok pfn
    → ∃ i < (b.withExtent e).kernelFrameCount, ∃ paddr,
      (b.withExtent e).mmVaddrToPaddr (u32 (e.loadVaddr.toNat + i <<< 12)) = .ok paddr ∧ paddr >>> 12 = pfn

end ProgramExtent

def extentOf (hs : List Elf32Phdr) : ProgramExtent := hs.foldl ProgramExtent.add ⟨0, 0⟩

/--
No sum of addresses wraps around in the loop.
-/
structure NoWraparound (hs : List Elf32Phdr) : Prop where
  stop : ∀ h ∈ hs, h.stop < 2 ^ 32
  range : ∀ as h, as ++ [h] <+: hs → lowest (as ++ [h]) + (extentOf as).programSize.toNat < 2 ^ 32

variable {hs as : List Elf32Phdr} {h : Elf32Phdr}

theorem extentOf_append (hs : List Elf32Phdr) (h : Elf32Phdr)
    : extentOf (hs ++ [h]) = (extentOf hs).add h := by
  unfold extentOf
  rw [List.foldl_append]
  rfl

theorem lowest_append (hs : List Elf32Phdr) (h : Elf32Phdr)
    : lowest (hs ++ [h])
        =
      if h.vaddr = 0 then 0 else if lowest hs = 0 then h.start else min h.start (lowest hs) := by
  unfold lowest
  rw [List.reverse_append, List.reverse_singleton, List.singleton_append, List.takeWhile_cons]
  by_cases hzero : h.vaddr = 0
  . rw [if_pos hzero]
    simp [hzero]
  . have hpos : ∀ h' ∈ hs.reverse.takeWhile (fun h => h.vaddr ≠ 0), h'.start ≠ 0 := by
      intro h' hmem hstart
      have := List.mem_takeWhile_imp hmem
      simp only [decide_eq_true_eq] at this
      exact this (BitVec.eq_of_toNat_eq hstart)
    rw [if_neg hzero]
    simp only [ne_eq, hzero, not_false_eq_true, decide_true, if_true, List.map_cons, List.min?_cons]
    cases hmin : ((hs.reverse.takeWhile fun h => ¬ h.vaddr = 0).map Elf32Phdr.start).min? with
    | none => simp
    | some m =>
      obtain ⟨h', hmem, hm⟩ := List.mem_map.mp (List.min?_mem hmin)
      have hne := hpos h' hmem
      rw [hm] at hne
      simp [hne]

theorem lowest_lt (hs : List Elf32Phdr) : lowest hs < 2 ^ 32 := by
  induction hs using List.reverseRecOn with
  | nil => decide
  | append_singleton hs h ih =>
    have hlt : h.start < 2 ^ 32 := h.vaddr.isLt
    rw [lowest_append]
    split
    . decide
    . split
      . exact hlt
      . omega

theorem lowest_le (hs : List Elf32Phdr) (h : Elf32Phdr) : lowest (hs ++ [h]) ≤ h.start := by
  rw [lowest_append]
  split
  . omega
  . split
    . exact Nat.le_refl _
    . omega

theorem extentOf_loadVaddr (hs : List Elf32Phdr) : (extentOf hs).loadVaddr.toNat = lowest hs := by
  induction hs using List.reverseRecOn with
  | nil => rfl
  | append_singleton hs h ih =>
    have hadd : ∀ e : ProgramExtent, (e.add h).loadVaddr
        = if e.loadVaddr = 0 ∨ e.loadVaddr > h.vaddr then h.vaddr else e.loadVaddr := by
      intro e
      unfold ProgramExtent.add
      dsimp only
      split_ifs <;> rfl
    have hzero : ∀ v : BitVec 32, v = 0 ↔ v.toNat = 0 := by
      intro v
      exact ⟨fun hv => by rw [hv]; rfl, fun hv => BitVec.eq_of_toNat_eq hv⟩
    rw [extentOf_append, hadd, lowest_append, ← ih]
    unfold Elf32Phdr.start
    simp only [hzero, gt_iff_lt, BitVec.lt_def]
    split_ifs <;> lia

/--
The size only grows, to where the header ends.
-/
theorem extentOf_programSize (hstop : h.stop < 2 ^ 32)
    (hrange : lowest (hs ++ [h]) + (extentOf hs).programSize.toNat < 2 ^ 32)
    : (extentOf (hs ++ [h])).programSize.toNat
        =
      max (extentOf hs).programSize.toNat (h.stop - lowest (hs ++ [h])) := by
  have hload := extentOf_loadVaddr (hs ++ [h])
  have hle := lowest_le hs h
  have hlt : h.start ≤ h.stop := Nat.le_add_right _ _
  rw [extentOf_append] at hload ⊢
  unfold ProgramExtent.add at hload ⊢
  dsimp only at hload ⊢
  generalize (if (extentOf hs).loadVaddr = 0 ∨ (extentOf hs).loadVaddr > h.vaddr then h.vaddr
    else (extentOf hs).loadVaddr) = load at hload ⊢
  have hstop' : (h.vaddr + h.memsz).toNat = h.stop := by
    rw [BitVec.toNat_add]
    exact Nat.mod_eq_of_lt hstop
  have hload' : load.toNat = lowest (hs ++ [h]) := by
    rw [← hload]
    split <;> rfl
  have hsum : (load + (extentOf hs).programSize).toNat
      = lowest (hs ++ [h]) + (extentOf hs).programSize.toNat := by
    rw [BitVec.toNat_add, hload']
    exact Nat.mod_eq_of_lt hrange
  simp only [BitVec.lt_def, hsum, hstop']
  split
  . rw [BitVec.toNat_sub_of_le (by rw [BitVec.le_def]; omega), hstop', hload']
    lia
  . dsimp only
    lia

theorem programExtent_go {elf : ElfFile} (h : elf.HasTable) (n i : Nat) (hn : i + n = elf.phnum.toNat)
    (buf : Bytes) (e : ProgramExtent)
    : programExtent.go elf n i buf e
        =
      .ok (((List.range' i n).map elf.header).foldl ProgramExtent.add e) := by
  induction n generalizing i buf e with
  | zero => rfl
  | succ n ih =>
    have hin : elf.phoff.toNat + i * elf.phentsize.toNat + phdrSize ≤ elf.file.size := by
      have hmul := Nat.mul_le_mul_right elf.phentsize.toNat (show i + 1 ≤ elf.phnum.toNat by omega)
      have := h.inFile
      have := h.phentsize
      rw [Nat.succ_mul] at hmul
      omega
    obtain ⟨buf', hbuf, hheader⟩ := ElfFile.elfGetProgramHeader_eq h.identClass (by omega) h.phentsize hin buf
    unfold programExtent.go
    rw [hbuf]
    dsimp only
    rw [ih (i + 1) (by omega), hheader, List.range'_succ, List.map_cons, List.foldl_cons]

theorem programExtent_eq {elf : ElfFile} (h : elf.HasTable) (buf : Bytes)
    : programExtent elf buf = .ok (extentOf elf.headers) := by
  unfold programExtent extentOf ElfFile.headers
  rw [programExtent_go h _ 0 (Nat.zero_add _), List.range_eq_range']

theorem NoWraparound.dropLast (hwrap : NoWraparound (hs ++ [h])) : NoWraparound hs where
  stop h' hmem := hwrap.stop h' (List.mem_append_left _ hmem)
  range as h' hsplit := hwrap.range as h' (hsplit.trans (List.prefix_append hs [h]))

theorem NoWraparound.programSize (hwrap : NoWraparound (hs ++ [h]))
    : (extentOf (hs ++ [h])).programSize.toNat
        =
      max (extentOf hs).programSize.toNat (h.stop - lowest (hs ++ [h])) :=
  extentOf_programSize (hwrap.stop h (by simp)) (hwrap.range hs h List.prefix_rfl)

/--
No header ends further behind the lowest address so far.
-/
theorem NoWraparound.le_programSize (hwrap : NoWraparound hs) (hsplit : as ++ [h] <+: hs)
    : h.stop ≤ lowest (as ++ [h]) + (extentOf hs).programSize.toNat := by
  induction hs using List.reverseRecOn with
  | nil => simp at hsplit
  | append_singleton hs last ih =>
    rw [hwrap.programSize]
    obtain heq | hsplit := List.prefix_concat_iff.mp hsplit
    . obtain ⟨rfl, hlast⟩ := List.append_inj' heq rfl
      cases hlast
      lia
    . have := ih hwrap.dropLast hsplit
      omega

/--
Some header does end that far behind it.
-/
theorem NoWraparound.exists_programSize (hwrap : NoWraparound hs)
    : (extentOf hs).programSize.toNat = 0
        ∨ ∃ as h, as ++ [h] <+: hs
          ∧ h.stop = lowest (as ++ [h]) + (extentOf hs).programSize.toNat := by
  induction hs using List.reverseRecOn with
  | nil => exact .inl rfl
  | append_singleton hs last ih =>
    have hle := lowest_le hs last
    have hstart : last.start ≤ last.stop := Nat.le_add_right _ _
    rw [hwrap.programSize]
    by_cases hlast : (extentOf hs).programSize.toNat ≤ last.stop - lowest (hs ++ [last])
    . right
      exact ⟨hs, last, List.prefix_rfl, by lia⟩
    . rw [Nat.max_eq_left (by omega)]
      obtain hzero | ⟨as, h, hsplit, hstop⟩ := ih hwrap.dropLast
      . exact .inl hzero
      . exact .inr ⟨as, h, hsplit.trans (List.prefix_append hs [last]), hstop⟩

/--
The kernel takes the bytes from `lo` up to `hi`.
-/
structure Spans (hs : List Elf32Phdr) (lo hi : Nat) : Prop where
  start : ∀ h ∈ hs, h.start < h.stop → lo ≤ h.start
  stop : ∀ h ∈ hs, h.start < h.stop → h.stop ≤ hi
  first : ∃ h ∈ hs, h.start < h.stop ∧ h.start = lo
  last : ∃ h ∈ hs, h.start < h.stop ∧ h.stop = hi

/--
No header starts lower than the first byte, unless one at address 0 follows, and none ends further
behind the lowest address of the headers up to it than the last byte is behind the first one. Some header
does end that far behind.
-/
structure InOrder (hs : List Elf32Phdr) (lo hi : Nat) : Prop where
  lowest : lowest hs = lo
  within : ∀ as h, as ++ [h] <+: hs → h.stop + lo ≤ Boot.lowest (as ++ [h]) + hi
  reaches : ∃ as h, as ++ [h] <+: hs ∧ h.stop + lo = Boot.lowest (as ++ [h]) + hi

/--
The pages that the size is rounded up to are enough, from the page of the first byte on.
-/
def PagesSuffice (lo hi : Nat) : Prop := (hi - 1) / pageSize < lo / pageSize + alignDiv (hi - lo) pageSize

instance (lo hi : Nat) : Decidable (PagesSuffice lo hi) := Nat.decLt _ _

/--
All headers are empty, and each has the lowest address so far, or they are in order.
-/
def PlacedWhen (hs : List Elf32Phdr) : Prop :=
  (∀ as h, as ++ [h] <+: hs → h.stop = lowest (as ++ [h]))
    ∨ ∃ lo hi, Spans hs lo hi ∧ InOrder hs lo hi ∧ PagesSuffice lo hi

theorem prefix_of_mem (hmem : h ∈ hs) : ∃ as, as ++ [h] <+: hs := by
  obtain ⟨as, bs, rfl⟩ := List.append_of_mem hmem
  exact ⟨as, bs, by simp⟩

theorem IsExtent.spans {start size : Nat} (h : IsExtent hs start size) (hsize : 0 < size)
    : Spans hs start (start + size) where
  start := by
    intro h' hmem hlt
    exact (h.contains h' hmem h'.start ⟨Nat.le_refl _, hlt⟩).1
  stop := by
    intro h' hmem hlt
    have := (h.contains h' hmem (h'.stop - 1) ⟨by omega, by omega⟩).2
    omega
  first := by
    by_contra hfirst
    have hsmallest := h.smallest (start + 1) (size - 1) (by
      intro h' hmem a ha
      have hcontains := h.contains h' hmem
      have hstart := (hcontains h'.start ⟨Nat.le_refl _, Nat.lt_of_le_of_lt ha.1 ha.2⟩).1
      have hend := (hcontains a ha).2
      have hne : h'.start ≠ start := by
        intro heq
        exact hfirst ⟨h', hmem, Nat.lt_of_le_of_lt ha.1 ha.2, heq⟩
      have := ha.1
      lia)
    have := hsmallest start (Nat.le_refl _) (by omega)
    omega
  last := by
    by_contra hlast
    have hsmallest := h.smallest start (size - 1) (by
      intro h' hmem a ha
      have hcontains := h.contains h' hmem
      have hlt := Nat.lt_of_le_of_lt ha.1 ha.2
      have hstop := (hcontains (h'.stop - 1) ⟨by omega, by omega⟩).2
      have hstart := (hcontains a ha).1
      have hne : h'.stop ≠ start + size := by
        intro heq
        exact hlast ⟨h', hmem, hlt, heq⟩
      have := ha.2
      lia)
    have := hsmallest (start + size - 1) (by omega) (by omega)
    lia

theorem Spans.isExtent {lo hi : Nat} (h : Spans hs lo hi) : IsExtent hs lo (hi - lo) where
  contains := by
    intro h' hmem a ha
    have hlt := Nat.lt_of_le_of_lt ha.1 ha.2
    have := h.start h' hmem hlt
    have := h.stop h' hmem hlt
    have := ha.1
    have := ha.2
    lia
  smallest := by
    intro start' size' hcontains a hlo hhi
    obtain ⟨h1, hmem1, hlt1, hstart⟩ := h.first
    obtain ⟨h2, hmem2, hlt2, hstop⟩ := h.last
    have := hcontains h1 hmem1 h1.start ⟨Nat.le_refl _, hlt1⟩
    have := hcontains h2 hmem2 (h2.stop - 1) ⟨by lia, by lia⟩
    lia

theorem Spans.lt {lo hi : Nat} (h : Spans hs lo hi) : lo < hi := by
  obtain ⟨h1, hmem, hlt, hstart⟩ := h.first
  have := h.stop h1 hmem hlt
  omega

theorem NoWraparound.inOrder (hwrap : NoWraparound hs) (hsize : (extentOf hs).programSize.toNat ≠ 0)
    : InOrder hs (lowest hs) (lowest hs + (extentOf hs).programSize.toNat) where
  lowest := rfl
  within := by
    intro as h hsplit
    have := hwrap.le_programSize hsplit
    omega
  reaches := by
    obtain hzero | ⟨as, h, hsplit, hstop⟩ := hwrap.exists_programSize
    . exact absurd hzero hsize
    . exact ⟨as, h, hsplit, by omega⟩

theorem NoWraparound.programSize_of_inOrder (hwrap : NoWraparound hs) {lo hi : Nat} (hlt : lo < hi)
    (h : InOrder hs lo hi)
    : (extentOf hs).programSize.toNat = hi - lo := by
  obtain ⟨as, h1, hsplit, hstop⟩ := h.reaches
  have hle := hwrap.le_programSize hsplit
  obtain hzero | ⟨as', h2, hsplit', hstop'⟩ := hwrap.exists_programSize
  . omega
  . have := h.within as' h2 hsplit'
    lia

/--
The page of each byte is one of those that are counted from the first byte on.
-/
theorem PagesSuffice.page {lo hi a : Nat} (h : PagesSuffice lo hi) (hlo : lo ≤ a) (hhi : a < hi)
    : ∃ i < alignDiv (hi - lo) pageSize, a / pageSize = lo / pageSize + i := by
  unfold PagesSuffice at h
  have hfirst : lo / pageSize ≤ a / pageSize := Nat.div_le_div_right hlo
  have hlast : a / pageSize ≤ (hi - 1) / pageSize := Nat.div_le_div_right (by lia)
  exact ⟨a / pageSize - lo / pageSize, by lia, by lia⟩

theorem mmVaddrToPaddr_of_page (b : BootemosInput) {vaddr pfn : Nat}
    (h : b.mmVpnToPfn (vaddr >>> 12) = .ok pfn)
    : ∃ paddr, b.mmVaddrToPaddr vaddr = .ok paddr ∧ paddr >>> 12 = pfn := by
  have hpfn : pfn < 2 ^ 20 := by
    unfold BootemosInput.mmVpnToPfn at h
    dsimp only at h
    split_ifs at h
    cases h
    exact BitVec.isLt _
  have hoffset : vaddr &&& (pageSize - 1) = vaddr % 2 ^ 12 := Nat.and_two_pow_sub_one_eq_mod vaddr 12
  unfold BootemosInput.mmVaddrToPaddr
  rw [h]
  refine ⟨_, rfl, ?_⟩
  rw [hoffset, Nat.shiftRight_eq_div_pow]
  unfold pageSize u32
  lia

theorem Spans.hi_lt {lo hi : Nat} (h : Spans hs lo hi) (hwrap : NoWraparound hs) : hi < 2 ^ 32 := by
  obtain ⟨h1, hmem, -, rfl⟩ := h.last
  exact hwrap.stop h1 hmem

/--
The loop finds the range, and its pages are allocated and reported, if the headers are in order.
-/
theorem ProgramExtent.right_of_inOrder (hwrap : NoWraparound hs) {lo hi : Nat} (hspans : Spans hs lo hi)
    (horder : InOrder hs lo hi) (hpages : PagesSuffice lo hi)
    : (extentOf hs).Right hs := by
  have hload : (extentOf hs).loadVaddr.toNat = lo := by rw [extentOf_loadVaddr, horder.lowest]
  have hsize := hwrap.programSize_of_inOrder hspans.lt horder
  have hlt := hspans.lt
  have hhi := hspans.hi_lt hwrap
  have hpage : ∀ a, (extentOf hs).Has a → a < hi
      ∧ ∃ i < alignDiv (hi - lo) pageSize, a / pageSize = lo / pageSize + i := by
    intro a ha
    unfold Has at ha
    rw [hload, hsize] at ha
    exact ⟨by omega, hpages.page ha.1 (by omega)⟩
  refine ⟨?_, ?_, ?_⟩
  . rw [hload, hsize]
    exact hspans.isExtent
  . intro a ha
    obtain ⟨hahi, i, hi', heq⟩ := hpage a ha
    unfold pageCount
    rw [hload, hsize]
    refine ⟨i, hi', ?_⟩
    rw [← heq]
    apply u32_of_lt
    unfold pageSize
    lia
  . intro b a pfn ha hpfn
    obtain ⟨hahi, i, hi', heq⟩ := hpage a ha
    refine ⟨i, ?_, mmVaddrToPaddr_of_page _ ?_⟩
    . show i < alignDiv (extentOf hs).programSize.toNat pageSize
      rw [hsize]
      exact hi'
    . have hsame : u32 ((extentOf hs).loadVaddr.toNat + i <<< 12) >>> 12 = a >>> 12 := by
        rw [hload, Nat.shiftLeft_eq, Nat.shiftRight_eq_div_pow, Nat.shiftRight_eq_div_pow]
        unfold pageSize at heq
        unfold u32
        lia
      rw [hsame]
      exact hpfn

theorem ProgramExtent.right_of_empty (hwrap : NoWraparound hs)
    (hempty : ∀ as h, as ++ [h] <+: hs → h.stop = lowest (as ++ [h]))
    : (extentOf hs).Right hs := by
  have hsize : (extentOf hs).programSize.toNat = 0 := by
    obtain hzero | ⟨as, h, hsplit, hstop⟩ := hwrap.exists_programSize
    . exact hzero
    . have := hempty as h hsplit
      omega
  have hnone : ∀ a, ¬ (extentOf hs).Has a := by
    intro a ha
    unfold Has at ha
    omega
  refine ⟨⟨?_, ?_⟩, fun a ha => absurd ha (hnone a), fun b a pfn ha => absurd ha (hnone a)⟩
  . intro h hmem a ha
    obtain ⟨as, hsplit⟩ := prefix_of_mem hmem
    have := hempty as h hsplit
    have := lowest_le as h
    have := ha.1
    have := ha.2
    omega
  . intro start' size' _ a hlo hhi
    exact absurd ⟨hlo, hhi⟩ (hnone a)

theorem ProgramExtent.Right.placedWhen (hwrap : NoWraparound hs) (h : (extentOf hs).Right hs)
    : PlacedWhen hs := by
  have hextent := h.extent
  rw [extentOf_loadVaddr] at hextent
  obtain hzero | hpos := Nat.eq_zero_or_pos (extentOf hs).programSize.toNat
  . left
    intro as h' hsplit
    have := hwrap.le_programSize hsplit
    have := lowest_le as h'
    have hstart : h'.start ≤ h'.stop := Nat.le_add_right _ _
    omega
  . right
    refine ⟨_, _, hextent.spans hpos, hwrap.inOrder (by omega), ?_⟩
    obtain ⟨i, hi, hpage⟩ := h.pages ((extentOf hs).loadVaddr.toNat + (extentOf hs).programSize.toNat - 1)
      (by unfold Has; lia)
    have hle := Nat.mod_le ((extentOf hs).loadVaddr.toNat / pageSize + i) (2 ^ 32)
    unfold u32 at hpage
    unfold pageCount at hi
    rw [extentOf_loadVaddr] at hpage hle
    unfold PagesSuffice
    rw [Nat.add_sub_cancel_left]
    omega

/--
For every table of headers whose addresses do not wrap around, the kernel gets the memory that it takes
if and only if the headers are in order.
-/
theorem program_extent_iff (elf : ElfFile) (buf : Bytes) (htable : elf.HasTable)
    (hwrap : NoWraparound elf.headers)
    : (∃ e, programExtent elf buf = .ok e ∧ e.Right elf.headers) ↔ PlacedWhen elf.headers := by
  rw [programExtent_eq htable]
  constructor
  . intro ⟨e, heq, hright⟩
    cases heq
    exact hright.placedWhen hwrap
  . intro hplaced
    refine ⟨_, rfl, ?_⟩
    obtain hempty | ⟨lo, hi, hspans, horder, hpages⟩ := hplaced
    . exact ProgramExtent.right_of_empty hwrap hempty
    . exact ProgramExtent.right_of_inOrder hwrap hspans horder hpages

theorem NoWraparound.append (hwrap : NoWraparound hs) (hstop : h.stop < 2 ^ 32)
    (hrange : lowest (hs ++ [h]) + (extentOf hs).programSize.toNat < 2 ^ 32)
    : NoWraparound (hs ++ [h]) where
  stop := by
    intro h' hmem
    rw [List.mem_append, List.mem_singleton] at hmem
    obtain hmem | rfl := hmem
    . exact hwrap.stop h' hmem
    . exact hstop
  range := by
    intro as h' hsplit
    obtain heq | hsplit := List.prefix_concat_iff.mp hsplit
    . obtain ⟨rfl, hlast⟩ := List.append_inj' heq rfl
      cases hlast
      exact hrange
    . exact hwrap.range as h' hsplit

theorem NoWraparound.nil : NoWraparound [] where
  stop := by simp
  range := by simp

theorem prefix_pair {h1 h2 : Elf32Phdr} (hsplit : as ++ [h] <+: [h1, h2])
    : (as = [] ∧ h = h1) ∨ (as = [h1] ∧ h = h2) := by
  obtain heq | hsplit := List.prefix_concat_iff.mp (show as ++ [h] <+: [h1] ++ [h2] from hsplit)
  . obtain ⟨rfl, hlast⟩ := List.append_inj' heq rfl
    cases hlast
    exact .inr ⟨rfl, rfl⟩
  . obtain heq | hsplit := List.prefix_concat_iff.mp (show as ++ [h] <+: [] ++ [h1] from hsplit)
    . obtain ⟨rfl, hlast⟩ := List.append_inj' heq rfl
      cases hlast
      exact .inl ⟨rfl, rfl⟩
    . simp at hsplit

/--
A file with nothing but two program headers.
-/
def twoHeaders (h1 h2 : Elf32Phdr) : ElfFile where
  file := ⟨((Bytes.write (fun _ => 0) 8 4 h1.vaddr.toNat).write 20 4 h1.memsz.toNat).write 40 4 h2.vaddr.toNat
    |>.write 52 4 h2.memsz.toNat, 64, by decide⟩
  identClass := elfclass32
  phoff := 0
  phentsize := 32
  phnum := 2

theorem twoHeaders_hasTable (h1 h2 : Elf32Phdr) : (twoHeaders h1 h2).HasTable where
  identClass := rfl
  phentsize := show phdrSize ≤ (32#16).toNat by decide
  inFile := show (0#32).toNat + (2#16).toNat * (32#16).toNat ≤ 64 by decide

/--
Two pages that follow each other, the lower one first.
-/
theorem program_extent_iff_twoHeaders
    : ∃ e, programExtent (twoHeaders ⟨0, 0x1000, 0, 0x1000⟩ ⟨0, 0x2000, 0, 0x1000⟩) (fun _ => 0) = .ok e
        ∧ e.Right [⟨0, 0x1000, 0, 0x1000⟩, ⟨0, 0x2000, 0, 0x1000⟩] := by
  have hheaders : (twoHeaders ⟨0, 0x1000, 0, 0x1000⟩ ⟨0, 0x2000, 0, 0x1000⟩).headers
      = [⟨0, 0x1000, 0, 0x1000⟩] ++ [⟨0, 0x2000, 0, 0x1000⟩] := by decide
  have hwrap : NoWraparound ([] ++ [⟨0, 0x1000, 0, 0x1000⟩] ++ [⟨0, 0x2000, 0, 0x1000⟩]) := by
    apply NoWraparound.append _ (by decide) (by decide)
    exact NoWraparound.nil.append (by decide) (by decide)
  have h := program_extent_iff _ (fun _ => 0) (twoHeaders_hasTable ⟨0, 0x1000, 0, 0x1000⟩ ⟨0, 0x2000, 0, 0x1000⟩)
    (by rw [hheaders]; exact hwrap)
  rw [hheaders] at h
  apply h.mpr
  right
  refine ⟨0x1000, 0x3000, ⟨by decide, by decide, by decide, by decide⟩, ⟨by decide, ?_, ?_⟩, by decide⟩
  . intro as h hsplit
    obtain ⟨rfl, rfl⟩ | ⟨rfl, rfl⟩ := prefix_pair hsplit
    . decide
    . decide
  . exact ⟨[⟨0, 0x1000, 0, 0x1000⟩], ⟨0, 0x2000, 0, 0x1000⟩, List.prefix_rfl, by decide⟩

/--
The same with the higher one first, and a single page that does not start where a page does.
-/
theorem program_extent_wrong
    : (programExtent (twoHeaders ⟨0, 0x2000, 0, 0x1000⟩ ⟨0, 0x1000, 0, 0x1000⟩) (fun _ => 0)
            = .ok ⟨0x1000, 0x1000⟩
          ∧ ¬ ProgramExtent.Right [⟨0, 0x2000, 0, 0x1000⟩, ⟨0, 0x1000, 0, 0x1000⟩] ⟨0x1000, 0x1000⟩)
        ∧ (programExtent (twoHeaders ⟨0, 0x1800, 0, 0x800⟩ ⟨0, 0x2000, 0, 0x800⟩) (fun _ => 0)
            = .ok ⟨0x1800, 0x1000⟩
          ∧ ¬ ProgramExtent.Right [⟨0, 0x1800, 0, 0x800⟩, ⟨0, 0x2000, 0, 0x800⟩] ⟨0x1800, 0x1000⟩) := by
  refine ⟨⟨by decide, ?_⟩, ⟨by decide, ?_⟩⟩
  . intro h
    have := h.extent.contains ⟨0, 0x2000, 0, 0x1000⟩ (by decide) 0x2000 (by decide)
    exact absurd this (by decide)
  . intro h
    obtain ⟨i, hi, hpage⟩ := h.pages 0x2000 (by decide)
    have hcount : ProgramExtent.pageCount ⟨0x1800, 0x1000⟩ = 1 := by decide
    obtain rfl : i = 0 := by omega
    exact absurd hpage (by decide)

end Emos.Boot
