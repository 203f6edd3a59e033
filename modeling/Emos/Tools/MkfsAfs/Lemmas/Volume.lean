import Emos.Lib.Loop
import Emos.Tools.MkfsAfs.Lemmas.Bitmap

/-!
This module contains what a new volume looks like: where its blocks are, whether the pointers and the
bitmap of group 0 agree with that, and which bits of the bitmaps are set.
-/

open Lib

namespace Emos.Tools.MkfsAfs

namespace FormatInput

variable (c : FormatInput)

/--
Where the blocks of a volume are, without any reduction modulo 2 ^ 64.
-/
def blockPosition (index : Nat) : Nat := bytesPerSector * c.reservedSectors.toNat + c.bytesPerBlock * index

def Accepts : Prop := c.Fits ∧ c.bootCodeFits = true

/--
Block `index` is written, with content of this kind.
-/
def HasBlock (ws : List Write) (kind : BlockKind) (index : Nat) : Prop :=
  ∃ w ∈ ws, w.kind = kind ∧ w.position = c.blockPosition index

/--
The blocks of a volume, other than the boot code and the first sector.
-/
def blocks (ws : List Write) : List Write :=
  ws.filter (fun w => w.kind ≠ .bootCode ∧ w.kind ≠ .firstSector)

/--
The volume agrees with itself: what the pointers lead to, where the blocks are, their checksums, and
the bitmap of group 0, in which the bits of used blocks are clear.
-/
structure SelfConsistent (ws : List Write) : Prop where
  rbbPointer : ∀ w ∈ ws, w.kind = .rdb → c.HasBlock ws .rbb (w.bytes.read 48 8)
  group0GbbPointer : ∀ w ∈ ws, w.kind = .rdb → c.HasBlock ws .gbb (w.bytes.read 56 8)
  rootMdbPointer : ∀ w ∈ ws, w.kind = .rdb → c.HasBlock ws .rootMdb (w.bytes.read 24 8)
  dhbDdbPointer : ∀ w ∈ ws, w.kind = .rootMdb → c.HasBlock ws .rootDhb (w.bytes.read 32 8)
  distinct : ((blocks ws).map (·.position)).Nodup
  inside : ∀ w ∈ blocks ws, ∃ i < c.totalBlockCount, w.position = c.blockPosition i
  checksum : ∀ w ∈ blocks ws,
    w.bytes.read (c.bytesPerBlock - 4) 4 = (crc32 w.bytes (c.bytesPerBlock - 4)).toNat
  bitmap : ∃ w ∈ ws, w.kind = .gbb ∧ ∀ k < c.blocksPerBlockGroup,
    (bit w.bytes k = false ↔ ∃ b ∈ blocks ws, b.position = c.blockPosition k)

/--
The bitmaps are as they are meant to be, and nothing else is stored by the loops that fill them.
-/
structure BitmapsCorrect (ws : List Write) : Prop where
  root : ∀ k < c.rbbCount * c.blocksPerBlockGroup, ∃ w ∈ ws, w.kind = .rbb
    ∧ w.position = c.blockPosition (c.rdbCount.toNat + k / c.blocksPerBlockGroup)
    ∧ (bit w.bytes (k % c.blocksPerBlockGroup) = true ↔ 1 ≤ k ∧ k < c.totalBlockGroupCount)
  group : ∃ w ∈ ws, w.kind = .gbb
    ∧ ∀ k < c.blocksPerBlockGroup, (bit w.bytes k = true ↔ c.firstFree ≤ k ∧ k < c.blocksPerBlockGroup)
  rootInside : ∀ s ∈ c.rbbStores, s.1 < c.bytesPerBlock - 4
  groupInside : ∀ s ∈ c.gbbStores, s.1 < c.bytesPerBlock - 4

variable {c}

theorem Fits.sectorsPerBlock (h : c.Fits) : 0 < c.sectorsPerBlock.toNat := by
  apply Nat.pos_of_ne_zero
  intro hzero
  apply h.2.2.1
  simp [bytesPerBlock, hzero]

theorem Fits.blocksPerBlockGroup (h : c.Fits)
    : c.blocksPerBlockGroup = 4096 * c.sectorsPerBlock.toNat - 32 := by
  have hpos := h.sectorsPerBlock
  have hlt := c.sectorsPerBlock.toNat_lt
  unfold FormatInput.blocksPerBlockGroup bytesPerBlock bytesPerSector u32
  omega

theorem Fits.totalBlockGroupCount_lt (h : c.Fits) : c.totalBlockGroupCount < 2 ^ 53 := by
  have hgroup := h.blocksPerBlockGroup
  have hpos := h.sectorsPerBlock
  have hcount : c.totalBlockCount < 2 ^ 64 := by
    apply Nat.lt_of_le_of_lt (Nat.div_le_self _ _)
    unfold u64
    omega
  have hdiv : c.totalBlockGroupCount ≤ c.totalBlockCount / 4064 :=
    Nat.div_le_div_left (by omega) (by omega)
  omega

theorem Fits.rbbCount (h : c.Fits)
    : c.rbbCount = (c.totalBlockGroupCount + c.blocksPerBlockGroup - 1) / c.blocksPerBlockGroup := by
  have hgroup := h.blocksPerBlockGroup
  have hlt := c.sectorsPerBlock.toNat_lt
  have hcount := h.totalBlockGroupCount_lt
  unfold FormatInput.rbbCount u64
  rw [Nat.mod_eq_of_lt (by omega)]

theorem Fits.rbbCount_eq_one_iff (h : c.Fits)
    : c.rbbCount = 1 ↔ c.totalBlockGroupCount ≤ c.blocksPerBlockGroup := by
  have hgroup := h.blocksPerBlockGroup
  have hpos := h.sectorsPerBlock
  have hcount := h.2.2.2.2.1
  rw [h.rbbCount, Nat.div_eq_iff (by omega)]
  omega

theorem Fits.bytesPerBlock_mul_rbbCount_lt (h : c.Fits) : c.bytesPerBlock * c.rbbCount < 2 ^ 54 := by
  have hgroup := h.blocksPerBlockGroup
  have hpos := h.sectorsPerBlock
  have hlt := c.sectorsPerBlock.toNat_lt
  have hcount := h.totalBlockGroupCount_lt
  have hle : c.bytesPerBlock ≤ c.blocksPerBlockGroup := by
    unfold bytesPerBlock bytesPerSector
    omega
  have hmul : c.blocksPerBlockGroup * c.rbbCount ≤ c.totalBlockGroupCount + c.blocksPerBlockGroup - 1 := by
    rw [h.rbbCount]
    exact Nat.mul_div_le _ _
  calc c.bytesPerBlock * c.rbbCount
      ≤ c.blocksPerBlockGroup * c.rbbCount := Nat.mul_le_mul_right _ hle
    _ ≤ c.totalBlockGroupCount + c.blocksPerBlockGroup - 1 := hmul
    _ < 2 ^ 54 := by omega

theorem Fits.rbbCount_lt (h : c.Fits) : c.rbbCount < 2 ^ 54 := by
  have hpos := h.sectorsPerBlock
  have hmul := h.bytesPerBlock_mul_rbbCount_lt
  have hone : 1 ≤ c.bytesPerBlock := by
    unfold bytesPerBlock bytesPerSector
    omega
  have hle := Nat.mul_le_mul_right c.rbbCount hone
  omega

theorem Fits.firstFree (h : c.Fits) : c.firstFree = c.rdbCount.toNat + 2 + c.rbbCount := by
  have hrdb := c.rdbCount.toNat_lt
  have hrbb := h.rbbCount_lt
  unfold FormatInput.firstFree u64
  omega

theorem position32_eq {index : Nat} (h : index < 256) : c.position32 index = c.blockPosition index := by
  have hspb := c.sectorsPerBlock.toNat_lt
  have hreserved := c.reservedSectors.toNat_lt
  have hmul : c.bytesPerBlock * index ≤ 130560 * 256 :=
    Nat.mul_le_mul (by unfold bytesPerBlock bytesPerSector; omega) (by omega)
  unfold position32 blockPosition bytesPerSector u32
  lia

theorem Fits.position64 (h : c.Fits) {i : Nat} (hi : i < 258)
    : c.position64 (i + c.rbbCount) = c.blockPosition (i + c.rbbCount) := by
  have hspb := c.sectorsPerBlock.toNat_lt
  have hreserved := c.reservedSectors.toNat_lt
  have hrbb := h.bytesPerBlock_mul_rbbCount_lt
  have hmul : c.bytesPerBlock * i ≤ 130560 * 258 :=
    Nat.mul_le_mul (by unfold bytesPerBlock bytesPerSector; omega) (by omega)
  unfold FormatInput.position64 blockPosition bytesPerSector u64
  rw [Nat.mul_add]
  omega

theorem Fits.blockPosition_inj (h : c.Fits) {i j : Nat} (heq : c.blockPosition i = c.blockPosition j)
    : i = j := by
  have hpos := h.sectorsPerBlock
  have hblock : 0 < c.bytesPerBlock := by
    unfold bytesPerBlock bytesPerSector
    omega
  apply Nat.eq_of_mul_eq_mul_left hblock
  unfold blockPosition at heq
  omega

theorem bit_addChecksum (buf : Bytes) {k : Nat} (hk : k / 8 < c.bytesPerBlock - 4)
    : bit (c.addChecksum buf) k = bit buf k := by
  unfold bit addChecksum
  rw [Bytes.write_outside (by omega)]

theorem bit_rbb {rbb : Bytes} (h : c.rbb = .ok rbb) {k : Nat} (hk : k / 8 < c.bytesPerBlock - 4)
    : bit rbb k = true ↔ Covers 1 c.totalBlockGroupCount k := by
  unfold FormatInput.rbb at h
  rw [bind_eq_ok] at h
  obtain ⟨buf, hbuf, heq⟩ := h
  cases heq
  rw [bit_addChecksum buf hk]
  exact bit_of_storeBytes (by omega) hbuf k

theorem bit_gbb {gbb : Bytes} (h : c.gbb = .ok gbb) {k : Nat} (hk : k / 8 < c.bytesPerBlock - 4)
    : bit gbb k = true ↔ Covers c.firstFree c.blocksPerBlockGroup k := by
  unfold FormatInput.gbb at h
  rw [bind_eq_ok] at h
  obtain ⟨buf, hbuf, heq⟩ := h
  cases heq
  rw [bit_addChecksum buf hk]
  exact bit_of_storeBytes (by omega) hbuf k

theorem Fits.div_lt (h : c.Fits) {k : Nat} (hk : k < c.blocksPerBlockGroup)
    : k / 8 < c.bytesPerBlock - 4 := by
  have hgroup := h.blocksPerBlockGroup
  unfold bytesPerBlock bytesPerSector
  omega

variable {rbb gbb : Bytes} {w : Write}

theorem mem_writeList_cases (hw : w ∈ c.writeList rbb gbb)
    : (w.kind = .bootCode ∨ w.kind = .firstSector)
        ∨ (∃ i < c.rdbCount.toNat, w = c.blockWrite .rdb (c.position32 i) c.rdb)
        ∨ w = c.blockWrite .rbb (c.position32 c.rdbCount.toNat) rbb
        ∨ w = c.blockWrite .gbb (c.position64 (c.rdbCount.toNat + c.rbbCount)) gbb
        ∨ w = c.blockWrite .rootMdb (c.position64 (c.rdbCount.toNat + 1 + c.rbbCount)) c.rootMdb
        ∨ w = c.blockWrite .rootDhb (c.position64 (c.rdbCount.toNat + 2 + c.rbbCount)) c.rootDhb := by
  unfold writeList at hw
  simp only [List.mem_append, List.mem_map, List.mem_range, List.mem_cons, List.not_mem_nil,
    or_false] at hw
  obtain ((hboot | hfirst) | ⟨i, hi, heq⟩) | hrest := hw
  . left
    left
    split at hboot
    . rw [List.mem_singleton] at hboot
      rw [hboot]
    . contradiction
  . left
    right
    rw [hfirst]
  . right
    left
    exact ⟨i, hi, heq.symm⟩
  . right
    right
    exact hrest

theorem eq_of_mem_rbb (hw : w ∈ c.writeList rbb gbb) (hkind : w.kind = .rbb)
    : w = c.blockWrite .rbb (c.position32 c.rdbCount.toNat) rbb := by
  obtain (h | h) | ⟨_, _, h⟩ | h | h | h | h := mem_writeList_cases hw <;> simp_all [blockWrite]

theorem eq_of_mem_gbb (hw : w ∈ c.writeList rbb gbb) (hkind : w.kind = .gbb)
    : w = c.blockWrite .gbb (c.position64 (c.rdbCount.toNat + c.rbbCount)) gbb := by
  obtain (h | h) | ⟨_, _, h⟩ | h | h | h | h := mem_writeList_cases hw <;> simp_all [blockWrite]

theorem Fits.position_of_mem_blocks (h : c.Fits) (hw : w ∈ blocks (c.writeList rbb gbb))
    : ∃ i, w.position = c.blockPosition i
        ∧ (i ≤ c.rdbCount.toNat ∨ c.rdbCount.toNat + c.rbbCount ≤ i) := by
  have hrdb := c.rdbCount.toNat_lt
  unfold blocks at hw
  rw [List.mem_filter, decide_eq_true_eq] at hw
  obtain ⟨hmem, hboot, hfirst⟩ := hw
  obtain (hkind | hkind) | ⟨i, hi, rfl⟩ | rfl | rfl | rfl | rfl := mem_writeList_cases hmem
  . exact absurd hkind hboot
  . exact absurd hkind hfirst
  . exact ⟨i, position32_eq (by omega), by omega⟩
  . exact ⟨c.rdbCount.toNat, position32_eq hrdb, by omega⟩
  . exact ⟨c.rdbCount.toNat + c.rbbCount, h.position64 (by omega), by omega⟩
  . exact ⟨c.rdbCount.toNat + 1 + c.rbbCount, h.position64 (by omega), by omega⟩
  . exact ⟨c.rdbCount.toNat + 2 + c.rbbCount, h.position64 (by omega), by omega⟩

theorem makeFs_cases {ws : List Write} (h : makeFs c = .ok (some ws))
    : c.Accepts ∧ ∃ rbb gbb, c.rbb = .ok rbb ∧ c.gbb = .ok gbb
        ∧ ws = if c.dryRun then [] else c.writeList rbb gbb := by
  unfold makeFs at h
  split at h
  next => cases h
  next =>
    split at h
    next => cases h
    next =>
      split at h
      next => cases h
      next haccepts =>
        rw [not_or, not_not, Bool.not_eq_false] at haccepts
        rw [bind_eq_ok] at h
        obtain ⟨rbb, hrbb, h⟩ := h
        rw [bind_eq_ok] at h
        obtain ⟨gbb, hgbb, h⟩ := h
        cases h
        exact ⟨haccepts, rbb, gbb, hrbb, hgbb, rfl⟩

theorem Accepts.makeFs_eq (h : c.Accepts) (hrbb : c.rbb = .ok rbb) (hgbb : c.gbb = .ok gbb)
    (hdry : c.dryRun = false)
    : makeFs c = .ok (some (c.writeList rbb gbb)) := by
  have hlen : ¬ c.fileLen % bytesPerSector ≠ 0 := not_not.mpr h.1.1
  have hspb : ¬ c.sectorsPerBlock = 0 := by
    intro hzero
    have := h.1.sectorsPerBlock
    rw [hzero] at this
    exact absurd this (Nat.lt_irrefl 0)
  have haccepts : ¬ (¬ c.Fits ∨ c.bootCodeFits = false) := by
    rw [not_or, not_not, Bool.not_eq_false]
    exact h
  unfold makeFs
  rw [if_neg hlen, if_neg hspb, if_neg haccepts]
  rw [hrbb, hgbb, hdry]
  rfl

theorem rbbStores_lt_iff (n : Nat)
    : (∀ s ∈ c.rbbStores, s.1 < n)
        ↔
      (1 < c.totalBlockGroupCount → (c.totalBlockGroupCount - 1) / 8 < n) := by
  have hmem := @mem_bitmapStores_iff c.totalBlockGroupCount c.totalBlockGroupCount 1 (by omega)
  constructor
  . intro h hlt
    obtain ⟨b, hb⟩ := (hmem ((c.totalBlockGroupCount - 1) / 8)).mpr ⟨hlt, by omega, Nat.le_refl _⟩
    exact h (_, b) hb
  . intro h s hs
    obtain ⟨hlt, -, hle⟩ := (hmem s.1).mp ⟨s.2, hs⟩
    exact Nat.lt_of_le_of_lt hle (h hlt)

theorem exists_rbb (hinside : ∀ s ∈ c.rbbStores, s.1 < c.bytesPerBlock - 4) : ∃ rbb, c.rbb = .ok rbb := by
  obtain ⟨buf, hbuf⟩ := (storeBytes_eq_ok_iff c.bytesPerBlock c.rbbStores (fun _ => 0)).mpr (by
    intro s hs
    have := hinside s hs
    omega)
  refine ⟨c.addChecksum buf, ?_⟩
  unfold FormatInput.rbb
  rw [hbuf]
  rfl

theorem Fits.gbbStores_inside (h : c.Fits) : ∀ s ∈ c.gbbStores, s.1 < c.bytesPerBlock - 4 := by
  intro s hs
  obtain ⟨hlt, -, hle⟩ := (mem_bitmapStores_iff (by omega) s.1).mp ⟨s.2, hs⟩
  have := h.div_lt (k := c.blocksPerBlockGroup - 1) (by omega)
  omega

theorem Fits.exists_gbb (h : c.Fits) : ∃ gbb, c.gbb = .ok gbb := by
  have hinside := h.gbbStores_inside
  obtain ⟨buf, hbuf⟩ := (storeBytes_eq_ok_iff c.bytesPerBlock c.gbbStores (fun _ => 0)).mpr (by
    intro s hs
    have := hinside s hs
    omega)
  refine ⟨c.addChecksum buf, ?_⟩
  unfold FormatInput.gbb
  rw [hbuf]
  rfl

theorem Fits.rootDhb_mem_blocks (h : c.Fits)
    : ∃ w ∈ blocks (c.writeList rbb gbb), w.position = c.blockPosition c.firstFree := by
  have hrdb := c.rdbCount.toNat_lt
  refine ⟨c.blockWrite .rootDhb (c.position64 (c.rdbCount.toNat + 2 + c.rbbCount)) c.rootDhb, ?_, ?_⟩
  . unfold blocks
    rw [List.mem_filter, decide_eq_true_eq]
    refine ⟨?_, by simp [blockWrite], by simp [blockWrite]⟩
    simp [writeList]
  . rw [h.firstFree]
    exact h.position64 (by omega)

theorem not_selfConsistent_of_makeFs {ws : List Write} (h : makeFs c = .ok (some ws))
    : ¬ c.SelfConsistent ws := by
  intro hconsistent
  obtain ⟨haccepts, rbb, gbb, -, hgbb, hws⟩ := makeFs_cases h
  obtain ⟨w, hw, hkind, hbitmap⟩ := hconsistent.bitmap
  have hfits := haccepts.1
  have hfree := hfits.firstFree
  have hgroup := hfits.blocksPerBlockGroup
  have hspb := hfits.sectorsPerBlock
  have hrdb := c.rdbCount.toNat_lt
  split at hws
  next => simp [hws] at hw
  next =>
    subst hws
    rw [eq_of_mem_gbb hw hkind] at hbitmap
    by_cases hone : c.rbbCount = 1
    . -- the block of the root directory is written, but its bit is set
      have hlt : c.firstFree < c.blocksPerBlockGroup := by omega
      have hclear : bit gbb c.firstFree = false := (hbitmap c.firstFree hlt).mpr hfits.rootDhb_mem_blocks
      have hset : bit gbb c.firstFree = true := by
        rw [bit_gbb hgbb (hfits.div_lt hlt)]
        unfold Covers
        omega
      simp [hset] at hclear
    . -- there are more blocks for the root bitmap, and the second of them is not written
      have hmany : 2 ≤ c.rbbCount := by
        have := hfits.2.2.2.2.2
        omega
      have hlt : c.rdbCount.toNat + 1 < c.blocksPerBlockGroup := by omega
      have hclear : bit gbb (c.rdbCount.toNat + 1) = false := by
        rw [← Bool.not_eq_true, bit_gbb hgbb (hfits.div_lt hlt)]
        unfold Covers
        omega
      obtain ⟨b, hb, hposition⟩ := (hbitmap (c.rdbCount.toNat + 1) hlt).mp hclear
      obtain ⟨i, hi, hrange⟩ := hfits.position_of_mem_blocks hb
      have := hfits.blockPosition_inj (hposition.symm.trans hi)
      omega

end FormatInput

/--
No volume agrees with itself: the block of the root directory is marked as free, or there are several
blocks for the root bitmap and only the first of them is written.
-/
theorem volume_never_consistent (c : FormatInput)
    : ¬ ∃ ws, makeFs c = .ok (some ws) ∧ c.SelfConsistent ws := by
  intro ⟨ws, h, hconsistent⟩
  exact FormatInput.not_selfConsistent_of_makeFs h hconsistent

theorem defaultFileLen_lt (n : Fin (2 ^ 48)) : 8192 + 4096 * n.val < 2 ^ 63 := by omega

theorem notMem_nil_byte : (0 : BitVec 8) ∉ ([] : List (BitVec 8)) := List.not_mem_nil

/--
The default settings, for a file with the reserved sectors and `n` blocks behind them.
-/
def defaultInput (n : Fin (2 ^ 48)) : FormatInput where
  image := fun _ => 0
  fileLen := 8192 + 4096 * n
  fileLen_lt := defaultFileLen_lt n
  bootCodeFile := none
  osName := ⟨[], notMem_nil_byte⟩
  label := none
  offset := 0
  rdbCount := 1
  sectorsPerBlock := 8
  reservedSectors := 16
  uuid := fun _ => 0
  times := (0, 0, 0)
  dryRun := false

theorem oneGroup_accepts : (defaultInput 32768).Accepts := by
  unfold FormatInput.Accepts FormatInput.Fits
  decide

theorem exists_makeFs_oneGroup : ∃ ws, makeFs (defaultInput 32768) = .ok (some ws) := by
  have hgroups : (defaultInput 32768).totalBlockGroupCount = 1 := by decide
  have hdry : (defaultInput 32768).dryRun = false := rfl
  obtain ⟨rbb, hrbb⟩ := FormatInput.exists_rbb (c := defaultInput 32768) (by
    rw [FormatInput.rbbStores_lt_iff]
    omega)
  obtain ⟨gbb, hgbb⟩ := oneGroup_accepts.1.exists_gbb
  exact ⟨_, oneGroup_accepts.makeFs_eq hrbb hgbb hdry⟩

/--
A volume of 128 MiB with the default settings does not agree with itself.
-/
theorem default_volume_inconsistent
    : (defaultInput 32768).Accepts
        ∧ ∃ ws, makeFs (defaultInput 32768) = .ok (some ws) ∧ ¬ (defaultInput 32768).SelfConsistent ws := by
  obtain ⟨ws, hws⟩ := exists_makeFs_oneGroup
  exact ⟨oneGroup_accepts, ws, hws, FormatInput.not_selfConsistent_of_makeFs hws⟩

namespace FormatInput

variable {c : FormatInput}

theorem Fits.bitmapsCorrect (h : c.Fits) {rbb gbb : Bytes} (hrbb : c.rbb = .ok rbb)
    (hgbb : c.gbb = .ok gbb) (hgroups : c.totalBlockGroupCount = 1 ∨ 9 ≤ c.totalBlockGroupCount)
    (hle : c.totalBlockGroupCount ≤ c.blocksPerBlockGroup)
    : c.BitmapsCorrect (c.writeList rbb gbb) where
  root k hk := by
    have hrdb := c.rdbCount.toNat_lt
    rw [h.rbbCount_eq_one_iff.mpr hle, Nat.one_mul] at hk
    refine ⟨c.blockWrite .rbb (c.position32 c.rdbCount.toNat) rbb, by simp [writeList], rfl, ?_, ?_⟩
    . rw [Nat.div_eq_of_lt hk, Nat.add_zero]
      exact position32_eq hrdb
    . rw [Nat.mod_eq_of_lt hk]
      refine (bit_rbb hrbb (h.div_lt hk)).trans ?_
      unfold Covers
      omega
  group := by
    refine ⟨c.blockWrite .gbb (c.position64 (c.rdbCount.toNat + c.rbbCount)) gbb, by simp [writeList],
      rfl, ?_⟩
    intro k hk
    refine (bit_gbb hgbb (h.div_lt hk)).trans ?_
    have hfree := h.firstFree
    have hgroup := h.blocksPerBlockGroup
    have hspb := h.sectorsPerBlock
    have hrdb := c.rdbCount.toNat_lt
    have hone := h.rbbCount_eq_one_iff.mpr hle
    unfold Covers
    omega
  rootInside := by
    rw [rbbStores_lt_iff]
    intro hlt
    exact h.div_lt (by omega)
  groupInside := h.gbbStores_inside

theorem Fits.groups_of_bitmapsCorrect (h : c.Fits) {rbb gbb : Bytes} (hrbb : c.rbb = .ok rbb)
    (hcorrect : c.BitmapsCorrect (c.writeList rbb gbb))
    : (c.totalBlockGroupCount = 1 ∨ 9 ≤ c.totalBlockGroupCount)
        ∧ c.totalBlockGroupCount ≤ c.blocksPerBlockGroup := by
  have hgroup := h.blocksPerBlockGroup
  have hspb := h.sectorsPerBlock
  have hpos := h.2.2.2.2.1
  have hle : c.totalBlockGroupCount ≤ c.blocksPerBlockGroup := by
    have hinside := hcorrect.rootInside
    rw [rbbStores_lt_iff] at hinside
    apply Nat.le_of_not_lt
    intro hlt
    have := hinside (by lia)
    unfold bytesPerBlock bytesPerSector at this
    omega
  refine ⟨?_, hle⟩
  -- the last of two to eight groups gets no bit
  by_cases hfew : c.totalBlockGroupCount = 1 ∨ 9 ≤ c.totalBlockGroupCount
  . exact hfew
  . have hlast : c.totalBlockGroupCount - 1 < c.blocksPerBlockGroup := by omega
    obtain ⟨w, hw, hkind, -, hbit⟩ := hcorrect.root (c.totalBlockGroupCount - 1) (by
      rw [h.rbbCount_eq_one_iff.mpr hle, Nat.one_mul]
      exact hlast)
    rw [eq_of_mem_rbb hw hkind, Nat.mod_eq_of_lt hlast] at hbit
    have hcovers := (bit_rbb hrbb (h.div_lt hlast)).mp (hbit.mpr (by omega))
    unfold Covers at hcovers
    omega

end FormatInput

/--
The bitmaps are correct if and only if the number of block groups is one or from nine on, and all of
them are in one block of the root bitmap.
-/
theorem bitmaps_correct_iff (c : FormatInput) (haccepts : c.Accepts) (hdry : c.dryRun = false)
    : (∃ ws, makeFs c = .ok (some ws) ∧ c.BitmapsCorrect ws)
        ↔
      (c.totalBlockGroupCount = 1 ∨ 9 ≤ c.totalBlockGroupCount)
        ∧ c.totalBlockGroupCount ≤ c.blocksPerBlockGroup := by
  constructor
  . intro ⟨ws, h, hcorrect⟩
    obtain ⟨-, rbb, gbb, hrbb, -, hws⟩ := FormatInput.makeFs_cases h
    rw [hdry, if_neg Bool.false_ne_true] at hws
    subst hws
    exact haccepts.1.groups_of_bitmapsCorrect hrbb hcorrect
  . intro ⟨hgroups, hle⟩
    obtain ⟨gbb, hgbb⟩ := haccepts.1.exists_gbb
    obtain ⟨rbb, hrbb⟩ := FormatInput.exists_rbb ((FormatInput.rbbStores_lt_iff _).mpr (by
      intro hlt
      exact haccepts.1.div_lt (by omega)))
    exact ⟨c.writeList rbb gbb, haccepts.makeFs_eq hrbb hgbb hdry,
      haccepts.1.bitmapsCorrect hrbb hgbb hgroups hle⟩

theorem bitmaps_correct_iff_oneGroup
    : (defaultInput 32768).Accepts
        ∧ ∃ ws, makeFs (defaultInput 32768) = .ok (some ws) ∧ (defaultInput 32768).BitmapsCorrect ws := by
  refine ⟨oneGroup_accepts, (bitmaps_correct_iff (defaultInput 32768) oneGroup_accepts rfl).mpr ?_⟩
  decide

/--
A volume with two block groups: bit 1 of the root bitmap is not set.
-/
theorem second_group_has_no_bit
    : (defaultInput 65536).Accepts
        ∧ (defaultInput 65536).totalBlockGroupCount = 2
        ∧ (∃ rbb, (defaultInput 65536).rbb = .ok rbb ∧ bit rbb 1 = false)
        ∧ ¬ ∃ ws, makeFs (defaultInput 65536) = .ok (some ws) ∧ (defaultInput 65536).BitmapsCorrect ws := by
  have haccepts : (defaultInput 65536).Accepts := by
    unfold FormatInput.Accepts FormatInput.Fits
    decide
  have hgroups : (defaultInput 65536).totalBlockGroupCount = 2 := by decide
  refine ⟨haccepts, hgroups, ?_, ?_⟩
  . obtain ⟨rbb, hrbb⟩ := FormatInput.exists_rbb (c := defaultInput 65536) (by
      rw [FormatInput.rbbStores_lt_iff, hgroups]
      decide)
    refine ⟨rbb, hrbb, ?_⟩
    rw [← Bool.not_eq_true, FormatInput.bit_rbb hrbb (by decide), hgroups]
    decide
  . intro ⟨ws, h, hcorrect⟩
    obtain ⟨-, rbb, gbb, hrbb, -, hws⟩ := FormatInput.makeFs_cases h
    rw [show (defaultInput 65536).dryRun = false from rfl, if_neg Bool.false_ne_true] at hws
    subst hws
    have := haccepts.1.groups_of_bitmapsCorrect hrbb hcorrect
    omega

end Emos.Tools.MkfsAfs
