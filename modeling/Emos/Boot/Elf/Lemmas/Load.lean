import Emos.Boot.Elf.Impl.Elf
import Emos.Boot.Mm.Lemmas.Mm

/-!
This module contains when a program header of an ELF file is loaded as it should be.
-/

open Lib Emos.Boot.Mm

namespace Emos.Boot.Elf

/--
Where the window with the page tables starts.
-/
def windowBase : Nat := 0xFFC00000

namespace ElfFile

variable (elf : ElfFile) (index : Nat)

def header : Elf32Phdr := .get elf.file.data (elf.phoff.toNat + index * elf.phentsize.toNat)

/--
The file has a program header with this index, and the bytes that it is about.
-/
structure HasProgram : Prop where
  identClass : elf.identClass = elfclass32
  index_lt : index < elf.phnum.toNat
  phentsize : phdrSize ≤ elf.phentsize.toNat
  inFile : elf.phoff.toNat + index * elf.phentsize.toNat + phdrSize ≤ elf.file.size
  filesz_le : (elf.header index).filesz.toNat ≤ (elf.header index).memsz.toNat
  segment : (elf.header index).offset.toNat + (elf.header index).filesz.toNat ≤ elf.file.size

/--
The pages of the bytes from `vaddr` on.
-/
def pageCount (vaddr : Nat) : Nat := (vaddr % pageSize + (elf.header index).memsz.toNat + 4095) / pageSize

/--
The bytes at `vaddr` are those of the segment, and no other byte of memory that was mapped before has
changed.
-/
structure Loaded (vaddr : Nat) (m m' : Memory) : Prop where
  file : ∀ i < (elf.header index).filesz.toNat,
    m'.load (vaddr + i) = .ok (elf.file.data ((elf.header index).offset.toNat + i))
  zero : ∀ i, (elf.header index).filesz.toNat ≤ i → i < (elf.header index).memsz.toNat
    → m'.load (vaddr + i) = .ok 0
  others : ∀ x f o, m.frame? x = some f
    → (∀ i < (elf.header index).memsz.toNat, m'.place? (vaddr + i) ≠ some (f, o))
    → m'.byte f o = m.byte f o

/--
The header is loaded as it should be, whatever memory and the stack hold. Pages at `vaddr` that are
mapped already lead to distinct frames that are in use.
-/
def LoadsAt (vaddr : Nat) : Prop :=
  ∀ buf m m', m.Apart (vaddr / pageSize) (elf.pageCount index vaddr)
    → elfLoadProgram elf index vaddr buf m = .ok ⟨.success, m'⟩ → elf.Loaded index vaddr m m'

variable {elf index} {vaddr : Nat} {m m' : Memory}

theorem get_congr {d d' : Bytes} {p p' : Nat} (h : ∀ i < 32, d' (p' + i) = d (p + i))
    : Elf32Phdr.get d' p' = Elf32Phdr.get d p := by
  have hread : ∀ k, k + 4 ≤ 32 → d'.read (p' + k) 4 = d.read (p + k) 4 := by
    intro k hk
    apply Bytes.read_congr
    intro i hi
    rw [Nat.add_assoc, Nat.add_assoc]
    exact h (k + i) (by omega)
  unfold Elf32Phdr.get
  rw [hread 4 (by omega), hread 8 (by omega), hread 16 (by omega), hread 20 (by omega)]

theorem elfGetProgramHeader_eq (hclass : elf.identClass = elfclass32) (hindex : index < elf.phnum.toNat)
    (hentry : phdrSize ≤ elf.phentsize.toNat)
    (hin : elf.phoff.toNat + index * elf.phentsize.toNat + phdrSize ≤ elf.file.size) (buf : Bytes)
    : ∃ buf', elfGetProgramHeader elf index buf = .ok buf' ∧ Elf32Phdr.get buf' 0 = elf.header index := by
  have hsize := elf.file.size_lt
  unfold phdrSize at hin hentry
  unfold Elf.elfGetProgramHeader
  rw [if_neg (by simp [hclass]), if_neg (by omega)]
  refine ⟨_, rfl, ?_⟩
  apply get_congr
  intro i hi
  rw [u32_of_lt (by omega), if_pos, Nat.zero_add]
  unfold File.available phdrSize
  lia

theorem HasProgram.elfGetProgramHeader (h : elf.HasProgram index) (buf : Bytes)
    : ∃ buf', elfGetProgramHeader elf index buf = .ok buf' ∧ Elf32Phdr.get buf' 0 = elf.header index :=
  elfGetProgramHeader_eq h.identClass h.index_lt h.phentsize h.inFile buf

theorem pageCount_eq (hrange : vaddr + (elf.header index).memsz.toNat ≤ windowBase)
    : alignDiv (u32 (vaddr % pageSize + (elf.header index).memsz.toNat)) pageSize
        =
      elf.pageCount index vaddr := by
  have hmod := Nat.mod_le vaddr pageSize
  unfold windowBase at hrange
  have hlt : u32 (vaddr % pageSize + (elf.header index).memsz.toNat)
      = vaddr % pageSize + (elf.header index).memsz.toNat := u32_of_lt (by omega)
  unfold alignDiv pageCount
  rw [hlt]
  unfold pageSize at hmod ⊢
  rw [u32_of_lt (by lia)]
  rfl

/--
The three steps of loading, once the header has been read.
-/
theorem HasProgram.elfLoadProgram_iff (h : elf.HasProgram index)
    (hrange : vaddr + (elf.header index).memsz.toNat ≤ windowBase) (buf : Bytes)
    : elfLoadProgram elf index vaddr buf m = .ok ⟨.success, m'⟩
        ↔
      ∃ m1 m2, mmAllocatePagesTo m (vaddr / pageSize) (elf.pageCount index vaddr) = .ok ⟨.success, m1⟩
        ∧ m1.storeAll vaddr (elf.header index).filesz.toNat
            (fun i => elf.file.data ((elf.header index).offset.toNat + i)) = .ok m2
        ∧ m2.storeAll (u32 ((elf.header index).vaddr.toNat + (elf.header index).filesz.toNat))
            ((elf.header index).memsz.toNat - (elf.header index).filesz.toNat) (fun _ => 0) = .ok m' := by
  obtain ⟨buf', hbuf', hheader⟩ := h.elfGetProgramHeader buf
  have havailable : elf.file.available (elf.header index).offset.toNat (elf.header index).filesz.toNat
      = (elf.header index).filesz.toNat := by
    have := h.segment
    unfold File.available
    lia
  have hclear : ∀ m2 : Memory,
      (if (elf.header index).memsz > (elf.header index).filesz then
        memset m2 (u32 ((elf.header index).vaddr.toNat + (elf.header index).filesz.toNat)) 0
            ((elf.header index).memsz.toNat - (elf.header index).filesz.toNat)
          >>= fun m => .ok (Status.success, m)
      else
        .ok (Status.success, m2))
        =
      (m2.storeAll (u32 ((elf.header index).vaddr.toNat + (elf.header index).filesz.toNat))
            ((elf.header index).memsz.toNat - (elf.header index).filesz.toNat) (fun _ => 0)
          >>= fun m => .ok (Status.success, m) : Run (Status × Memory)) := by
    intro m2
    split
    next => rfl
    next hle =>
      rw [gt_iff_lt, BitVec.lt_def, Nat.not_lt] at hle
      rw [Nat.sub_eq_zero_of_le hle]
      rfl
  unfold elfLoadProgram
  rw [if_neg (by simp [h.identClass]), hbuf']
  simp only [hheader, pageCount_eq hrange, fread, havailable, hclear]
  rw [bind_eq_ok]
  constructor
  . intro ⟨⟨status, m1⟩, halloc, hload⟩
    dsimp only at hload
    split at hload
    next hstatus =>
      cases hload
      exact absurd rfl hstatus
    next hstatus =>
      rw [not_not] at hstatus
      subst hstatus
      rw [bind_eq_ok] at hload
      obtain ⟨m2, hread, hload⟩ := hload
      rw [bind_eq_ok] at hload
      obtain ⟨m3, hset, hload⟩ := hload
      cases hload
      exact ⟨m1, m2, halloc, hread, hset⟩
  . intro ⟨m1, m2, halloc, hread, hset⟩
    refine ⟨(.success, m1), halloc, ?_⟩
    dsimp only
    rw [if_neg (by simp), hread]
    simp only [bind, Except.bind, hset]

theorem place_inj {x : Nat} (h : m.Apart (vaddr / pageSize) x) {n : Nat}
    (hn : x = (vaddr % pageSize + n + 4095) / pageSize) {i j : Nat} (hi : i < n) (hj : j < n)
    {q : Nat × Nat} (hiq : m.place? (vaddr + i) = some q) (hjq : m.place? (vaddr + j) = some q)
    : i = j := by
  unfold Memory.place? pageSize at *
  rw [Option.map_eq_some_iff] at hiq hjq
  obtain ⟨f, hf, rfl⟩ := hiq
  obtain ⟨f', hf', heq⟩ := hjq
  rw [Prod.mk.injEq] at heq
  obtain ⟨rfl, hmod⟩ := heq
  have := h.injective _ _ f' (by lia) (by lia) (by lia) (by lia) hf hf'
  lia

theorem HasProgram.loaded (h : elf.HasProgram index)
    (hrange : vaddr + (elf.header index).memsz.toNat ≤ windowBase)
    (hwhere : (elf.header index).memsz = (elf.header index).filesz
      ∨ vaddr = (elf.header index).vaddr.toNat)
    (hapart : m.Apart (vaddr / pageSize) (elf.pageCount index vaddr)) {buf : Bytes}
    (hload : elfLoadProgram elf index vaddr buf m = .ok ⟨.success, m'⟩)
    : elf.Loaded index vaddr m m' := by
  obtain ⟨m1, m2, halloc, hread, hset⟩ := (h.elfLoadProgram_iff hrange buf).mp hload
  unfold windowBase at hrange
  have hle := h.filesz_le
  have hpages : vaddr / pageSize + elf.pageCount index vaddr ≤ 2 ^ 20 := by
    unfold pageCount pageSize
    lia
  obtain ⟨hallocates, hmapped⟩ := Memory.mmAllocatePagesTo_allocates hpages hapart halloc rfl
  have hread := Memory.storeAll_stored (by omega) hread
  generalize hstart : u32 ((elf.header index).vaddr.toNat + (elf.header index).filesz.toNat) = start at hset
  -- the bytes that are cleared, if any, are those behind the bytes of the file
  have hbehind : ∀ j < (elf.header index).memsz.toNat - (elf.header index).filesz.toNat,
      start + j = vaddr + ((elf.header index).filesz.toNat + j) := by
    intro j hj
    cases hwhere with
    | inl heq =>
      rw [heq] at hj
      lia
    | inr heq =>
      rw [← hstart, ← heq, u32_of_lt (by omega)]
      omega
  have hend : start + ((elf.header index).memsz.toNat - (elf.header index).filesz.toNat) ≤ 2 ^ 32 := by
    have hlt := u32_lt ((elf.header index).vaddr.toNat + (elf.header index).filesz.toNat)
    rw [hstart] at hlt
    by_cases hzero : (elf.header index).memsz.toNat - (elf.header index).filesz.toNat = 0
    . omega
    . have := hbehind 0 (by omega)
      lia
  have hset := Memory.storeAll_stored hend hset
  have hplace2 := Memory.place?_of_frame? hread.frame
  have hplace := (Memory.place?_of_frame? hset.frame).trans hplace2
  have hinj : ∀ i j q, i < (elf.header index).memsz.toNat → j < (elf.header index).memsz.toNat
      → m1.place? (vaddr + i) = some q → m1.place? (vaddr + j) = some q → i = j := by
    intro i j q hi hj hiq hjq
    exact place_inj hallocates.apart rfl hi hj hiq hjq
  have hat : ∀ i < (elf.header index).memsz.toNat, ∃ f o, m1.place? (vaddr + i) = some (f, o) := by
    intro i hi
    obtain ⟨f, hf⟩ := hmapped ((vaddr + i) / pageSize) (Nat.div_le_div_right (by omega)) (by
      unfold pageCount pageSize
      lia)
    refine ⟨f, (vaddr + i) % pageSize, ?_⟩
    unfold Memory.place?
    rw [hf]
    rfl
  refine ⟨?_, ?_, ?_⟩
  . intro i hi
    obtain ⟨f, o, hq⟩ := hat i (by omega)
    have hkept : m'.byte f o = m2.byte f o := by
      apply hset.outside
      intro j hj
      rw [hplace2, hbehind j hj]
      intro hjq
      have := hinj i _ _ (by omega) (by omega) hq hjq
      omega
    have hstored : m2.byte f o = elf.file.data ((elf.header index).offset.toNat + i) := by
      apply hread.inside i hi f o hq
      intro j h1 h2 hjq
      have := hinj i j _ (by omega) (by omega) hq hjq
      omega
    unfold Memory.load
    rw [hplace, hq]
    dsimp only
    rw [hkept, hstored]
  . intro i h1 h2
    obtain ⟨f, o, hq⟩ := hat i h2
    have hstart' := hbehind (i - (elf.header index).filesz.toNat) (by lia)
    have hcleared : m'.byte f o = 0 := by
      apply hset.inside (i - (elf.header index).filesz.toNat) (by lia) f o
      . rw [hplace2, hstart', Nat.add_sub_cancel' h1]
        exact hq
      . intro j h3 h4
        rw [hplace2, hbehind j h4]
        intro hjq
        have := hinj i _ _ h2 (by lia) hq hjq
        lia
    unfold Memory.load
    rw [hplace, hq]
    dsimp only
    rw [hcleared]
  . intro x f o _ hnone
    rw [hplace] at hnone
    rw [hset.outside f o, hread.outside f o, hallocates.byte]
    . intro i hi
      exact hnone i (by omega)
    . intro j hj
      rw [hplace2, hbehind j hj]
      exact hnone _ (by omega)

end ElfFile

/--
Memory in which each page leads to the frame with the same number, all bytes are one and no frame is
free.
-/
def identityMemory : Memory where
  pde _ := 3
  pte x := newEntry x pmfDefault
  byte _ _ := 1
  pma := ⟨[], 0, 0, 0, 0, 0⟩

theorem identityMemory_frame? {x : Nat} (hx : x < 2 ^ 20) : identityMemory.frame? x = some x := by
  unfold Memory.frame? identityMemory
  dsimp only
  rw [if_pos ⟨rfl, entryPresent_newEntry x pmfDefault⟩, entryBase_newEntry, Nat.mod_eq_of_lt hx]

theorem identityMemory_place? {a : Nat} (ha : a < 2 ^ 32)
    : identityMemory.place? a = some (a / pageSize, a % pageSize) := by
  unfold Memory.place?
  rw [identityMemory_frame? (by unfold pageSize; omega)]
  rfl

theorem identityMemory_apart {x n : Nat} (hle : x + n ≤ 2 ^ 20) : identityMemory.Apart x n := by
  refine ⟨show 0 + 0 ≤ 2 ^ 20 by decide, ?_, ?_⟩
  . intro y z f _ hy _ hz hyf hzf
    rw [identityMemory_frame? (by omega)] at hyf hzf
    cases hyf
    cases hzf
    rfl
  . intro y f _ _ _ hfree
    obtain ⟨i, hi, -⟩ := hfree
    exact absurd hi (Nat.not_lt_zero i)

theorem identityMemory_mmAllocatePagesTo {x n : Nat} (hle : x + n ≤ 2 ^ 20)
    : mmAllocatePagesTo identityMemory x n = .ok ⟨.success, identityMemory⟩ := by
  have hgo : ∀ k i, i + k = n → mmAllocatePagesTo.go x k i identityMemory = .ok ⟨.success, identityMemory⟩ := by
    intro k
    induction k with
    | zero =>
      intro i _
      rfl
    | succ k ih =>
      intro i hi
      have hpage : allocatePageTo identityMemory (x + i) = .ok ⟨.success, identityMemory⟩ := by
        unfold allocatePageTo
        rw [Memory.mmVpnToPfn_eq (by omega), identityMemory_frame? (by omega)]
      rw [mmAllocatePagesTo.go, u32_of_lt (by omega), hpage]
      exact ih (i + 1) (by omega)
  exact hgo n 0 (by omega)

namespace ElfFile

variable {elf : ElfFile} {index vaddr : Nat}

theorem HasProgram.not_loadsAt (h : elf.HasProgram index)
    (hrange : vaddr + (elf.header index).memsz.toNat ≤ windowBase)
    (hown : (elf.header index).vaddr.toNat + (elf.header index).memsz.toNat ≤ windowBase)
    (hclears : (elf.header index).filesz.toNat < (elf.header index).memsz.toNat)
    (hne : vaddr ≠ (elf.header index).vaddr.toNat)
    : ¬ elf.LoadsAt index vaddr := by
  intro hloads
  have hrange' := hrange
  unfold windowBase at hrange' hown
  have hpages : vaddr / pageSize + elf.pageCount index vaddr ≤ 2 ^ 20 := by
    unfold pageCount pageSize
    lia
  have hstart : u32 ((elf.header index).vaddr.toNat + (elf.header index).filesz.toNat)
      = (elf.header index).vaddr.toNat + (elf.header index).filesz.toNat := u32_of_lt (by omega)
  obtain ⟨m2, hread⟩ := Memory.exists_storeAll (m := identityMemory) (a := vaddr)
    (n := (elf.header index).filesz.toNat)
    (g := fun i => elf.file.data ((elf.header index).offset.toNat + i)) (by omega)
    (fun i hi => ⟨_, identityMemory_place? (by omega)⟩)
  have hstored := Memory.storeAll_stored (by omega) hread
  have hplace2 := Memory.place?_of_frame? hstored.frame
  obtain ⟨m', hset⟩ := Memory.exists_storeAll (m := m2)
    (a := (elf.header index).vaddr.toNat + (elf.header index).filesz.toNat)
    (n := (elf.header index).memsz.toNat - (elf.header index).filesz.toNat) (g := fun _ => 0) (by lia)
    (fun i hi => ⟨_, by rw [hplace2]; exact identityMemory_place? (by lia)⟩)
  have hcleared := Memory.storeAll_stored (by lia) hset
  have hplace := (Memory.place?_of_frame? hcleared.frame).trans hplace2
  have hloaded := hloads (fun _ => 0) identityMemory m' (identityMemory_apart hpages)
    ((h.elfLoadProgram_iff hrange _).mpr ⟨identityMemory, m2, identityMemory_mmAllocatePagesTo hpages, hread,
      by rw [hstart]; exact hset⟩)
  -- the first or the last byte that should have been cleared
  obtain ⟨i, h1, h2, hout⟩ : ∃ i, (elf.header index).filesz.toNat ≤ i ∧ i < (elf.header index).memsz.toNat
      ∧ (vaddr + i < (elf.header index).vaddr.toNat + (elf.header index).filesz.toNat
        ∨ (elf.header index).vaddr.toNat + (elf.header index).memsz.toNat ≤ vaddr + i) := by
    by_cases hlt : vaddr < (elf.header index).vaddr.toNat
    . exact ⟨(elf.header index).filesz.toNat, by omega, by omega, by omega⟩
    . exact ⟨(elf.header index).memsz.toNat - 1, by lia, by lia, by lia⟩
  have hdistinct : ∀ b, b < 2 ^ 32 → b ≠ vaddr + i
      → identityMemory.place? b ≠ some ((vaddr + i) / pageSize, (vaddr + i) % pageSize) := by
    intro b hb hbne heq
    rw [identityMemory_place? hb, Option.some.injEq, Prod.mk.injEq] at heq
    unfold pageSize at heq
    lia
  have hbyte : m'.byte ((vaddr + i) / pageSize) ((vaddr + i) % pageSize) = 1 := by
    rw [hcleared.outside, hstored.outside]
    . rfl
    . intro j hj
      exact hdistinct _ (by omega) (by omega)
    . intro j hj
      rw [hplace2]
      exact hdistinct _ (by lia) (by lia)
  have hzero := hloaded.zero i h1 h2
  unfold Memory.load at hzero
  rw [hplace, identityMemory_place? (by omega)] at hzero
  dsimp only at hzero
  rw [hbyte] at hzero
  cases hzero

end ElfFile

/--
A program header is loaded as it should be if and only if there is nothing to clear behind the bytes of
the file, or it is loaded to its own address: what is cleared is always behind the latter.
-/
theorem elf_load_program_iff (elf : ElfFile) (index vaddr : Nat) (h : elf.HasProgram index)
    (hrange : vaddr + (elf.header index).memsz.toNat ≤ windowBase)
    (hown : (elf.header index).vaddr.toNat + (elf.header index).memsz.toNat ≤ windowBase)
    : elf.LoadsAt index vaddr
        ↔
      (elf.header index).memsz = (elf.header index).filesz ∨ vaddr = (elf.header index).vaddr.toNat := by
  constructor
  . intro hloads
    by_contra hnot
    rw [not_or] at hnot
    have hle := h.filesz_le
    have hne : (elf.header index).filesz.toNat ≠ (elf.header index).memsz.toNat := by
      intro heq
      exact hnot.1 (BitVec.eq_of_toNat_eq heq.symm)
    exact h.not_loadsAt hrange hown (by omega) hnot.2 hloads
  . intro hwhere buf m m' hapart hload
    exact h.loaded hrange hwhere hapart hload

/--
A file with one program header, of a segment of eight bytes of which four are in the file.
-/
def bssFile (vaddr : BitVec 32) : ElfFile where
  file := ⟨Bytes.write (Bytes.write (Bytes.write (Bytes.write (fun _ => 0) 4 4 32) 8 4 vaddr.toNat) 16 4 4) 20 4 8,
    36, by decide⟩
  identClass := elfclass32
  phoff := 0
  phentsize := 32
  phnum := 1

theorem bssFile_header (vaddr : BitVec 32) : (bssFile vaddr).header 0 = ⟨32, vaddr, 4, 8⟩ := by
  have hvaddr := vaddr.isLt
  have hpos : (bssFile vaddr).phoff.toNat + 0 * (bssFile vaddr).phentsize.toNat = 0 := rfl
  unfold ElfFile.header
  rw [hpos]
  unfold bssFile Elf32Phdr.get
  simp only [Nat.zero_add]
  rw [Bytes.read_write_of_lt (n := 4) (by decide)]
  rw [Bytes.read_write_disjoint (q := 4) (by decide), Bytes.read_write_disjoint (q := 4) (by decide),
    Bytes.read_write_disjoint (q := 4) (by decide), Bytes.read_write_of_lt (by decide)]
  rw [Bytes.read_write_disjoint (q := 8) (by decide), Bytes.read_write_disjoint (q := 8) (by decide),
    Bytes.read_write_of_lt hvaddr]
  rw [Bytes.read_write_disjoint (q := 16) (by decide), Bytes.read_write_of_lt (by decide)]
  simp

theorem bssFile_hasProgram (vaddr : BitVec 32) : (bssFile vaddr).HasProgram 0 where
  identClass := rfl
  index_lt := show 0 < (1#16).toNat by decide
  phentsize := show phdrSize ≤ (32#16).toNat by decide
  inFile := show (0#32).toNat + 0 * (32#16).toNat + phdrSize ≤ 36 by decide
  filesz_le := by
    rw [bssFile_header]
    exact (show (4#32).toNat ≤ (8#32).toNat by decide)
  segment := by
    rw [bssFile_header]
    exact (show (32#32).toNat + (4#32).toNat ≤ 36 by decide)

theorem elf_load_program_iff_bssFile : (bssFile 0x400000).HasProgram 0 ∧ (bssFile 0x400000).LoadsAt 0 0x400000 := by
  refine ⟨bssFile_hasProgram _, (elf_load_program_iff _ 0 _ (bssFile_hasProgram _) ?_ ?_).mpr ?_⟩
  . rw [bssFile_header]
    decide
  . rw [bssFile_header]
    decide
  . rw [bssFile_header]
    decide

/--
A segment at address zero of the file, loaded to 0x400000.
-/
theorem bssFile_not_loadsAt : (bssFile 0).HasProgram 0 ∧ ¬ (bssFile 0).LoadsAt 0 0x400000 := by
  refine ⟨bssFile_hasProgram _, (bssFile_hasProgram 0).not_loadsAt ?_ ?_ ?_ ?_⟩
  . rw [bssFile_header]
    decide
  . rw [bssFile_header]
    decide
  . rw [bssFile_header]
    decide
  . rw [bssFile_header]
    decide

end Emos.Boot.Elf
