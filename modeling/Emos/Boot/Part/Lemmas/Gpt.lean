import Emos.Boot.Part.Impl.Part
import Emos.Lib.Loop
import Mathlib.Data.List.Basic

/-!
This module contains which GUID partition tables are scanned as they should be.
-/

open Lib

namespace Emos.Boot.Part

/--
A disk with a GUID partition table. The bytes of its entries, one entry after the other, are `table`.
-/
structure GptDisk where
  disk : Disk
  mbr : Bytes
  header : Bytes
  table : Bytes
  shift : Nat
  read_mbr : disk.read 0 = .ok mbr
  mbr_signature : mbr.read 510 2 = mbrSignature
  mbr_type : (MbrPartitionEntry.get mbr 446).type = mbrPartTypeGpt
  read_header : disk.read (MbrPartitionEntry.get mbr 446).baseLba.toNat = .ok header
  header_signature : (List.range 8).map header = gptHeaderSignature
  bytesPerEntry : header.read 84 4 = 128 * 2 ^ shift
  read_table : ∀ k : Nat, k = 0 ∨ 512 * k < header.read 84 4 * header.read 80 4
    → ∃ sector, disk.read (header.read 72 8 + k : Nat) = .ok sector
        ∧ ∀ i < 512, sector i = table (512 * k + i)

namespace GptDisk

variable (g : GptDisk)

def entryCount : Nat := g.header.read 80 4

def entrySize : Nat := 128 * 2 ^ g.shift

def Used (i : Nat) : Prop := g.table.read (g.entrySize * i) 16 ≠ 0

instance (i : Nat) : Decidable (g.Used i) := by
  unfold Used
  infer_instance

def firstLba (i : Nat) : Nat := g.table.read (g.entrySize * i + 32) 8

def lastLba (i : Nat) : Nat := g.table.read (g.entrySize * i + 40) 8

def partition (i : Nat) : PartData where
  partBase := (BitVec.ofNat 64 (g.firstLba i)).toInt
  partLimit := (BitVec.ofNat 64 (g.lastLba i)).toInt

/--
The scan registers one partition for each entry that is used, in the order of the table, and stays
inside of the buffer.
-/
def RegistersUsed : Prop :=
  ∃ scan, gptProbe g.disk = .ok scan ∧ scan.result = .ok ()
    ∧ scan.partitions = ((List.range g.entryCount).filter (g.Used ·)).map g.partition

/--
What is registered of `n` entries from entry `i` on, as long as the buffer has them.
-/
def scanFrom : Nat → Nat → Scan
  | 0, _ => ⟨.ok (), []⟩
  | n + 1, i =>
    if ¬ g.Used i then
      ⟨.ok (), []⟩
    else if g.lastLba i < g.firstLba i then
      ⟨.error .invalidResource, []⟩
    else
      ⟨(scanFrom n (i + 1)).result, g.partition i :: (scanFrom n (i + 1)).partitions⟩

variable {g}

theorem firstLba_lt (i : Nat) : g.firstLba i < 2 ^ 64 := Bytes.read_lt g.table _ 8

theorem lastLba_lt (i : Nat) : g.lastLba i < 2 ^ 64 := Bytes.read_lt g.table _ 8

theorem probe_entry (i : Nat)
    : probe [⟨.lba, .ofNat (g.firstLba i), .ofNat (g.lastLba i)⟩]
        =
      if g.lastLba i < g.firstLba i then .error .invalidResource else .ok (g.partition i) := by
  have hfirst := g.firstLba_lt i
  have hlast := g.lastLba_lt i
  have hlt : UInt64.ofNat (g.firstLba i) > UInt64.ofNat (g.lastLba i) ↔ g.lastLba i < g.firstLba i := by
    rw [gt_iff_lt, UInt64.lt_iff_toNat_lt, UInt64.toNat_ofNat_of_lt' hlast, UInt64.toNat_ofNat_of_lt' hfirst]
  unfold probe
  simp only [ne_eq, not_true_eq_false, false_or, hlt]
  rfl

theorem lba_lt (g : GptDisk) {k : Nat} (hk : k = 0 ∨ 512 * k < g.entrySize * g.entryCount)
    : g.header.read 72 8 + k < 2 ^ 63 := by
  have hle := g.disk.sectorCount_le
  obtain ⟨sector, hsector, _⟩ := g.read_table k (by rw [g.bytesPerEntry]; exact hk)
  apply Nat.lt_of_not_le
  intro hge
  obtain ⟨e, he⟩ := g.disk.read_outside (g.header.read 72 8 + k : Nat) (by omega)
  rw [hsector] at he
  cases he

theorem toLba_of_lt {n : Nat} (h : n < 2 ^ 63) : toLba n = n := by
  unfold toLba
  rw [Int.bmod_eq_of_le] <;> omega

/--
The buffer has the sector that the entries from the byte `512 * k` of the table on are in.
-/
structure Holds (g : GptDisk) (buf : Bytes) (k : Nat) : Prop where
  bytes : ∀ i < 512, buf i = g.table (512 * k + i)

theorem Holds.sectBufAt {buf : Bytes} {k offset n : Nat} (h : g.Holds buf k) (hle : offset + n ≤ 512)
    : sectBufAt buf offset n = .ok (g.table.read (512 * k + offset) n) := by
  unfold Part.sectBufAt sectBufSize
  rw [if_neg (by omega)]
  congr 1
  apply Bytes.read_congr
  intro i hi
  rw [h.bytes (offset + i) (by omega), Nat.add_assoc]

theorem Holds.first {buf : Bytes} {k offset i : Nat} (h : g.Holds buf k) (hle : offset + 48 ≤ 512)
    (hi : g.entrySize * i = 512 * k + offset) (n lba : Nat)
    : gptScan g.disk g.entrySize (n + 1) buf offset lba
        =
      if ¬ g.Used i then
        .ok ⟨.ok (), []⟩
      else if g.lastLba i < g.firstLba i then
        .ok ⟨.error .invalidResource, []⟩
      else
        (if sectBufSize ≤ u32 (offset + g.entrySize) then
          gptScan g.disk g.entrySize n
            (match g.disk.read (toLba ((lba + 1) % 2 ^ 64 : Nat)) with
              | .error ⟨_, junk⟩ => junk
              | .ok sector => sector)
            (u32 (offset + g.entrySize) - sectBufSize) ((lba + 1) % 2 ^ 64)
        else
          gptScan g.disk g.entrySize n buf (u32 (offset + g.entrySize)) lba)
          >>= fun rest => .ok ⟨rest.result, g.partition i :: rest.partitions⟩ := by
  rw [gptScan]
  rw [h.sectBufAt (by omega), h.sectBufAt (by omega), h.sectBufAt (by omega)]
  rw [← Nat.add_assoc (512 * k) offset 32, ← Nat.add_assoc (512 * k) offset 40, ← hi]
  simp only [bind, Except.bind]
  rw [show g.table.read (g.entrySize * i + 32) 8 = g.firstLba i from rfl]
  rw [show g.table.read (g.entrySize * i + 40) 8 = g.lastLba i from rfl]
  rw [probe_entry]
  unfold Used
  by_cases htype : g.table.read (g.entrySize * i) 16 = 0
  . simp [htype]
  . by_cases horder : g.lastLba i < g.firstLba i
    . simp [htype, horder]
    . simp only [htype, horder, ne_eq, not_false_eq_true, not_true_eq_false, ↓reduceIte]
      split <;> rfl

theorem entrySize_cases (hshift : g.shift ≤ 2)
    : g.entrySize = 128 ∨ g.entrySize = 256 ∨ g.entrySize = 512 := by
  have : g.shift = 0 ∨ g.shift = 1 ∨ g.shift = 2 := by omega
  unfold entrySize
  obtain h | h | h := this <;> simp [h]

theorem offset_le (hshift : g.shift ≤ 2) {i k offset : Nat} (hi : g.entrySize * i = 512 * k + offset)
    (hoffset : offset < 512)
    : offset + g.entrySize ≤ 512 := by
  obtain h | h | h := entrySize_cases hshift <;> rw [h] at hi ⊢ <;> omega

theorem Holds.scan (hshift : g.shift ≤ 2) {buf : Bytes} {n i k offset : Nat} (h : n = 0 ∨ g.Holds buf k)
    (hi : g.entrySize * i = 512 * k + offset) (hoffset : offset < 512) (hn : i + n = g.entryCount)
    : gptScan g.disk g.entrySize n buf offset (g.header.read 72 8 + k)
        =
      .ok (g.scanFrom n i) := by
  have hsize := entrySize_cases hshift
  induction n generalizing buf i k offset with
  | zero => rfl
  | succ n ih =>
    have hholds := h.resolve_left (by omega)
    have hle := offset_le hshift hi hoffset
    rw [hholds.first (by lia) hi]
    rw [scanFrom]
    split
    next => rfl
    next =>
      split
      next => rfl
      next =>
        have hu32 : u32 (offset + g.entrySize) = offset + g.entrySize := u32_of_lt (by omega)
        rw [hu32]
        have hnext : g.entrySize * (i + 1) = g.entrySize * i + g.entrySize := Nat.mul_succ _ _
        unfold sectBufSize
        split
        next hend =>
          -- the next entry is the first one of the next sector
          have hlt : g.header.read 72 8 + k < 2 ^ 63 := by
            apply lba_lt
            right
            have := Nat.mul_le_mul_left g.entrySize (show i + 1 ≤ g.entryCount by omega)
            lia
          have hlba : (g.header.read 72 8 + k + 1) % 2 ^ 64 = g.header.read 72 8 + (k + 1) := by
            rw [Nat.mod_eq_of_lt (by omega), Nat.add_assoc]
          rw [hlba, ih]
          . rfl
          . by_cases hzero : n = 0
            . left
              exact hzero
            . right
              have hin : 512 * (k + 1) < g.entrySize * g.entryCount := by
                have := Nat.mul_le_mul_left g.entrySize (show i + 2 ≤ g.entryCount by omega)
                rw [Nat.mul_add] at this
                lia
              obtain ⟨sector, hsector, hbytes⟩ := g.read_table (k + 1) (by
                rw [g.bytesPerEntry]
                right
                exact hin)
              rw [toLba_of_lt (g.lba_lt (.inr hin)), hsector]
              exact ⟨hbytes⟩
          . lia
          . lia
          . lia
        next hin =>
          rw [ih]
          . rfl
          . exact .inr hholds
          . lia
          . lia
          . lia

/--
The used entries among `n` entries from entry `i` on come first, and none of them ends before it
starts.
-/
structure Plain (g : GptDisk) (i n : Nat) : Prop where
  used : ∀ j k, i ≤ j → j < k → k < i + n → g.Used k → g.Used j
  ordered : ∀ j, i ≤ j → j < i + n → g.Used j → g.firstLba j ≤ g.lastLba j

theorem Plain.unused {i n : Nat} (h : ¬ g.Used i)
    : g.Plain i (n + 1) ↔ ∀ j, i + 1 ≤ j → j < i + 1 + n → ¬ g.Used j := by
  constructor
  . intro hplain j hlow hhigh hused
    exact h (hplain.used i j (Nat.le_refl i) (by omega) (by omega) hused)
  . intro hnone
    constructor
    . intro j k hj hjk hk hused
      exact absurd hused (hnone k (by omega) (by omega))
    . intro j hj hlt hused
      by_cases heq : j = i
      . subst heq
        exact absurd hused h
      . exact absurd hused (hnone j (by omega) (by omega))

theorem Plain.cons {i n : Nat} (h : g.Used i) (horder : g.firstLba i ≤ g.lastLba i)
    : g.Plain i (n + 1) ↔ g.Plain (i + 1) n := by
  constructor
  . intro hplain
    constructor
    . intro j k hj hjk hk
      exact hplain.used j k (by omega) hjk (by omega)
    . intro j hj hlt
      exact hplain.ordered j (by omega) (by omega)
  . intro hplain
    constructor
    . intro j k hj hjk hk hused
      by_cases heq : j = i
      . subst heq
        exact h
      . exact hplain.used j k (by omega) hjk (by omega) hused
    . intro j hj hlt hused
      by_cases heq : j = i
      . subst heq
        exact horder
      . exact hplain.ordered j (by omega) (by omega) hused

theorem scanFrom_iff (n i : Nat)
    : (g.scanFrom n i).result = .ok ()
        ∧ (g.scanFrom n i).partitions = ((List.range' i n).filter (g.Used ·)).map g.partition
        ↔
      g.Plain i n := by
  induction n generalizing i with
  | zero =>
    simp only [scanFrom, List.range'_zero, List.filter_nil, List.map_nil, and_self, true_iff]
    constructor <;> intros <;> omega
  | succ n ih =>
    rw [scanFrom, List.range'_succ]
    by_cases hused : g.Used i
    . by_cases horder : g.lastLba i < g.firstLba i
      . simp only [hused, horder, not_true_eq_false, ↓reduceIte, reduceCtorEq, false_and, false_iff]
        intro hplain
        have := hplain.ordered i (Nat.le_refl i) (by omega) hused
        omega
      . rw [Plain.cons hused (by omega), ← ih (i + 1)]
        simp [hused, horder]
    . rw [Plain.unused hused]
      simp [hused, List.filter_eq_nil_iff]

theorem gptProbe_eq
    : ∃ buf, g.Holds buf 0
        ∧ gptProbe g.disk = gptScan g.disk g.entrySize g.entryCount buf 0 (g.header.read 72 8) := by
  obtain ⟨buf, hbuf, hbytes⟩ := g.read_table 0 (.inl rfl)
  refine ⟨buf, ⟨hbytes⟩, ?_⟩
  have hlt := g.lba_lt (k := 0) (.inl rfl)
  rw [Nat.add_zero] at hbuf hlt
  unfold gptProbe
  simp only [g.read_mbr, g.mbr_signature, g.mbr_type, g.read_header, g.header_signature,
    toLba_of_lt hlt, hbuf, ne_eq, not_true_eq_false, ↓reduceIte]
  rw [g.bytesPerEntry]
  rfl

theorem registersUsed_of_probe_eq (h : gptProbe g.disk = .ok (g.scanFrom g.entryCount 0))
    : g.RegistersUsed ↔ g.Plain 0 g.entryCount := by
  rw [← scanFrom_iff, ← List.range_eq_range']
  unfold RegistersUsed
  constructor
  . intro ⟨scan, hscan, hresult⟩
    rw [h] at hscan
    cases hscan
    exact hresult
  . intro hresult
    exact ⟨_, h, hresult⟩

theorem entrySize_le_iff : g.entrySize ≤ 512 ↔ g.shift ≤ 2 := by
  unfold entrySize
  rw [show (512 : Nat) = 128 * 2 ^ 2 by decide, Nat.mul_le_mul_left_iff (by decide)]
  exact Nat.pow_le_pow_iff_right (by decide)

theorem entrySize_lt : g.entrySize < 2 ^ 32 := by
  have := Bytes.read_lt g.header 84 4
  rw [g.bytesPerEntry] at this
  exact this

theorem probe_of_first (h : g.entryCount ≤ 1 ∨ ¬ g.Used 0)
    : gptProbe g.disk = .ok (g.scanFrom g.entryCount 0) := by
  obtain ⟨buf, hholds, hprobe⟩ := g.gptProbe_eq
  rw [hprobe]
  cases hn : g.entryCount with
  | zero => rfl
  | succ n =>
    rw [hholds.first (by omega) (i := 0) (by omega), scanFrom]
    split
    next => rfl
    next hused =>
      cases h with
      | inl hle =>
        obtain rfl : n = 0 := by omega
        split
        next => rfl
        next => split <;> rfl
      | inr hunused => exact absurd hunused hused

theorem gptScan_outside (disk : Disk) (buf : Bytes) (size n lba : Nat) {offset : Nat}
    (h : sectBufSize ≤ offset)
    : gptScan disk size (n + 1) buf offset lba = .error .access := by
  rw [gptScan, sectBufAt, if_pos (by omega)]
  rfl

theorem not_registersUsed_of_large (hsize : 512 < g.entrySize) (hn : 2 ≤ g.entryCount)
    (hused : g.Used 0)
    : ¬ g.RegistersUsed := by
  have hlt := g.entrySize_lt
  have hlarge : 1024 ≤ g.entrySize := by
    have hshift : ¬ g.shift ≤ 2 := by
      rw [← entrySize_le_iff]
      omega
    have := Nat.pow_le_pow_right (show 0 < 2 by decide) (show 3 ≤ g.shift by omega)
    unfold entrySize
    omega
  obtain ⟨buf, hholds, hprobe⟩ := g.gptProbe_eq
  obtain ⟨n, hcount⟩ : ∃ n, g.entryCount = n + 2 := ⟨g.entryCount - 2, by omega⟩
  intro hregisters
  obtain ⟨scan, hscan, hresult, -⟩ := hregisters
  rw [hprobe, hcount] at hscan
  rw [hholds.first (by omega) (i := 0) (by omega), if_neg (not_not.mpr hused)] at hscan
  split at hscan
  next =>
    cases hscan
    cases hresult
  next =>
    -- the second entry is not in the buffer
    have hnext : sectBufSize ≤ u32 (0 + g.entrySize) := by
      rw [Nat.zero_add, u32_of_lt hlt, sectBufSize]
      omega
    have houtside : sectBufSize ≤ u32 (0 + g.entrySize) - sectBufSize := by
      rw [Nat.zero_add, u32_of_lt hlt, sectBufSize]
      lia
    rw [if_pos hnext, gptScan_outside _ _ _ _ _ houtside] at hscan
    cases hscan

end GptDisk

/--
A GUID partition table is scanned as it should be if and only if its used entries come first, none of
them ends before it starts, and no entry has to be found behind one that is larger than a sector.
-/
theorem gpt_registers_used_iff (g : GptDisk)
    : g.RegistersUsed
        ↔
      g.Plain 0 g.entryCount ∧ (g.entrySize ≤ 512 ∨ g.entryCount ≤ 1 ∨ ¬ g.Used 0) := by
  by_cases hfirst : g.entryCount ≤ 1 ∨ ¬ g.Used 0
  . rw [GptDisk.registersUsed_of_probe_eq (g.probe_of_first hfirst)]
    simp [hfirst]
  . by_cases hsize : g.entrySize ≤ 512
    . obtain ⟨buf, hholds, hprobe⟩ := g.gptProbe_eq
      have hscan := GptDisk.Holds.scan (GptDisk.entrySize_le_iff.1 hsize) (.inr hholds)
        (show g.entrySize * 0 = 512 * 0 + 0 by omega) (by omega) (Nat.zero_add g.entryCount)
      rw [Nat.add_zero, ← hprobe] at hscan
      rw [GptDisk.registersUsed_of_probe_eq hscan]
      simp [hsize]
    . rw [not_or, not_not] at hfirst
      constructor
      . intro hregisters
        exact absurd hregisters
          (GptDisk.not_registersUsed_of_large (by omega) (by omega) hfirst.2)
      . intro ⟨_, h⟩
        obtain h | h | h := h
        . exact absurd h hsize
        . exact absurd h hfirst.1
        . exact absurd hfirst.2 h

def protectiveMbr : Bytes := fun i =>
  if i = 450 then 0xEE else if i = 454 then 1 else if i = 510 then 0x55 else if i = 511 then 0xAA else 0

/--
The header of a table of two entries of `128 * 2 ^ shift` bytes that starts at sector 2.
-/
def twoEntryHeader (shift : Nat) : Bytes := fun i =>
  if i < 8 then gptHeaderSignature.getD i 0
  else if i = 72 ∨ i = 80 then 2
  else if i = 84 then .ofNat 8 (128 * 2 ^ shift)
  else if i = 85 then .ofNat 8 (128 * 2 ^ shift / 256)
  else 0

/--
A table that has ones in the bytes from `low` on and zeros before.
-/
def onesFrom (low : Nat) : Bytes := fun i => if low ≤ i then 1 else 0

def twoEntryDisk (shift low : Nat) : Disk where
  sectorCount := 6
  read lba :=
    if lba = 0 then .ok protectiveMbr
    else if lba = 1 then .ok (twoEntryHeader shift)
    else if 2 ≤ lba ∧ lba < 6 then .ok (fun i => onesFrom low (512 * (lba.toNat - 2) + i))
    else .error (.invalidValue, fun _ => 0)
  sectorCount_le := by decide
  read_outside lba h := by
    refine ⟨(.invalidValue, fun _ => 0), ?_⟩
    rw [if_neg (by omega), if_neg (by omega), if_neg (by omega)]

def twoEntryGpt (shift low : Nat) (hshift : shift ≤ 3) : GptDisk where
  disk := twoEntryDisk shift low
  mbr := protectiveMbr
  header := twoEntryHeader shift
  table := onesFrom low
  shift := shift
  read_mbr := rfl
  mbr_signature := by decide
  mbr_type := by decide
  read_header := rfl
  header_signature := rfl
  bytesPerEntry := by
    have : shift = 0 ∨ shift = 1 ∨ shift = 2 ∨ shift = 3 := by lia
    obtain rfl | rfl | rfl | rfl := this <;> decide
  read_table k hk := by
    have hsize : (twoEntryHeader shift).read 84 4 * (twoEntryHeader shift).read 80 4 ≤ 2048 := by
      have : shift = 0 ∨ shift = 1 ∨ shift = 2 ∨ shift = 3 := by lia
      obtain rfl | rfl | rfl | rfl := this <;> decide
    refine ⟨fun i => onesFrom low (512 * k + i), ?_, fun i _ => rfl⟩
    have hlba : (twoEntryHeader shift).read 72 8 = 2 := by rfl
    rw [hlba]
    unfold twoEntryDisk
    simp only
    rw [if_neg (by omega), if_neg (by omega), if_pos (by omega)]
    rw [show ((2 + k : Nat) : Int).toNat - 2 = k by lia]

/--
A table of two entries of which only the second is used, and a table of two used entries of 1024
bytes.
-/
theorem two_entry_tables_misread
    : ¬ (twoEntryGpt 0 128 (by decide)).RegistersUsed
        ∧ ¬ (twoEntryGpt 3 0 (by decide)).RegistersUsed := by
  constructor
  . rw [GptDisk.registersUsed_of_probe_eq (GptDisk.probe_of_first (by decide))]
    intro h
    exact absurd (h.used 0 1 (by decide) (by decide) (by decide) (by decide)) (by decide)
  . exact GptDisk.not_registersUsed_of_large (by decide) (by decide) (by decide)

end Emos.Boot.Part
