import Emos.Boot.Afs.Lemmas.Afs
import Emos.Tools.Afsimg.Lemmas.Checksum
import Emos.Tools.MkfsAfs.Lemmas.Volume

/-!
This module contains that a volume which `mkfs.afs` has written is what `afsimg` and the boot loader's
driver take it for.
-/

open Lib

namespace Emos.Tools.MkfsAfs

/--
What is in the file after the calls of `afs_fwrite`.
-/
def applyWrites (image : Bytes) : List Write → Bytes
  | [] => image
  | w :: ws =>
    applyWrites
      (fun i => if w.position ≤ i ∧ i < w.position + w.length then w.bytes (i - w.position) else image i) ws

variable {image : Bytes} {ws : List Write} {w : Write} {c : FormatInput} {rbb gbb : Bytes}

theorem applyWrites_append (ws ws' : List Write)
    : applyWrites image (ws ++ ws') = applyWrites (applyWrites image ws) ws' := by
  induction ws generalizing image with
  | nil => rfl
  | cons w ws ih => rw [List.cons_append, applyWrites, ih, applyWrites]

theorem applyWrites_outside {i : Nat} (h : ∀ w ∈ ws, i < w.position ∨ w.position + w.length ≤ i)
    : applyWrites image ws i = image i := by
  induction ws generalizing image with
  | nil => rfl
  | cons w ws ih =>
    have hw := h w List.mem_cons_self
    rw [applyWrites, ih fun v hv => h v (List.mem_cons_of_mem _ hv), if_neg (by omega)]

/--
What is written last at a place stays there.
-/
theorem applyWrites_last (image : Bytes) {i : Nat} (hi : i < w.length)
    (h : ∀ v ∈ ws, w.position + i < v.position ∨ v.position + v.length ≤ w.position + i)
    : applyWrites image (w :: ws) (w.position + i) = w.bytes i := by
  rw [applyWrites, applyWrites_outside h, if_pos (by omega), Nat.add_sub_cancel_left]

theorem putBytes_outside {m : Bytes} {p q : Nat} {bs : List (BitVec 8)} (h : q < p ∨ p + bs.length ≤ q)
    : putBytes m p bs q = m q := by
  induction bs generalizing m p with
  | nil => rfl
  | cons b bs ih =>
    rw [List.length_cons] at h
    rw [putBytes, ih (by omega), Function.update_of_ne (by omega)]

theorem putBytes_inside {m : Bytes} {p i : Nat} {bs : List (BitVec 8)} (hi : i < bs.length)
    : putBytes m p bs (p + i) = bs[i] := by
  induction bs generalizing m p i with
  | nil => contradiction
  | cons b bs ih =>
    rw [putBytes]
    cases i with
    | zero =>
      rw [putBytes_outside (by omega)]
      exact Function.update_self ..
    | succ i =>
      rw [show p + (i + 1) = p + 1 + i by omega, ih (Nat.lt_of_succ_lt_succ hi)]
      rfl

theorem read_putBytes_disjoint {m : Bytes} {p q k : Nat} {bs : List (BitVec 8)}
    (h : q + k ≤ p ∨ p + bs.length ≤ q)
    : (putBytes m p bs).read q k = m.read q k := by
  apply Bytes.read_congr
  intro i hi
  exact putBytes_outside (by omega)

namespace FormatInput

/--
The blocks other than the first sector, in the order in which they are written.
-/
def structures (c : FormatInput) (rbb gbb : Bytes) : List Write :=
  (List.range c.rdbCount.toNat).map (fun i => c.blockWrite .rdb (c.blockPosition i) c.rdb)
  ++ [c.blockWrite .rbb (c.blockPosition c.rdbCount.toNat) rbb,
    c.blockWrite .gbb (c.blockPosition (c.rdbCount.toNat + c.rbbCount)) gbb,
    c.blockWrite .rootMdb (c.blockPosition (c.rdbCount.toNat + 1 + c.rbbCount)) c.rootMdb,
    c.blockWrite .rootDhb (c.blockPosition (c.rdbCount.toNat + 2 + c.rbbCount)) c.rootDhb]

/--
The writes at the start of the file.
-/
def startWrites (c : FormatInput) : List Write :=
  match c.bootCodeFile with
  | some (some code) => [⟨.bootCode, 0, putBytes (fun _ => 0) 0 code, code.length⟩]
  | _ => []

theorem Fits.writeList_eq (h : c.Fits)
    : c.writeList rbb gbb
      = c.startWrites ++ (⟨.firstSector, 0, c.firstSector, 512⟩ :: c.structures rbb gbb) := by
  have hrdb := c.rdbCount.toNat_lt
  have hgbb : c.position64 (c.rdbCount.toNat + c.rbbCount) = c.blockPosition (c.rdbCount.toNat + c.rbbCount) :=
    h.position64 (by omega)
  have hmdb : c.position64 (c.rdbCount.toNat + 1 + c.rbbCount) = c.blockPosition (c.rdbCount.toNat + 1 + c.rbbCount) :=
    h.position64 (by omega)
  have hdhb : c.position64 (c.rdbCount.toNat + 2 + c.rbbCount) = c.blockPosition (c.rdbCount.toNat + 2 + c.rbbCount) :=
    h.position64 (by omega)
  have hrdbs : (List.range c.rdbCount.toNat).map (fun i => c.blockWrite .rdb (c.position32 i) c.rdb)
      = (List.range c.rdbCount.toNat).map (fun i => c.blockWrite .rdb (c.blockPosition i) c.rdb) := by
    apply List.map_congr_left
    intro i hi
    rw [List.mem_range] at hi
    rw [position32_eq (by omega)]
  unfold writeList structures startWrites
  rw [hrdbs, position32_eq hrdb, hgbb, hmdb, hdhb]
  rw [List.append_assoc, List.append_assoc]
  rfl

theorem blockPosition_add_le (i j : Nat) (h : i < j) : c.blockPosition i + c.bytesPerBlock ≤ c.blockPosition j := by
  have hmul := Nat.mul_le_mul_left c.bytesPerBlock (Nat.succ_le_of_lt h)
  unfold blockPosition
  rw [Nat.mul_succ] at hmul
  omega

/--
The blocks come one after the other.
-/
theorem Fits.structures_pairwise (h : c.Fits)
    : (c.structures rbb gbb).Pairwise fun v w => v.position + v.length ≤ w.position := by
  have hrbb := Nat.pos_of_ne_zero h.2.2.2.2.2
  unfold structures
  rw [List.pairwise_append, List.pairwise_map]
  refine ⟨?_, ?_, ?_⟩
  . exact List.pairwise_lt_range.imp fun hlt => blockPosition_add_le _ _ hlt
  . simp only [List.pairwise_cons, List.mem_cons, List.not_mem_nil, or_false, forall_eq_or_imp, forall_eq, blockWrite,
      List.Pairwise.nil, and_true, false_implies, implies_true]
    refine ⟨⟨?_, ?_, ?_⟩, ⟨?_, ?_⟩, ?_⟩
    all_goals
      apply blockPosition_add_le
      omega
  . intro v hv w hw
    obtain ⟨i, hi, rfl⟩ := List.mem_map.mp hv
    rw [List.mem_range] at hi
    simp only [List.mem_cons, List.not_mem_nil, or_false] at hw
    obtain rfl | rfl | rfl | rfl := hw
    all_goals
      apply blockPosition_add_le
      omega

/--
What is in the file behind the reserved sectors is what has been written there.
-/
theorem Fits.bytes_structure (h : c.Fits) (hw : w ∈ c.structures rbb gbb) {i : Nat} (hi : i < c.bytesPerBlock)
    : applyWrites c.image (c.writeList rbb gbb) (w.position + i) = w.bytes i := by
  have hlength : w.length = c.bytesPerBlock := by
    unfold structures at hw
    simp only [List.mem_append, List.mem_map, List.mem_cons, List.not_mem_nil, or_false] at hw
    obtain ⟨_, _, rfl⟩ | rfl | rfl | rfl | rfl := hw
    all_goals rfl
  obtain ⟨front, back, hsplit⟩ := List.append_of_mem hw
  have hpair := @h.structures_pairwise _ rbb gbb
  rw [hsplit, List.pairwise_append, List.pairwise_cons] at hpair
  rw [h.writeList_eq, hsplit, ← List.cons_append, ← List.append_assoc, applyWrites_append]
  apply applyWrites_last _ (by omega)
  intro v hv
  have := hpair.2.1.1 v hv
  omega

theorem position_structure (hreserved : 0 < c.reservedSectors.toNat) (hw : w ∈ c.structures rbb gbb)
    : 512 ≤ w.position := by
  unfold structures at hw
  simp only [List.mem_append, List.mem_map, List.mem_cons, List.not_mem_nil, or_false] at hw
  obtain ⟨_, _, rfl⟩ | rfl | rfl | rfl | rfl := hw
  all_goals
    unfold blockWrite blockPosition bytesPerSector
    dsimp only
    omega

theorem Fits.bytes_firstSector (h : c.Fits) (hreserved : 0 < c.reservedSectors.toNat) {i : Nat} (hi : i < 512)
    : applyWrites c.image (c.writeList rbb gbb) i = c.firstSector i := by
  rw [h.writeList_eq, applyWrites_append]
  have hlast : ∀ v ∈ c.structures rbb gbb, 0 + i < v.position ∨ v.position + v.length ≤ 0 + i := by
    intro v hv
    exact .inl (Nat.lt_of_lt_of_le (by omega) (position_structure hreserved hv))
  have hbytes := applyWrites_last (applyWrites c.image c.startWrites)
    (show i < (⟨.firstSector, 0, c.firstSector, 512⟩ : Write).length from hi) hlast
  dsimp only at hbytes
  rw [Nat.zero_add] at hbytes
  exact hbytes

variable {p k : Nat}

theorem read_addChecksum {buf : Bytes} (h : p + k ≤ c.bytesPerBlock - 4)
    : (c.addChecksum buf).read p k = buf.read p k :=
  Bytes.read_write_disjoint (.inl h)

/--
The fields of the block at the start.
-/
theorem Fits.read_rdb (h : c.Fits)
    : c.rdb.read 0 8 = c.totalSectorCount ∧ c.rdb.read 8 8 = c.totalBlockCount
        ∧ c.rdb.read 16 1 = c.sectorsPerBlock.toNat ∧ c.rdb.read 17 1 = c.rdbCount.toNat
        ∧ c.rdb.read 18 2 = 512 ∧ c.rdb.read 20 4 = 0 ∧ c.rdb.read 24 8 = c.rootMdbPointer
        ∧ c.rdb.read 32 8 = 0 ∧ c.rdb.read 40 8 = 0 ∧ c.rdb.read 48 8 = 1
        ∧ c.rdb.read 56 8 = c.group0GbbPointer := by
  have hspb := h.sectorsPerBlock
  have hsize : 512 ≤ c.bytesPerBlock := by
    unfold bytesPerBlock bytesPerSector
    omega
  have hsectors : c.totalSectorCount < 256 ^ 8 := by
    have := c.fileLen_lt
    unfold totalSectorCount bytesPerSector
    omega
  have hblocks : c.totalBlockCount < 256 ^ 8 := by
    apply Nat.lt_of_le_of_lt (Nat.div_le_self _ _)
    unfold u64
    omega
  have hspb' := c.sectorsPerBlock.toNat_lt
  have hrdb := c.rdbCount.toNat_lt
  have hmdb : c.rootMdbPointer < 256 ^ 8 := by
    unfold rootMdbPointer u64
    omega
  have hgbb : c.group0GbbPointer < 256 ^ 8 := by
    unfold group0GbbPointer u64
    omega
  have huuid : (List.ofFn c.uuid).length = 16 := List.length_ofFn
  have hname : (c.osName.bytes.take 16).length ≤ 16 := by
    rw [List.length_take]
    omega
  unfold rdb
  dsimp only
  refine ⟨?_, ?_, ?_, ?_, ?_, ?_, ?_, ?_, ?_, ?_, ?_⟩
  all_goals
    rw [read_addChecksum (by omega), Bytes.read_write_disjoint (by omega), read_putBytes_disjoint (by omega),
      read_putBytes_disjoint (by omega)]
    simp (disch := omega) only [Bytes.read_write_disjoint, Bytes.read_write_of_lt, bytesPerSector, rbbPointer]

/--
The fields of the first sector.
-/
theorem read_firstSector (c : FormatInput)
    : c.firstSector.read 504 4 = 0x00534641 ∧ c.firstSector.read 508 2 = c.reservedSectors.toNat
        ∧ c.firstSector.read 510 2 = 0xAA55 := by
  have hreserved := c.reservedSectors.toNat_lt
  unfold firstSector
  dsimp only
  refine ⟨?_, ?_, ?_⟩
  . rw [Bytes.read_write_disjoint (by omega), Bytes.read_write_disjoint (by omega)]
    simp [putBytes, Bytes.read, Function.update]
  . rw [Bytes.read_write_disjoint (by omega), Bytes.read_write_of_lt (by omega)]
  . rw [Bytes.read_write_of_lt (by omega)]

/--
The name of the system with zeroes behind it.
-/
def formattedOs (c : FormatInput) : List (BitVec 8) :=
  c.osName.bytes.take 16 ++ List.replicate (16 - (c.osName.bytes.take 16).length) 0

theorem Fits.rdb_uuid (h : c.Fits) {i : Nat} (hi : i < 16) : c.rdb (64 + i) = c.uuid ⟨i, hi⟩ := by
  have hspb := h.sectorsPerBlock
  have hlen : (List.ofFn c.uuid).length = 16 := List.length_ofFn
  unfold rdb addChecksum
  rw [Bytes.write_outside (by unfold bytesPerBlock bytesPerSector; omega), Bytes.write_outside (by omega),
    putBytes_outside (by omega), putBytes_inside (by omega), List.getElem_ofFn]

theorem Fits.rdb_os (h : c.Fits) {i : Nat} (hi : i < 16) : c.formattedOs[i]? = some (c.rdb (80 + i)) := by
  have hspb := h.sectorsPerBlock
  have hlen : (List.ofFn c.uuid).length = 16 := List.length_ofFn
  unfold rdb addChecksum formattedOs
  rw [Bytes.write_outside (by unfold bytesPerBlock bytesPerSector; omega), Bytes.write_outside (by omega)]
  by_cases hname : i < (c.osName.bytes.take 16).length
  . rw [putBytes_inside hname, List.getElem?_append_left hname, List.getElem?_eq_getElem hname]
  . rw [putBytes_outside (by omega), putBytes_outside (by omega), List.getElem?_append_right (by omega),
      List.getElem?_replicate_of_lt (by lia)]
    simp (disch := omega) only [Bytes.write_outside]

end FormatInput

/--
The length of the file after the calls of `afs_fwrite`.
-/
def lengthAfter (len : Nat) (ws : List Write) : Nat := ws.foldl (fun len w => max len (w.position + w.length)) len

theorem le_lengthAfter (len : Nat) (ws : List Write) : len ≤ lengthAfter len ws := by
  induction ws generalizing len with
  | nil => exact Nat.le_refl _
  | cons w ws ih => exact Nat.le_trans (Nat.le_max_left _ _) (ih _)

theorem end_le_lengthAfter (len : Nat) (hw : w ∈ ws) : w.position + w.length ≤ lengthAfter len ws := by
  induction ws generalizing len with
  | nil => contradiction
  | cons v ws ih =>
    cases List.mem_cons.mp hw with
    | inl heq =>
      subst heq
      exact Nat.le_trans (Nat.le_max_right _ _) (le_lengthAfter _ ws)
    | inr hw => exact ih _ hw

end Emos.Tools.MkfsAfs

namespace Emos.Tools.Afsimg

open MkfsAfs

variable {c : FormatInput} {ws : List Write} {m m' : Bytes}

/--
Every block of a new volume has its checksum at the end.
-/
theorem checksumMatches_addChecksum (buf : Bytes) : checksumMatches c.bytesPerBlock (c.addChecksum buf) = true :=
  checksumMatches_write _ buf

/--
The file of a new volume.
-/
def newImage (c : FormatInput) (ws : List Write) : Image where
  bytes := applyWrites c.image ws
  len := lengthAfter c.fileLen ws

/--
What `afsimg` should say about a volume.
-/
def expected (c : FormatInput) : Afs where
  offset := 0
  reservedSectors := c.reservedSectors.toNat
  totalSectorCount := c.totalSectorCount
  totalBlockCount := c.totalBlockCount
  sectorsPerBlock := c.sectorsPerBlock.toNat
  rdbCopyCount := c.rdbCount.toNat
  bytesPerSector := 512
  flags := 0
  rootMdbPointer := c.rootMdbPointer
  udbPointer := 0
  jbbPointer := 0
  rbbPointer := 1
  group0GbbPointer := c.group0GbbPointer
  volumeUuid := List.ofFn c.uuid
  formattedOs := c.formattedOs
  bytesPerBlock := c.bytesPerBlock

/--
Sectors that are in the file are read as they are.
-/
theorem Image.read_inside {image : Image} {lba count : Nat} (hcount : 0 < count)
    (hlen : lba * 512 + count * 512 ≤ image.len) (buf : Bytes)
    : (image.read buf lba count).1 = count
        ∧ ∀ i, i < count * 512 → (image.read buf lba count).2 i = image.bytes (lba * 512 + i) := by
  unfold Image.read
  rw [if_neg (by omega)]
  refine ⟨Nat.min_eq_left (by lia), ?_⟩
  intro i hi
  dsimp only
  rw [if_pos ⟨hi, by omega⟩]

theorem bytesFrom_congr {p k : Nat} (h : ∀ i, i < k → m' (p + i) = m (p + i)) : bytesFrom m' p k = bytesFrom m p k :=
  List.map_congr_left fun i hi => h i (List.mem_range.mp hi)

theorem bytesFrom_firstSector (c : FormatInput) : bytesFrom c.firstSector 504 4 = [0x41, 0x46, 0x53, 0x00] := by
  unfold bytesFrom FormatInput.firstSector
  simp [List.range_succ, Bytes.write_outside, putBytes, Function.update]

theorem bytesFrom_rdb (h : c.Fits)
    : bytesFrom c.rdb 64 16 = List.ofFn c.uuid ∧ bytesFrom c.rdb 80 16 = c.formattedOs := by
  constructor
  . apply List.ext_getElem
    . simp [bytesFrom]
    . intro i hi _
      have hlt : i < 16 := by simpa [bytesFrom] using hi
      rw [List.getElem_ofFn, ← h.rdb_uuid hlt]
      simp [bytesFrom]
  . apply List.ext_getElem?
    intro i
    by_cases hlt : i < 16
    . simp [bytesFrom, hlt, h.rdb_os hlt]
    . have hlen : c.formattedOs.length = 16 := by
        unfold FormatInput.formattedOs
        rw [List.length_append, List.length_replicate, List.length_take]
        lia
      rw [List.getElem?_eq_none (by simp [bytesFrom]; omega), List.getElem?_eq_none (by omega)]

variable {rbb gbb : Bytes}

theorem newImage_firstSector (h : c.Fits) (hreserved : 0 < c.reservedSectors.toNat)
    : 512 ≤ (newImage c (c.writeList rbb gbb)).len
        ∧ ∀ i, i < 512 → (newImage c (c.writeList rbb gbb)).bytes i = c.firstSector i := by
  refine ⟨?_, fun i hi => h.bytes_firstSector hreserved hi⟩
  have hmem : (⟨.firstSector, 0, c.firstSector, 512⟩ : Write) ∈ c.writeList rbb gbb := by
    rw [h.writeList_eq]
    exact List.mem_append_right _ List.mem_cons_self
  exact Nat.le_trans (Nat.le_add_left 512 0) (end_le_lengthAfter c.fileLen hmem)

/--
The first block behind the reserved sectors.
-/
theorem newImage_rdb (h : c.Fits) (hrdb : 0 < c.rdbCount.toNat)
    : c.reservedSectors.toNat * 512 + c.bytesPerBlock ≤ (newImage c (c.writeList rbb gbb)).len
        ∧ ∀ i, i < c.bytesPerBlock
          → (newImage c (c.writeList rbb gbb)).bytes (c.reservedSectors.toNat * 512 + i) = c.rdb i := by
  have hmem : c.blockWrite .rdb (c.blockPosition 0) c.rdb ∈ c.structures rbb gbb :=
    List.mem_append_left _ (List.mem_map.mpr ⟨0, List.mem_range.mpr hrdb, rfl⟩)
  have hposition : c.blockPosition 0 = c.reservedSectors.toNat * 512 := by
    unfold FormatInput.blockPosition FormatInput.bytesPerSector
    omega
  constructor
  . have hlist : c.blockWrite .rdb (c.blockPosition 0) c.rdb ∈ c.writeList rbb gbb := by
      rw [h.writeList_eq]
      exact List.mem_append_right _ (List.mem_cons_of_mem _ hmem)
    have hend := end_le_lengthAfter c.fileLen hlist
    unfold FormatInput.blockWrite at hend
    dsimp only at hend
    rw [hposition] at hend
    exact hend
  . intro i hi
    rw [← hposition]
    exact h.bytes_structure hmem hi

/--
`afsimg` finds in a new volume what it has been made with, and its checksum, unless a block has 64 KiB or more. The size
of such a block is cut off, and what is read is written behind the memory for it.
-/
theorem afs_open_makeFs (hws : makeFs c = .ok (some ws)) (hdry : c.dryRun = false)
    (hreserved : 0 < c.reservedSectors.toNat) (hrdb : 0 < c.rdbCount.toNat)
    : Afs.open (newImage c ws) 0
        =
      if c.sectorsPerBlock.toNat < 128 then .ok (some (expected c, 0)) else .error .access := by
  obtain ⟨⟨hfits, _⟩, rbb, gbb, _, _, rfl⟩ := FormatInput.makeFs_cases hws
  rw [if_neg (by simp [hdry])]
  have hspb := hfits.sectorsPerBlock
  have hspb' := c.sectorsPerBlock.toNat_lt
  have hsize : c.bytesPerBlock = c.sectorsPerBlock.toNat * 512 := Nat.mul_comm _ _
  obtain ⟨hlen, hfirst⟩ := @newImage_firstSector _ rbb gbb hfits hreserved
  obtain ⟨hlen', hbytes⟩ := @newImage_rdb _ rbb gbb hfits hrdb
  generalize newImage c (c.writeList rbb gbb) = image at hlen hfirst hlen' hbytes
  have hsector := (Image.read_inside Nat.one_pos (show 0 * 512 + 1 * 512 ≤ image.len from hlen) fun _ => 0).2
  unfold Afs.open
  generalize image.read (fun _ => 0) 0 1 = first at hsector
  have hsame : ∀ i, i < 512 → first.2 i = c.firstSector i := by
    intro i hi
    rw [hsector i (by omega), Nat.zero_mul, Nat.zero_add, hfirst i hi]
  obtain ⟨_, hreservedField, hsignature⟩ := c.read_firstSector
  have hreserved' : first.2.read 508 2 = c.reservedSectors.toNat := by
    rw [Bytes.read_congr fun i hi => hsame _ (by omega), hreservedField]
  have hsignature' : first.2.read 510 2 = 0xAA55 := by
    rw [Bytes.read_congr fun i hi => hsame _ (by omega), hsignature]
  have hafs : bytesFrom first.2 504 4 = [0x41, 0x46, 0x53, 0x00] := by
    rw [bytesFrom_congr fun i hi => hsame _ (by omega), bytesFrom_firstSector]
  dsimp only
  rw [hafs, hsignature', hreserved', if_neg (by simp), if_neg (by simp), Nat.zero_add]
  have hrdbSector := (Image.read_inside Nat.one_pos
    (show c.reservedSectors.toNat * 512 + 1 * 512 ≤ image.len by lia) first.2).2
  generalize image.read first.2 c.reservedSectors.toNat 1 = second at hrdbSector
  have hread : ∀ p k, p + k ≤ 512 → second.2.read p k = c.rdb.read p k := by
    intro p k hp
    apply Bytes.read_congr
    intro i hi
    rw [hrdbSector _ (by lia), hbytes _ (by lia)]
  have hfields := hfits.read_rdb
  rw [hread 18 2 (by omega), hread 16 1 (by omega), hfields.2.2.1, hfields.2.2.2.2.1]
  unfold Afs.readBlock
  dsimp only
  by_cases hsmall : c.sectorsPerBlock.toNat < 128
  . have hmod : 512 * c.sectorsPerBlock.toNat % 2 ^ 16 = c.bytesPerBlock := by lia
    rw [if_pos hsmall, hmod, if_neg (by lia), Nat.zero_mul, Nat.zero_add, Nat.add_zero]
    obtain ⟨hcount, hblock⟩ := Image.read_inside hspb
      (show c.reservedSectors.toNat * 512 + c.sectorsPerBlock.toNat * 512 ≤ image.len by lia) fun _ => 0
    generalize image.read (fun _ => 0) c.reservedSectors.toNat c.sectorsPerBlock.toNat = third at hcount hblock
    have hthird : ∀ i, i < c.bytesPerBlock → third.2 i = c.rdb i := by
      intro i hi
      rw [hblock i (by lia), hbytes i hi]
    have hsum : checksumMatches c.bytesPerBlock third.2 = true := by
      rw [checksumMatches_congr (by lia) hthird]
      exact checksumMatches_addChecksum _
    have hfield : ∀ p k, p + k ≤ c.bytesPerBlock → third.2.read p k = c.rdb.read p k :=
      fun p k hp => Bytes.read_congr fun i hi => hthird _ (by lia)
    obtain ⟨huuid, hos⟩ := bytesFrom_rdb hfits
    rw [if_neg (by simp [hcount]), if_neg (by lia), if_neg (by simp [hsum])]
    unfold Afs.readBlock
    rw [ok_bind]
    dsimp only [List.nil_append, List.headD]
    rw [if_neg (by lia), hfield 0 8 (by lia), hfield 8 8 (by lia), hfield 17 1 (by lia), hfield 20 4 (by lia),
      hfield 24 8 (by lia), hfield 32 8 (by lia), hfield 40 8 (by lia), hfield 48 8 (by lia),
      hfield 56 8 (by lia), hfields.1, hfields.2.1, hfields.2.2.2.1, hfields.2.2.2.2.2.1, hfields.2.2.2.2.2.2.1,
      hfields.2.2.2.2.2.2.2.1, hfields.2.2.2.2.2.2.2.2.1, hfields.2.2.2.2.2.2.2.2.2.1, hfields.2.2.2.2.2.2.2.2.2.2,
      bytesFrom_congr fun i hi => hthird _ (by lia), bytesFrom_congr fun i hi => hthird _ (by lia), huuid, hos]
    rfl
  . rw [if_neg hsmall, if_pos (by lia)]
    rfl

theorem afs_open_makeFs_oneGroup
    : ∃ ws, makeFs (defaultInput 32768) = .ok (some ws)
        ∧ Afs.open (newImage (defaultInput 32768) ws) 0 = .ok (some (expected (defaultInput 32768), 0)) := by
  obtain ⟨ws, hws⟩ := exists_makeFs_oneGroup
  have hopen := afs_open_makeFs hws rfl (by decide) (by decide)
  rw [if_pos (by decide)] at hopen
  exact ⟨ws, hws, hopen⟩

end Emos.Tools.Afsimg

namespace Emos.Tools.MkfsAfs

open Boot

variable {c : FormatInput} {ws : List Write} {rbb gbb : Bytes}

/--
A device whose sectors are those of a new volume, and which does not fail.
-/
def newDisk (c : FormatInput) (ws : List Write) : BlockDevice where
  block := fun lba i => applyWrites c.image ws (512 * lba + i)
  fails := fun _ => none

theorem newDisk_bytesFrom (lba i : Nat) : (newDisk c ws).bytesFrom lba i = applyWrites c.image ws (512 * lba + i) := by
  have hdiv := Nat.div_add_mod i 512
  unfold BlockDevice.bytesFrom Blocks.flatten newDisk fatSectorSize
  dsimp only
  congr 1
  omega

/--
The driver's data of a new volume once the first block is in the buffer.
-/
structure Mounted (c : FormatInput) (ws : List Write) (d : AfsData) : Prop where
  blkdev : d.blkdev = newDisk c ws
  reservedSectors : d.reservedSectors = c.reservedSectors.toNat
  sectorsPerBlock : d.sectorsPerBlock = c.sectorsPerBlock.toNat
  blockSize : d.blockSize = c.bytesPerBlock
  blkbufNum : d.blkbufNum = 0
  blkbuf : d.blkbuf.isSome = true
  rootMdbPointer : d.rootMdbPointer = c.rootMdbPointer
  rbbPointer : d.rbbPointer = FormatInput.rbbPointer
  group0GbbPointer : d.group0GbbPointer = c.group0GbbPointer

/--
A block of the volume is read where it has been written.
-/
theorem Mounted.readBlock {d : AfsData} (hd : Mounted c ws d) (hreserved : 0 < c.reservedSectors.toNat)
    {index : Nat} (hindex : index < 2 ^ 55)
    : ∃ d' b, d.readBlock (.ofNat 64 index) = .ok ⟨.ok (), d'⟩ ∧ d'.blkbuf = some b
        ∧ ∀ i, i < c.bytesPerBlock → b i = applyWrites c.image ws (c.blockPosition index + i) := by
  have hreserved' := c.reservedSectors.toNat_lt
  have hspb' := c.sectorsPerBlock.toNat_lt
  have hsize : c.bytesPerBlock = c.sectorsPerBlock.toNat * fatSectorSize := Nat.mul_comm _ _
  have hmul : index * c.sectorsPerBlock.toNat ≤ 2 ^ 55 * 255 := Nat.mul_le_mul (by omega) (by omega)
  have hstart : d.blockStart (.ofNat 64 index) = c.reservedSectors.toNat + index * c.sectorsPerBlock.toNat := by
    unfold AfsData.blockStart
    rw [hd.reservedSectors, hd.sectorsPerBlock, BitVec.toNat_ofNat, Nat.mod_eq_of_lt (by omega)]
  have hlba : (d.blockToSector (.ofNat 64 index)).toNat = d.blockStart (.ofNat 64 index) :=
    AfsData.toNat_blockToSector (by omega)
  have hmiss : d.blkbufNum ≠ d.blockToSector (.ofNat 64 index) := by
    intro heq
    rw [← heq, hd.blkbufNum, hstart] at hlba
    have hzero : (0 : BitVec 64).toNat = 0 := rfl
    lia
  obtain ⟨buf, hbuf⟩ := Option.isSome_iff_exists.mp hd.blkbuf
  have hposition : c.blockPosition index = 512 * (c.reservedSectors.toNat + index * c.sectorsPerBlock.toNat) := by
    unfold FormatInput.blockPosition FormatInput.bytesPerBlock FormatInput.bytesPerSector
    ring
  have hfails : d.blkdev.fails d.readCount = none := by
    rw [hd.blkdev]
    rfl
  have hrun : d.readBlock (.ofNat 64 index) = .ok ⟨.ok (), { d with
      readCount := d.readCount + 1
      blkbuf := some (overwrite buf (d.blkdev.bytesFrom (d.blockToSector (.ofNat 64 index)).toNat)
        (d.sectorsPerBlock * fatSectorSize))
      blkbufNum := .ofNat 64 index }⟩ := by
    unfold AfsData.readBlock AfsData.readSectors
    dsimp only
    rw [if_neg hmiss, hbuf]
    dsimp only
    rw [if_neg (by rw [hd.blockSize, hd.sectorsPerBlock]; omega), hfails]
    rfl
  refine ⟨_, _, hrun, rfl, ?_⟩
  intro i hi
  unfold overwrite
  rw [hd.sectorsPerBlock, if_pos (by omega), hlba, hd.blkdev, newDisk_bytesFrom, hstart, hposition]

end Emos.Tools.MkfsAfs
