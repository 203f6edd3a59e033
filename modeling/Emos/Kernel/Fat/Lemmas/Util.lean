import Emos.Kernel.Fat.Impl.Util
import Emos.Lib.Bytes

/-!
This module contains what the kernel's FAT driver reads from and writes to file allocation tables.
Each copy of the table is seen as one array of bytes, whatever sectors they are in.
-/

open Lib

namespace Emos

theorem fat12Second_eq (entry value : Nat) (byte : BitVec 8)
    : fat12Second entry value byte
        =
      if entry % 2 = 1 then value / 16 % 256
      else byte.toNat / 16 * 16 + value / 256 % 16 := by
  have h := byte.isLt
  unfold fat12Second
  rw [Nat.and_one_is_mod]
  split
  . have hmask := land_mask_shiftRight value 8 4
    rw [show (2 ^ 8 - 1) <<< 4 = 0xFF0 by decide] at hmask
    exact hmask
  . have hmask := land_mask_shiftRight value 4 8
    have hkeep := land_mask_shiftLeft byte.toNat 4 4
    rw [show (2 ^ 4 - 1) <<< 8 = 0xF00 by decide] at hmask
    rw [show (2 ^ 4 - 1) <<< 4 = 0xF0 by decide] at hkeep
    rw [hmask, hkeep, Nat.lor_comm, lor_shiftLeft (by omega)]
    lia

theorem fat12First_eq (entry value : Nat) (byte : BitVec 8)
    : fat12First entry value byte
        =
      if entry % 2 = 1 then byte.toNat % 16 + 16 * (value % 16) else value % 256 := by
  unfold fat12First
  rw [Nat.and_one_is_mod]
  split
  . have hkeep := land_mask byte.toNat 4
    have hmask := land_mask value 4
    rw [show 2 ^ 4 - 1 = 0xF by decide] at hkeep hmask
    rw [hkeep, hmask, lor_shiftLeft (by omega)]
    lia
  . exact land_mask value 8

theorem fat32_merge {word : Nat} (hword : word < 2 ^ 32) (value : Nat)
    : (word &&& 0xF0000000) ||| (value &&& 0x0FFFFFFF) = word / 2 ^ 28 * 2 ^ 28 + value % 2 ^ 28 := by
  have hkeep := land_mask_shiftLeft word 4 28
  have hmask := land_mask value 28
  rw [show (2 ^ 4 - 1) <<< 28 = 0xF0000000 by decide] at hkeep
  rw [show 2 ^ 28 - 1 = 0x0FFFFFFF by decide] at hmask
  rw [hkeep, hmask, Nat.lor_comm, lor_shiftLeft (by omega)]
  lia

namespace FatData

def table (d : FatData) (c : BlockCache) (fat : Nat) : Bytes :=
  Blocks.flatten (fun sector => c.block (d.fatLba fat sector)) d.sectorSize

def tableSize (d : FatData) : Nat := d.fatSize * d.sectorSize

/--
Sectors have at least two bytes and the copies fit into the address space of the device.
-/
structure WellFormed (d : FatData) : Prop where
  sectorSize : 2 ≤ d.sectorSize
  copies : d.fatCount * d.fatSize ≤ 2 ^ 32

variable {d : FatData} {c : BlockCache} {fat fat' k k' : Nat}

theorem fatLba_injective (hd : d.WellFormed) (hfat : fat < d.fatCount) (hfat' : fat' < d.fatCount)
    {i j : Nat} (hi : i < d.fatSize) (hj : j < d.fatSize) (h : d.fatLba fat i = d.fatLba fat' j)
    : fat = fat' ∧ i = j := by
  have hcopies := hd.copies
  have hbound : ∀ a s, a < d.fatCount → s < d.fatSize → a * d.fatSize + s < 2 ^ 32 := by
    intro a s ha hs
    calc a * d.fatSize + s
      _ < a * d.fatSize + d.fatSize := by omega
      _ = (a + 1) * d.fatSize := by rw [Nat.add_mul, Nat.one_mul]
      _ ≤ d.fatCount * d.fatSize := Nat.mul_le_mul_right _ ha
      _ ≤ 2 ^ 32 := hcopies
  have h1 := hbound fat i hfat hi
  have h2 := hbound fat' j hfat' hj
  have hsum : fat * d.fatSize + i = fat' * d.fatSize + j := by
    unfold fatLba u32 at h
    simp only [Int.toNat_natCast, Nat.add_assoc] at h
    generalize fat * d.fatSize + i = a at *
    generalize fat' * d.fatSize + j = b at *
    lia
  have hcopy : fat = fat' := by
    have hdiv := congrArg (· / d.fatSize) hsum
    have hpos : 0 < d.fatSize := by lia
    simp only [Nat.mul_comm _ d.fatSize, Nat.mul_add_div hpos, Nat.div_eq_of_lt hi,
      Nat.div_eq_of_lt hj, Nat.add_zero] at hdiv
    exact hdiv
  subst hcopy
  exact ⟨rfl, Nat.add_left_cancel hsum⟩

theorem sector_lt (hk : k < d.tableSize) : k / d.sectorSize < d.fatSize := by
  apply Nat.div_lt_of_lt_mul
  rw [Nat.mul_comm]
  exact hk

theorem place_injective (hd : d.WellFormed) (hfat : fat < d.fatCount) (hfat' : fat' < d.fatCount)
    (hk : k < d.tableSize) (hk' : k' < d.tableSize)
    (hlba : d.fatLba fat (k / d.sectorSize) = d.fatLba fat' (k' / d.sectorSize))
    (hidx : k % d.sectorSize = k' % d.sectorSize)
    : fat = fat' ∧ k = k' := by
  obtain ⟨hcopy, hdiv⟩ := fatLba_injective hd hfat hfat' (sector_lt hk) (sector_lt hk') hlba
  refine ⟨hcopy, ?_⟩
  rw [← Nat.div_add_mod k d.sectorSize, ← Nat.div_add_mod k' d.sectorSize, hdiv, hidx]

theorem table_put (hd : d.WellFormed) (hfat : fat < d.fatCount) (hfat' : fat' < d.fatCount)
    (hk : k < d.tableSize) (hk' : k' < d.tableSize) (byte : Nat)
    : d.table (c.put (d.fatLba fat (k / d.sectorSize)) (k % d.sectorSize) byte) fat' k'
        =
      if fat' = fat ∧ k' = k then BitVec.ofNat 8 byte else d.table c fat' k' := by
  unfold table Blocks.flatten BlockCache.put
  dsimp only
  by_cases hlba : d.fatLba fat' (k' / d.sectorSize) = d.fatLba fat (k / d.sectorSize)
  . rw [hlba, Function.update_self]
    by_cases hidx : k' % d.sectorSize = k % d.sectorSize
    . have hplace := place_injective hd hfat' hfat hk' hk hlba hidx
      rw [if_pos hplace, hidx, Function.update_self]
    . rw [Function.update_of_ne hidx, if_neg]
      intro ⟨_, heq⟩
      exact hidx (by rw [heq])
  . rw [Function.update_of_ne hlba, if_neg]
    intro ⟨h1, h2⟩
    exact hlba (by rw [h1, h2])

theorem read_word {width : Nat} (entry : Nat) (hwidth : width ∣ d.sectorSize)
    (hpos : 0 < d.sectorSize)
    : Bytes.read (c.block (d.fatLba fat (entry / (d.sectorSize / width))))
          (entry % (d.sectorSize / width) * width) width
        =
      Bytes.read (d.table c fat) (entry * width) width :=
  Blocks.read_word (fun sector => c.block (d.fatLba fat sector)) entry hwidth hpos

theorem table_putWord (hd : d.WellFormed) (hfat : fat < d.fatCount) (hfat' : fat' < d.fatCount)
    {width entry : Nat} (hwidth : width ∣ d.sectorSize) (hk : (entry + 1) * width ≤ d.tableSize)
    (hk' : k' < d.tableSize) (v : Nat)
    : d.table (c.putWord (d.fatLba fat (entry / (d.sectorSize / width)))
          (entry % (d.sectorSize / width) * width) width v) fat' k'
        =
      if fat' = fat then Bytes.write (d.table c fat) (entry * width) width v k'
      else d.table c fat' k' := by
  have hpos : 0 < d.sectorSize := by
    have := hd.sectorSize
    omega
  have hmul : (entry + 1) * width = entry * width + width := by ring
  unfold table Blocks.flatten BlockCache.putWord
  dsimp only
  by_cases hlba : d.fatLba fat' (k' / d.sectorSize)
      = d.fatLba fat (entry / (d.sectorSize / width))
  . rw [hlba, Function.update_self]
    by_cases hzero : width = 0
    . subst hzero
      rw [Bytes.write, Bytes.write]
      split
      . next heq => rw [← hlba, heq]
      . rfl
    . obtain ⟨hdiv, hmod⟩ := Blocks.word_place entry hwidth (Nat.pos_of_ne_zero hzero) hpos
      rw [Nat.add_zero] at hdiv hmod
      rw [← hdiv] at hlba
      obtain ⟨hcopy, hsector⟩ := fatLba_injective hd hfat' hfat (sector_lt hk')
        (sector_lt (by lia)) hlba
      rw [if_pos hcopy, Bytes.write_apply, Bytes.write_apply]
      have h1 := Nat.div_add_mod k' d.sectorSize
      have h2 := Nat.div_add_mod (entry * width) d.sectorSize
      rw [hsector] at h1
      rw [hmod, Nat.add_zero] at h2
      rw [← hdiv, ← hsector, ← hcopy]
      generalize d.sectorSize * (entry * width / d.sectorSize) = base at h1 h2
      split
      . rw [if_pos (by lia)]
        congr 3
        lia
      . rw [if_neg (by lia)]
  . rw [Function.update_of_ne hlba]
    split
    . next heq =>
      subst heq
      rw [Bytes.write_outside]
      by_contra hin
      have hin' : k' - entry * width < width := by lia
      have hplace := (Blocks.word_place entry hwidth hin' hpos).1
      rw [show entry * width + (k' - entry * width) = k' by lia] at hplace
      exact hlba (by rw [hplace])
    . rfl

theorem accepts_eq_true {maxCluster entry : Nat} (hfat : fat < d.fatCount) (hentry : entry ≤ maxCluster)
    : d.accepts maxCluster fat entry = true := by
  unfold accepts
  simp
  omega

theorem table_congr {c' : BlockCache} (h : c'.block = c.block) (fat : Nat)
    : d.table c' fat = d.table c fat := by
  unfold table
  rw [h]

end FatData

namespace BlockCache

/--
No call of `fetch` is going to fail.
-/
def Reliable (c : BlockCache) : Prop := ∀ k, c.fails k = none

theorem Reliable.fetch_eq {c : BlockCache} (h : c.Reliable) (lba : Nat)
    : c.fetch lba
        =
      ⟨.ok (), { c with fetchCount := c.fetchCount + 1, events := .fetch lba :: c.events }⟩ := by
  unfold fetch
  rw [h]

end BlockCache

section Fat12

variable {d : FatData} {c : BlockCache} {fat entry : Nat}

theorem index_of_entry (hentry : entry ≤ fat12MaxCluster)
    : u32 (entry + entry >>> 1) = Packed12.index entry := by
  unfold Packed12.index fat12MaxCluster at *
  rw [Nat.shiftRight_one]
  exact u32_of_lt (by omega)

theorem divide_of_pos {a b : Nat} (h : 0 < b) : divide a b = .ok (a / b) := by
  unfold divide
  rw [if_neg (by omega)]

theorem readFatEntry12_eq (hpos : 2 ≤ d.sectorSize) (hc : c.Reliable) (hfat : fat < d.fatCount)
    (hentry : entry ≤ fat12MaxCluster)
    : ∃ c', readFatEntry12 d c fat entry = .ok ⟨.ok (Packed12.get (d.table c fat) entry), c'⟩
        ∧ c'.block = c.block := by
  have hnext := Blocks.next_place hpos (Packed12.index entry)
  unfold readFatEntry12
  rw [FatData.accepts_eq_true hfat hentry, index_of_entry hentry]
  simp only [Bool.not_true, Bool.false_eq_true, if_false]
  rw [divide_of_pos (by omega)]
  dsimp only [bind, Except.bind]
  rw [hc.fetch_eq]
  dsimp only
  unfold Packed12.get FatData.table Blocks.flatten
  split
  . next hin =>
    rw [if_pos hin] at hnext
    obtain ⟨hdiv, hmod⟩ := Prod.mk.inj hnext
    rw [hdiv, hmod]
    rw [fat12Value_eq]
    exact ⟨_, rfl, rfl⟩
  . next hlast =>
    rw [if_neg hlast] at hnext
    obtain ⟨hdiv, hmod⟩ := Prod.mk.inj hnext
    rw [hdiv, hmod]
    rw [BlockCache.Reliable.fetch_eq]
    . dsimp only
      rw [fat12Value_eq]
      exact ⟨_, rfl, rfl⟩
    . exact hc

theorem fat12First_table {value : Nat} (t : Bytes)
    : fat12First entry value (t (Packed12.index entry)) = (Packed12.bytesOf t entry value).1 := by
  rw [fat12First_eq]
  unfold Packed12.bytesOf
  split
  . rfl
  . rfl

theorem fat12Second_table {value : Nat} (t : Bytes)
    : fat12Second entry value (t (Packed12.index entry + 1))
        =
      (Packed12.bytesOf t entry value).2 := by
  rw [fat12Second_eq]
  unfold Packed12.bytesOf
  split
  . rfl
  . rfl

theorem table_put_put (hd : d.WellFormed) (hfat : fat < d.fatCount)
    (hsize : Packed12.index entry + 1 < d.tableSize) {value : Nat} {c1 c2 : BlockCache}
    (h1 : c1.block
      = (c.put (d.fatLba fat ((Packed12.index entry + 1) / d.sectorSize))
          ((Packed12.index entry + 1) % d.sectorSize)
          (fat12Second entry value (d.table c fat (Packed12.index entry + 1)))).block)
    (h2 : c2.block
      = (c1.put (d.fatLba fat (Packed12.index entry / d.sectorSize))
          (Packed12.index entry % d.sectorSize)
          (fat12First entry value (d.table c1 fat (Packed12.index entry)))).block)
    {fat' k : Nat} (hfat' : fat' < d.fatCount) (hk : k < d.tableSize)
    : d.table c2 fat' k
        =
      if fat' = fat then Packed12.set (d.table c fat) entry value k else d.table c fat' k := by
  have hkeep : d.table c1 fat (Packed12.index entry) = d.table c fat (Packed12.index entry) := by
    rw [FatData.table_congr h1, FatData.table_put hd hfat hfat hsize (by omega), if_neg (by omega)]
  rw [hkeep, fat12First_table] at h2
  rw [fat12Second_table] at h1
  rw [FatData.table_congr h2, FatData.table_put hd hfat hfat' (by omega) hk]
  rw [FatData.table_congr h1, FatData.table_put hd hfat hfat' hsize hk]
  unfold Packed12.set
  by_cases hcopy : fat' = fat
  . subst hcopy
    simp only [Function.update_apply, true_and, if_true]
  . simp only [hcopy, false_and, if_false]

theorem writeFatEntry12_eq (hd : d.WellFormed) (hc : c.Reliable) (hfat : fat < d.fatCount)
    (hentry : entry ≤ fat12MaxCluster) (hsize : Packed12.index entry + 1 < d.tableSize) {value : Nat}
    (hvalue : value ≤ fat12EndCluster)
    : ∃ c', writeFatEntry12 d c fat entry value = .ok ⟨.ok (), c'⟩ ∧ c'.Reliable
        ∧ ∀ fat' k, fat' < d.fatCount → k < d.tableSize →
          d.table c' fat' k
            =
          if fat' = fat then Packed12.set (d.table c fat) entry value k else d.table c fat' k := by
  have hpos := hd.sectorSize
  have hnext := Blocks.next_place hpos (Packed12.index entry)
  unfold writeFatEntry12
  rw [FatData.accepts_eq_true hfat hentry, index_of_entry hentry, if_neg (by omega)]
  simp only [Bool.not_true, Bool.false_eq_true, if_false]
  rw [divide_of_pos (by omega)]
  dsimp only [bind, Except.bind]
  rw [hc.fetch_eq]
  dsimp only
  split
  . next hlast =>
    rw [if_neg (by omega)] at hnext
    obtain ⟨hdiv, hmod⟩ := Prod.mk.inj hnext
    rw [BlockCache.Reliable.fetch_eq]
    . dsimp only
      refine ⟨_, rfl, hc, ?_⟩
      intro fat' k hfat' hk
      rw [← hdiv, ← hmod]
      apply table_put_put hd hfat hsize _ rfl hfat' hk
      rfl
    . exact hc
  . next hin =>
    have hmod := Nat.mod_lt (Packed12.index entry) (show 0 < d.sectorSize by omega)
    rw [if_pos (by lia)] at hnext
    obtain ⟨hdiv, hmod⟩ := Prod.mk.inj hnext
    refine ⟨_, rfl, hc, ?_⟩
    intro fat' k hfat' hk
    rw [← hmod]
    apply table_put_put hd hfat hsize _ rfl hfat' hk
    unfold FatData.table Blocks.flatten
    rw [hdiv]
    rfl

end Fat12

section FatWord

variable {d : FatData} {c : BlockCache} {fat entry maxCluster endCluster width : Nat}

theorem fetchFatWord_eq (hsector : 2 ≤ d.sectorSize) (hc : c.Reliable) (hwidth : width ∣ d.sectorSize)
    (hfat : fat < d.fatCount) (hentry : entry ≤ maxCluster)
    : ∃ c', fetchFatWord maxCluster width d c fat entry
          = .ok ⟨.ok ⟨d.fatLba fat (entry / (d.sectorSize / width)),
              entry % (d.sectorSize / width) * width⟩, c'⟩
        ∧ c'.block = c.block ∧ c'.Reliable := by
  have hpos : 0 < d.sectorSize / width := by
    exact Nat.div_pos (Nat.le_of_dvd (by omega) hwidth) (Nat.pos_of_dvd_of_pos hwidth (by omega))
  unfold fetchFatWord
  rw [FatData.accepts_eq_true hfat hentry, divide_of_pos hpos]
  simp only [Bool.not_true, Bool.false_eq_true, if_false]
  dsimp only [bind, Except.bind]
  rw [hc.fetch_eq]
  exact ⟨_, rfl, rfl, hc⟩

theorem readFatWord_eq (hpos : 2 ≤ d.sectorSize) (hc : c.Reliable) (hwidth : width ∣ d.sectorSize)
    (hfat : fat < d.fatCount) (hentry : entry ≤ maxCluster) (f : Nat → Nat)
    : ∃ c', readFatWord maxCluster width f d c fat entry
        = .ok ⟨.ok (f (Bytes.read (d.table c fat) (entry * width) width)), c'⟩ := by
  obtain ⟨c1, hfetch, hblock, _⟩ := fetchFatWord_eq hpos hc hwidth hfat hentry
  unfold readFatWord
  rw [hfetch]
  dsimp only [bind, Except.bind]
  rw [hblock, FatData.read_word entry hwidth (by omega)]
  exact ⟨_, rfl⟩

theorem writeFatWord_eq (hd : d.WellFormed) (hc : c.Reliable) (hwidth : width ∣ d.sectorSize)
    (hfat : fat < d.fatCount) (hentry : entry ≤ maxCluster)
    (hsize : (entry + 1) * width ≤ d.tableSize) {value : Nat} (hvalue : value ≤ endCluster)
    (f : Nat → Nat → Nat)
    : ∃ c', writeFatWord maxCluster endCluster width f d c fat entry value = .ok ⟨.ok (), c'⟩
        ∧ c'.Reliable
        ∧ ∀ fat' k, fat' < d.fatCount → k < d.tableSize →
          d.table c' fat' k
            =
          if fat' = fat then
            Bytes.write (d.table c fat) (entry * width) width
              (f (Bytes.read (d.table c fat) (entry * width) width) value) k
          else
            d.table c fat' k := by
  have hpos := hd.sectorSize
  obtain ⟨c1, hfetch, hblock, hc1⟩ := fetchFatWord_eq hpos hc hwidth hfat hentry
  unfold writeFatWord
  rw [if_neg (by omega), hfetch]
  dsimp only [bind, Except.bind]
  refine ⟨_, rfl, hc1, ?_⟩
  intro fat' k hfat' hk
  rw [hblock, FatData.read_word entry hwidth (by omega)]
  rw [← FatData.table_congr hblock, ← FatData.table_congr hblock]
  exact FatData.table_putWord hd hfat hfat' hwidth hsize hk _

end FatWord

namespace FatType

def entryEnd : FatType → Nat → Nat
  | .fat12, entry => Packed12.index entry + 2
  | .fat16, entry => (entry + 1) * 2
  | .fat32, entry => (entry + 1) * 4

/--
Entries of whole bytes do not cross from one sector to the next.
-/
def Aligned : FatType → FatData → Prop
  | .fat12, _ => True
  | .fat16, d => 2 ∣ d.sectorSize
  | .fat32, d => 4 ∣ d.sectorSize

/--
What writing `value` to an entry leaves in the table.
-/
def setEntry : FatType → Bytes → Nat → Nat → Bytes
  | .fat12, t, entry, value => Packed12.set t entry value
  | .fat16, t, entry, value => Bytes.write t (entry * 2) 2 value
  | .fat32, t, entry, value =>
    Bytes.write t (entry * 4) 4
      ((Bytes.read t (entry * 4) 4 &&& 0xF0000000) ||| (value &&& 0x0FFFFFFF))

variable {w : FatType} {d : FatData} {c : BlockCache} {t t' : Bytes} {fat entry value : Nat}

theorem entryAt_congr {size : Nat} (h : ∀ k, k < size → t' k = t k) (hsize : w.entryEnd entry ≤ size)
    : w.entryAt t' entry = w.entryAt t entry := by
  cases w with
  | fat12 =>
    simp only [entryEnd] at hsize
    exact Packed12.get_congr (h _ (by omega)) (h _ (by omega))
  | fat16 =>
    simp only [entryEnd] at hsize
    exact Bytes.read_congr fun i hi => h _ (by omega)
  | fat32 =>
    simp only [entryEnd] at hsize
    exact Bytes.read_congr fun i hi => h _ (by omega)

theorem entryAt_setEntry_other {e : Nat} (he : e ≠ entry)
    : w.entryAt (w.setEntry t entry value) e = w.entryAt t e := by
  cases w with
  | fat12 => exact (Packed12.isSet_set t entry value).get_other he
  | fat16 => exact Bytes.read_write_disjoint (by omega)
  | fat32 => exact Bytes.read_write_disjoint (by omega)

theorem entryAt_setEntry_self (hvalue : value ≤ w.endCluster)
    : w.entryAt (w.setEntry t entry value) entry
        =
      match w with
      | .fat12 | .fat16 => value
      | .fat32 => w.entryAt t entry / 2 ^ 28 * 2 ^ 28 + value := by
  cases w with
  | fat12 =>
    simp only [endCluster, fat12EndCluster] at hvalue
    exact (Packed12.isSet_set t entry value).get_self (by omega)
  | fat16 =>
    simp only [endCluster, fat16EndCluster] at hvalue
    exact Bytes.read_write_of_lt (by omega)
  | fat32 =>
    simp only [endCluster, fat32EndCluster] at hvalue
    have hword := Bytes.read_lt t (entry * 4) 4
    unfold setEntry entryAt
    dsimp only
    rw [fat32_merge (by omega), Nat.mod_eq_of_lt (show value < 2 ^ 28 by omega)]
    exact Bytes.read_write_of_lt (by omega)

theorem writeFatEntry_eq (w : FatType) (hd : d.WellFormed) (hw : w.Aligned d) (hc : c.Reliable)
    (hfat : fat < d.fatCount) (hentry : entry ≤ w.maxCluster)
    (hsize : w.entryEnd entry ≤ d.tableSize) (hvalue : value ≤ w.endCluster)
    : ∃ c', w.writeFatEntry d c fat entry value = .ok ⟨.ok (), c'⟩ ∧ c'.Reliable
        ∧ ∀ fat' k, fat' < d.fatCount → k < d.tableSize →
          d.table c' fat' k
            =
          if fat' = fat then w.setEntry (d.table c fat) entry value k else d.table c fat' k := by
  cases w with
  | fat12 => exact writeFatEntry12_eq hd hc hfat hentry hsize hvalue
  | fat16 => exact writeFatWord_eq hd hc hw hfat hentry hsize hvalue fun _ value => value
  | fat32 =>
    exact writeFatWord_eq hd hc hw hfat hentry hsize hvalue fun word value =>
      (word &&& 0xF0000000) ||| (value &&& 0x0FFFFFFF)

theorem readFatEntry_eq (w : FatType) (hpos : 2 ≤ d.sectorSize) (hw : w.Aligned d) (hc : c.Reliable)
    (hfat : fat < d.fatCount) (hentry : entry ≤ w.maxCluster)
    : ∃ c', w.readFatEntry d c fat entry
        =
      .ok ⟨.ok (match w with
        | .fat12 | .fat16 => w.entryAt (d.table c fat) entry
        | .fat32 => w.entryAt (d.table c fat) entry % 2 ^ 28), c'⟩ := by
  cases w with
  | fat12 =>
    obtain ⟨c', h, _⟩ := readFatEntry12_eq hpos hc hfat hentry
    exact ⟨c', h⟩
  | fat16 => exact readFatWord_eq hpos hc hw hfat hentry fun word => word
  | fat32 =>
    obtain ⟨c', h⟩ := readFatWord_eq hpos hc hw hfat hentry fun word => word &&& 0x0FFFFFFF
    have hmask := land_mask (Bytes.read (d.table c fat) (entry * 4) 4) 28
    rw [show 2 ^ 28 - 1 = 0x0FFFFFFF by decide] at hmask
    rw [hmask] at h
    exact ⟨c', h⟩

end FatType

/--
An entry reads back as it was written, and nothing else in any of the tables changes.
-/
theorem readFatEntry_writeFatEntry (w : FatType) {d : FatData} {c : BlockCache}
    (fat entry value : Nat) (hd : d.WellFormed) (hw : w.Aligned d) (hc : c.Reliable)
    (hfat : fat < d.fatCount) (hentry : entry ≤ w.maxCluster)
    (hsize : w.entryEnd entry ≤ d.tableSize) (hvalue : value ≤ w.endCluster)
    : ∃ c', w.writeFatEntry d c fat entry value = .ok ⟨.ok (), c'⟩
        ∧ (∃ c'', w.readFatEntry d c' fat entry = .ok ⟨.ok value, c''⟩)
        ∧ (∀ e, e ≠ entry → w.entryEnd e ≤ d.tableSize →
            w.entryAt (d.table c' fat) e = w.entryAt (d.table c fat) e)
        ∧ (∀ fat' k, fat' < d.fatCount → fat' ≠ fat → k < d.tableSize →
            d.table c' fat' k = d.table c fat' k)
        ∧ (w = .fat32 →
            w.entryAt (d.table c' fat) entry / 2 ^ 28
              = w.entryAt (d.table c fat) entry / 2 ^ 28) := by
  obtain ⟨c', hwrite, hc', htable⟩ := w.writeFatEntry_eq hd hw hc hfat hentry hsize hvalue
  have hsame : ∀ k, k < d.tableSize →
      d.table c' fat k = w.setEntry (d.table c fat) entry value k := by
    intro k hk
    rw [htable fat k hfat hk, if_pos rfl]
  have hself := FatType.entryAt_congr hsame hsize
  rw [FatType.entryAt_setEntry_self hvalue] at hself
  refine ⟨c', hwrite, ?_, ?_, ?_, ?_⟩
  . obtain ⟨c'', hread⟩ := w.readFatEntry_eq hd.sectorSize hw hc' hfat hentry
    rw [hself] at hread
    refine ⟨c'', hread.trans ?_⟩
    cases w with
    | fat12 => rfl
    | fat16 => rfl
    | fat32 =>
      simp only [FatType.endCluster, fat32EndCluster] at hvalue
      dsimp only
      congr 3
      lia
  . intro e he hend
    rw [FatType.entryAt_congr hsame hend]
    exact FatType.entryAt_setEntry_other he
  . intro fat' k hfat' hother hk
    rw [htable fat' k hfat' hk, if_neg hother]
  . intro hwidth
    subst hwidth
    simp only [FatType.endCluster, fat32EndCluster] at hvalue
    dsimp only at hself
    lia

/--
Entry 5 of this table has its second byte in another sector.
-/
theorem readFatEntry_writeFatEntry_straddling
    : let d : FatData := { fatCount := 2, reservedSectors := 1, sectorSize := 8, fatSize := 2 }
      let c : BlockCache :=
        { block := fun lba i => BitVec.ofNat 8 (lba + i), fails := fun _ => none, fetchCount := 0,
          events := [] }
      (Packed12.index 5 + 1) / d.sectorSize ≠ Packed12.index 5 / d.sectorSize
        ∧ ∃ c' c'', FatType.fat12.writeFatEntry d c 1 5 0xABC = .ok ⟨.ok (), c'⟩
          ∧ FatType.fat12.readFatEntry d c' 1 5 = .ok ⟨.ok 0xABC, c''⟩ := by
  intro d c
  refine ⟨by decide, ?_⟩
  have hd : d.WellFormed := ⟨by decide, by decide⟩
  have hc : c.Reliable := fun _ => rfl
  obtain ⟨c', hwrite, ⟨c'', hread⟩, _⟩ := readFatEntry_writeFatEntry .fat12 1 5 0xABC hd
    trivial hc (by decide) (by decide) (by decide) (by decide)
  exact ⟨c', c'', hwrite, hread⟩

end Emos
