import Emos.Lib.Crc
import Emos.Tools.Afsimg.Impl.Afs

/-!
This module contains that both versions of `crc32` compute the same, and that the checksum of a block
tells it from one in which a few bytes are not as they were.
-/

open Lib

namespace Emos.Tools.Afsimg

def crcPoly : BitVec 32 := 0xEDB88320

/--
The bytes from `i` on.
-/
def slice (m : Bytes) (i len : Nat) : List (BitVec 8) := (List.range' i len).map m

variable {m m' : Bytes} {i len : Nat} {crc : BitVec 32}

theorem slice_succ (m : Bytes) (i len : Nat) : slice m i (len + 1) = m i :: slice m (i + 1) len := by
  unfold slice
  rw [List.range'_succ, List.map_cons]

theorem slice_add (m : Bytes) (i a b : Nat) : slice m i (a + b) = slice m i a ++ slice m (i + a) b := by
  unfold slice
  rw [← List.range'_append_1, List.map_append]

theorem length_slice : (slice m i len).length = len := by
  unfold slice
  rw [List.length_map, List.length_range']

theorem slice_congr (h : ∀ j, i ≤ j → j < i + len → m' j = m j) : slice m' i len = slice m i len := by
  apply List.map_congr_left
  intro j hj
  rw [List.mem_range'_1] at hj
  exact h j hj.1 hj.2

theorem crc32Bits_eq (j : Nat) (crc : BitVec 32) : crc32Bits j crc = (Crc.shiftOut crcPoly)^[j] crc := by
  induction j generalizing crc with
  | zero => rfl
  | succ j ih =>
    have hmask : 0xEDB88320 &&& -(crc &&& 1) = if crc.getLsbD 0 then crcPoly else 0 := by
      have hone : crc &&& 1 = (BitVec.ofBool (crc.getLsbD 0)).setWidth 32 := BitVec.and_one_eq_setWidth_ofBool_getLsbD
      rw [hone]
      cases crc.getLsbD 0 <;> decide
    rw [crc32Bits, Function.iterate_succ_apply, ih]
    unfold Crc.shiftOut
    rw [hmask]

theorem go_eq (message : Bytes) (len i : Nat) (crc : BitVec 32)
    : crc32.go message len i crc = (slice message i len).foldl (Crc.feed crcPoly) crc := by
  induction len generalizing i crc with
  | zero => rfl
  | succ len ih =>
    rw [crc32.go, ih, slice_succ, List.foldl_cons, crc32Bits_eq]
    rfl

/--
`Crc.shiftOut` on the number that the bits stand for.
-/
def shiftOutNat (n : Nat) : Nat := n / 2 ^^^ n % 2 * 0xEDB88320

theorem toNat_shiftOut (x : BitVec 32) : (Crc.shiftOut crcPoly x).toNat = shiftOutNat x.toNat := by
  have hbit : x.getLsbD 0 = decide (x.toNat % 2 = 1) := Nat.testBit_zero x.toNat
  unfold Crc.shiftOut shiftOutNat
  rw [BitVec.toNat_xor, BitVec.toNat_ushiftRight, Nat.shiftRight_one, hbit]
  obtain heq | heq := Nat.mod_two_eq_zero_or_one x.toNat <;> rw [heq] <;> rfl

theorem toNat_iterate_shiftOut (k : Nat) (x : BitVec 32)
    : ((Crc.shiftOut crcPoly)^[k] x).toNat = shiftOutNat^[k] x.toNat := by
  induction k generalizing x with
  | zero => rfl
  | succ k ih => rw [Function.iterate_succ_apply, Function.iterate_succ_apply, ih, toNat_shiftOut]

-- the kernel computes with numbers, which is much faster than with `BitVec`
theorem map_toNat_crcTable : crcTable.toList.map BitVec.toNat = (List.range 256).map shiftOutNat^[8] := by
  decide +kernel

/--
The entries of the table are the bytes with eight bits shifted out.
-/
theorem crcTable_eq (b : Fin 256) : crcTable[b.val]! = (Crc.shiftOut crcPoly)^[8] (BitVec.ofNat 32 b) := by
  have hentry : (crcTable.toList.map BitVec.toNat)[b.val]? = some (shiftOutNat^[8] b) := by
    rw [map_toNat_crcTable, List.getElem?_map, List.getElem?_range b.isLt]
    rfl
  rw [List.getElem?_map, Option.map_eq_some_iff] at hentry
  obtain ⟨x, hx, heq⟩ := hentry
  rw [← Array.getElem!_toList, List.getElem!_of_getElem? hx]
  apply BitVec.eq_of_toNat_eq
  rw [heq, toNat_iterate_shiftOut, BitVec.toNat_ofNat, Nat.mod_eq_of_lt (by omega)]

/--
The low byte is looked up, and the others are just shifted.
-/
theorem table_step (crc : BitVec 32) (b : BitVec 8)
    : crcTable[((crc ^^^ b.setWidth 32) &&& 0xFF).toNat]! ^^^ (crc >>> 8) = Crc.feed crcPoly crc b := by
  have hbyte : (b.setWidth 32) >>> 8 = 0#32 := by
    apply BitVec.eq_of_toNat_eq
    have := b.isLt
    simp only [BitVec.toNat_ushiftRight, BitVec.toNat_setWidth, BitVec.toNat_ofNat]
    omega
  have hhigh : (crc ^^^ b.setWidth 32) >>> 8 = crc >>> 8 := by
    rw [BitVec.ushiftRight_xor_distrib, hbyte, BitVec.xor_zero]
  unfold Crc.feed
  rw [← hhigh, Crc.iterate_byte]
  generalize crc ^^^ b.setWidth 32 = x
  have hindex : (x &&& 0xFF).toNat = (x.setWidth 8).toNat := by
    rw [BitVec.toNat_and, BitVec.toNat_setWidth]
    exact Nat.and_two_pow_sub_one_eq_mod x.toNat 8
  have htable := crcTable_eq ⟨(x.setWidth 8).toNat, (x.setWidth 8).isLt⟩
  dsimp only at htable
  rw [BitVec.ofNat_toNat] at htable
  rw [hindex, htable]

theorem table_go_eq (buffer : Bytes) (len i : Nat) (crc : BitVec 32)
    : Tools.crc32.go buffer len i crc = (slice buffer i len).foldl (Crc.feed crcPoly) crc := by
  induction len generalizing i crc with
  | zero => rfl
  | succ len ih => rw [Tools.crc32.go, ih, slice_succ, List.foldl_cons, table_step]

/--
The version with the table and the one that takes bit after bit agree on every message.
-/
theorem crc32_eq (message : Bytes) (len : Nat) : Tools.crc32 message len = crc32 message len := by
  unfold Tools.crc32 crc32
  rw [table_go_eq, go_eq]
  exact BitVec.xor_allOnes

theorem crc32_congr (h : ∀ i, i < len → m' i = m i) : Tools.crc32 m' len = Tools.crc32 m len := by
  unfold Tools.crc32
  rw [table_go_eq, table_go_eq, slice_congr fun j _ hj => h j (by omega)]

theorem checksumMatches_congr {n : Nat} (hn : 4 ≤ n) (h : ∀ i, i < n → m' i = m i)
    : checksumMatches n m' = checksumMatches n m := by
  unfold checksumMatches
  rw [crc32_congr fun i hi => h i (by omega), Bytes.read_congr fun i hi => h _ (by omega)]

theorem checksumMatches_write (n : Nat) (buf : Bytes)
    : checksumMatches n (buf.write (n - 4) 4 (Tools.crc32 buf (n - 4)).toNat) = true := by
  have hlt := (Tools.crc32 buf (n - 4)).isLt
  unfold checksumMatches
  rw [Bytes.read_write_of_lt (by omega), crc32_congr fun i hi => Bytes.write_outside (.inl hi)]
  exact decide_eq_true rfl

/--
A number of at most four bytes is put in as it is stored.
-/
theorem toNat_word_slice {k : Nat} (hk : k ≤ 4) (m : Bytes) (i : Nat)
    : (Crc.word (slice m i k) : BitVec 32).toNat = m.read i k := by
  induction k generalizing i with
  | zero => rfl
  | succ k ih =>
    have hlt : (Crc.word (slice m (i + 1) k) : BitVec 32).toNat < 2 ^ (8 * (slice m (i + 1) k).length) :=
      Crc.word_lt (by rw [length_slice]; omega)
    rw [length_slice] at hlt
    have hle : 2 ^ (8 * k) ≤ 2 ^ 24 := Nat.pow_le_pow_right (by decide) (by omega)
    rw [slice_succ, Crc.toNat_word_cons (by decide) (by omega), ih (by omega)]
    rfl

/--
What is left of every block that has its checksum at the end.
-/
def residue : BitVec 32 := (Crc.shiftOut crcPoly)^[32] (BitVec.allOnes 32)

theorem crcPoly_top : crcPoly.getLsbD 31 = true := by decide

/--
The checksum at the end makes the remainder of the whole block a constant.
-/
theorem checksumMatches_iff {n : Nat} (hn : 4 ≤ n) (buf : Bytes)
    : checksumMatches n buf = true ↔ (slice buf 0 n).foldl (Crc.feed crcPoly) (BitVec.allOnes 32) = residue := by
  obtain ⟨k, rfl⟩ := Nat.exists_eq_add_of_le' hn
  have hword := toNat_word_slice (Nat.le_refl 4) buf k
  have hfold : (slice buf k 4).foldl (Crc.feed crcPoly) (~~~(Tools.crc32 buf k))
      = (Crc.shiftOut crcPoly)^[32] (~~~(Tools.crc32 buf k) ^^^ Crc.word (slice buf k 4)) := by
    rw [Crc.foldl_feed (by rw [length_slice]), length_slice]
  have hstate : (slice buf 0 k).foldl (Crc.feed crcPoly) (BitVec.allOnes 32) = ~~~(Tools.crc32 buf k) := by
    rw [crc32_eq]
    unfold crc32
    rw [go_eq, BitVec.not_not]
    rfl
  rw [slice_add, List.foldl_append, hstate, Nat.zero_add, hfold]
  unfold checksumMatches residue
  rw [Nat.add_sub_cancel, decide_eq_true_iff, ← hword, BitVec.toNat_inj]
  have hones : BitVec.allOnes 32 = ~~~(Tools.crc32 buf k) ^^^ Tools.crc32 buf k := by
    rw [← BitVec.xor_allOnes, BitVec.xor_comm, ← BitVec.xor_assoc, BitVec.xor_self, BitVec.zero_xor]
  constructor
  . intro heq
    rw [← heq, ← hones]
  . intro heq
    have heq := (Crc.shiftOut_injective crcPoly_top).iterate 32 heq
    rw [hones, BitVec.xor_right_inj] at heq
    exact heq.symm

/--
A block that differs from another one in up to four bytes in a row cannot have a matching checksum, too.
-/
theorem checksumMatches_burst {n p k : Nat} (hn : 4 ≤ n) (hk : k ≤ 4) (hin : p + k ≤ n)
    (hsame : ∀ i, i < p ∨ p + k ≤ i → m' i = m i) (hdiff : ∃ i, i < n ∧ m' i ≠ m i)
    (hmatches : checksumMatches n m = true)
    : checksumMatches n m' = false := by
  rw [← Bool.not_eq_true]
  intro hmatches'
  rw [checksumMatches_iff hn] at hmatches hmatches'
  have hsplit : ∀ b : Bytes, slice b 0 n = slice b 0 p ++ slice b p k ++ slice b (p + k) (n - (p + k)) := by
    intro b
    rw [List.append_assoc]
    calc slice b 0 n
      _ = slice b 0 (p + (k + (n - (p + k)))) := by
        congr 1
        lia
      _ = slice b 0 p ++ (slice b p k ++ slice b (p + k) (n - (p + k))) := by
        rw [slice_add, slice_add, Nat.zero_add]
  have hfront : slice m' 0 p = slice m 0 p := slice_congr fun j _ hj => hsame j (by omega)
  have hback : slice m' (p + k) (n - (p + k)) = slice m (p + k) (n - (p + k)) :=
    slice_congr fun j hj _ => hsame j (by omega)
  rw [hsplit, hfront, hback] at hmatches'
  rw [hsplit] at hmatches
  have heq := Crc.foldl_feed_burst crcPoly_top (slice m 0 p) (slice m (p + k) (n - (p + k))) _
    (by rw [length_slice]; omega) (by rw [length_slice, length_slice]) (hmatches'.trans hmatches.symm)
  obtain ⟨i, hi, hne⟩ := hdiff
  have hmid : p ≤ i ∧ i < p + k := by
    by_contra hout
    exact hne (hsame i (by omega))
  have hget := congrArg (·[i - p]?) heq
  unfold slice at hget
  simp [show i - p < k by lia, show p + (i - p) = i by lia] at hget
  exact hne hget

/--
Where a block starts in the file.
-/
def Afs.blockStart (afs : Afs) (blk : Nat) : Nat :=
  (afs.offset + afs.reservedSectors + blk * afs.sectorsPerBlock) * 512

variable {afs : Afs} {image image' : Image} {blk : Nat}

/--
The bytes of the file from `start` on, with zeroes behind its end.
-/
def Image.part (image : Image) (start n : Nat) : Bytes :=
  fun i => if i < n ∧ start + i < image.len then image.bytes (start + i) else 0

theorem Image.read_eq {lba count : Nat} (hcount : 0 < count)
    : image.read (fun _ => 0) lba count
        = (min count ((image.len - lba * 512) / 512), image.part (lba * 512) (count * 512)) :=
  if_neg (by omega)

theorem readBlock_one (hsize : afs.bytesPerBlock = afs.sectorsPerBlock * 512) (hpos : 0 < afs.sectorsPerBlock)
    : afs.readBlock image blk true 1 ⟨0, [], 0⟩
        =
      if min afs.sectorsPerBlock ((image.len - afs.blockStart blk) / 512) ≠ afs.sectorsPerBlock then
        .ok ⟨0, [], 0⟩
      else
        .ok ⟨1, [image.part (afs.blockStart blk) afs.bytesPerBlock],
          if checksumMatches afs.bytesPerBlock (image.part (afs.blockStart blk) afs.bytesPerBlock) = false then 1
          else 0⟩ := by
  unfold Afs.readBlock Afs.blockStart
  rw [if_neg (by omega)]
  dsimp only
  rw [Image.read_eq hpos, ← hsize]
  dsimp only
  split
  . rfl
  . rw [if_neg (by omega)]
    unfold Afs.readBlock
    simp

/--
When up to four bytes in a row have changed in a block that was read without a complaint, there is a complaint about it.
-/
theorem readBlock_detects {buf : Bytes} {p k : Nat} (hsize : afs.bytesPerBlock = afs.sectorsPerBlock * 512)
    (hpos : 0 < afs.sectorsPerBlock) (hread : afs.readBlock image blk true 1 ⟨0, [], 0⟩ = .ok ⟨1, [buf], 0⟩)
    (hk : k ≤ 4) (hstart : afs.blockStart blk ≤ p) (hend : p + k ≤ afs.blockStart blk + afs.bytesPerBlock)
    (hlen : image'.len = image.len) (hsame : ∀ i, i < p ∨ p + k ≤ i → image'.bytes i = image.bytes i)
    (hdiff : image'.bytes ≠ image.bytes)
    : ∃ buf', afs.readBlock image' blk true 1 ⟨0, [], 0⟩ = .ok ⟨1, [buf'], 1⟩ := by
  rw [readBlock_one hsize hpos] at hread ⊢
  rw [hlen]
  generalize afs.blockStart blk = start at hstart hend hread ⊢
  by_cases hcount : min afs.sectorsPerBlock ((image.len - start) / 512) ≠ afs.sectorsPerBlock
  . rw [if_pos hcount] at hread
    simp at hread
  . rw [if_neg hcount] at hread ⊢
    have hfits : afs.sectorsPerBlock * 512 ≤ image.len - start := by lia
    have hmatches : checksumMatches afs.bytesPerBlock (image.part start afs.bytesPerBlock) = true := by
      rw [← Bool.not_eq_false]
      intro hno
      rw [if_pos hno] at hread
      simp at hread
    obtain ⟨j, hj⟩ := Function.ne_iff.mp hdiff
    have hmid : p ≤ j ∧ j < p + k := by
      by_contra hout
      exact hj (hsame j (by omega))
    have hpart : ∀ i, i < p - start ∨ p - start + k ≤ i
        → image'.part start afs.bytesPerBlock i = image.part start afs.bytesPerBlock i := by
      intro i hi
      unfold Image.part
      rw [hlen, hsame (start + i) (by lia)]
    have hne : image'.part start afs.bytesPerBlock (j - start) ≠ image.part start afs.bytesPerBlock (j - start) := by
      unfold Image.part
      rw [show start + (j - start) = j by lia, if_pos (by lia), if_pos (by lia)]
      exact hj
    have hno := checksumMatches_burst (by lia) hk (by lia) hpart ⟨j - start, by lia, hne⟩ hmatches
    exact ⟨_, by rw [if_pos hno]⟩

/--
A volume of one sector, which is a block of zeroes with its checksum.
-/
def zeroAfs : Afs := ⟨0, 0, 1, 1, 1, 0, 512, 0, 0, 0, 0, 0, 0, [], [], 512⟩

def zeroImage : Image :=
  ⟨Bytes.write (fun _ => 0) (512 - 4) 4 (Tools.crc32 (fun _ => 0) (512 - 4)).toNat, 512⟩

theorem zeroImage_matches : checksumMatches 512 (zeroImage.part 0 512) = true := by
  have hpart : ∀ i, i < 512 → zeroImage.part 0 512 i = zeroImage.bytes i := by
    intro i hi
    unfold Image.part
    rw [Nat.zero_add, if_pos ⟨hi, hi⟩]
  rw [checksumMatches_congr (by decide) hpart]
  unfold zeroImage
  exact checksumMatches_write 512 fun _ => 0

theorem readBlock_detects_zero
    : ∃ buf, zeroAfs.readBlock { zeroImage with bytes := Function.update zeroImage.bytes 3 7 } 0 true 1 ⟨0, [], 0⟩
        = .ok ⟨1, [buf], 1⟩ := by
  have hread : zeroAfs.readBlock zeroImage 0 true 1 ⟨0, [], 0⟩ = .ok ⟨1, [zeroImage.part 0 512], 0⟩ := by
    have hblock : zeroAfs.blockStart 0 = 0 := rfl
    have hsize : zeroAfs.bytesPerBlock = 512 := rfl
    rw [readBlock_one rfl Nat.one_pos, if_neg (by decide), hblock, hsize, if_neg (by simp [zeroImage_matches])]
  have hold : zeroImage.bytes 3 = 0 := Bytes.write_outside (by decide)
  refine readBlock_detects (p := 3) (k := 1) rfl Nat.one_pos hread (by decide) (by decide) (by decide) rfl ?_ ?_
  . intro i hi
    exact Function.update_of_ne (by omega) _ _
  . intro heq
    have hbyte := congrFun heq 3
    dsimp only at hbyte
    rw [Function.update_self, hold] at hbyte
    exact absurd hbyte (by decide)

end Emos.Tools.Afsimg
