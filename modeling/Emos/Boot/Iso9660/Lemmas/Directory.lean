import Emos.Boot.Iso9660.Impl.Iso9660
import Emos.Fat.Lemmas.Geometry
import Emos.Lib.Loop

/-!
This module contains what the boot loader's ISO 9660 driver has in its buffer, the directories of a volume, and when
the driver enumerates them as it should.
-/

open Lib

namespace Emos.Boot.Iso9660

namespace Data

/--
The buffer has the sector that it is said to have.
-/
def Coherent (d : Data) : Prop :=
  ∀ lba : Nat, d.databufLba = lba → ∀ i < databufSize, d.databuf i = d.blkdev.block lba i

/--
A sector is in the buffer, or the device is going to read it.
-/
def Readable (d : Data) (lba : Nat) : Prop :=
  d.databufLba = lba ∨ d.blkdev.fails d.readCount = none

structure Holds (d d' : Data) (lba : Nat) : Prop where
  blkdev : d'.blkdev = d.blkdev
  sectorSize : d'.sectorSize = d.sectorSize
  databufLba : d'.databufLba = lba
  databuf : ∀ i < databufSize, d'.databuf i = d.blkdev.block lba i

variable {d d' : Data} {lba : Nat}

theorem Holds.coherent (h : Holds d d' lba) : d'.Coherent := by
  intro lba' htag
  rw [h.databufLba] at htag
  rw [← Int.ofNat_inj.mp htag, h.blkdev]
  exact h.databuf

theorem Holds.readable (h : Holds d d' lba) : d'.Readable lba := .inl h.databufLba

theorem readSector_holds {r : Unit} (hcoherent : d.Coherent)
    (h : d.readSector lba = ⟨.ok r, d'⟩)
    : Holds d d' lba := by
  unfold readSector at h
  split at h
  . next hhit =>
    cases h
    exact ⟨rfl, rfl, hhit, hcoherent lba hhit⟩
  . split at h
    . cases h
    . cases h
      exact ⟨rfl, rfl, rfl, fun i hi => if_pos hi⟩

theorem readSector_of_readable (hcoherent : d.Coherent) (hreadable : d.Readable lba)
    : ∃ d', d.readSector lba = ⟨.ok (), d'⟩ ∧ Holds d d' lba := by
  obtain ⟨d', h⟩ : ∃ d', d.readSector lba = ⟨.ok (), d'⟩ := by
    unfold readSector
    split
    . exact ⟨_, rfl⟩
    . next hmiss =>
      cases hreadable with
      | inl hhit => contradiction
      | inr hreads =>
        rw [hreads]
        exact ⟨_, rfl⟩
  exact ⟨d', h, readSector_holds hcoherent h⟩

theorem readSector_of_not_readable (hreadable : ¬ d.Readable lba)
    : ∃ status d', d.readSector lba = ⟨.error status, d'⟩ := by
  unfold Readable at hreadable
  rw [not_or] at hreadable
  unfold readSector
  rw [if_neg hreadable.1]
  cases hfails : d.blkdev.fails d.readCount with
  | none => exact absurd hfails hreadable.2
  | some failure => exact ⟨_, _, rfl⟩

/--
What reads of sectors leave, if all of them succeed. No other call changes what is known of a mounted
volume.
-/
def readSectors (d : Data) : List Nat → Option Data
  | [] => some d
  | lba :: lbas =>
    match d.readSector lba with
    | ⟨.error _, _⟩ => none
    | ⟨.ok _, d⟩ => d.readSectors lbas

theorem readSectors_coherent {lbas : List Nat} (hcoherent : d.Coherent)
    (h : d.readSectors lbas = some d')
    : d'.Coherent ∧ d'.blkdev = d.blkdev := by
  induction lbas generalizing d with
  | nil =>
    cases h
    exact ⟨hcoherent, rfl⟩
  | cons lba lbas ih =>
    unfold readSectors at h
    split at h
    . cases h
    . next d1 hread =>
      have hholds := readSector_holds hcoherent hread
      obtain ⟨hcoherent', hblkdev⟩ := ih hholds.coherent h
      exact ⟨hcoherent', hblkdev.trans hholds.blkdev⟩

end Data

variable {d d' : Data}

theorem mountLoop_coherent {fuel lba : Nat} {primary primary' : Option Nat} (hcoherent : d.Coherent)
    (h : mountLoop fuel d lba primary = .ok ⟨.ok primary', d'⟩)
    : d'.Coherent ∧ d'.blkdev = d.blkdev := by
  induction fuel generalizing d lba primary with
  | zero => cases h
  | succ fuel ih =>
    unfold mountLoop at h
    split at h
    . cases h
    . next hread =>
      have hholds := Data.readSector_holds hcoherent hread
      split at h
      . cases h
      . dsimp only at h
        split at h
        . obtain ⟨hcoherent', hblkdev⟩ := ih hholds.coherent h
          exact ⟨hcoherent', hblkdev.trans hholds.blkdev⟩
        . cases h
          exact ⟨hholds.coherent, hholds.blkdev⟩

theorem mount_coherent {fuel : Nat} {dev : BlockDevice} {blockSize : Except Status Nat}
    {create : Option Status} {memory : Option Bytes}
    (h : mount fuel dev blockSize create memory = .ok (.ok d))
    : d.Coherent ∧ d.blkdev = dev := by
  unfold mount at h
  cases blockSize with
  | error status => cases h
  | ok blockSize =>
    dsimp only at h
    split at h
    . cases h
    split at h
    . cases h
    . cases h
    . next memory =>
      rw [bind_eq_ok] at h
      obtain ⟨⟨r, d1⟩, hloop, h⟩ := h
      have hstart : Data.Coherent ⟨dev, 0, memory, -1, 0, 0⟩ := by
        intro lba htag
        dsimp only at htag
        omega
      split at h
      . cases h
      . cases h
      . next primary d2 heq =>
        cases heq
        obtain ⟨hcoherent1, hblkdev1⟩ := mountLoop_coherent hstart hloop
        split at h
        . cases h
        . next d3 hread3 =>
          have hholds3 := Data.readSector_holds hcoherent1 hread3
          split at h
          . cases h
          . next d4 hread4 =>
            have hcoherent3 : Data.Coherent { d3 with sectorSize := Bytes.read d3.databuf 128 2 } :=
              hholds3.coherent
            have hholds4 := Data.readSector_holds hcoherent3 hread4
            cases h
            exact ⟨hholds4.coherent, hholds4.blkdev.trans (hholds3.blkdev.trans hblkdev1)⟩

end Emos.Boot.Iso9660

namespace Emos.Boot.Iso9660

/--
The bytes of a directory record, of which the first one tells how many there are.
-/
structure Record where
  bytes : List (BitVec 8)
  entrySize : (bytes.getD 0 0).toNat = bytes.length
  filenameLen : 0 < (bytes.getD 32 0).toNat
  filename : 33 + (bytes.getD 32 0).toNat ≤ bytes.length

namespace Record

def byteAt (r : Record) : Bytes := fun i => r.bytes.getD i 0

def header (r : Record) : DirEntryHeader := fun i => r.byteAt i

def entry (r : Record) : DirectoryEntry :=
  ⟨entryName r.byteAt 33 r.header.filenameLen, r.header.dataSize⟩

end Record

/--
The bytes of records one after the other, and zeros behind them.
-/
def contents (rs : List Record) : Bytes := fun i => (rs.flatMap Record.bytes).getD i 0

def totalSize (rs : List Record) : Nat := (rs.flatMap Record.bytes).length

def StoredAt (dev : BlockDevice) : Nat → List (List Record) → Prop
  | _, [] => True
  | lba, rs :: sectors =>
    (totalSize rs ≤ databufSize ∧ ∀ i < databufSize, dev.block lba i = contents rs i)
      ∧ StoredAt dev (lba + 1) sectors

structure Place where
  lba : Nat
  offset : Nat
  record : Record

def places (lba : Nat) : Nat → List Record → List Place
  | _, [] => []
  | offset, r :: rs => ⟨lba, offset, r⟩ :: places lba (offset + r.bytes.length) rs

/--
The places of all records of a directory, in their order.
-/
def allPlaces : Nat → List (List Record) → List Place
  | _, [] => []
  | lba, rs :: sectors => places lba 0 rs ++ allPlaces (lba + 1) sectors

/--
Calls of `iter_directory` report what is at the places, and then the end of the list.
-/
def Yields (d : Data) (dir : DirData) : List Place → Prop
  | [] => ∃ d' dir', iterDirectory d dir = .ok ⟨.error .endOfList, d', dir'⟩
  | p :: ps =>
    dir.currentLba = p.lba ∧ dir.currentEntryOffset = p.offset
      ∧ ∃ d' dir', iterDirectory d dir = .ok ⟨.ok p.record.entry, d', dir'⟩
        ∧ dir'.direntry = p.record.header ∧ Yields d' dir' ps

def iterTimes : Nat → Data → DirData → Run (Data × DirData)
  | 0, d, dir => .ok ⟨d, dir⟩
  | n + 1, d, dir => do
    let ⟨_, d, dir⟩ ← iterDirectory d dir
    iterTimes n d dir

/--
A directory is enumerated after each call of `rewind_directory`, and names that are not found there
are looked up to no avail.
-/
structure Enumerates (d : Data) (dir : DirData) (ps : List Place) : Prop where
  yields : Yields d (rewindDirectory dir) ps
  absent : ∀ name, (∀ p ∈ ps, ∃ n ≠ 0, strncasecmp name p.record.entry.name filenameMax = .ok n)
    → ∃ fuel d' dir', matchName fuel d dir name = .ok ⟨.error .entryNotFound, d', dir'⟩
  again : ∀ n, ∃ d' dir', iterTimes n d (rewindDirectory dir) = .ok ⟨d', dir'⟩
    ∧ Yields d' (rewindDirectory dir') ps

section Contents

variable {r : Record} {rs pre post : List Record}

theorem Record.header_entrySize (r : Record) : r.header.entrySize = r.bytes.length := by
  rw [← r.entrySize]
  rfl

theorem Record.header_filenameLen (r : Record)
    : r.header.filenameLen = (r.bytes.getD 32 0).toNat := rfl

theorem Record.length_lt (r : Record) : 33 < r.bytes.length ∧ r.bytes.length < 256 := by
  have hname := r.filenameLen
  have hlen := r.filename
  have hbyte := (r.bytes.getD 0 0).isLt
  rw [r.entrySize] at hbyte
  omega

theorem totalSize_append (rs rs' : List Record)
    : totalSize (rs ++ rs') = totalSize rs + totalSize rs' := by
  unfold totalSize
  rw [List.flatMap_append, List.length_append]

theorem totalSize_cons (r : Record) (rs : List Record)
    : totalSize (r :: rs) = r.bytes.length + totalSize rs := by
  unfold totalSize
  rw [List.flatMap_cons, List.length_append]

theorem totalSize_concat (rs : List Record) (r : Record)
    : totalSize (rs ++ [r]) = totalSize rs + r.bytes.length := by
  rw [totalSize_append, totalSize_cons]
  rfl

theorem contents_of_record {i : Nat} (hi : i < r.bytes.length)
    : contents (pre ++ r :: post) (totalSize pre + i) = r.byteAt i := by
  unfold contents totalSize Record.byteAt
  rw [List.flatMap_append, List.flatMap_cons, List.getD_append_right _ _ _ _ (by omega),
    List.getD_append _ _ _ _ (by omega)]
  congr 1
  lia

theorem contents_of_le {i : Nat} (hi : totalSize rs ≤ i) : contents rs i = 0 :=
  List.getD_eq_default _ _ hi

end Contents

section Name

variable {m m' : Bytes} {p p' len : Nat}

theorem beforeVersion_congr (h : ∀ i < len, m (p + i) = m' (p' + i))
    : beforeVersion m p len = beforeVersion m' p' len := by
  induction len generalizing p p' with
  | zero => rfl
  | succ len ih =>
    unfold beforeVersion
    have hfirst : m p = m' p' := h 0 (by omega)
    have hrest : beforeVersion m (p + 1) len = beforeVersion m' (p' + 1) len := by
      apply ih
      intro i hi
      have := h (i + 1) (by omega)
      rw [show p + 1 + i = p + (i + 1) by omega, show p' + 1 + i = p' + (i + 1) by omega]
      exact this
    rw [hfirst, hrest]

theorem entryName_congr (hlen : 0 < len) (h : ∀ i < len, m (p + i) = m' (p' + i))
    : entryName m p len = entryName m' p' len := by
  unfold entryName
  have hfirst : m p = m' p' := h 0 hlen
  rw [hfirst, beforeVersion_congr h]

end Name

section Iteration

variable {d d' : Data} {dir : DirData} {r : Record} {rs pre post : List Record}

theorem Data.nameAt_of_le {p len : Nat} (hlen : 0 < len) (hp : p + len ≤ databufSize)
    : d.nameAt p len = .ok (entryName d.databuf p len) := by
  unfold nameAt databufAt
  rw [if_pos (by omega)]
  dsimp only [bind, Except.bind]
  split
  . rfl
  . rw [if_pos (by omega)]

theorem Data.headerAt_of_le {offset : Nat} (h : offset + 33 ≤ databufSize)
    : d.headerAt offset = .ok fun i => d.databuf (offset + i) := if_pos h

theorem iterDirectory_record (hcoherent : d.Coherent) (hreadable : d.Readable dir.currentLba)
    (hfits : totalSize (pre ++ r :: post) ≤ databufSize)
    (hblock : ∀ i < databufSize, d.blkdev.block dir.currentLba i = contents (pre ++ r :: post) i)
    (hoffset : dir.currentEntryOffset = totalSize pre)
    : ∃ d', iterDirectory d dir = .ok ⟨.ok r.entry, d', dir.advance r.header d.sectorSize⟩
        ∧ d.Holds d' dir.currentLba := by
  obtain ⟨d', hread, hholds⟩ := Data.readSector_of_readable hcoherent hreadable
  refine ⟨d', ?_, hholds⟩
  have hlength := r.length_lt
  have hname := r.filename
  rw [totalSize_append, totalSize_cons] at hfits
  have hbuf : ∀ i < r.bytes.length, d'.databuf (totalSize pre + i) = r.byteAt i := by
    intro i hi
    rw [hholds.databuf _ (by omega), hblock _ (by omega), contents_of_record hi]
  have hfirst : d'.databuf (totalSize pre) ≠ 0 := by
    intro hzero
    have hsize := r.entrySize
    rw [show r.bytes.getD 0 0 = d'.databuf (totalSize pre) from (hbuf 0 (by omega)).symm, hzero]
      at hsize
    simp at hsize
    omega
  have hheader : (fun i : Fin 33 => d'.databuf (totalSize pre + i)) = r.header := by
    funext i
    exact hbuf i (by omega)
  have hentryname : entryName d'.databuf (totalSize pre + 33) r.header.filenameLen
      = entryName r.byteAt 33 r.header.filenameLen := by
    apply entryName_congr
    . exact r.filenameLen
    . intro i hi
      rw [Nat.add_assoc]
      rw [Record.header_filenameLen] at hi
      exact hbuf (33 + i) (by omega)
  unfold iterDirectory
  rw [hread, hoffset]
  dsimp only
  unfold Data.databufAt
  rw [if_pos (by omega)]
  dsimp only [bind, Except.bind]
  rw [if_neg hfirst, Data.headerAt_of_le (by lia)]
  dsimp only
  rw [hheader, Record.header_filenameLen, Data.nameAt_of_le r.filenameLen (by omega)]
  dsimp only
  rw [← Record.header_filenameLen, hentryname, hholds.sectorSize]
  rfl

theorem iterDirectory_end (hcoherent : d.Coherent) (hreadable : d.Readable dir.currentLba)
    (hblock : ∀ i < databufSize, d.blkdev.block dir.currentLba i = contents rs i)
    (hoffset : totalSize rs ≤ dir.currentEntryOffset) (hend : dir.currentEntryOffset < databufSize)
    : ∃ d', iterDirectory d dir = .ok ⟨.error .endOfList, d', dir⟩
        ∧ d.Holds d' dir.currentLba := by
  obtain ⟨d', hread, hholds⟩ := Data.readSector_of_readable hcoherent hreadable
  refine ⟨d', ?_, hholds⟩
  have hzero : d'.databuf dir.currentEntryOffset = 0 := by
    rw [hholds.databuf _ hend, hblock _ hend, contents_of_le hoffset]
  unfold iterDirectory
  rw [hread]
  dsimp only
  unfold Data.databufAt
  rw [if_pos hend, hzero]
  rfl

theorem DirData.advance_of_lt {offset : Nat} (hlt : offset < databufSize)
    (hoffset : dir.currentEntryOffset + (r.bytes.length + r.header.attribRecordSize) = offset)
    : dir.advance r.header databufSize
        =
      { dir with direntry := r.header, currentEntryOffset := offset } := by
  unfold databufSize at hlt
  unfold advance
  rw [r.header_entrySize, hoffset, u32_of_lt (by omega)]
  exact if_neg (by unfold databufSize; omega)

theorem DirData.advance_of_le {offset : Nat} (hle : databufSize ≤ offset) (hlt : offset < 2 ^ 32)
    (hoffset : dir.currentEntryOffset + (r.bytes.length + r.header.attribRecordSize) = offset)
    : dir.advance r.header databufSize
        =
      { dir with
        direntry := r.header, currentEntryOffset := 0, dataStartLba := dir.dataStartLba + 1 } := by
  unfold advance
  rw [r.header_entrySize, hoffset, u32_of_lt hlt]
  exact if_pos hle

theorem DirData.advance_currentLba (dir : DirData) (header : DirEntryHeader) (sectorSize : Nat)
    : (dir.advance header sectorSize).currentLba = dir.currentLba := by
  unfold advance
  dsimp only
  split
  . rfl
  . rfl

end Iteration

/--
All records are in the first sector. They do not fill it, and only the last one may have an extended
attribute record, whose size is taken for that of a gap between records.
-/
structure OneSector (first : List Record) (rest : List (List Record)) : Prop where
  rest : ∀ rs ∈ rest, rs = []
  dropLast : ∀ r ∈ first.dropLast, r.header.attribRecordSize = 0
  getLast : ∀ r ∈ first.getLast?, totalSize first + r.header.attribRecordSize < databufSize

/--
The records `post` of the first sector are yet to be reported.
-/
structure Pending (d : Data) (dir : DirData) (lba : Nat) (first post : List Record) : Prop where
  coherent : d.Coherent
  readable : d.Readable lba
  sectorSize : d.sectorSize = databufSize
  block : ∀ i < databufSize, d.blkdev.block lba i = contents first i
  currentLba : dir.currentLba = lba
  dataStartLba : dir.dataStartLba = lba
  position : ∃ pre, first = pre ++ post
    ∧ (post ≠ [] → dir.currentEntryOffset = totalSize pre)
    ∧ (post = [] → totalSize first ≤ dir.currentEntryOffset ∧ dir.currentEntryOffset < databufSize)

namespace Pending

variable {d d' : Data} {dir dir' : DirData} {lba : Nat} {first post : List Record} {r : Record}
  {rest : List (List Record)}

theorem move (h : Pending d dir lba first post) (hholds : d.Holds d' lba)
    (hcurrent : dir'.currentLba = lba) (hstart : dir'.dataStartLba = lba) {post' : List Record}
    (hposition : ∃ pre, first = pre ++ post'
      ∧ (post' ≠ [] → dir'.currentEntryOffset = totalSize pre)
      ∧ (post' = [] →
        totalSize first ≤ dir'.currentEntryOffset ∧ dir'.currentEntryOffset < databufSize))
    : Pending d' dir' lba first post' where
  coherent := hholds.coherent
  readable := hholds.readable
  sectorSize := hholds.sectorSize.trans h.sectorSize
  block := by
    rw [hholds.blkdev]
    exact h.block
  currentLba := hcurrent
  dataStartLba := hstart
  position := hposition

theorem rewind (h : Pending d dir lba first post)
    : Pending d (rewindDirectory dir) lba first first where
  coherent := h.coherent
  readable := h.readable
  sectorSize := h.sectorSize
  block := h.block
  currentLba := h.dataStartLba
  dataStartLba := h.dataStartLba
  position := by
    refine ⟨[], rfl, fun _ => rfl, ?_⟩
    intro hempty
    rw [hempty]
    exact ⟨Nat.le_refl 0, show 0 < databufSize by decide⟩

theorem iter_end (h : Pending d dir lba first [])
    : ∃ d', iterDirectory d dir = .ok ⟨.error .endOfList, d', dir⟩
        ∧ Pending d' dir lba first [] := by
  obtain ⟨pre, hpre, hoffset, hend⟩ := h.position
  obtain ⟨d', hiter, hholds⟩ := iterDirectory_end h.coherent (by rw [h.currentLba]; exact h.readable)
    (by rw [h.currentLba]; exact h.block) (hend rfl).1 (hend rfl).2
  rw [h.currentLba] at hholds
  exact ⟨d', hiter, h.move hholds h.currentLba h.dataStartLba h.position⟩

theorem iter_record (hone : OneSector first rest) (hfits : totalSize first ≤ databufSize)
    (h : Pending d dir lba first (r :: post))
    : ∃ d' dir', iterDirectory d dir = .ok ⟨.ok r.entry, d', dir'⟩ ∧ dir'.direntry = r.header
        ∧ (post ≠ [] → dir'.currentEntryOffset = dir.currentEntryOffset + r.bytes.length)
        ∧ Pending d' dir' lba first post := by
  obtain ⟨pre, hpre, hoffset, -⟩ := h.position
  replace hoffset := hoffset (by simp)
  obtain ⟨d', hiter, hholds⟩ := iterDirectory_record h.coherent
    (by rw [h.currentLba]; exact h.readable) (by rw [← hpre]; exact hfits)
    (by rw [h.currentLba, ← hpre]; exact h.block) hoffset
  rw [h.currentLba] at hholds
  rw [h.sectorSize] at hiter
  have htotal : totalSize first = totalSize pre + (r.bytes.length + totalSize post) := by
    rw [hpre, totalSize_append, totalSize_cons]
  cases post with
  | nil =>
    have hlast : totalSize first + r.header.attribRecordSize < databufSize := by
      apply hone.getLast
      rw [hpre]
      simp
    have hsize : totalSize first = totalSize pre + r.bytes.length := htotal
    rw [DirData.advance_of_lt hlast (by lia)] at hiter
    refine ⟨d', _, hiter, rfl, by simp, ?_⟩
    apply h.move hholds
    . exact h.currentLba
    . exact h.dataStartLba
    . refine ⟨first, by simp, by simp, ?_⟩
      intro _
      exact ⟨Nat.le_add_right _ _, hlast⟩
  | cons r' post =>
    have hattrib : r.header.attribRecordSize = 0 := by
      apply hone.dropLast
      rw [hpre, List.dropLast_append_of_ne_nil (by simp)]
      simp
    have hnext := r'.length_lt
    rw [totalSize_cons] at htotal
    have hlt : totalSize (pre ++ [r]) < databufSize := by
      rw [totalSize_concat]
      omega
    rw [DirData.advance_of_lt hlt (by rw [totalSize_concat, hattrib, hoffset]; rfl)] at hiter
    refine ⟨d', _, hiter, rfl, fun _ => by rw [hoffset, totalSize_concat], ?_⟩
    apply h.move hholds
    . exact h.currentLba
    . exact h.dataStartLba
    . refine ⟨pre ++ [r], by simp [hpre], ?_, by simp⟩
      intro _
      rfl

section Run

variable (hone : OneSector first rest) (hfits : totalSize first ≤ databufSize)

include hone hfits

theorem yields (h : Pending d dir lba first post) {offset : Nat}
    (hoffset : post ≠ [] → dir.currentEntryOffset = offset)
    : Yields d dir (places lba offset post) := by
  induction post generalizing d dir offset with
  | nil =>
    obtain ⟨d', hiter, -⟩ := h.iter_end
    exact ⟨d', dir, hiter⟩
  | cons r post ih =>
    obtain ⟨d', dir', hiter, hheader, hnext, hpending⟩ := h.iter_record hone hfits
    have hoffset := hoffset (by simp)
    refine ⟨h.currentLba, hoffset, d', dir', hiter, hheader, ih hpending ?_⟩
    intro hpost
    rw [hnext hpost, hoffset]

theorem absent (h : Pending d dir lba first post) (name : List (BitVec 8))
    (hname : ∀ r ∈ post, ∃ n ≠ 0, strncasecmp name r.entry.name filenameMax = .ok n)
    : ∃ d' dir', matchLoop name (post.length + 1) d dir = .ok ⟨.error .entryNotFound, d', dir'⟩ := by
  induction post generalizing d dir with
  | nil =>
    obtain ⟨d', hiter, -⟩ := h.iter_end
    unfold matchLoop
    rw [hiter]
    exact ⟨_, _, rfl⟩
  | cons r post ih =>
    obtain ⟨d1, dir1, hiter, -, -, hpending⟩ := h.iter_record hone hfits
    rw [List.forall_mem_cons] at hname
    obtain ⟨n, hn, hcompare⟩ := hname.1
    obtain ⟨d', dir', hloop⟩ := ih hpending hname.2
    refine ⟨d', dir', ?_⟩
    rw [List.length_cons]
    unfold matchLoop
    rw [hiter]
    dsimp only [bind, Except.bind]
    rw [hcompare]
    dsimp only
    rw [if_neg hn]
    exact hloop

theorem iterTimes (h : Pending d dir lba first post) (n : Nat)
    : ∃ d' dir' post', iterTimes n d dir = .ok ⟨d', dir'⟩ ∧ Pending d' dir' lba first post' := by
  induction n generalizing d dir post with
  | zero => exact ⟨d, dir, post, rfl, h⟩
  | succ n ih =>
    unfold Iso9660.iterTimes
    cases post with
    | nil =>
      obtain ⟨d1, hiter, hpending⟩ := h.iter_end
      rw [hiter]
      exact ih hpending
    | cons r post =>
      obtain ⟨d1, dir1, hiter, -, -, hpending⟩ := h.iter_record hone hfits
      rw [hiter]
      exact ih hpending

end Run

end Pending

section Necessity

variable {d d' : Data} {dir dir' : DirData} {lba : Nat} {ps : List Place} {r : Record}
  {first pre post : List Record} {rest : List (List Record)}

theorem iterDirectory_currentLba {e : Except Status DirectoryEntry}
    (h : iterDirectory d dir = .ok ⟨e, d', dir'⟩)
    : dir'.currentLba = dir.currentLba := by
  unfold iterDirectory at h
  split at h
  . cases h
    rfl
  . rw [bind_eq_ok] at h
    obtain ⟨entrySize, -, h⟩ := h
    split at h
    . cases h
      rfl
    . rw [bind_eq_ok] at h
      obtain ⟨header, -, h⟩ := h
      rw [bind_eq_ok] at h
      obtain ⟨name, -, h⟩ := h
      cases h
      exact dir.advance_currentLba header _

theorem Yields.lba_eq (h : Yields d dir ps) : ∀ p ∈ ps, p.lba = dir.currentLba := by
  induction ps generalizing d dir with
  | nil => simp
  | cons p ps ih =>
    obtain ⟨hlba, -, d', dir', hiter, -, hrest⟩ := h
    have hsame := iterDirectory_currentLba hiter
    rw [List.forall_mem_cons]
    refine ⟨hlba.symm, ?_⟩
    rw [← hsame]
    exact ih hrest

theorem lba_le_of_mem_allPlaces {sectors : List (List Record)} {p : Place}
    (h : p ∈ allPlaces lba sectors)
    : lba ≤ p.lba := by
  induction sectors generalizing lba with
  | nil => cases h
  | cons rs sectors ih =>
    have hplaces : ∀ offset, p ∈ places lba offset rs → p.lba = lba := by
      clear h
      induction rs with
      | nil => simp [places]
      | cons r rs ih =>
        intro offset h
        unfold places at h
        cases h with
        | head => rfl
        | tail _ h => exact ih _ h
    unfold allPlaces at h
    rw [List.mem_append] at h
    cases h with
    | inl h => exact Nat.le_of_eq (hplaces 0 h).symm
    | inr h =>
      have := ih h
      omega

theorem exists_mem_places (lba offset : Nat) {rs : List Record} (h : r ∈ rs)
    : ∃ p ∈ places lba offset rs, p.record = r := by
  induction rs generalizing offset with
  | nil => cases h
  | cons r' rs ih =>
    cases h with
    | head => exact ⟨_, .head _, rfl⟩
    | tail _ h =>
      obtain ⟨p, hp, hr⟩ := ih (offset + r'.bytes.length) h
      exact ⟨p, .tail _ hp, hr⟩

theorem allPlaces_eq_nil {sectors : List (List Record)} (h : allPlaces lba sectors = [])
    : ∀ rs ∈ sectors, rs = [] := by
  induction sectors generalizing lba with
  | nil => simp
  | cons rs sectors ih =>
    unfold allPlaces at h
    rw [List.append_eq_nil_iff] at h
    rw [List.forall_mem_cons]
    refine ⟨?_, ih h.2⟩
    cases rs with
    | nil => rfl
    | cons r rs => cases h.1

theorem allPlaces_of_nil {sectors : List (List Record)} (h : ∀ rs ∈ sectors, rs = [])
    : allPlaces lba sectors = [] := by
  induction sectors generalizing lba with
  | nil => rfl
  | cons rs sectors ih =>
    rw [List.forall_mem_cons] at h
    unfold allPlaces
    rw [h.1, ih h.2]
    rfl

theorem Record.attribRecordSize_lt (r : Record) : r.header.attribRecordSize < 256 :=
  Bytes.read_lt _ 1 1

theorem Yields.offset_eq {lba offset : Nat} (h : Yields d dir (places lba offset (r :: post)))
    : dir.currentEntryOffset = offset := h.2.1

theorem Yields.attribRecordSize (pre : List Record) (hcoherent : d.Coherent)
    (hreadable : d.Readable dir.currentLba) (hsize : d.sectorSize = databufSize)
    (hfits : totalSize (pre ++ r :: post) ≤ databufSize)
    (hblock : ∀ i < databufSize, d.blkdev.block dir.currentLba i = contents (pre ++ r :: post) i)
    (h : Yields d dir (places lba (totalSize pre) (r :: post)))
    : (∀ r' ∈ (r :: post).dropLast, r'.header.attribRecordSize = 0)
        ∧ ∀ r' ∈ (r :: post).getLast?,
          totalSize (pre ++ r :: post) + r'.header.attribRecordSize < databufSize := by
  induction post generalizing d dir pre r with
  | nil =>
    have hoffset := h.offset_eq
    obtain ⟨d1, hiter1, hholds⟩ :=
      iterDirectory_record hcoherent hreadable hfits hblock hoffset
    obtain ⟨-, -, d', dir', hiter, -, d2, dir2, hend⟩ := h
    rw [hiter1] at hiter
    cases hiter
    have hattrib := r.attribRecordSize_lt
    refine ⟨by simp, ?_⟩
    intro r' hr'
    simp only [List.getLast?_singleton, Option.mem_def, Option.some.injEq] at hr'
    subst hr'
    apply Nat.lt_of_not_le
    intro hle
    -- the first record is the next one again
    rw [totalSize_concat] at hle hfits
    rw [hsize, DirData.advance_of_le hle (by unfold databufSize at hfits; omega)
      (by omega)] at hend
    obtain ⟨r0, rs, hhead⟩ : ∃ r0 rs, pre ++ [r] = [] ++ r0 :: rs := by
      cases pre with
      | nil => exact ⟨r, [], rfl⟩
      | cons r0 rs => exact ⟨r0, rs ++ [r], rfl⟩
    have hreadable1 : d1.Readable
        (DirData.mk r.header (dir.dataStartLba + 1) dir.currentLba 0).currentLba := hholds.readable
    obtain ⟨d3, hiter3, -⟩ := iterDirectory_record hholds.coherent hreadable1
      (by rw [← hhead, totalSize_concat]; exact hfits)
      (by rw [← hhead, hholds.blkdev]; exact hblock) rfl
    rw [hiter3] at hend
    cases hend
  | cons r' post ih =>
    have hoffset := h.offset_eq
    obtain ⟨d1, hiter1, hholds⟩ :=
      iterDirectory_record hcoherent hreadable hfits hblock hoffset
    obtain ⟨-, -, d', dir', hiter, -, hnext⟩ := h
    rw [hiter1] at hiter
    cases hiter
    have hcurrent := iterDirectory_currentLba hiter1
    have hoffset' := hnext.offset_eq
    have hattriblt := r.attribRecordSize_lt
    have hlength := r.length_lt
    have hsplit : pre ++ r :: r' :: post = (pre ++ [r]) ++ r' :: post := by simp
    have hattrib : r.header.attribRecordSize = 0 := by
      rw [hsplit, totalSize_append, totalSize_concat] at hfits
      unfold databufSize at hfits
      rw [hsize] at hoffset'
      by_cases hlt : totalSize pre + (r.bytes.length + r.header.attribRecordSize) < databufSize
      . rw [DirData.advance_of_lt hlt (by lia)] at hoffset'
        dsimp only at hoffset'
        omega
      . rw [DirData.advance_of_le (Nat.le_of_not_lt hlt) (by lia) (by lia)] at hoffset'
        dsimp only at hoffset'
        omega
    rw [hsplit] at hfits hblock
    rw [hsplit]
    rw [← totalSize_concat] at hnext
    obtain ⟨hdrop, hlast⟩ := ih (pre ++ [r]) hholds.coherent (by rw [hcurrent]; exact hholds.readable)
      (hholds.sectorSize.trans hsize) hfits (by rw [hcurrent, hholds.blkdev]; exact hblock) hnext
    refine ⟨?_, ?_⟩
    . rw [List.dropLast_cons_of_ne_nil (by simp), List.forall_mem_cons]
      exact ⟨hattrib, hdrop⟩
    . rw [List.getLast?_cons_cons]
      exact hlast

theorem Yields.oneSector (hcoherent : d.Coherent) (hsize : d.sectorSize = databufSize)
    (hfirst : first ≠ []) (hstored : StoredAt d.blkdev dir.dataStartLba (first :: rest))
    (h : Yields d (rewindDirectory dir) (allPlaces dir.dataStartLba (first :: rest)))
    : d.Readable dir.dataStartLba ∧ OneSector first rest := by
  obtain ⟨⟨hfits, hblock⟩, -⟩ := hstored
  have hnone : allPlaces (dir.dataStartLba + 1) rest = [] := by
    apply List.eq_nil_iff_forall_not_mem.mpr
    intro p hp
    have hlba := h.lba_eq p (List.mem_append_right _ hp)
    have hle := lba_le_of_mem_allPlaces hp
    rw [hlba] at hle
    exact absurd hle (Nat.not_succ_le_self _)
  unfold allPlaces at h
  rw [hnone, List.append_nil] at h
  obtain ⟨r, post, rfl⟩ := List.exists_cons_of_ne_nil hfirst
  have hreadable : d.Readable dir.dataStartLba := by
    by_contra hnot
    obtain ⟨status, d', hread⟩ := Data.readSector_of_not_readable hnot
    obtain ⟨-, -, d1, dir1, hiter, -⟩ := h
    unfold iterDirectory at hiter
    rw [show (rewindDirectory dir).currentLba = dir.dataStartLba from rfl, hread] at hiter
    cases hiter
  have hready : d.Readable (rewindDirectory dir).currentLba := hreadable
  obtain ⟨hdrop, hlast⟩ := Yields.attribRecordSize [] hcoherent hready hsize hfits hblock h
  exact ⟨hreadable, allPlaces_eq_nil hnone, hdrop, hlast⟩

end Necessity

theorem Data.Coherent.enumerates_iff_oneSector {d : Data} {dir : DirData} {first : List Record} {rest : List (List Record)}
    (hcoherent : d.Coherent) (hsize : d.sectorSize = databufSize) (hfirst : first ≠ [])
    (hstored : StoredAt d.blkdev dir.dataStartLba (first :: rest))
    : Enumerates d dir (allPlaces dir.dataStartLba (first :: rest))
        ↔
      d.Readable dir.dataStartLba ∧ OneSector first rest := by
  constructor
  . intro h
    exact h.yields.oneSector hcoherent hsize hfirst hstored
  . intro ⟨hreadable, hone⟩
    obtain ⟨⟨hfits, hblock⟩, -⟩ := hstored
    have hplaces : allPlaces dir.dataStartLba (first :: rest) = places dir.dataStartLba 0 first := by
      unfold allPlaces
      rw [allPlaces_of_nil hone.rest, List.append_nil]
    have hstart : Pending d (rewindDirectory dir) dir.dataStartLba first first := by
      refine ⟨hcoherent, hreadable, hsize, hblock, rfl, rfl, [], rfl, fun _ => rfl, ?_⟩
      intro hempty
      exact absurd hempty hfirst
    rw [hplaces]
    refine ⟨hstart.yields hone hfits fun _ => rfl, ?_, ?_⟩
    . intro name hname
      obtain ⟨d', dir', hloop⟩ := hstart.absent hone hfits name (by
        intro r hr
        obtain ⟨p, hp, rfl⟩ := exists_mem_places dir.dataStartLba 0 hr
        exact hname p hp)
      exact ⟨_, d', dir', hloop⟩
    . intro n
      obtain ⟨d', dir', post, hiter, hpending⟩ := hstart.iterTimes hone hfits n
      exact ⟨d', dir', hiter, hpending.rewind.yields hone hfits fun _ => rfl⟩

/--
A directory of a mounted volume is enumerated if and only if its first sector can be read and has all
of its records, with room behind them. Other files and directories may have been read before.
-/
theorem enumerates_iff {fuel : Nat} {dev : BlockDevice} {blockSize : Except Status Nat}
    {create : Option Status} {memory : Option Bytes} {d0 d : Data} {lbas : List Nat} {dir : DirData}
    {first : List Record} {rest : List (List Record)}
    (hmount : mount fuel dev blockSize create memory = .ok (.ok d0))
    (hsince : d0.readSectors lbas = some d) (hsize : d.sectorSize = 2048) (hfirst : first ≠ [])
    (hstored : StoredAt dev dir.dataStartLba (first :: rest))
    : Enumerates d dir (allPlaces dir.dataStartLba (first :: rest))
        ↔
      d.Readable dir.dataStartLba ∧ OneSector first rest := by
  obtain ⟨hcoherent0, hblkdev0⟩ := mount_coherent hmount
  obtain ⟨hcoherent, hblkdev⟩ := Data.readSectors_coherent hcoherent0 hsince
  apply hcoherent.enumerates_iff_oneSector hsize hfirst
  rw [hblkdev, hblkdev0]
  exact hstored

theorem matchLoop_of_full {d : Data} {dir : DirData} {first pre post : List Record}
    {r : Record} {name : List (BitVec 8)} (hcoherent : d.Coherent)
    (hreadable : d.Readable dir.currentLba) (hsize : d.sectorSize = databufSize)
    (hblock : ∀ i < databufSize, d.blkdev.block dir.currentLba i = contents first i)
    (hattrib : ∀ r ∈ first, r.header.attribRecordSize = 0) (hfull : totalSize first = databufSize)
    (hname : ∀ r ∈ first, ∃ n ≠ 0, strncasecmp name r.entry.name filenameMax = .ok n)
    (hpre : first = pre ++ r :: post) (hoffset : dir.currentEntryOffset = totalSize pre) (fuel : Nat)
    : matchLoop name fuel d dir = .error .hang := by
  induction fuel generalizing d dir pre r post with
  | zero => rfl
  | succ fuel ih =>
    have hr : r ∈ first := by simp [hpre]
    obtain ⟨n, hn, hcompare⟩ := hname r hr
    obtain ⟨d', hiter, hholds⟩ := iterDirectory_record hcoherent hreadable
      (by rw [← hpre, hfull]) (by rw [← hpre]; exact hblock) hoffset
    unfold matchLoop
    rw [hiter]
    dsimp only [bind, Except.bind]
    rw [hcompare]
    dsimp only
    rw [if_neg hn, hsize]
    obtain ⟨pre', r', post', hpre', hoffset'⟩ : ∃ pre' r' post', first = pre' ++ r' :: post'
        ∧ (dir.advance r.header databufSize).currentEntryOffset = totalSize pre' := by
      have hattrib0 := hattrib r hr
      have htotal := hfull
      rw [hpre, totalSize_append, totalSize_cons] at htotal
      cases post with
      | nil =>
        have hend : totalSize pre + r.bytes.length = databufSize := htotal
        rw [DirData.advance_of_le (Nat.le_refl databufSize) (by decide) (by lia)]
        cases pre with
        | nil => exact ⟨[], r, [], hpre, rfl⟩
        | cons r0 rs => exact ⟨[], r0, rs ++ [r], hpre, rfl⟩
      | cons r' post =>
        have hlength := r'.length_lt
        rw [totalSize_cons] at htotal
        have hlt : totalSize (pre ++ [r]) < databufSize := by
          rw [totalSize_concat]
          lia
        rw [DirData.advance_of_lt hlt (by rw [totalSize_concat]; lia)]
        exact ⟨pre ++ [r], r', post, by rw [hpre]; simp, rfl⟩
    have hcurrent := dir.advance_currentLba r.header databufSize
    exact ih hholds.coherent (by rw [hcurrent]; exact hholds.readable)
      (hholds.sectorSize.trans hsize) (by rw [hcurrent, hholds.blkdev]; exact hblock) hpre' hoffset'

/--
A volume with a primary descriptor, a terminator and a path table, whose root directory has the given
records in the sectors from 20 on.
-/
def sampleDevice (sectors : List (List Record)) : BlockDevice where
  block lba :=
    if lba = 16 then
      sectorOf [(0, [1, 0x43, 0x44, 0x30, 0x30, 0x31]), (128, [0, 8]), (140, [19])]
    else if lba = 17 then sectorOf [(0, [255, 0x43, 0x44, 0x30, 0x30, 0x31])]
    else if lba = 19 then sectorOf [(2, [20])]
    else contents (sectors.getD (lba - 20) [])
  fails _ := none

def mountSample (sectors : List (List Record)) : Run (Except Status Data) :=
  mount 2 (sampleDevice sectors) (.ok 2048) none (some fun _ => 0)

def summary : Run (Except Status Data) → Option (Nat × Nat)
  | .ok (.ok d) => some ⟨d.sectorSize, d.rootdirLba⟩
  | _ => none

theorem mountSample_eq {sectors : List (List Record)}
    (h : summary (mountSample sectors) = some ⟨databufSize, 20⟩)
    : ∃ d, mountSample sectors = .ok (.ok d) ∧ d.Coherent ∧ d.blkdev = sampleDevice sectors
        ∧ d.sectorSize = databufSize ∧ openRootDirectory d true = .ok ⟨fun _ => 0, 20, 20, 0⟩ := by
  unfold summary at h
  split at h
  . next d hd =>
    obtain ⟨hcoherent, hblkdev⟩ := mount_coherent hd
    obtain ⟨hsize, hroot⟩ := Prod.mk.inj (Option.some.inj h)
    refine ⟨d, hd, hcoherent, hblkdev, hsize, ?_⟩
    unfold openRootDirectory
    rw [hroot]
    rfl
  . cases h

def sampleRecord (attribRecordSize : BitVec 8) : Record where
  bytes := 64 :: attribRecordSize :: List.replicate 30 0 ++ 1 :: 0x41 :: List.replicate 30 0
  entrySize := rfl
  filenameLen := by simp
  filename := by simp

theorem enumerates_iff_sample
    : ∃ d dir, mountSample [[sampleRecord 0, sampleRecord 7], []] = .ok (.ok d)
        ∧ openRootDirectory d true = .ok dir
        ∧ Enumerates d dir (allPlaces dir.dataStartLba [[sampleRecord 0, sampleRecord 7], []]) := by
  obtain ⟨d, hd, hcoherent, hblkdev, hsize, hroot⟩ := mountSample_eq
    (show summary (mountSample [[sampleRecord 0, sampleRecord 7], []]) = _ by decide)
  refine ⟨d, _, hd, hroot, ?_⟩
  have hsince : d.readSectors [] = some d := rfl
  apply (enumerates_iff hd hsince hsize (by simp) ?_).mpr ?_
  . exact ⟨⟨by decide +kernel, fun i _ => rfl⟩, ⟨by decide, fun i _ => rfl⟩, trivial⟩
  . refine ⟨.inr (by rw [hblkdev]; rfl), by simp, ?_, ?_⟩
    . simp
      rfl
    . simp
      decide +kernel

/--
The records of a second sector are not reported, names that are not in a full sector are looked up
forever, and the record behind one with an extended attribute record is not found.
-/
theorem directory_not_enumerated
    : (∃ d dir, mountSample [[sampleRecord 0], [sampleRecord 0]] = .ok (.ok d)
          ∧ openRootDirectory d true = .ok dir
          ∧ StoredAt d.blkdev dir.dataStartLba [[sampleRecord 0], [sampleRecord 0]]
          ∧ ¬ Enumerates d dir (allPlaces dir.dataStartLba [[sampleRecord 0], [sampleRecord 0]]))
        ∧ (∃ d dir, mountSample [List.replicate 32 (sampleRecord 0)] = .ok (.ok d)
          ∧ openRootDirectory d true = .ok dir
          ∧ StoredAt d.blkdev dir.dataStartLba [List.replicate 32 (sampleRecord 0)]
          ∧ ¬ Enumerates d dir (allPlaces dir.dataStartLba [List.replicate 32 (sampleRecord 0)])
          ∧ ∀ fuel, matchName fuel d dir [0x42] = .error .hang)
        ∧ (∃ d dir, mountSample [[sampleRecord 7, sampleRecord 0]] = .ok (.ok d)
          ∧ openRootDirectory d true = .ok dir
          ∧ StoredAt d.blkdev dir.dataStartLba [[sampleRecord 7, sampleRecord 0]]
          ∧ ¬ Enumerates d dir (allPlaces dir.dataStartLba [[sampleRecord 7, sampleRecord 0]])) := by
  refine ⟨?_, ?_, ?_⟩
  . obtain ⟨d, hd, hcoherent, hblkdev, hsize, hroot⟩ := mountSample_eq
      (show summary (mountSample [[sampleRecord 0], [sampleRecord 0]]) = _ by decide)
    have hstored : StoredAt d.blkdev 20 [[sampleRecord 0], [sampleRecord 0]] := by
      rw [hblkdev]
      exact ⟨⟨by decide, fun i _ => rfl⟩, ⟨by decide, fun i _ => rfl⟩, trivial⟩
    refine ⟨d, _, hd, hroot, hstored, ?_⟩
    intro h
    obtain ⟨-, hone⟩ := h.yields.oneSector hcoherent hsize (by simp) hstored
    exact absurd (hone.rest [sampleRecord 0] (by simp)) (by simp)
  . obtain ⟨d, hd, hcoherent, hblkdev, hsize, hroot⟩ := mountSample_eq
      (show summary (mountSample [List.replicate 32 (sampleRecord 0)]) = _ by decide)
    have hfull : totalSize (List.replicate 32 (sampleRecord 0)) = databufSize := by decide +kernel
    have hstored : StoredAt d.blkdev 20 [List.replicate 32 (sampleRecord 0)] := by
      rw [hblkdev]
      exact ⟨⟨Nat.le_of_eq hfull, fun i _ => rfl⟩, trivial⟩
    refine ⟨d, _, hd, hroot, hstored, ?_, ?_⟩
    . intro h
      obtain ⟨-, hone⟩ := h.yields.oneSector hcoherent hsize (by simp) hstored
      have hlast := hone.getLast (sampleRecord 0) (by simp)
      omega
    . intro fuel
      have hsplit : List.replicate 32 (sampleRecord 0)
          = [] ++ sampleRecord 0 :: List.replicate 31 (sampleRecord 0) := rfl
      apply matchLoop_of_full hcoherent _ hsize hstored.1.2 _ hfull _ hsplit rfl
      . exact .inr (by rw [hblkdev]; rfl)
      . intro r hr
        rw [List.eq_of_mem_replicate hr]
        decide
      . intro r hr
        rw [List.eq_of_mem_replicate hr]
        exact ⟨1, by decide, by decide⟩
  . obtain ⟨d, hd, hcoherent, hblkdev, hsize, hroot⟩ := mountSample_eq
      (show summary (mountSample [[sampleRecord 7, sampleRecord 0]]) = _ by decide)
    have hstored : StoredAt d.blkdev 20 [[sampleRecord 7, sampleRecord 0]] := by
      rw [hblkdev]
      exact ⟨⟨by decide +kernel, fun i _ => rfl⟩, trivial⟩
    refine ⟨d, _, hd, hroot, hstored, ?_⟩
    intro h
    obtain ⟨-, hone⟩ := h.yields.oneSector hcoherent hsize (by simp) hstored
    exact absurd (hone.dropLast (sampleRecord 7) (by simp)) (by decide)

end Emos.Boot.Iso9660
