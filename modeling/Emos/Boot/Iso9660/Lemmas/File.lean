import Emos.Boot.Fat.Lemmas.File
import Emos.Boot.Iso9660.Lemmas.Directory
import Emos.Lib.Trace

/-!
This module contains what the boot loader's ISO 9660 driver reads from an open file.
-/

open Lib

namespace Emos.Boot.Iso9660

def extent (dev : BlockDevice) (lba : Nat) : Bytes :=
  Blocks.flatten (fun k => dev.block (lba + k)) databufSize

structure Data.SameVolume (d d' : Data) : Prop where
  blkdev : d'.blkdev = d.blkdev
  sectorSize : d'.sectorSize = d.sectorSize
  coherent : d'.Coherent

/--
The volume can be read, and its sectors have the size of the buffer.
-/
structure Data.Ready (d : Data) : Prop where
  coherent : d.Coherent
  reliable : ∀ k, d.blkdev.fails k = none
  sectorSize : d.sectorSize = databufSize

variable {d d' d'' : Data} {dir dir' : DirData} {file : FileData}

namespace Data

theorem SameVolume.refl (h : d.Coherent) : SameVolume d d := ⟨rfl, rfl, h⟩

theorem SameVolume.trans (h : SameVolume d d') (h' : SameVolume d' d'') : SameVolume d d'' :=
  ⟨h'.blkdev.trans h.blkdev, h'.sectorSize.trans h.sectorSize, h'.coherent⟩

theorem SameVolume.ready (h : SameVolume d d') (hd : d.Ready) : d'.Ready where
  coherent := h.coherent
  reliable := by
    rw [h.blkdev]
    exact hd.reliable
  sectorSize := h.sectorSize.trans hd.sectorSize

theorem Holds.sameVolume {lba : Nat} (h : Holds d d' lba) : SameVolume d d' :=
  ⟨h.blkdev, h.sectorSize, h.coherent⟩

theorem Ready.readSector (hd : d.Ready) (lba : Nat)
    : ∃ d', d.readSector lba = ⟨.ok (), d'⟩ ∧ Holds d d' lba :=
  readSector_of_readable hd.coherent (.inr (hd.reliable _))

end Data

theorem copy_eq {lba pos n : Nat} (h : d.Holds d' (lba + pos / databufSize))
    (hn : pos % databufSize + n ≤ databufSize)
    : (List.range n).map (fun i => d'.databuf (pos % databufSize + i))
        =
      (List.range' pos n).map (extent d.blkdev lba) := by
  rw [List.range'_eq_map_range, List.map_map]
  apply List.map_congr_left
  intro i hi
  rw [List.mem_range] at hi
  have hin : pos % databufSize + i < databufSize := by omega
  obtain ⟨hdiv, hmod⟩ := Blocks.place_add hin
  unfold extent Blocks.flatten
  rw [Function.comp_apply, h.databuf _ hin, hdiv, hmod]

theorem readLoop_spec {fuel len total : Nat} {buf : List (BitVec 8)} (hfuel : len < fuel)
    (hd : d.Ready) (hcursor : file.cursor + len < 2 ^ 32) (htotal : total + len < 2 ^ 32)
    : ∃ d', readLoop fuel d file len buf total
          = .ok ⟨.success, some (total + len),
              buf ++ (List.range' file.cursor len).map (extent d.blkdev file.dataStartLba), d',
              { file with cursor := file.cursor + len }⟩
        ∧ d.SameVolume d' := by
  induction fuel generalizing d file len buf total with
  | zero => contradiction
  | succ fuel ih =>
    unfold readLoop
    split
    . next hzero =>
      subst hzero
      exact ⟨d, by simp, .refl hd.coherent⟩
    . next hlen =>
      have hoff := Nat.mod_lt file.cursor (show 0 < databufSize by decide)
      rw [hd.sectorSize, if_neg (by decide)]
      dsimp only
      -- the number of bytes that this round copies, at most to the end of the sector
      generalize hn : (if databufSize - file.cursor % databufSize > len then len
        else databufSize - file.cursor % databufSize) = n
      have hbounds : 0 < n ∧ n ≤ len ∧ file.cursor % databufSize + n ≤ databufSize := by
        split at hn
        . lia
        . lia
      obtain ⟨hn0, hnlen, hnin⟩ := hbounds
      obtain ⟨d1, hread, hholds⟩ := hd.readSector (file.dataStartLba + file.cursor / databufSize)
      have hsame := hholds.sameVolume
      rw [hread]
      dsimp only
      rw [if_neg (by omega), copy_eq hholds hnin, u32_of_lt (by omega), u32_of_lt (by omega)]
      obtain ⟨d2, hloop, hsame2⟩ := @ih d1 { file with cursor := file.cursor + n } (len - n) (total + n)
        (buf ++ (List.range' file.cursor n).map (extent d.blkdev file.dataStartLba)) (by lia)
        (hsame.ready hd) (show file.cursor + n + (len - n) < 2 ^ 32 by omega) (by omega)
      refine ⟨d2, ?_, hsame.trans hsame2⟩
      rw [hloop, hsame.blkdev]
      dsimp only
      have hcount : len = n + (len - n) := by lia
      rw [List.append_assoc, ← List.map_append, List.range'_append_1, ← hcount, Nat.add_assoc,
        Nat.add_assoc, ← hcount]

theorem read_spec (hd : d.Ready) {len : Nat} (hlen : len < 2 ^ 31)
    (hsize : file.direntry.dataSize < 2 ^ 31)
    : ∃ r, read d file len = .ok r ∧ d.SameVolume r.data
        ∧ (file.direntry.dataSize ≤ file.cursor
          → r = ⟨.endOfFile, none, [], d, file⟩)
        ∧ (file.cursor < file.direntry.dataSize
          → r.status = .success
            ∧ r.buf = expected (extent d.blkdev file.dataStartLba) file.direntry.dataSize file.cursor len
            ∧ r.result = some r.buf.length
            ∧ r.file = { file with cursor := file.cursor + r.buf.length }) := by
  unfold read
  dsimp only
  split
  . next hend =>
    refine ⟨_, rfl, .refl hd.coherent, fun _ => rfl, ?_⟩
    intro hlt
    omega
  . next hinside =>
    generalize hn : (if u32 (file.cursor + len) ≥ file.direntry.dataSize then
      file.direntry.dataSize - file.cursor else len) = n
    have hcount : n = min (file.cursor + len) file.direntry.dataSize - file.cursor := by
      rw [u32_of_lt (by omega)] at hn
      split at hn
      . lia
      . lia
    obtain ⟨d', hloop, hsame⟩ := @readLoop_spec d file (n + 1) n 0 [] (by lia) hd (by lia)
      (by lia)
    refine ⟨_, hloop, hsame, ?_, ?_⟩
    . intro hle
      omega
    . intro _
      refine ⟨rfl, ?_, ?_, ?_⟩
      . unfold expected
        rw [List.nil_append, hcount]
      . simp
      . simp

theorem i64_eq {n : Int} (h0 : -2 ^ 63 ≤ n) (h1 : n < 2 ^ 63) : i64 n = n := by
  unfold i64
  lia

theorem i64_neg {n : Int} (h0 : 2 ^ 63 ≤ n) (h1 : n < 2 ^ 64) : i64 n < 0 := by
  unfold i64
  omega

theorem seek_cursor_le (hcursor : file.cursor ≤ file.direntry.dataSize)
    (hsize : file.direntry.dataSize < 2 ^ 31) (offset : Int) (origin : Origin)
    : ∃ cursor ≤ file.direntry.dataSize, (seek file offset origin).2 = { file with cursor } := by
  unfold seek
  split
  . exact ⟨_, hcursor, rfl⟩
  . dsimp only
    split
    . exact ⟨_, hcursor, rfl⟩
    . refine ⟨_, ?_, rfl⟩
      split
      . rw [u32_of_lt (by omega)]
      . rw [u32_of_lt (by omega)]
        omega

theorem seekTarget_lt (hcursor : file.cursor ≤ file.direntry.dataSize)
    (hsize : file.direntry.dataSize < 2 ^ 31) {offset t : Int} (hoffset : offset < 2 ^ 63)
    {origin : Origin} (h : file.seekTarget offset origin = some t)
    : t < 2 ^ 64 := by
  unfold FileData.seekTarget at h
  split at h
  . cases h
    omega
  . cases h
    omega
  . cases h
    omega
  . cases h

theorem seek_iff (hcursor : file.cursor ≤ file.direntry.dataSize)
    (hsize : file.direntry.dataSize < 2 ^ 31) {offset t : Int} (hoffset : offset < 2 ^ 63)
    {origin : Origin} (ht : file.seekTarget offset origin = some t) (h0 : 0 ≤ t)
    : seek file offset origin
          = ⟨.success, { file with cursor := min t.toNat file.direntry.dataSize }⟩
        ↔
      t < 2 ^ 63 := by
  have hlt := seekTarget_lt hcursor hsize hoffset ht
  unfold seek
  rw [ht]
  dsimp only
  by_cases hbits : t < 2 ^ 63
  . rw [i64_eq (by omega) hbits, if_neg (by omega)]
    simp only [hbits, iff_true, Prod.mk.injEq, true_and]
    congr 1
    split
    . rw [u32_of_lt (by omega)]
      lia
    . rw [u32_of_lt (by lia)]
      lia
  . rw [if_pos (i64_neg (by omega) hlt)]
    simp only [hbits, iff_false]
    intro h
    cases (Prod.mk.inj h).1

theorem iterDirectory_sameVolume (hd : d.Ready) {e : Except Status DirectoryEntry}
    (h : iterDirectory d dir = .ok ⟨e, d', dir'⟩)
    : d.SameVolume d' := by
  obtain ⟨d1, hread, hholds⟩ := hd.readSector dir.currentLba
  unfold iterDirectory at h
  rw [hread] at h
  dsimp only at h
  rw [bind_eq_ok] at h
  obtain ⟨entrySize, -, h⟩ := h
  split at h
  . cases h
    exact hholds.sameVolume
  . rw [bind_eq_ok] at h
    obtain ⟨header, -, h⟩ := h
    rw [bind_eq_ok] at h
    obtain ⟨name, -, h⟩ := h
    cases h
    exact hholds.sameVolume

theorem matchLoop_sameVolume {fuel : Nat} {name : List (BitVec 8)} (hd : d.Ready)
    {e : Except Status DirectoryEntry} (h : matchLoop name fuel d dir = .ok ⟨e, d', dir'⟩)
    : d.SameVolume d' := by
  induction fuel generalizing d dir with
  | zero => cases h
  | succ fuel ih =>
    unfold matchLoop at h
    rw [bind_eq_ok] at h
    obtain ⟨⟨e1, d1, dir1⟩, hiter, h⟩ := h
    have hsame := iterDirectory_sameVolume hd hiter
    cases e1 with
    | error status =>
      cases h
      exact hsame
    | ok entry =>
      dsimp only at h
      rw [bind_eq_ok] at h
      obtain ⟨difference, -, h⟩ := h
      split at h
      . cases h
        exact hsame
      . exact hsame.trans (ih (hsame.ready hd) h)

theorem openFile_spec {fuel : Nat} {name : List (BitVec 8)} {allocated : Bool} (hd : d.Ready)
    (h : openFile fuel d dir name allocated = .ok ⟨.ok file, d', dir'⟩)
    : d.SameVolume d' ∧ file.cursor = 0 := by
  unfold openFile at h
  rw [bind_eq_ok] at h
  obtain ⟨⟨e1, d1, dir1⟩, hmatch, h⟩ := h
  have hsame := matchLoop_sameVolume hd hmatch
  cases e1 with
  | error status => cases h
  | ok entry =>
    dsimp only at h
    split at h
    . cases h
    . split at h
      . cases h
      . cases h
        exact ⟨hsame, rfl⟩

structure OpenFile where
  data : Data
  file : FileData

inductive FileCall where
  | read (len : Nat)
  | seek (offset : Int) (origin : Origin)
  /-- a sector of a directory or of another file is read -/
  | readSector (lba : Nat)

namespace FileCall

/--
Lengths have 31 bits, and offsets are of type `off_t`.
-/
def Valid : FileCall → Prop
  | .read len => len < 2 ^ 31
  | .seek offset _ => -2 ^ 63 ≤ offset ∧ offset < 2 ^ 63
  | .readSector _ => True

def exec (s : OpenFile) : FileCall → Run OpenFile
  | .read len => do
    let r ← Iso9660.read s.data s.file len
    .ok ⟨r.data, r.file⟩
  | .seek offset origin => .ok ⟨s.data, (Iso9660.seek s.file offset origin).2⟩
  | .readSector lba => .ok ⟨(s.data.readSector lba).2, s.file⟩

/--
What is asked of a call on a file of `size` bytes with this content.
-/
def Correct (content : Bytes) (size : Nat) (s : OpenFile) : FileCall → Prop
  | .read len =>
    ∃ r, Iso9660.read s.data s.file len = .ok r
      ∧ (size ≤ s.file.cursor → r = ⟨.endOfFile, none, [], s.data, s.file⟩)
      ∧ (s.file.cursor < size
        → r.status = .success
          ∧ r.buf = expected content size s.file.cursor len
          ∧ r.result = some r.buf.length
          ∧ r.file = { s.file with cursor := s.file.cursor + r.buf.length })
  | .seek offset origin =>
    ∀ t, s.file.seekTarget offset origin = some t → 0 ≤ t
      → Iso9660.seek s.file offset origin
        = ⟨.success, { s.file with cursor := min t.toNat size }⟩
  | .readSector _ => True

/--
The position to seek to has 63 bits.
-/
def InRange (s : OpenFile) : FileCall → Prop
  | .read _ | .readSector _ => True
  | .seek offset origin => ∀ t, s.file.seekTarget offset origin = some t → t < 2 ^ 63

end FileCall

structure OpenFile.IsAfter (s : OpenFile) (dev : BlockDevice) (file : FileData) : Prop where
  ready : s.data.Ready
  blkdev : s.data.blkdev = dev
  file : ∃ cursor ≤ file.direntry.dataSize, s.file = { file with cursor }

variable {s s' : OpenFile} {dev : BlockDevice}

theorem OpenFile.IsAfter.direntry (h : s.IsAfter dev file) : s.file.direntry = file.direntry := by
  obtain ⟨cursor, -, hfile⟩ := h.file
  rw [hfile]

theorem OpenFile.IsAfter.cursor_le (h : s.IsAfter dev file)
    : s.file.cursor ≤ s.file.direntry.dataSize := by
  obtain ⟨cursor, hcursor, hfile⟩ := h.file
  rw [hfile]
  exact hcursor

theorem OpenFile.IsAfter.exec (h : s.IsAfter dev file) (hsize : file.direntry.dataSize < 2 ^ 31)
    {call : FileCall} (hvalid : call.Valid) (hexec : call.exec s = .ok s')
    : s'.IsAfter dev file := by
  obtain ⟨cursor, hcursor, hfile⟩ := h.file
  have hsize' : s.file.direntry.dataSize < 2 ^ 31 := by
    rw [h.direntry]
    exact hsize
  cases call with
  | read len =>
    unfold FileCall.exec at hexec
    rw [bind_eq_ok] at hexec
    obtain ⟨r, hr, hexec⟩ := hexec
    cases hexec
    obtain ⟨r', hr', hsame, hend, hinside⟩ := read_spec h.ready hvalid hsize'
    rw [hr'] at hr
    cases hr
    refine ⟨hsame.ready h.ready, hsame.blkdev.trans h.blkdev, ?_⟩
    rw [hfile] at hend hinside
    dsimp only at hend hinside
    by_cases hlt : cursor < file.direntry.dataSize
    . obtain ⟨-, hbuf, -, hfile'⟩ := hinside hlt
      refine ⟨_, ?_, hfile'⟩
      rw [hbuf]
      unfold expected
      simp
      lia
    . rw [hend (by omega)]
      exact ⟨cursor, hcursor, rfl⟩
  | seek offset origin =>
    cases hexec
    refine ⟨h.ready, h.blkdev, ?_⟩
    obtain ⟨cursor', hcursor', hseek⟩ := seek_cursor_le h.cursor_le hsize' offset origin
    rw [hseek, hfile]
    rw [h.direntry] at hcursor'
    exact ⟨cursor', hcursor', rfl⟩
  | readSector lba =>
    cases hexec
    obtain ⟨d', hread, hholds⟩ := h.ready.readSector lba
    rw [hread]
    exact ⟨hholds.sameVolume.ready h.ready, hholds.blkdev.trans h.blkdev, h.file⟩

theorem OpenFile.IsAfter.correct_iff (h : s.IsAfter dev file)
    (hsize : file.direntry.dataSize < 2 ^ 31) {call : FileCall} (hvalid : call.Valid)
    : call.Correct (extent dev file.dataStartLba) file.direntry.dataSize s ↔ call.InRange s := by
  obtain ⟨cursor, -, hfile⟩ := h.file
  have hsize' : s.file.direntry.dataSize < 2 ^ 31 := by
    rw [h.direntry]
    exact hsize
  cases call with
  | read len =>
    simp only [FileCall.InRange, iff_true]
    obtain ⟨r, hr, -, hend, hinside⟩ := read_spec h.ready hvalid hsize'
    refine ⟨r, hr, ?_, ?_⟩
    . rw [hfile] at hend ⊢
      exact hend
    . rw [h.blkdev, hfile] at hinside
      rw [hfile]
      exact hinside
  | seek offset origin =>
    have hseek : ∀ t, s.file.seekTarget offset origin = some t → 0 ≤ t →
        (seek s.file offset origin
          = ⟨.success, { s.file with cursor := min t.toNat file.direntry.dataSize }⟩ ↔ t < 2 ^ 63) := by
      intro t ht h0
      rw [← h.direntry]
      exact seek_iff h.cursor_le hsize' hvalid.2 ht h0
    constructor
    . intro hcorrect t ht
      by_cases h0 : 0 ≤ t
      . exact (hseek t ht h0).mp (hcorrect t ht h0)
      . omega
    . intro hrange t ht h0
      exact (hseek t ht h0).mpr (hrange t ht)
  | readSector lba => simp [FileCall.Correct, FileCall.InRange]

/--
On a mounted volume whose device never fails, the calls on a file that was opened are all correct if
and only if none of them seeks to a position of more than 63 bits.
-/
theorem file_calls_correct_iff {mountFuel fuel : Nat} {blockSize : Except Status Nat}
    {create : Option Status} {memory : Option Bytes} {d0 : Data} {lbas : List Nat}
    {name : List (BitVec 8)} {allocated : Bool}
    (hmount : mount mountFuel dev blockSize create memory = .ok (.ok d0))
    (hreliable : ∀ k, dev.fails k = none) (hsince : d0.readSectors lbas = some d)
    (hsector : d.sectorSize = 2048)
    (hopen : openFile fuel d dir name allocated = .ok ⟨.ok file, d', dir'⟩)
    (hsize : file.direntry.dataSize < 2 ^ 31) (calls : List FileCall)
    (hcalls : ∀ call ∈ calls, call.Valid)
    : Along FileCall.exec (FileCall.Correct (extent dev file.dataStartLba) file.direntry.dataSize)
          ⟨d', file⟩ calls
        ↔
      Along FileCall.exec FileCall.InRange ⟨d', file⟩ calls := by
  obtain ⟨hcoherent0, hblkdev0⟩ := mount_coherent hmount
  obtain ⟨hcoherent, hblkdev⟩ := Data.readSectors_coherent hcoherent0 hsince
  have hdev : d.blkdev = dev := hblkdev.trans hblkdev0
  have hready : d.Ready := ⟨hcoherent, by rw [hdev]; exact hreliable, hsector⟩
  obtain ⟨hsame, hcursor⟩ := openFile_spec hready hopen
  have hstart : OpenFile.IsAfter ⟨d', file⟩ dev file :=
    ⟨hsame.ready hready, hsame.blkdev.trans hdev, file.cursor, by omega, rfl⟩
  have hafter : Throughout FileCall.exec (fun s => s.IsAfter dev file) ⟨d', file⟩ calls := by
    have hvalid : Along FileCall.exec (fun _ call => call.Valid) ⟨d', file⟩ calls := by
      apply Along.of_forall_mem
      intro call hcall _
      exact hcalls call hcall
    refine Throughout.of_step ?_ ?_ hvalid
    . intro s call t hs hv hexec
      exact hs.exec hsize hv hexec
    . exact hstart
  apply Along.congr _ hafter
  intro call hcall s hs
  exact hs.correct_iff hsize (hcalls call hcall)

/--
The record of a file of five bytes, whose sector is that of the primary volume descriptor.
-/
def sampleFile : Record where
  bytes := [34, 0, 16, 0, 0, 0, 0, 0, 0, 16, 5, 0, 0, 0, 0, 0, 0, 5] ++ List.replicate 14 0 ++ [1, 0x41]
  entrySize := by decide
  filenameLen := by decide
  filename := by decide

theorem openSample_eq
    : ∃ d d' dir dir', mountSample [[sampleFile]] = .ok (.ok d) ∧ d.sectorSize = 2048
        ∧ openRootDirectory d true = .ok dir
        ∧ openFile 1 d dir [0x41] true = .ok ⟨.ok ⟨sampleFile.header, 0, 16⟩, d', dir'⟩ := by
  obtain ⟨d, hd, hcoherent, hblkdev, hsize, hroot⟩ := mountSample_eq
    (show summary (mountSample [[sampleFile]]) = _ by decide)
  have hreadable : d.Readable (DirData.mk (fun _ => 0) 20 20 0).currentLba :=
    .inr (by rw [hblkdev]; rfl)
  have hsplit : [sampleFile] = [] ++ sampleFile :: [] := rfl
  obtain ⟨d', hiter, -⟩ := iterDirectory_record hcoherent hreadable
    (by rw [← hsplit]; decide) (by rw [← hsplit, hblkdev]; exact fun i _ => rfl) rfl
  have hadvance : (DirData.mk (fun _ => 0) 20 20 0).advance sampleFile.header databufSize
      = ⟨sampleFile.header, 20, 20, 34⟩ :=
    DirData.advance_of_lt (by decide) (by decide)
  have hcompare : strncasecmp [0x41] sampleFile.entry.name filenameMax = .ok 0 := by decide
  have hdirectory : sampleFile.header.directory = false := by decide
  have hlocation : sampleFile.header.lbaDataLocation = 16 := by decide
  refine ⟨d, d', _, ⟨sampleFile.header, 20, 20, 34⟩, hd, hsize, hroot, ?_⟩
  unfold openFile matchName matchLoop rewindDirectory
  dsimp only
  rw [hiter]
  dsimp only [bind, Except.bind]
  rw [hcompare, hsize, hadvance]
  simp [hdirectory, hlocation]

theorem file_calls_correct_iff_sample
    : ∃ d d' dir dir', mountSample [[sampleFile]] = .ok (.ok d)
        ∧ openFile 1 d dir [0x41] true = .ok ⟨.ok ⟨sampleFile.header, 0, 16⟩, d', dir'⟩
        ∧ Along FileCall.exec (FileCall.Correct (extent (sampleDevice [[sampleFile]]) 16) 5)
            ⟨d', sampleFile.header, 0, 16⟩
            [.read 3, .readSector 20, .seek 1 .set, .read 10, .read 1, .seek 7 .set] := by
  obtain ⟨d, d', dir, dir', hd, hsector, -, hopen⟩ := openSample_eq
  have hsince : d.readSectors [] = some d := rfl
  have hsize : sampleFile.header.dataSize = 5 := by decide
  refine ⟨d, d', dir, dir', hd, hopen, ?_⟩
  rw [← hsize]
  apply (file_calls_correct_iff hd (fun _ => rfl) hsince hsector hopen (by rw [hsize]; decide) _ ?_).mpr
  . apply Along.of_forall_mem
    simp [FileCall.InRange, FileData.seekTarget]
  . simp [FileCall.Valid]

/--
The last position that an offset can name is behind the end of the file, but the sum is negative.
-/
theorem seek_overflows
    : ∃ d d' dir dir', mountSample [[sampleFile]] = .ok (.ok d)
        ∧ openRootDirectory d true = .ok dir
        ∧ openFile 1 d dir [0x41] true = .ok ⟨.ok ⟨sampleFile.header, 0, 16⟩, d', dir'⟩
        ∧ sampleFile.header.dataSize = 5
        ∧ (FileData.mk sampleFile.header 0 16).seekTarget (2 ^ 63 - 1) .end = some (2 ^ 63 + 4)
        ∧ seek ⟨sampleFile.header, 0, 16⟩ (2 ^ 63 - 1) .end
            = ⟨.invalidValue, sampleFile.header, 0, 16⟩
        ∧ ¬ FileCall.Correct (extent (sampleDevice [[sampleFile]]) 16) 5
            ⟨d', sampleFile.header, 0, 16⟩ (.seek (2 ^ 63 - 1) .end) := by
  obtain ⟨d, d', dir, dir', hd, -, hroot, hopen⟩ := openSample_eq
  have hsize : sampleFile.header.dataSize = 5 := by decide
  have htarget : (FileData.mk sampleFile.header 0 16).seekTarget (2 ^ 63 - 1) .end
      = some (2 ^ 63 + 4) := by
    unfold FileData.seekTarget
    dsimp only
    rw [hsize]
    rfl
  have hseek : seek ⟨sampleFile.header, 0, 16⟩ (2 ^ 63 - 1) .end
      = ⟨.invalidValue, sampleFile.header, 0, 16⟩ := by
    unfold seek
    rw [htarget]
    rfl
  refine ⟨d, d', dir, dir', hd, hroot, hopen, hsize, htarget, hseek, ?_⟩
  intro h
  have hcorrect := h _ htarget (by decide)
  dsimp only at hcorrect
  rw [hseek] at hcorrect
  cases (Prod.mk.inj hcorrect).1

end Emos.Boot.Iso9660
