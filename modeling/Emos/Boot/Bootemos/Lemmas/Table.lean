import Emos.Boot.Bootemos.Lemmas.Fill
import Emos.Lib.Loop

/-!
This module contains the table as a whole: the second pass fills as many bytes as the first one has
counted, if these are fewer than 2 ^ 32.
-/

open Lib

namespace Emos.Boot

open BootemosInput

variable {b : BootemosInput} {map : List SmapEntry} {paddr : Nat → Nat} {m : Bytes}

namespace BootemosInput

variable (b)

def headerBytes : Nat := alignUp (TableHeader.sizeof + strtabSize b.args + loaderStrtabSize)

/--
The entries in the order in which they are filled, with the bytes of each.
-/
def entryBytes (mmapEntryCount : Nat) : List (EntryType × Nat) := [
  ⟨.commandArgs, 16 + alignUp (sizeofCommandArgs + b.args.length * sizeofArgOffset)⟩,
  ⟨.loaderInfo, 16 + alignUp sizeofLoaderInfo⟩,
  ⟨.memoryMap, 16 + alignUp (sizeofMemoryMap + mmapEntryCount * sizeofMemoryMapEntry)⟩,
  ⟨.acpiRsdp, 16 + alignUp sizeofAcpiRsdp⟩,
  ⟨.framebuffer, 16 + alignUp sizeofFramebuffer⟩,
  ⟨.unavailableFrames, 16 + alignUp (sizeofUnavailableFrames + b.frameCount * sizeofUnavailableFrame)⟩,
  ⟨.pagetableVpn, 16 + alignUp sizeofPagetableVpn⟩
]

/--
The bytes of the table, without any reduction modulo 2 ^ 32.
-/
def tableBytes (mmapEntryCount : Nat) : Nat :=
  b.headerBytes + ((b.entryBytes mmapEntryCount).map (·.2)).sum

def payloadAt (mmapEntryCount i : Nat) : Nat :=
  b.headerBytes + (((b.entryBytes mmapEntryCount).take i).map (·.2)).sum + 16

end BootemosInput

structure HeaderIs (b : BootemosInput) (n : Nat) (t : Bytes) : Prop where
  headerSize_eq : TableHeader.headerSize t = b.headerBytes
  entryCount_eq : TableHeader.entryCount t = (b.entryBytes n).length
  size_eq : TableHeader.size t = b.tableBytes n

/--
`t` is the table for `b`, if the firmware enumerates `map` and the pages of the kernel are at `paddr`.
-/
structure TableIs (b : BootemosInput) (map : List SmapEntry) (paddr : Nat → Nat) (t : Bytes)
    : Prop where
  header : HeaderIs b map.length t
  entries : EntriesAt t b.headerBytes (b.entryBytes map.length) (b.tableBytes map.length)
  args : ArgsAt t (b.payloadAt map.length 0) (b.headerBytes - TableHeader.strtab) b.args
  loaderInfo : LoaderAt t (b.payloadAt map.length 1) (b.headerBytes - TableHeader.strtab)
  memoryMap : ListAt MemoryMapEntry.codec t (b.payloadAt map.length 2)
    (map.map SmapEntry.memoryMapEntry)
  frames : ListAt UnavailableFrame.codec t (b.payloadAt map.length 5)
    (b.pagetableFrames ++ b.kernelFrames paddr)
  vpn : t.read (b.payloadAt map.length 6) 8 = b.pageDir.toNat / pageSize

section Sizes

theorem btblhdrsize_eq (h : b.headerBytes < 2 ^ 32) : b.btblhdrsize = b.headerBytes := by
  have hname : sizeofLiteral loaderName = 6 := rfl
  have hversion : sizeofLiteral loaderVersion = 6 := rfl
  have hauthor : sizeofLiteral loaderAuthor = 8 := rfl
  have hargs : (b.args.map fun arg => arg.strlen + 1).sum = strtabSize b.args := rfl
  unfold headerBytes alignUp at *
  unfold btblhdrsize align u32
  dsimp only
  rw [hname, hversion, hauthor, hargs]
  unfold loaderStrtabSize at *
  lia

theorem btblentsize_eq {n : Nat} (h : b.tableBytes n < 2 ^ 32)
    : b.btblentsize n = ((b.entryBytes n).map (·.2)).sum := by
  have hentry : align EntryHeader.sizeof 16 = 16 := rfl
  have hloaderInfo : alignUp sizeofLoaderInfo = 16 := rfl
  have hacpiRsdp : alignUp sizeofAcpiRsdp = 32 := rfl
  have hframebuffer : alignUp sizeofFramebuffer = 32 := rfl
  have hpagetableVpn : alignUp sizeofPagetableVpn = 16 := rfl
  have hargs := le_alignUp (n := sizeofCommandArgs + b.args.length * sizeofArgOffset)
  have hmap := le_alignUp (n := sizeofMemoryMap + n * sizeofMemoryMapEntry)
  have hframes := le_alignUp (n := sizeofUnavailableFrames + b.frameCount * sizeofUnavailableFrame)
  have hcount : b.frameCount ≤ b.frameCount * sizeofUnavailableFrame := by
    unfold sizeofUnavailableFrame
    omega
  unfold tableBytes entryBytes at h
  unfold btblentsize entryBytes
  simp only [List.map_cons, List.map_nil, List.sum_cons, List.sum_nil, hentry, hloaderInfo, hacpiRsdp,
    hframebuffer, hpagetableVpn] at h ⊢
  have hframeCount : u32 (b.countPagetableFrame + b.kernelFrameCount) = b.frameCount := by
    apply u32_of_lt
    exact Nat.lt_of_le_of_lt hcount (by lia)
  rw [hframeCount]
  rw [align_eq_alignUp (by lia), align_eq_alignUp (by decide), align_eq_alignUp (by lia),
    align_eq_alignUp (by decide), align_eq_alignUp (by decide), align_eq_alignUp (by lia),
    align_eq_alignUp (by decide)]
  rw [hloaderInfo, hacpiRsdp, hframebuffer, hpagetableVpn]
  unfold u32
  lia

end Sizes

theorem fillTableHeader_spec {n : Nat} (h : b.tableBytes n < 2 ^ 32)
    : TableHeader.headerSize (b.fillTableHeader n m) = b.headerBytes
        ∧ TableHeader.entryCount (b.fillTableHeader n m) = (b.entryBytes n).length
        ∧ TableHeader.size (b.fillTableHeader n m) = b.tableBytes n := by
  have hheader : b.headerBytes < 2 ^ 32 := by
    unfold tableBytes at h
    omega
  have halign : align b.btblhdrsize 16 = b.headerBytes := by
    have hpos : ((b.entryBytes n).map (·.2)).sum ≥ 16 := by
      unfold entryBytes
      simp only [List.map_cons, List.sum_cons]
      lia
    rw [btblhdrsize_eq hheader]
    unfold tableBytes at h
    rw [align_eq_alignUp (by omega)]
    unfold headerBytes alignUp
    lia
  unfold fillTableHeader
  refine ⟨?_, ?_, ?_⟩
  . unfold TableHeader.headerSize
    rw [Bytes.read_write_disjoint (by omega)]
    rw [Bytes.read_write_disjoint (by omega)]
    rw [halign]
    apply Bytes.read_write_of_lt
    omega
  . unfold TableHeader.entryCount
    rw [Bytes.read_write_disjoint (by omega)]
    apply Bytes.read_write_of_lt
    decide
  . unfold TableHeader.size
    rw [btblhdrsize_eq hheader, btblentsize_eq h]
    apply Bytes.read_write_of_lt
    unfold tableBytes at h
    omega

theorem filled_nil {n : Nat} (h : b.tableBytes n < 2 ^ 32) (hstrtab : TableHeader.strtab ≤ b.headerBytes)
    : Filled b.headerBytes [] (HeaderIs b n) ⟨b.fillTableHeader n m, b.headerBytes, 0⟩ := by
  obtain ⟨hheaderSize, hentryCount, hsize⟩ := fillTableHeader_spec (m := m) h
  constructor
  . rfl
  . exact hstrtab
  . intro t ht
    have hread : ∀ p k, p + k ≤ 16 → Bytes.read t p k = (b.fillTableHeader n m).read p k := by
      intro p k hpk
      apply Bytes.read_eqOn
      apply ht.mono
      intro q hq
      have := hq.2
      exact .inl (show q < 16 + 0 by omega)
    constructor
    . rw [← hheaderSize]
      exact hread _ _ (by omega)
    . rw [← hentryCount]
      exact hread _ _ (by omega)
    . rw [← hsize]
      exact hread _ _ (by omega)

theorem fillTable_spec {rsdp : AcpiRsdp} (hmap : Enumerates b 0 map) (hrsdp : b.rsdp = some rsdp)
    (hkernel : ∀ j, j < b.kernelFrameCount
      → b.mmVaddrToPaddr (u32 (b.loadVaddr.toNat + j <<< 12)) = .ok (paddr j))
    (hsize : b.tableBytes map.length < 2 ^ 32)
    : ∃ t, fillTable b map.length m = some t
        ∧ ∀ t', Set.EqOn t' t (Set.Iio (b.tableBytes map.length)) → TableIs b map paddr t' := by
  have hstrtab : TableHeader.strtab + strtabSize b.args + loaderStrtabSize ≤ b.headerBytes := le_alignUp
  have hargs := le_alignUp (n := sizeofCommandArgs + b.args.length * sizeofArgOffset)
  have hentries := le_alignUp (n := sizeofMemoryMap + map.length * sizeofMemoryMapEntry)
  have hframes := le_alignUp (n := sizeofUnavailableFrames + b.frameCount * sizeofUnavailableFrame)
  have hargs' : b.args.length ≤ b.args.length * sizeofArgOffset := Nat.le_mul_of_pos_right _ (by decide)
  have hentries' : map.length ≤ map.length * sizeofMemoryMapEntry :=
    Nat.le_mul_of_pos_right _ (by decide)
  have hframes' : b.frameCount ≤ b.frameCount * sizeofUnavailableFrame :=
    Nat.le_mul_of_pos_right _ (by decide)
  have hfills : ∀ p c, b.frameCount < 2 ^ 32 → Fills
      (fun p s => (fillUnavailableFrames b p s.1).map fun m => ⟨m, s.2⟩) p
      (sizeofUnavailableFrames + b.frameCount * sizeofUnavailableFrame) c c
      (fun m => ListAt UnavailableFrame.codec m p (b.pagetableFrames ++ b.kernelFrames paddr)) := by
    intro p c hlt
    exact fillUnavailableFrames_fills hkernel hlt
  have hsum := hsize
  unfold tableBytes entryBytes at hsum
  simp only [List.map_cons, List.map_nil, List.sum_cons, List.sum_nil] at hsum
  -- the number of frames is not to be evaluated
  obtain ⟨frames, hcount⟩ : ∃ frames, frames = b.frameCount := ⟨_, rfl⟩
  rw [← hcount] at hframes hframes' hfills hsum
  have hheader := fillTableHeader_spec (m := m) hsize
  obtain ⟨s, hs, hnext, hcursor⟩ : ∃ s : Filling,
      s = ⟨b.fillTableHeader map.length m, b.headerBytes, 0⟩ ∧ s.benthdr = b.headerBytes
        ∧ s.strtabCursor = 0 :=
    ⟨_, rfl, rfl, rfl⟩
  have hfilled : Filled b.headerBytes [] (HeaderIs b map.length) s := by
    rw [hs]
    exact filled_nil hsize (by lia)
  obtain ⟨s1, hadd1, hnext1, hcursor1, hfilled1⟩ := addEntry_spec .commandArgs hfilled
    (fillCommandArgs_fills b.args (by lia) (by lia) (by lia)) (by lia) (by lia)
  obtain ⟨s2, hadd2, hnext2, hcursor2, hfilled2⟩ := addEntry_spec .loaderInfo hfilled1
    (fillLoaderInfo_fills (by lia) (by lia)) (by lia) (by lia)
  obtain ⟨s3, hadd3, hnext3, hcursor3, hfilled3⟩ := addEntry_spec .memoryMap hfilled2
    (fillMemoryMap_fills hmap (by lia)) (by lia) (by lia)
  obtain ⟨s4, hadd4, hnext4, hcursor4, hfilled4⟩ := addEntry_spec .acpiRsdp hfilled3
    (fillAcpiRsdp_fills rsdp) (by lia) (by lia)
  obtain ⟨s5, hadd5, hnext5, hcursor5, hfilled5⟩ := addEntry_spec .framebuffer hfilled4
    (fillFramebuffer_fills b.hwmode) (by lia) (by lia)
  obtain ⟨s6, hadd6, hnext6, hcursor6, hfilled6⟩ := addEntry_spec .unavailableFrames hfilled5
    (hfills _ _ (by lia)) (by lia) (by lia)
  obtain ⟨s7, hadd7, hnext7, hcursor7, hfilled7⟩ := addEntry_spec .pagetableVpn hfilled6
    (fillPagetableVpn_fills (b := b)) (by lia) (by lia)
  have hframeCount : u32 (b.countPagetableFrame + b.kernelFrameCount) = frames := by
    rw [hcount]
    apply u32_of_lt
    rw [← frameCount, ← hcount]
    lia
  refine ⟨s7.mem, ?_, ?_⟩
  . rw [hs] at hadd1
    unfold fillTable
    simp only [hheader.1, hframeCount]
    apply bind_of_some hadd1
    apply bind_of_some hadd2
    apply bind_of_some hadd3
    apply bind_of_some hrsdp
    apply bind_of_some hadd4
    apply bind_of_some hadd5
    apply bind_of_some hadd6
    apply bind_of_some hadd7
    rfl
  . intro t' ht'
    have hend : s7.benthdr = b.tableBytes map.length := by
      unfold tableBytes entryBytes
      simp only [List.map_cons, List.map_nil, List.sum_cons, List.sum_nil]
      rw [← hcount]
      lia
    have hkeeps : Set.EqOn t' s7.mem (s7.finished b.headerBytes) := by
      apply ht'.mono
      intro q hq
      simp only [Filling.finished, Set.mem_union, Set.mem_Iio, Set.mem_Ico] at hq ⊢
      have := hfilled7.entries.le
      lia
    obtain ⟨⟨⟨⟨⟨⟨⟨hheaderIs, hargsAt⟩, hloaderAt⟩, hmapAt⟩, _⟩, _⟩, hframesAt⟩, hvpn⟩ :=
      hfilled7.content t' hkeeps
    have hpayload : ∀ i (s : Filling),
        s.benthdr = b.headerBytes + (((b.entryBytes map.length).take i).map (·.2)).sum
          → s.benthdr + 16 = b.payloadAt map.length i := by
      intro i s h
      rw [h]
      rfl
    have hpayload0 := hpayload 0 s hnext
    have hpayload1 := hpayload 1 s1 (by simp [entryBytes]; lia)
    have hpayload2 := hpayload 2 s2 (by simp [entryBytes]; lia)
    have hpayload5 := hpayload 5 s5 (by simp [entryBytes]; lia)
    have hpayload6 := hpayload 6 s6 (by simp [entryBytes, ← hcount]; lia)
    rw [hpayload0] at hargsAt
    rw [hpayload1] at hloaderAt
    rw [hpayload2] at hmapAt
    rw [hpayload5] at hframesAt
    rw [hpayload6] at hvpn
    constructor
    . exact hheaderIs
    . have hentriesAt := hfilled7.entries.eqOn (hkeeps.mono (fun q hq => .inr hq))
      rw [hend, hcount] at hentriesAt
      exact hentriesAt
    . exact hargsAt.mono (by lia)
    . exact hloaderAt.mono (by lia)
    . exact hmapAt
    . exact hframesAt
    . exact hvpn

end Emos.Boot
