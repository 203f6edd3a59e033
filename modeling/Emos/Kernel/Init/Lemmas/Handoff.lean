import Emos.Boot.Bootemos.Lemmas.Table
import Emos.Kernel.Init.Impl.BootInfo

/-!
This module contains that the kernel reads from the table what the boot loader has written to it.
-/

open Lib

namespace Emos

open Boot
open Boot.BootemosInput

variable {t : Bytes} {p q i : Nat} {es : List (EntryType × Nat)} {type : EntryType}
  {cases : List EntryType}

/--
The visits of entries of these types and sizes that start at `p`.
-/
def visits (p : Nat) : List (EntryType × Nat) → List EntryVisit
  | [] => []
  | ⟨type, n⟩ :: es => ⟨p, type.code, 16, n⟩ :: visits (p + n) es

theorem walkEntries_eq (h : EntriesAt t p es q) (hq : q < 2 ^ 32)
    : walkEntries t es.length p = visits p es := by
  induction es generalizing p with
  | nil => rfl
  | cons e es ih =>
    obtain ⟨hentry, hrest⟩ := h
    have hle := hrest.le
    rw [List.length_cons, walkEntries, visits]
    rw [hentry.type_eq, hentry.headerSize_eq, hentry.size_eq]
    dsimp only
    rw [u32_of_lt (by omega)]
    rw [ih hrest]

theorem length_walkEntries {n : Nat} : (walkEntries t n p).length = n := by
  induction n generalizing p with
  | zero => rfl
  | succ n ih => rw [walkEntries, List.length_cons, ih]

theorem tiles_visits (h : EntriesAt t p es q) : Tiles p ((visits p es).map EntryVisit.span) q := by
  induction es generalizing p with
  | nil => exact h
  | cons e es ih =>
    obtain ⟨hentry, hrest⟩ := h
    have hpos : 0 < e.2 := Nat.lt_of_lt_of_le (by decide) hentry.le_size
    exact ⟨rfl, hpos, ih hrest⟩

theorem header_le_of_getElem? (h : EntriesAt t p es q) {n : Nat} (hi : es[i]? = some ⟨type, n⟩)
    : p + ((es.take i).map (·.2)).sum + 16 ≤ q := by
  induction es generalizing p i with
  | nil => contradiction
  | cons e es ih =>
    obtain ⟨hentry, hrest⟩ := h
    cases i with
    | zero =>
      have hsize := hentry.le_size
      have hle := hrest.le
      simp only [List.take_zero, List.map_nil, List.sum_nil]
      omega
    | succ i =>
      have := ih hrest hi
      rw [List.take_succ_cons, List.map_cons, List.sum_cons]
      omega

theorem visits_types : (visits p es).map (fun v => EntryType.ofCode? v.type) = es.map (some ·.1) := by
  induction es generalizing p with
  | nil => rfl
  | cons e es ih =>
    rw [visits, List.map_cons, List.map_cons, ih, EntryType.ofCode?_code]

theorem foldl_noteEntry_of_not_mem {found : FoundEntries} (h : type ∉ es.map (·.1))
    : (visits p es).foldl (noteEntry cases) found type = found type := by
  induction es generalizing p found with
  | nil => rfl
  | cons e es ih =>
    rw [List.map_cons, List.mem_cons, not_or] at h
    rw [visits, List.foldl_cons, ih h.2]
    unfold noteEntry
    rw [EntryType.ofCode?_code]
    dsimp only
    split
    . exact Function.update_of_ne h.1 _ _
    . rfl

theorem foldl_noteEntry_of_getElem? {found : FoundEntries} {n : Nat} (hnodup : (es.map (·.1)).Nodup)
    (hi : es[i]? = some ⟨type, n⟩) (hcases : type ∈ cases)
    : (visits p es).foldl (noteEntry cases) found type
        =
      some (u32 (p + ((es.take i).map (·.2)).sum + 16)) := by
  induction es generalizing p found i with
  | nil => contradiction
  | cons e es ih =>
    rw [List.map_cons, List.nodup_cons] at hnodup
    rw [visits, List.foldl_cons]
    cases i with
    | zero =>
      rw [List.getElem?_cons_zero, Option.some.injEq] at hi
      subst hi
      rw [foldl_noteEntry_of_not_mem hnodup.1]
      unfold noteEntry
      rw [EntryType.ofCode?_code]
      dsimp only
      rw [if_pos hcases]
      exact Function.update_self _ _ _
    | succ i =>
      rw [List.getElem?_cons_succ] at hi
      rw [ih hnodup.2 hi]
      rw [List.take_succ_cons, List.map_cons, List.sum_cons, Nat.add_assoc p]

structure Handoff where
  args : List (List (BitVec 8))
  memoryMap : List MemoryMapEntry
  unavailableFrames : List UnavailableFrame
  vpn : Nat

def Boot.BootemosInput.handoff (b : BootemosInput) (map : List SmapEntry) (paddr : Nat → Nat)
    : Handoff where
  args := b.args.map CString.bytes
  memoryMap := map.map SmapEntry.memoryMapEntry
  unavailableFrames := b.pagetableFrames ++ b.kernelFrames paddr
  vpn := b.pageDir.toNat / pageSize

/--
The entries of a table follow each other from the header to the end of the table, and this is what the
kernel finds in them.
-/
structure Decodes (t : Bytes) (h : Handoff) : Prop where
  visits_count : (visitedEntries t).length = TableHeader.entryCount t
  visits_types : (visitedEntries t).map (fun v => EntryType.ofCode? v.type)
    = [some .commandArgs, some .loaderInfo, some .memoryMap, some .acpiRsdp, some .framebuffer,
      some .unavailableFrames, some .pagetableVpn]
  contiguous : Tiles (TableHeader.headerSize t) ((visitedEntries t).map EntryVisit.span)
    (TableHeader.size t)
  disjoint : ((visitedEntries t).map EntryVisit.span).Pairwise (fun s s' => s.1 + s.2 ≤ s'.1)
  args : (findEntries mainCases t .commandArgs).map (commandArgs t) = some (h.args.map some)
  loaderInfo : (findEntries mainCases t .loaderInfo).map (loaderInfo t)
    = some [some loaderName.bytes, some loaderVersion.bytes, some loaderAuthor.bytes]
  memoryMap : (findEntries mainCases t .memoryMap).map (memoryMapEntries t) = some h.memoryMap
  unavailableFrames : (findEntries mainCases t .unavailableFrames).map (unavailableFrameEntries t)
    = some h.unavailableFrames
  vpn : (findEntries mainCases t .pagetableVpn).map (pagetableVpn t) = some h.vpn
  pcInit : pcInitBootInfo t = .ok ⟨h.vpn, h.memoryMap, h.unavailableFrames⟩

section TableIs

variable {b : BootemosInput} {map : List SmapEntry} {paddr : Nat → Nat}

theorem visitedEntries_eq (h : TableIs b map paddr t) (hsize : b.tableBytes map.length < 2 ^ 32)
    : visitedEntries t = visits b.headerBytes (b.entryBytes map.length) := by
  unfold visitedEntries
  rw [h.header.entryCount_eq, h.header.headerSize_eq]
  exact walkEntries_eq h.entries hsize

theorem findEntries_eq (h : TableIs b map paddr t) (hsize : b.tableBytes map.length < 2 ^ 32)
    {n : Nat} (hi : (b.entryBytes map.length)[i]? = some ⟨type, n⟩) (hcases : type ∈ cases)
    : findEntries cases t type = some (b.payloadAt map.length i) := by
  have hle := header_le_of_getElem? h.entries hi
  have hnodup : ((b.entryBytes map.length).map (·.1)).Nodup := by
    simp [entryBytes]
  unfold findEntries
  rw [visitedEntries_eq h hsize]
  rw [foldl_noteEntry_of_getElem? hnodup hi hcases]
  rw [u32_of_lt (by omega)]
  rfl

theorem strtabString_eq {s : CString} {c : Nat} (h : StringAt t p c s)
    (hc : TableHeader.strtab + c ≤ TableHeader.headerSize t)
    : strtabString t (t.read p 4) = some s.bytes := by
  unfold strtabString
  apply Bytes.getString_mono h.2
  have := h.1
  lia

theorem strtab_le_headerSize (h : TableIs b map paddr t)
    : TableHeader.strtab + (b.headerBytes - TableHeader.strtab) ≤ TableHeader.headerSize t := by
  have hle : TableHeader.sizeof + strtabSize b.args + loaderStrtabSize ≤ b.headerBytes := le_alignUp
  rw [h.header.headerSize_eq]
  unfold TableHeader.strtab
  unfold TableHeader.sizeof at hle
  omega

theorem commandArgs_eq (h : TableIs b map paddr t)
    : commandArgs t (b.payloadAt map.length 0) = (b.args.map CString.bytes).map some := by
  obtain ⟨hcount, hstrings⟩ := h.args
  unfold commandArgs
  rw [hcount]
  apply List.ext_getElem?
  intro j
  rw [List.getElem?_map, List.getElem?_map, List.getElem?_map]
  cases harg : b.args[j]? with
  | none =>
    have hj := List.getElem?_eq_none_iff.mp harg
    rw [List.getElem?_eq_none (by rw [List.length_range]; exact hj)]
    rfl
  | some arg =>
    obtain ⟨hj, _⟩ := List.getElem?_eq_some_iff.mp harg
    rw [List.getElem?_range hj]
    dsimp only [Option.map_some]
    rw [strtabString_eq (hstrings j arg harg) (strtab_le_headerSize h)]

theorem loaderInfo_eq (h : TableIs b map paddr t)
    : loaderInfo t (b.payloadAt map.length 1)
        =
      [some loaderName.bytes, some loaderVersion.bytes, some loaderAuthor.bytes] := by
  have hc := strtab_le_headerSize h
  unfold loaderInfo
  rw [strtabString_eq h.loaderInfo.name hc]
  rw [strtabString_eq h.loaderInfo.version hc]
  rw [strtabString_eq h.loaderInfo.author hc]

theorem listAt_getAll {α : Type} {codec : Codec α} {as : List α} (h : ListAt codec t p as)
    : codec.getAll t (p + 4) (t.read p 4) = as := by
  rw [h.1]
  exact h.2

theorem decodes_of_tableIs (h : TableIs b map paddr t) (hsize : b.tableBytes map.length < 2 ^ 32)
    : Decodes t (b.handoff map paddr) := by
  have hvisited := visitedEntries_eq h hsize
  have hmap : memoryMapEntries t (b.payloadAt map.length 2) = (b.handoff map paddr).memoryMap := by
    exact listAt_getAll h.memoryMap
  have hframes : unavailableFrameEntries t (b.payloadAt map.length 5)
      = (b.handoff map paddr).unavailableFrames := by
    exact listAt_getAll h.frames
  have htiles : Tiles (TableHeader.headerSize t) ((visitedEntries t).map EntryVisit.span)
      (TableHeader.size t) := by
    rw [h.header.headerSize_eq, h.header.size_eq, hvisited]
    exact tiles_visits h.entries
  constructor
  . unfold visitedEntries
    exact length_walkEntries
  . rw [hvisited, visits_types]
    rfl
  . exact htiles
  . exact htiles.pairwise
  . rw [findEntries_eq h hsize (i := 0) rfl (by decide)]
    rw [Option.map_some, commandArgs_eq h]
    rfl
  . rw [findEntries_eq h hsize (i := 1) rfl (by decide)]
    rw [Option.map_some, loaderInfo_eq h]
  . rw [findEntries_eq h hsize (i := 2) rfl (by decide)]
    rw [Option.map_some, hmap]
  . rw [findEntries_eq h hsize (i := 5) rfl (by decide)]
    rw [Option.map_some, hframes]
  . rw [findEntries_eq h hsize (i := 6) rfl (by decide)]
    rw [Option.map_some]
    exact congrArg some h.vpn
  . unfold pcInitBootInfo
    dsimp only
    rw [findEntries_eq h hsize (i := 2) rfl (by decide)]
    rw [findEntries_eq h hsize (i := 5) rfl (by decide)]
    rw [findEntries_eq h hsize (i := 6) rfl (by decide)]
    dsimp only
    rw [hmap, hframes]
    exact congrArg (fun vpn => Except.ok (vpn, _, _)) h.vpn

end TableIs

/--
If nothing is missing that the boot loader needs, it starts the kernel with a table from which `_pc_init`
and, after the table has been moved, `main` read what was to be told to them.
-/
theorem bootemosTable_decodes (b : BootemosInput) (m : Bytes) (map : List SmapEntry)
    (paddr : Nat → Nat) (fuel : Nat) (hmap : Enumerates b 0 map) (hfuel : map.length ≤ fuel)
    (hrsdp : b.rsdp.isSome)
    (hkernel : ∀ j, j < b.kernelFrameCount
      → b.mmVaddrToPaddr (u32 (b.loadVaddr.toNat + j <<< 12)) = .ok (paddr j))
    (hsize : b.tableBytes map.length < 2 ^ 32)
    : ∃ t, bootemosTable fuel b m = .ok (some t)
        ∧ Decodes t (b.handoff map paddr)
        ∧ ∀ fresh, Decodes (relocateTable t fresh) (b.handoff map paddr) := by
  obtain ⟨rsdp, hrsdp⟩ := Option.isSome_iff_exists.mp hrsdp
  obtain ⟨t, hfill, htable⟩ := fillTable_spec (m := m) hmap hrsdp hkernel hsize
  have ht := htable t (Set.eqOn_refl _ _)
  have hcount : b.countSmapEntry fuel = .ok (.ok map.length) := by
    unfold countSmapEntry
    rw [hmap.countSmapEntry_go hfuel, Nat.zero_add]
  refine ⟨t, ?_, ?_, ?_⟩
  . unfold bootemosTable
    rw [hcount, ← hfill]
    rfl
  . exact decodes_of_tableIs ht hsize
  . intro fresh
    apply decodes_of_tableIs _ hsize
    apply htable
    intro q hq
    unfold relocateTable
    rw [ht.header.size_eq]
    exact if_pos hq

/--
Two arguments, of which one is empty, two entries in the memory map, one page table and a kernel of two
pages.
-/
def smallBoot : BootemosInput where
  args := [⟨[0x71], by decide⟩, ⟨[], by decide⟩]
  queryMap cursor :=
    if cursor = 0 then
      .ok ⟨20, ⟨0, 0, 0x9FC00, 0, 1⟩⟩
    else
      .ok ⟨0, ⟨0x100000, 0, 0, 1, 1⟩⟩
  smapEntry := ⟨0, 0, 0, 0, 0⟩
  rsdp := some ⟨⟨#[0, 0, 0, 0, 0, 0], rfl⟩, 0, 20, 0xE0000, 0⟩
  hwmode := ⟨0xB8000, 80, 25, 160, 16, 0, 0, 0, 0, 0, 0, 0⟩
  cr3 := 0x8000
  pageDir := 0xFFFFF000
  pde i := ⟨i = 768, 9⟩
  pte _ j := ⟨true, BitVec.ofNat 20 (0x100 + j)⟩
  loadVaddr := 0xC0000000
  programSize := 5000

theorem bootemosTable_decodes_smallBoot
    : smallBoot.kernelFrameCount = 2 ∧ smallBoot.countPagetableFrame = 2
        ∧ ∃ map paddr t, map.length = 2 ∧ bootemosTable 2 smallBoot (fun _ => 0) = .ok (some t)
          ∧ Decodes t (smallBoot.handoff map paddr)
          ∧ ∀ fresh, Decodes (relocateTable t fresh) (smallBoot.handoff map paddr) := by
  have hmap : Enumerates smallBoot 0 [⟨0, 0, 0x9FC00, 0, 1⟩, ⟨0x100000, 0, 0, 1, 1⟩] := by
    apply Enumerates.more rfl (by decide)
    apply Enumerates.last
    rfl
  have hkernel : ∀ j, j < smallBoot.kernelFrameCount
      → smallBoot.mmVaddrToPaddr (u32 (smallBoot.loadVaddr.toNat + j <<< 12))
        = .ok ((0x100 + j) * 4096) := by
    decide
  obtain ⟨t, ht⟩ := bootemosTable_decodes smallBoot (fun _ => 0) _ (fun j => (0x100 + j) * 4096) 2 hmap
    (by decide) (by decide) hkernel (by decide +kernel)
  exact ⟨by decide +kernel, by decide +kernel, _, _, t, rfl, ht⟩

end Emos
