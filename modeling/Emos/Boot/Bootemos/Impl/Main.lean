import Emos.Boot.Elf.Impl.Elf
import Emos.BootInfo.Basic

/-!
This module contains the boot loader's command `bootemos` from where it counts the bytes of the table
for the kernel up to the jump to the kernel: a first pass adds up the sizes, a second one fills the
table. At the end is where it puts the kernel: it goes through the program headers for the addresses that the kernel
takes, and allocates the pages.
-/

open Lib

namespace Emos.Boot

structure SmapEntry where
  baseAddrLow : UInt32
  baseAddrHigh : UInt32
  lengthLow : UInt32
  lengthHigh : UInt32
  type : UInt32
  deriving DecidableEq, Repr

/-- `dir` of an entry of the page directory, or an entry of a page table -/
structure PageEntry where
  p : Bool
  base : BitVec 20
  deriving DecidableEq, Repr

structure AcpiRsdp where
  oemid : Vector (BitVec 8) 6
  revision : UInt8
  length : UInt32
  rsdtAddr : UInt32
  xsdtAddr : UInt64
  deriving DecidableEq, Repr

structure VideoHwModeInfo where
  framebuffer : UInt32
  width : UInt32
  height : UInt32
  pitch : UInt32
  bpp : UInt32
  memoryModel : UInt32
  rmask : UInt32
  rpos : UInt32
  gmask : UInt32
  gpos : UInt32
  bmask : UInt32
  bpos : UInt32
  deriving DecidableEq, Repr

/-- `VMM_DIRECT` -/
def vmmDirect : UInt32 := 6

/--
What the command reads of its arguments and of the machine.
-/
structure BootemosInput where
  /-- the arguments behind the path of the kernel -/
  args : List CString
  /-- `_pc_bios_mem_query_map`, which returns the next cursor -/
  queryMap : UInt32 → Except Status (UInt32 × SmapEntry)
  /-- what is in the variable `smap_entry` that is not initialized -/
  smapEntry : SmapEntry
  /-- what `uacpi_kernel_get_rsdp` finds -/
  rsdp : Option AcpiRsdp
  hwmode : VideoHwModeInfo
  cr3 : UInt32
  /-- the address `_pc_page_dir` -/
  pageDir : UInt32
  pde : Nat → PageEntry
  /-- the entries of the page table that each entry of the page directory points to -/
  pte : Nat → Nat → PageEntry
  loadVaddr : UInt32
  programSize : UInt32

namespace BootemosInput

variable (b : BootemosInput)

def mmVpnToPfn (vpn : Nat) : Except Status Nat :=
  let dir := (vpn &&& 0x000FFC00) >>> 10
  let index := vpn &&& 0x000003FF
  if ¬(b.pde dir).p then
    .error .pageNotPresent
  else if ¬(b.pte dir index).p then
    .error .pageNotPresent
  else
    .ok (b.pte dir index).base.toNat

def mmVaddrToPaddr (vaddr : Nat) : Except Status Nat := do
  let pfn ← b.mmVpnToPfn (vaddr >>> 12)
  return u32 (pfn * pageSize + (vaddr &&& (pageSize - 1)))

/--
The loop goes on for as long as the cursor is not zero, which depends on the firmware.
-/
def countSmapEntry.go : Nat → UInt32 → Nat → Run (Except Status Nat)
  | 0, _, _ => .error .hang
  | fuel + 1, cursor, count =>
    match b.queryMap cursor with
    | .error status => .ok (.error status)
    | .ok ⟨next, _⟩ => if next = 0 then .ok (.ok (count + 1)) else go fuel next (count + 1)

def countSmapEntry (fuel : Nat) : Run (Except Status Nat) := countSmapEntry.go b fuel 0 0

def countPagetableFrame.go : Nat → Nat → Nat → Nat
  | 0, _, count => count
  | n + 1, i, count => go n (i + 1) (if (b.pde i).p then count + 1 else count)

def countPagetableFrame : Nat := 1 + countPagetableFrame.go b 1023 0 0

def kernelFrameCount : Nat := alignDiv b.programSize.toNat pageSize

/-- "eboot" -/
def loaderName : CString := ⟨[0x65, 0x62, 0x6F, 0x6F, 0x74], by decide⟩

/-- "0.0.1" -/
def loaderVersion : CString := ⟨[0x30, 0x2E, 0x30, 0x2E, 0x31], by decide⟩

/-- "kms1212" -/
def loaderAuthor : CString := ⟨[0x6B, 0x6D, 0x73, 0x31, 0x32, 0x31, 0x32], by decide⟩

/--
`sizeof` of a string literal counts the terminating zero byte.
-/
def sizeofLiteral (s : CString) : Nat := s.strlen + 1

def btblhdrsize : Nat :=
  let size := u32 (TableHeader.sizeof + (b.args.map fun arg => arg.strlen + 1).sum)
  let size := u32 (size + (sizeofLiteral loaderName + 1))
  let size := u32 (size + (sizeofLiteral loaderVersion + 1))
  let size := u32 (size + (sizeofLiteral loaderAuthor + 1))
  align size 16

def btblentsize (mmapEntryCount : Nat) : Nat :=
  let entry := align EntryHeader.sizeof 16
  let size := entry + align (sizeofCommandArgs + b.args.length * sizeofArgOffset) 16
  let size := u32 (size + entry + align sizeofLoaderInfo 16)
  let size := u32 (size + entry + align (sizeofMemoryMap + mmapEntryCount * sizeofMemoryMapEntry) 16)
  let size := u32 (size + entry + align sizeofAcpiRsdp 16)
  let size := u32 (size + entry + align sizeofFramebuffer 16)
  let frames := u32 (b.countPagetableFrame + b.kernelFrameCount)
  let size := u32 (size + entry + align (sizeofUnavailableFrames + frames * sizeofUnavailableFrame) 16)
  u32 (size + entry + align sizeofPagetableVpn 16)

def btblentcount : Nat := 7

def fillTableHeader (mmapEntryCount : Nat) (m : Bytes) : Bytes :=
  let m := m.write 0 2 0
  let m := m.write 2 2 btvCurrent
  let m := m.write 4 4 (align b.btblhdrsize 16)
  let m := m.write 8 2 btblentcount
  m.write 12 4 (b.btblhdrsize + b.btblentsize mmapEntryCount)

end BootemosInput

structure Filling where
  mem : Bytes
  /-- where the next entry is going to be -/
  benthdr : Nat
  strtabCursor : Nat

def fillEntryHeader (m : Bytes) (benthdr : Nat) (type : EntryType) (payload : Nat) : Bytes :=
  let m := m.write benthdr 4 type.code
  let m := m.write (benthdr + 6) 2 (align EntryHeader.sizeof 16)
  let m := m.write (benthdr + 8) 4 (EntryHeader.headerSize m benthdr + align payload 16)
  m.write (benthdr + 4) 2 befRequired

/--
Fill the entry header, let `fill` write what comes behind it and into the string table, and go on to
where the next entry is going to be.
-/
def addEntry (type : EntryType) (payload : Nat) (fill : Nat → Bytes × Nat → Option (Bytes × Nat))
    (s : Filling) : Option Filling := do
  let m := fillEntryHeader s.mem s.benthdr type payload
  let ⟨m, cursor⟩ ← fill (u32 (s.benthdr + EntryHeader.headerSize m s.benthdr)) ⟨m, s.strtabCursor⟩
  return {
    mem := m
    benthdr := u32 (s.benthdr + EntryHeader.size m s.benthdr)
    strtabCursor := cursor
  }

def fillCommandArgs.go (p : Nat) : List CString → Nat → Bytes × Nat → Bytes × Nat
  | [], _, s => s
  | arg :: args, i, ⟨m, cursor⟩ =>
    let m := m.putString (TableHeader.strtab + cursor) arg.bytes
    let m := m.write (p + sizeofCommandArgs + i * sizeofArgOffset) 4 cursor
    go p args (i + 1) ⟨m, u32 (cursor + (arg.strlen + 1))⟩

def fillCommandArgs (args : List CString) (p : Nat) (s : Bytes × Nat) : Bytes × Nat :=
  fillCommandArgs.go p args 0 ⟨s.1.write p 4 args.length, s.2⟩

/--
Copy a string literal to the string table and write where it is to the field at `p`.
-/
def fillLiteral (lit : CString) (p : Nat) (s : Bytes × Nat) : Bytes × Nat :=
  let m := s.1.putString (TableHeader.strtab + s.2) lit.bytes
  ⟨m.write p 4 s.2, u32 (s.2 + (BootemosInput.sizeofLiteral lit + 1))⟩

def fillLoaderInfo (p : Nat) (s : Bytes × Nat) : Bytes × Nat :=
  let s := ⟨s.1.write p 4 0, s.2⟩
  let s := fillLiteral BootemosInput.loaderName (p + 4) s
  let s := fillLiteral BootemosInput.loaderVersion (p + 8) s
  fillLiteral BootemosInput.loaderAuthor (p + 12) s

def SmapEntry.memoryMapEntry (e : SmapEntry) : MemoryMapEntry where
  base := e.baseAddrHigh.toUInt64 <<< 32 ||| e.baseAddrLow.toUInt64
  size := e.lengthHigh.toUInt64 <<< 32 ||| e.lengthLow.toUInt64
  type := e.type

/--
The status of the query is not checked, so if it fails the last entry is written once more.
-/
def fillMemoryMap.go (b : BootemosInput) (p : Nat)
    : Nat → Nat → UInt32 → SmapEntry → Bytes → Bytes
  | 0, _, _, _, m => m
  | n + 1, i, cursor, last, m =>
    let next : UInt32 × SmapEntry :=
      match b.queryMap cursor with
      | .error _ => ⟨cursor, last⟩
      | .ok next => next
    go b p n (i + 1) next.1 next.2
      (MemoryMapEntry.put m (p + sizeofMemoryMap + i * sizeofMemoryMapEntry) next.2.memoryMapEntry)

def fillMemoryMap (b : BootemosInput) (mmapEntryCount : Nat) (p : Nat) (m : Bytes) : Bytes :=
  fillMemoryMap.go b p mmapEntryCount 0 0 b.smapEntry (m.write p 4 mmapEntryCount)

def strncpy (m : Bytes) (p : Nat) : List (BitVec 8) → Nat → Bytes
  | _, 0 => m
  | [], n + 1 => strncpy (Function.update m p 0#8) (p + 1) [] n
  | c :: cs, n + 1 =>
    if c = 0#8 then
      strncpy (Function.update m p 0#8) (p + 1) [] n
    else
      strncpy (Function.update m p c) (p + 1) cs n

def fillAcpiRsdp (rsdp : AcpiRsdp) (p : Nat) (m : Bytes) : Bytes :=
  let m := strncpy m p rsdp.oemid.toList 6
  let m := m.write (p + 6) 1 rsdp.revision.toNat
  let m := m.write (p + 8) 4 rsdp.length.toNat
  let m := m.write (p + 12) 4 rsdp.rsdtAddr.toNat
  m.write (p + 16) 8 (if rsdp.revision ≥ 2 then rsdp.xsdtAddr.toNat else 0)

def fillFramebuffer (hwmode : VideoHwModeInfo) (p : Nat) (m : Bytes) : Bytes :=
  let m := m.write p 8 hwmode.framebuffer.toNat
  let m := m.write (p + 8) 4 hwmode.width.toNat
  let m := m.write (p + 12) 4 hwmode.pitch.toNat
  let m := m.write (p + 16) 4 hwmode.height.toNat
  let m := m.write (p + 20) 1 hwmode.bpp.toNat
  if hwmode.memoryModel = vmmDirect then
    let m := m.write (p + 21) 1 beftDirect
    let m := m.write (p + 24) 1 hwmode.rpos.toNat
    let m := m.write (p + 25) 1 hwmode.rmask.toNat
    let m := m.write (p + 26) 1 hwmode.gpos.toNat
    let m := m.write (p + 27) 1 hwmode.gmask.toNat
    let m := m.write (p + 28) 1 hwmode.bpos.toNat
    m.write (p + 29) 1 hwmode.bmask.toNat
  else
    m.write (p + 21) 1 beftText

def fillPagetableFrameEntries.go (b : BootemosInput) (entries : Nat)
    : Nat → Nat → Nat → Nat → Bytes → Bytes
  | 0, _, _, _, m => m
  | n + 1, i, filledEntries, maxCount, m =>
    if ¬(b.pde i).p then
      go b entries n (i + 1) filledEntries maxCount m
    else if maxCount ≤ 0 then
      m
    else
      go b entries n (i + 1) (filledEntries + 1) (sub32 maxCount 1)
        (UnavailableFrame.put m (entries + filledEntries * sizeofUnavailableFrame)
          ⟨(b.pde i).base.setWidth 52, beutPagetable⟩)

def fillPagetableFrameEntries (b : BootemosInput) (entries : Nat) (maxCount : Nat) (m : Bytes)
    : Bytes :=
  if maxCount > 0 then
    fillPagetableFrameEntries.go b entries 1023 0 1 (sub32 maxCount 1)
      (UnavailableFrame.put m entries
        ⟨BitVec.ofNat 52 ((b.cr3.toNat &&& 0xFFFFF000) >>> 12), beutPagetable⟩)
  else
    fillPagetableFrameEntries.go b entries 1023 0 0 (sub32 maxCount 1) m

def fillKernelFrameEntries.go (b : BootemosInput) (entries : Nat)
    : Nat → Nat → Bytes → Except Status Bytes
  | 0, _, m => .ok m
  | n + 1, i, m => do
    let paddr ← b.mmVaddrToPaddr (u32 (b.loadVaddr.toNat + i <<< 12))
    go b entries n (i + 1)
      (UnavailableFrame.put m (entries + i * sizeofUnavailableFrame)
        ⟨BitVec.ofNat 52 (paddr >>> 12), beutKernel⟩)

def fillKernelFrameEntries (b : BootemosInput) (entries : Nat) (maxCount : Nat) (m : Bytes)
    : Except Status Bytes :=
  fillKernelFrameEntries.go b entries maxCount 0 m

def fillUnavailableFrames (b : BootemosInput) (p : Nat) (m : Bytes) : Option Bytes :=
  let pagetableFrames := b.countPagetableFrame
  let kernelFrames := b.kernelFrameCount
  let entries := p + sizeofUnavailableFrames
  let m := m.write p 4 (pagetableFrames + kernelFrames)
  let m := fillPagetableFrameEntries b entries pagetableFrames m
  match fillKernelFrameEntries b (entries + pagetableFrames * sizeofUnavailableFrame) kernelFrames m with
  | .error _ => none
  | .ok m => some m

def fillPagetableVpn (b : BootemosInput) (p : Nat) (m : Bytes) : Bytes :=
  m.write p 8 (b.pageDir.toNat / pageSize)

/--
The second pass. There is no table if the command returns to the shell.
-/
def fillTable (b : BootemosInput) (mmapEntryCount : Nat) (m : Bytes) : Option Bytes := do
  let m := b.fillTableHeader mmapEntryCount m
  let s : Filling := ⟨m, TableHeader.headerSize m, 0⟩
  let s ← addEntry .commandArgs (sizeofCommandArgs + b.args.length * sizeofArgOffset)
    (fun p s => some (fillCommandArgs b.args p s)) s
  let s ← addEntry .loaderInfo sizeofLoaderInfo (fun p s => some (fillLoaderInfo p s)) s
  let s ← addEntry .memoryMap (sizeofMemoryMap + mmapEntryCount * sizeofMemoryMapEntry)
    (fun p s => some ⟨fillMemoryMap b mmapEntryCount p s.1, s.2⟩) s
  let rsdp ← b.rsdp
  let s ← addEntry .acpiRsdp sizeofAcpiRsdp (fun p s => some ⟨fillAcpiRsdp rsdp p s.1, s.2⟩) s
  let s ← addEntry .framebuffer sizeofFramebuffer
    (fun p s => some ⟨fillFramebuffer b.hwmode p s.1, s.2⟩) s
  let frames := u32 (b.countPagetableFrame + b.kernelFrameCount)
  let s ← addEntry .unavailableFrames (sizeofUnavailableFrames + frames * sizeofUnavailableFrame)
    (fun p s => (fillUnavailableFrames b p s.1).map fun m => ⟨m, s.2⟩) s
  let s ← addEntry .pagetableVpn sizeofPagetableVpn
    (fun p s => some ⟨fillPagetableVpn b p s.1, s.2⟩) s
  return s.mem

def bootemosTable (fuel : Nat) (b : BootemosInput) (m : Bytes) : Run (Option Bytes) := do
  match ← b.countSmapEntry fuel with
  | .error _ => return none
  | .ok mmapEntryCount => return fillTable b mmapEntryCount m

end Emos.Boot

open Lib Emos.Boot.Mm Emos.Boot.Elf

namespace Emos.Boot

/--
The variables `load_vaddr`, which is `NULL` before the first header, and `program_size`.
-/
structure ProgramExtent where
  loadVaddr : BitVec 32
  programSize : BitVec 32
  deriving DecidableEq, Repr

namespace ProgramExtent

/--
The body of the loop over the program headers.
-/
def add (e : ProgramExtent) (phdr : Elf32Phdr) : ProgramExtent :=
  let loadVaddr := if e.loadVaddr = 0 ∨ e.loadVaddr > phdr.vaddr then phdr.vaddr else e.loadVaddr
  if loadVaddr + e.programSize < phdr.vaddr + phdr.memsz then
    ⟨loadVaddr, phdr.vaddr + phdr.memsz - loadVaddr⟩
  else
    ⟨loadVaddr, e.programSize⟩

def pageCount (e : ProgramExtent) : Nat := alignDiv e.programSize.toNat pageSize

end ProgramExtent

/--
`buf` is what the header on the stack holds before the first one is read.
-/
def programExtent (elf : ElfFile) (buf : Bytes) : Except Status ProgramExtent :=
  go elf.phnum.toNat 0 buf ⟨0, 0⟩
where
  go : Nat → Nat → Bytes → ProgramExtent → Except Status ProgramExtent
    | 0, _, _, e => .ok e
    | n + 1, i, buf, e =>
      match elfGetProgramHeader elf i buf with
      | .error status => .error status
      | .ok buf => go n (i + 1) buf (e.add (.get buf 0))

/--
The command up to where the pages of the kernel are there.
-/
def allocateProgram (elf : ElfFile) (buf : Bytes) (m : Memory) : Run (Except Status ProgramExtent × Memory) :=
  match programExtent elf buf with
  | .error status => .ok ⟨.error status, m⟩
  | .ok e => do
    let ⟨status, m⟩ ← mmAllocatePagesTo m (e.loadVaddr.toNat / pageSize) e.pageCount
    if status = .success then .ok ⟨.ok e, m⟩ else .ok ⟨.error status, m⟩

/--
What the kernel is told is the same range.
-/
def BootemosInput.withExtent (b : BootemosInput) (e : ProgramExtent) : BootemosInput :=
  { b with loadVaddr := ⟨e.loadVaddr⟩, programSize := ⟨e.programSize⟩ }

end Emos.Boot
