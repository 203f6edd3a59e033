import Emos.Kernel.Mm.Impl.Mm

/-!
This module contains how the boot loader allocates frames and maps pages. The entries of the page
directory and of the page tables are the words that the code sees through the last entry of the
directory. They are kept apart from the bytes of memory.
-/

open Lib

namespace Emos.Boot.Mm

/--
The static variables of `boot/mm/mm.c`.
-/
structure Pma where
  bitmap : List (BitVec 8)
  frameDescCount : Nat
  availableFrames : Nat
  freeFrames : Nat
  basePfn : Nat
  limitPfn : Nat
  deriving DecidableEq, Repr

namespace Pma

def desc (s : Pma) (idx : Nat) : Option (BitVec 2) := Crumbs.get? s.bitmap idx

def pbmGet (s : Pma) (idx : Nat) : Run (BitVec 2) :=
  match s.desc idx with
  | some d => .ok d
  | none => .error .access

def pbmSet (s : Pma) (idx : Nat) (val : BitVec 2) : Run Pma :=
  if idx / 4 < s.bitmap.length then
    .ok { s with bitmap := Crumbs.set s.bitmap idx val }
  else
    .error .access

end Pma

def markReservedAt (s : Pma) (i : Nat) : Run Pma := do
  let d ← s.pbmGet i
  if d = pbmReserved then
    .ok s
  else
    let freeFrames := if d = pbmFree then sub32 s.freeFrames 1 else s.freeFrames
    let availableFrames := sub32 s.availableFrames 1
    let s ← s.pbmSet i pbmReserved
    .ok { s with freeFrames, availableFrames }

/--
The first and the last index of the loop of `mm_pma_mark_reserved`.
-/
def markBounds (s : Pma) (basePaddr limitPaddr : Nat) : Nat × Nat :=
  let basePage := basePaddr / pageSize
  let limitPage := limitPaddr / pageSize
  let basePage := if basePage < s.basePfn then s.basePfn else basePage
  let limitPage := if limitPage > s.limitPfn then s.limitPfn else limitPage
  ⟨sub32 basePage s.basePfn, sub32 limitPage s.basePfn⟩

def mmPmaMarkReserved (s : Pma) (basePaddr limitPaddr : Nat) : Run Pma := do
  let ⟨lo, hi⟩ := markBounds s basePaddr limitPaddr
  let s ← forRange markReservedAt (hi + 1 - lo) lo s
  -- `i <= hi` never ends if `hi` is the largest `size_t`
  if lo ≤ hi ∧ hi = 2 ^ 32 - 1 then .error .hang else .ok s

namespace Pma

def bitmapSize (frameDescCount : Nat) : Nat := u32 (frameDescCount + 3) / 4

/--
What `mm_pma_init` stores before it marks frames.
-/
def fresh (basePaddr limitPaddr : Nat) : Pma :=
  let frameDescCount := sub32 (limitPaddr / pageSize) (basePaddr / pageSize)
  {
    bitmap := List.replicate (bitmapSize frameDescCount) 0
    frameDescCount
    availableFrames := frameDescCount
    freeFrames := frameDescCount
    basePfn := basePaddr / pageSize
    limitPfn := limitPaddr / pageSize
  }

/--
The last address of the bitmap, which begins at the first page behind the boot loader.
-/
def bitmapLimit (endAddr frameDescCount : Nat) : Nat :=
  sub32 (u32 (align endAddr pageSize + bitmapSize frameDescCount)) 1

end Pma

/--
`endAddr` is the address of `__end`.
-/
def mmPmaInit (endAddr basePaddr limitPaddr : Nat) : Run Pma :=
  let s := Pma.fresh basePaddr limitPaddr
  mmPmaMarkReserved s basePaddr (Pma.bitmapLimit endAddr s.frameDescCount)

def allocateAt (s : Pma) (i : Nat) : Run Pma := do
  let s ← s.pbmSet i pbmAllocated
  .ok { s with freeFrames := sub32 s.freeFrames 1 }

def mmPmaAllocateFrame (s : Pma) (count : Nat) : Run (Except Status Nat × Pma) := do
  let ⟨freeCount, allocStartIdx⟩ ← go s.frameDescCount 0 0 0
  if freeCount < count then
    .ok ⟨.error .insufficientMemory, s⟩
  else
    let s ← forRange allocateAt (u32 (allocStartIdx + count) - allocStartIdx) allocStartIdx s
    .ok ⟨.ok (u32 (s.basePfn + allocStartIdx)), s⟩
where
  /-- the search for free frames, `n` descriptors from index `i` on are left -/
  go : Nat → Nat → Nat → Nat → Run (Nat × Nat)
    | 0, _, freeCount, allocStartIdx => .ok ⟨freeCount, allocStartIdx⟩
    | n + 1, i, freeCount, allocStartIdx => do
      let d ← s.pbmGet i
      if d ≠ pbmFree then
        go n (i + 1) 0 allocStartIdx
      else
        let allocStartIdx := if freeCount = 0 then i else allocStartIdx
        let freeCount := freeCount + 1
        if freeCount ≥ count then
          .ok ⟨freeCount, allocStartIdx⟩
        else
          go n (i + 1) freeCount allocStartIdx

def freeAt (s : Pma) (i : Nat) : Run Pma := do
  let d ← s.pbmGet i
  if d ≠ pbmAllocated then
    .ok s
  else
    let s ← s.pbmSet i pbmFree
    .ok { s with freeFrames := u32 (s.freeFrames + 1) }

/--
The first index of the loop of `mm_pma_free_frame` and the one that it stops in front of, if the
function gets there.
-/
def freeBounds (s : Pma) (pfn frameCount : Nat) : Option (Nat × Nat) :=
  if pfn < s.basePfn ∨ pfn > s.limitPfn then
    none
  else
    let frameCount :=
      if u32 (pfn + frameCount) > u32 (s.limitPfn + 1) then
        sub32 frameCount (sub32 (u32 (s.limitPfn + 1)) pfn)
      else
        frameCount
    let freeStartIdx := sub32 pfn s.basePfn
    some ⟨freeStartIdx, u32 (freeStartIdx + frameCount)⟩

def mmPmaFreeFrame (s : Pma) (pfn frameCount : Nat) : Run Pma :=
  match freeBounds s pfn frameCount with
  | none => .ok s
  | some ⟨lo, hi⟩ => forRange freeAt (hi - lo) lo s

/--
The entries of the page directory, the entries of the page tables by page, the bytes of each frame,
and the allocator of frames.
-/
structure Memory where
  pde : Nat → BitVec 32
  pte : Nat → BitVec 32
  byte : Nat → Nat → BitVec 8
  pma : Pma

namespace Memory

/--
The frame of a page, as found by hardware.
-/
def frame? (m : Memory) (vpn : Nat) : Option Nat :=
  if entryPresent (m.pde (vpn / 1024)) ∧ entryPresent (m.pte vpn) then some (entryBase (m.pte vpn))
  else none

/--
Where the byte at an address is: its frame and its place in the frame.
-/
def place? (m : Memory) (vaddr : Nat) : Option (Nat × Nat) :=
  (m.frame? (vaddr / pageSize)).map fun pfn => (pfn, vaddr % pageSize)

def load (m : Memory) (vaddr : Nat) : Run (BitVec 8) :=
  match m.place? vaddr with
  | none => .error .access
  | some ⟨pfn, offset⟩ => .ok (m.byte pfn offset)

def store (m : Memory) (vaddr : Nat) (b : BitVec 8) : Run Memory :=
  match m.place? vaddr with
  | none => .error .access
  | some ⟨pfn, offset⟩ =>
    .ok { m with byte := Function.update m.byte pfn (Function.update (m.byte pfn) offset b) }

/--
Store `n` bytes one after the other.
-/
def storeAll (m : Memory) (vaddr n : Nat) (bytes : Nat → BitVec 8) : Run Memory :=
  forRange (fun m i => m.store (u32 (vaddr + i)) (bytes i)) n 0 m

end Memory

def memset (m : Memory) (vaddr : Nat) (b : BitVec 8) (n : Nat) : Run Memory :=
  m.storeAll vaddr n fun _ => b

def mmVpnToPfn (m : Memory) (vpn : Nat) : Except Status Nat :=
  if !entryPresent (m.pde (vpn / 1024 % 1024)) then
    .error .pageNotPresent
  else if !entryPresent (m.pte (vpn % 2 ^ 20)) then
    .error .pageNotPresent
  else
    .ok (entryBase (m.pte (vpn % 2 ^ 20)))

/--
A page that is present is mapped again only with the flags that it has.
-/
def flagsConflict (raw : BitVec 32) (flags : MapFlags) : Bool :=
  let rw := raw.getLsbD 1
  let us := raw.getLsbD 2
  let pwt := raw.getLsbD 3
  let pcd := raw.getLsbD 4
  let pat := raw.getLsbD 7
  flags.readonly != !rw || (!flags.user) != (!us) || (!flags.nocache) != (!(pat && pcd))
    || (!flags.wtcache) != (!(pat && pwt))

def bitsIf (c : Bool) (bits : BitVec 32) : BitVec 32 := if c then bits else 0

def newEntry (pfn : Nat) (flags : MapFlags) : BitVec 32 :=
  BitVec.ofNat 32 (pfn * 2 ^ 12) ||| bitsIf (!flags.readonly) 0x002 ||| bitsIf flags.user 0x004
    ||| bitsIf (flags.nocache || flags.wtcache) 0x080 ||| bitsIf flags.nocache 0x010
    ||| bitsIf flags.wtcache 0x008 ||| 0x001

def map (m : Memory) (pfn vpn : Nat) (flags : MapFlags) : Run (Status × Memory) := do
  let d := vpn / 1024 % 1024
  if entryPresent (m.pde d) then
    finish m
  else
    let ⟨res, pma⟩ ← mmPmaAllocateFrame m.pma 1
    let m := { m with pma }
    match res with
    | .error status => .ok ⟨status, m⟩
    | .ok newPtPfn =>
      let pde := Function.update m.pde d (3 ||| BitVec.ofNat 32 (newPtPfn * 2 ^ 12))
      -- the new page table is cleared
      let pte := fun x => if x / 1024 = d then 0 else m.pte x
      finish { m with pde, pte }
where
  /-- once there is a page table -/
  finish (m : Memory) : Run (Status × Memory) :=
    let x := vpn % 2 ^ 20
    if entryPresent (m.pte x) && flagsConflict (m.pte x) flags then
      .ok ⟨.conflictingState, m⟩
    else
      .ok ⟨.success, { m with pte := Function.update m.pte x (newEntry pfn flags) }⟩

def mmMap (m : Memory) (pfn vpn pageCount : Nat) (flags : MapFlags) : Run (Status × Memory) :=
  go pageCount 0 m
where
  go : Nat → Nat → Memory → Run (Status × Memory)
    | 0, _, m => .ok ⟨.success, m⟩
    | n + 1, i, m => do
      let ⟨status, m⟩ ← map m (u32 (pfn + i)) (u32 (vpn + i)) flags
      if status = .success then go n (i + 1) m else .ok ⟨status, m⟩

/--
The body of the loop of `mm_allocate_pages_to`.
-/
def allocatePageTo (m : Memory) (vpn : Nat) : Run (Status × Memory) :=
  match mmVpnToPfn m vpn with
  | .ok _ => .ok ⟨.success, m⟩
  | .error status =>
    if status ≠ .pageNotPresent then
      .ok ⟨status, m⟩
    else do
      let ⟨res, pma⟩ ← mmPmaAllocateFrame m.pma 1
      let m := { m with pma }
      match res with
      | .error status => .ok ⟨status, m⟩
      | .ok pfn => mmMap m pfn vpn 1 pmfDefault

def mmAllocatePagesTo (m : Memory) (vpn pageCount : Nat) : Run (Status × Memory) :=
  go pageCount 0 m
where
  go : Nat → Nat → Memory → Run (Status × Memory)
    | 0, _, m => .ok ⟨.success, m⟩
    | n + 1, i, m => do
      let ⟨status, m⟩ ← allocatePageTo m (u32 (vpn + i))
      if status = .success then go n (i + 1) m else .ok ⟨status, m⟩

end Emos.Boot.Mm
