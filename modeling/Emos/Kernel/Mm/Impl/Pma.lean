import Emos.Basic
import Emos.BootInfo.Basic
import Emos.Lib.Crumb
import Emos.Lib.Loop
import Emos.Lib.Paging
import Mathlib.Data.BitVec

/-!
This module contains the entries of page directories and page tables with memory as it is seen through them, and
the physical memory allocator of `kernel/mm/pma.c`. The static variables of that file are the fields of `Pma`, frame
descriptors are packed four to a byte. Its initialisation is the computation of the managed range, the choice of the
frames that hold the bitmap, and the reservation of frames.
-/

open Lib

namespace Emos

def entryPresent (raw : BitVec 32) : Bool := raw.getLsbD 0

def entryBase (raw : BitVec 32) : Nat := raw.toNat / 2 ^ 12

/--
Both levels have 1024 entries.
-/
def pageFormat : Paging.Format (BitVec 32) where
  present := entryPresent
  base := entryBase
  entries := 1024
  entries_pos := by decide

/--
The words of all frames, and the frame of the page directory that is in use.
-/
structure PageMemory where
  word : Nat → Nat → BitVec 32
  dirPfn : Nat

namespace PageMemory

/--
The frame of a page, as found by hardware.
-/
def frame? (m : PageMemory) (vpn : Nat) : Option Nat := pageFormat.walk m.word m.dirPfn vpn

def read (m : PageMemory) (vaddr : Nat) : Run (BitVec 32) :=
  match m.frame? (vaddr / pageSize) with
  | none => .error .access
  | some pfn => .ok (m.word pfn (vaddr % pageSize / 4))

def write (m : PageMemory) (vaddr : Nat) (raw : BitVec 32) : Run PageMemory :=
  match m.frame? (vaddr / pageSize) with
  | none => .error .access
  | some pfn => .ok { m with word := Paging.setWord m.word pfn (vaddr % pageSize / 4) raw }

def setBits (m : PageMemory) (vaddr : Nat) (bits : BitVec 32) : Run PageMemory := do
  let raw ← m.read vaddr
  m.write vaddr (raw ||| bits)

def setBitsIf (m : PageMemory) (c : Bool) (vaddr : Nat) (bits : BitVec 32) : Run PageMemory :=
  if c then m.setBits vaddr bits else .ok m

end PageMemory

end Emos

namespace Emos

structure Pma where
  /-- the bytes that `pma_bitmap` points to -/
  bitmap : List (BitVec 8)
  frameDescCount : Nat
  availableFrames : Nat
  freeFrames : Nat
  basePfn : Nat
  limitPfn : Nat
  /-- the first `pma_bitmap_pfn_count` elements of `pma_bitmap_pfn_list` -/
  bitmapPfnList : List Nat
  deriving DecidableEq, Repr

def pbmFree : BitVec 2 := 0
def pbmAllocated : BitVec 2 := 1
def pbmReserved : BitVec 2 := 2

namespace Pma

/--
The descriptor of the frame at an index, if its byte lies inside of the bitmap.
-/
def desc (s : Pma) (idx : Nat) : Option (BitVec 2) := Crumbs.get? s.bitmap idx

def pbmGet (s : Pma) (idx : Nat) : Run (BitVec 2) :=
  match s.desc idx with
  | some d => .ok d
  | none => .error .access

def pbmSet (s : Pma) (idx : Nat) (val : BitVec 2) : Run Pma :=
  if idx / 4 < s.bitmap.length then
    .ok { s with bitmap := Crumbs.set s.bitmap idx val }
  else
    .error .access

end Pma

/--
`for (size_t i = lo; i <= hi; i++)`, which never ends if `hi` is the largest `size_t`.
-/
def forUpTo (body : Pma → Nat → Run Pma) (lo hi : Nat) (s : Pma) : Run Pma := do
  let s ← forRange body (hi + 1 - lo) lo s
  if lo ≤ hi ∧ hi = 2 ^ 32 - 1 then .error .hang else .ok s

/--
`for (size_t i = start; i < start + count; i++)`.
-/
def forCount (body : Pma → Nat → Run Pma) (start count : Nat) (s : Pma) : Run Pma :=
  forRange body (u32 (start + count) - start) start s

def markReservedAt (s : Pma) (i : Nat) : Run Pma := do
  let d ← s.pbmGet i
  if d = pbmReserved then
    .ok s
  else
    let freeFrames := if d = pbmFree then sub32 s.freeFrames 1 else s.freeFrames
    let availableFrames := sub32 s.availableFrames 1
    let s ← s.pbmSet i pbmReserved
    .ok { s with freeFrames, availableFrames }

def mmPmaMarkReserved (s : Pma) (basePfn limitPfn : Nat) : Run Pma :=
  let basePfn := if basePfn < s.basePfn then s.basePfn else basePfn
  let limitPfn := if limitPfn > s.limitPfn then s.limitPfn else limitPfn
  forUpTo markReservedAt (sub32 basePfn s.basePfn) (sub32 limitPfn s.basePfn) s

def unmarkReservedAt (s : Pma) (i : Nat) : Run Pma := do
  let d ← s.pbmGet i
  if d ≠ pbmReserved then
    .ok s
  else
    let freeFrames := u32 (s.freeFrames + 1)
    let availableFrames := u32 (s.availableFrames + 1)
    let s ← s.pbmSet i pbmFree
    .ok { s with freeFrames, availableFrames }

def mmPmaUnmarkReserved (s : Pma) (basePfn limitPfn : Nat) : Run Pma :=
  let basePfn := if basePfn < s.basePfn then s.basePfn else basePfn
  let limitPfn := if limitPfn > s.limitPfn then s.limitPfn else limitPfn
  forUpTo unmarkReservedAt (sub32 basePfn s.basePfn) (sub32 limitPfn s.basePfn) s

def allocateAt (s : Pma) (i : Nat) : Run Pma := do
  let s ← s.pbmSet i pbmAllocated
  .ok { s with freeFrames := sub32 s.freeFrames 1 }

/--
Returns the first frame of a run of `count` free ones, or the status of the failure.
-/
def mmPmaAllocateFrame (s : Pma) (count : Nat) : Run (Except Status Nat × Pma) := do
  let ⟨freeCount, allocStartIdx⟩ ← go s count s.frameDescCount 0 0 0
  if freeCount < count then
    .ok ⟨.error .insufficientMemory, s⟩
  else
    let s ← forCount allocateAt allocStartIdx count s
    .ok ⟨.ok (u32 (s.basePfn + allocStartIdx)), s⟩
where
  /-- the search for free frames, `n` descriptors from index `i` on are left -/
  go (s : Pma) (count : Nat) : Nat → Nat → Nat → Nat → Run (Nat × Nat)
    | 0, _, freeCount, allocStartIdx => .ok ⟨freeCount, allocStartIdx⟩
    | n + 1, i, freeCount, allocStartIdx =>
      -- frames below 1MiB are skipped without ending a run, no run has begun there
      if u32 (s.basePfn + i) < 0x100 then
        go s count n (i + 1) freeCount allocStartIdx
      else do
        let d ← s.pbmGet i
        if d ≠ pbmFree then
          go s count n (i + 1) 0 allocStartIdx
        else
          let allocStartIdx := if freeCount = 0 then i else allocStartIdx
          let freeCount := freeCount + 1
          if freeCount ≥ count then
            .ok ⟨freeCount, allocStartIdx⟩
          else
            go s count n (i + 1) freeCount allocStartIdx

def freeAt (s : Pma) (i : Nat) : Run Pma := do
  let d ← s.pbmGet i
  if d ≠ pbmAllocated then
    .error (.panic .conflictingState)
  else
    let s ← s.pbmSet i pbmFree
    .ok { s with freeFrames := u32 (s.freeFrames + 1) }

def mmPmaFreeFrame (s : Pma) (pfn frameCount : Nat) : Run Pma :=
  if pfn < s.basePfn ∨ u32 (pfn + frameCount) > u32 (s.limitPfn + 1) then
    .error (.panic .conflictingState)
  else
    forCount freeAt (sub32 pfn s.basePfn) frameCount s

end Emos

namespace Emos

structure PmaSpan where
  basePaddr : Nat
  limitPaddr : Nat
  deriving DecidableEq, Repr

namespace PmaSpan

def basePfn (a : PmaSpan) : Nat := a.basePaddr / pageSize

def limitPfn (a : PmaSpan) : Nat := a.limitPaddr / pageSize

/--
One round of the loop over the memory map. The end of an entry is compared with 64 bits and stored
with 32.
-/
def extend (a : PmaSpan) (e : MemoryMapEntry) : PmaSpan :=
  if e.isFree then
    let last := (e.base + e.size - 1).toNat
    {
      basePaddr := if a.basePaddr = 2 ^ 32 - 1 then u32 e.base.toNat else a.basePaddr
      limitPaddr := if a.limitPaddr < last then u32 last else a.limitPaddr
    }
  else
    a

def frameDescCount (a : PmaSpan) : Nat := u32 (sub32 a.limitPfn a.basePfn + 1)

def bitmapSize (a : PmaSpan) : Nat := u32 (a.frameDescCount + 3) / 4

def bitmapPages (a : PmaSpan) : Nat := alignDiv a.bitmapSize pageSize

end PmaSpan

def pmaSpan (mment : List MemoryMapEntry) : PmaSpan :=
  mment.foldl PmaSpan.extend ⟨2 ^ 32 - 1, 0⟩

def bitmapPfnListSize : Nat := 64

/--
Extends the list of bitmap frames from one free region, in the gaps between unavailable frames.
-/
def pmaAllocateBitmapFrame (pages basePfn limitPfn : Nat) (ufent : List UnavailableFrame)
    (list : List Nat) : List Nat :=
  go basePfn list ufent
where
  go (basePfn : Nat) (list : List Nat) : List UnavailableFrame → List Nat
    | [] => list
    | e :: ufent =>
      if e.pfn.toNat < basePfn then
        go basePfn list ufent
      else if basePfn > limitPfn then
        list
      else if list.length ≥ pages then
        list
      else if list.length ≥ bitmapPfnListSize then
        list
      else
        -- at most `bitmapPfnListSize` rounds, then the list is full
        go (u32 (e.pfn.toNat + 1)) (fill e.pfn.toNat bitmapPfnListSize basePfn list) ufent
  /-- the frames from `pfn` up to `bound`, which may lie beyond the region -/
  fill (bound : Nat) : Nat → Nat → List Nat → List Nat
    | 0, _, list => list
    | n + 1, pfn, list =>
      if pfn < bound then
        let list := list ++ [pfn]
        if list.length ≥ pages then
          list
        else if list.length ≥ bitmapPfnListSize then
          list
        else
          fill bound n (u32 (pfn + 1)) list
      else
        list

/--
The loop of `pma_bitmap_init` over the regions that may hold the bitmap.
-/
def pmaBitmapFrames (pages : Nat) (ufent : List UnavailableFrame) (list : List Nat)
    : List MemoryMapEntry → List Nat
  | [] => list
  | e :: mment =>
    if e.base.toNat < 0x00100000 then
      pmaBitmapFrames pages ufent list mment
    else if !e.isFree then
      pmaBitmapFrames pages ufent list mment
    else
      let list := pmaAllocateBitmapFrame pages (u32 (e.base.toNat / pageSize))
        (u32 ((e.base + e.size).toNat / pageSize)) ufent list
      if list.length ≥ pages then list else pmaBitmapFrames pages ufent list mment

/--
One round of the loop that unmaps the lower area. The entry is cleared before its base is read.
-/
def unmapLowerAt (x : (Nat → BitVec 32) × Pma) (i : Nat) : Run ((Nat → BitVec 32) × Pma) :=
  let ⟨pd, s⟩ := x
  if !entryPresent (pd i) then
    .ok ⟨pd, s⟩
  else do
    let pd := Function.update pd i 0
    let s ← mmPmaUnmarkReserved s (entryBase (pd i)) (entryBase (pd i))
    .ok ⟨pd, s⟩

/--
`low` is the memory at address 0, where `pma_bitmap` points to until it is set.
-/
def pmaBitmapInit (pd : Nat → BitVec 32) (low : List (BitVec 8)) (mment : List MemoryMapEntry)
    (ufent : List UnavailableFrame) : Run Pma :=
  let span := pmaSpan mment
  let bitmapPfnList := pmaBitmapFrames span.bitmapPages ufent [] mment
  if bitmapPfnList.length < span.bitmapPages then
    .error .hang
  else do
    let s : Pma := {
      bitmap := low
      frameDescCount := span.frameDescCount
      availableFrames := span.frameDescCount
      freeFrames := span.frameDescCount
      basePfn := span.basePfn
      limitPfn := span.limitPfn
      bitmapPfnList := bitmapPfnList.take span.bitmapPages
    }
    let ⟨_, s⟩ ← forRange unmapLowerAt 767 1 ⟨pd, s⟩
    .ok { s with bitmap := List.replicate span.bitmapSize 0 }

def mmPmaInit (pd : Nat → BitVec 32) (low : List (BitVec 8)) (mment : List MemoryMapEntry)
    (ufent : List UnavailableFrame) : Run Pma := do
  let s ← pmaBitmapInit pd low mment ufent
  let s ← markBitmap s.bitmapPfnList s
  markUnavailable ufent s
where
  markBitmap : List Nat → Pma → Run Pma
    | [], s => .ok s
    | pfn :: list, s => do
      let s ← mmPmaMarkReserved s pfn pfn
      markBitmap list s
  markUnavailable : List UnavailableFrame → Pma → Run Pma
    | [], s => .ok s
    | e :: ufent, s =>
      if e.pfn.toNat < s.basePfn then
        markUnavailable ufent s
      else if e.pfn.toNat > s.limitPfn then
        .ok s
      else do
        let s ← mmPmaMarkReserved s e.pfn.toNat e.pfn.toNat
        markUnavailable ufent s

end Emos
