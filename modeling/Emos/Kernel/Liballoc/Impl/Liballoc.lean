import Emos.Basic
import Emos.Kernel.Mm.Impl.Mm
import Mathlib.Logic.Function.Basic

/-!
This module contains `malloc` and its siblings, and the functions that the kernel gives them to get pages and to give
them back. A major block is a number of pages with a header, in which there is a list of minor blocks with headers of
their own. The lists that the headers link are lists here.
-/

open Lib

namespace Emos

namespace Liballoc

/--
Unmap a page and free the frame that `mm_vpn_to_pfn` has found for it.
-/
def release (m : Mm) (vpn pfn : Nat) : Run Mm := do
  let page ← mmUnmap m.page vpn 1
  let pma ← mmPmaFreeFrame m.pma pfn 1
  .ok { m with page, pma }

/--
The rollback of a page. Pages that are not present are skipped.
-/
def rollback (m : Mm) (vpn : Nat) : Run Mm := do
  match ← mmVpnToPfn m.page vpn with
  | .error _ => .ok m
  | .ok pfn => release m vpn pfn

/--
One round of the allocating loop, which tells whether the page was backed.
-/
def back (m : Mm) (vpn : Nat) : Run (Bool × Mm) := do
  match ← mmVpnToPfn m.page vpn with
  | .error .pageNotPresent =>
    let ⟨res, pma⟩ ← mmPmaAllocateFrame m.pma 1
    let m := { m with pma }
    match res with
    | .error _ => .ok ⟨false, m⟩
    | .ok pfn =>
      let ⟨status, m⟩ ← mmMap m pfn vpn 1 pmfDefault
      if status = .success then
        .ok ⟨true, m⟩
      else
        let pma ← mmPmaFreeFrame m.pma pfn 1
        .ok ⟨false, { m with pma }⟩
  | _ => .ok ⟨false, m⟩

def backAll (vpn : Nat) : Nat → Nat → Mm → Run (Nat × Mm)
  | 0, allocatedCount, m => .ok ⟨allocatedCount, m⟩
  | n + 1, allocatedCount, m => do
    let ⟨backed, m⟩ ← back m (u32 (vpn + allocatedCount))
    if backed then backAll vpn n (allocatedCount + 1) m else .ok ⟨allocatedCount, m⟩

end Liballoc

open Liballoc

/--
The address of the first page, or `NULL`. Virtual pages are never given back: `mm_vma_free_page` is
empty.
-/
def liballocAlloc (m : Mm) (pageCount : Nat) : Run (Option Nat × Mm) := do
  let ⟨res, vma⟩ := mmVmaAllocatePage m.vma pageCount true
  let m := { m with vma }
  match res with
  | .error _ => .ok ⟨none, m⟩
  | .ok vpn =>
    let ⟨allocatedCount, m⟩ ← backAll vpn pageCount 0 m
    if allocatedCount < pageCount then
      let m ← forRange (fun m i => rollback m (u32 (vpn + i))) allocatedCount 0 m
      .ok ⟨none, m⟩
    else
      .ok ⟨some (u32 (vpn * pageSize)), m⟩

def liballocFree (m : Mm) (vaddr pageCount : Nat) : Run Mm :=
  forRange body pageCount 0 m
where
  /-- the release of page `i`, which has to be present -/
  body (m : Mm) (i : Nat) : Run Mm := do
    let vpn := u32 (vaddr / pageSize + i)
    match ← mmVpnToPfn m.page vpn with
    | .error _ => .error (.panic .conflictingState)
    | .ok pfn => release m vpn pfn

namespace Liballoc

/--
The functions that pages come from and go to.
-/
structure Platform (σ : Type) where
  alloc : σ → Nat → Run (Option Nat × σ)
  free : σ → Nat → Nat → Run σ

def alignment : Nat := 16

/--
`ALIGN_INFO`, the number of bytes that are kept in front of a pointer.
-/
def alignInfo : Nat := 16

/--
`sizeof(struct liballoc_major)`
-/
def majorSize : Nat := 24

/--
`sizeof(struct liballoc_minor)`
-/
def minorSize : Nat := 24

/--
`l_pageCount`, the number of pages that are asked for at least.
-/
def leastPages : Nat := 16

structure Minor where
  addr : Nat
  size : Nat
  reqSize : Nat
  /-- the byte that `ALIGN` has left at its pointer -/
  info : Nat
  deriving DecidableEq, Repr

structure Major where
  addr : Nat
  pages : Nat
  size : Nat
  usage : Nat
  minors : List Minor
  deriving DecidableEq, Repr

/--
`l_memRoot` and the blocks behind it, `l_bestBet`, `l_allocated` and `l_inuse`.
-/
structure Heap (σ : Type) where
  majors : List Major
  bestBet : Option Nat
  allocated : Nat
  inuse : Nat
  system : σ

def u64 (n : Nat) : Nat := n % 2 ^ 64

/--
`ALIGN`, with the byte that it stores.
-/
def alignPtr (ptr : Nat) : Nat × Nat :=
  let ptr := u32 (ptr + alignInfo)
  let diff := ptr % alignment
  if diff ≠ 0 then
    (u32 (ptr + (alignment - diff)), alignment - diff + alignInfo)
  else
    (ptr, diff + alignInfo)

/--
The pointer that `UNALIGN` leads back from to the block.
-/
def Minor.pointer (min : Minor) : Nat := u32 (min.addr + minorSize + min.info)

/--
A new block at `addr`, with the pointer to what is behind its header.
-/
def newMinor (addr size reqSize : Nat) : Minor × Nat :=
  let ⟨p, info⟩ := alignPtr (u32 (addr + minorSize))
  (⟨addr, size, reqSize, info⟩, p)

/--
`size + sizeof(struct liballoc_minor)`
-/
def needed (size : Nat) : Nat := u32 (size + minorSize)

section Place

variable (maj : Major) (size reqSize : Nat)

/--
Case 4: the space behind the last block, or between two of them.
-/
def placeBehind : List Minor → Option (List Minor × Nat)
  | [] => none
  | [min] =>
    let diff := sub32 (sub32 (sub32 (u32 (maj.addr + maj.size)) min.addr) minorSize) min.size
    if diff ≥ needed size then
      let ⟨new, p⟩ := newMinor (u32 (min.addr + minorSize + min.size)) size reqSize
      some ([min, new], p)
    else
      none
  | min :: next :: minors =>
    let diff := sub32 (sub32 (sub32 next.addr min.addr) minorSize) min.size
    if diff ≥ needed size then
      let ⟨new, p⟩ := newMinor (u32 (min.addr + minorSize + min.size)) size reqSize
      some (min :: new :: next :: minors, p)
    else
      (placeBehind (next :: minors)).map fun ⟨minors, p⟩ => (min :: minors, p)

/--
Cases 2 to 4. An empty block is taken to be big enough.
-/
def placeMinor : Option (List Minor × Nat) :=
  match maj.minors with
  | [] =>
    let ⟨new, p⟩ := newMinor (u32 (maj.addr + majorSize)) size reqSize
    some ([new], p)
  | first :: minors =>
    let diff := sub32 (sub32 first.addr maj.addr) majorSize
    if diff ≥ needed size then
      let ⟨new, p⟩ := newMinor (u32 (maj.addr + majorSize)) size reqSize
      some (new :: first :: minors, p)
    else
      placeBehind maj size reqSize (first :: minors)

def place : Option (Major × Nat) :=
  (placeMinor maj size reqSize).map fun ⟨minors, p⟩ =>
    ({ maj with usage := u32 (maj.usage + needed size), minors }, p)

end Place

variable {σ : Type} (P : Platform σ)

/--
`allocate_new_page`, which may return `NULL`.
-/
def allocateNewPage (size : Nat) (h : Heap σ) : Run (Option Major × Heap σ) := do
  let st := u32 (u32 (size + majorSize) + minorSize)
  let st := if st % pageSize = 0 then st / pageSize else st / pageSize + 1
  let st := if st < leastPages then leastPages else st
  let ⟨res, system⟩ ← P.alloc h.system st
  match res with
  | none => .ok (none, { h with system })
  | some addr =>
    let maj : Major := ⟨addr, st, u32 (st * pageSize), majorSize, []⟩
    .ok (some maj, { h with system, allocated := u64 (h.allocated + maj.size) })

/--
Cases 2 to 5 for the major block `i`, which is `maj`, where `again` goes on with the loop.
-/
def serve (size reqSize : Nat) (again : Nat → Bool → Heap σ → Run (Option Nat × Heap σ)) (i : Nat) (startedBet : Bool)
    (maj : Major) (h : Heap σ) : Run (Option Nat × Heap σ) :=
  match place maj size reqSize with
  | some (maj, p) => .ok (some p, { h with majors := h.majors.set i maj, inuse := u64 (h.inuse + size) })
  | none =>
    if i + 1 < h.majors.length then
      again (i + 1) startedBet h
    else if startedBet then
      again 0 false h
    else do
      let ⟨new, h⟩ ← allocateNewPage P size h
      match new with
      | none => .ok (none, h)
      | some new => again (i + 1) startedBet { h with majors := h.majors ++ [new] }

/--
The loop over the major blocks. Block `i` is the next one to look into.
-/
def mallocLoop (size reqSize : Nat) : Nat → Nat → Bool → Nat → Heap σ → Run (Option Nat × Heap σ)
  | 0, _, _, _, _ => .error .hang
  | n + 1, i, startedBet, bestSize, h =>
    match h.majors[i]? with
    | none => .ok (none, h)
    | some maj =>
      let diff := sub32 maj.size maj.usage
      let ⟨bestBet, bestSize⟩ := if bestSize < diff then (some maj.addr, diff) else (h.bestBet, bestSize)
      let h := { h with bestBet }
      let again := fun i startedBet h => mallocLoop size reqSize n i startedBet bestSize h
      if diff < needed size then
        if i + 1 < h.majors.length then
          again (i + 1) startedBet h
        else if startedBet then
          again 0 false h
        else do
          let ⟨new, h⟩ ← allocateNewPage P size h
          match new with
          | none => .ok (none, h)
          | some new => serve P size reqSize again (i + 1) startedBet new { h with majors := h.majors ++ [new] }
      else
        serve P size reqSize again i startedBet maj h

/--
The index of the major block at an address.
-/
def Heap.indexOf (h : Heap σ) (addr : Nat) : Option Nat := h.majors.findIdx? (·.addr = addr)

def Heap.majorAt (h : Heap σ) (addr : Nat) : Option Major := h.majors.find? (·.addr = addr)

/--
How the loop starts, at the best bet if there is enough space in it.
-/
def search (size reqSize : Nat) (h : Heap σ) : Run (Option Nat × Heap σ) :=
  let rounds := 2 * h.majors.length + 2
  match h.bestBet with
  | none => mallocLoop P size reqSize rounds 0 false 0 h
  | some bet =>
    match h.indexOf bet, h.majorAt bet with
    | some i, some maj =>
      let bestSize := sub32 maj.size maj.usage
      if bestSize > needed size then
        mallocLoop P size reqSize rounds i true bestSize h
      else
        mallocLoop P size reqSize rounds 0 false bestSize h
    | _, _ => .error .access

def mallocSized (size reqSize : Nat) (h : Heap σ) : Run (Option Nat × Heap σ) :=
  if h.majors = [] then do
    let ⟨new, h⟩ ← allocateNewPage P size h
    match new with
    | none => .ok (none, h)
    | some maj => search P size reqSize { h with majors := [maj] }
  else
    search P size reqSize h

/--
`malloc` of one byte is called where the sum is 0.
-/
def malloc (reqSize : Nat) (h : Heap σ) : Run (Option Nat × Heap σ) :=
  let size := u32 (reqSize + (alignment + alignInfo))
  if size = 0 then
    mallocSized P (u32 (1 + (alignment + alignInfo))) 1 h
  else
    mallocSized P size reqSize h

def Major.minorOf (maj : Major) (ptr : Nat) : Option Minor := maj.minors.find? (·.pointer = ptr)

/--
The major and the minor block that a pointer belongs to.
-/
def Heap.blockOf (h : Heap σ) (ptr : Nat) : Option (Nat × Major × Minor) := do
  let i ← h.majors.findIdx? fun maj => (maj.minorOf ptr).isSome
  let maj ← h.majors[i]?
  let min ← maj.minorOf ptr
  some (i, maj, min)

/--
`free`. What memory that no block is in front of looks like is not known.
-/
def free (ptr : Option Nat) (h : Heap σ) : Run (Heap σ) :=
  match ptr with
  | none => .ok h
  | some ptr =>
    match h.blockOf ptr with
    | none => .error .access
    | some (i, maj, min) => do
      let h := { h with inuse := u64 (h.inuse + (2 ^ 64 - min.size)) }
      let maj := { maj with usage := sub32 maj.usage (needed min.size), minors := maj.minors.erase min }
      if maj.minors = [] then
        let system ← P.free h.system maj.addr maj.pages
        let bestBet := if h.bestBet = some maj.addr then none else h.bestBet
        .ok {
          majors := h.majors.eraseIdx i
          bestBet
          allocated := u64 (h.allocated + (2 ^ 64 - maj.size))
          inuse := h.inuse
          system
        }
      else
        let h := { h with majors := h.majors.set i maj }
        match h.bestBet with
        | none => .ok h
        | some bet =>
          match h.majorAt bet with
          | none => .error .access
          | some best =>
            let bestSize := (BitVec.ofNat 32 (sub32 best.size best.usage)).toInt
            let majSize := (BitVec.ofNat 32 (sub32 maj.size maj.usage)).toInt
            if majSize > bestSize then .ok { h with bestBet := some maj.addr } else .ok h

/--
What is at each address.
-/
abbrev Memory := Nat → BitVec 8

def liballocMemset (mem : Memory) (s : Nat) (c : BitVec 8) : Nat → Memory
  | 0 => mem
  | n + 1 => liballocMemset (Function.update mem s c) (s + 1) c n

def copyBytes (mem : Memory) (dest src : Nat) : Nat → Memory
  | 0 => mem
  | n + 1 => copyBytes (Function.update mem dest (mem src)) (dest + 1) (src + 1) n

/--
Words of four bytes are read as a whole before they are written.
-/
def copyWords (mem : Memory) (dest src : Nat) : Nat → Memory
  | 0 => mem
  | n + 1 =>
    let word := fun a => if dest ≤ a ∧ a < dest + 4 then mem (src + (a - dest)) else mem a
    copyWords word (dest + 4) (src + 4) n

def liballocMemcpy (mem : Memory) (dest src n : Nat) : Memory :=
  copyBytes (copyWords mem dest src (n / 4)) (dest + n / 4 * 4) (src + n / 4 * 4) (n % 4)

/--
The memory that is set may be at `NULL`.
-/
def calloc (nobj size : Nat) (h : Heap σ) (mem : Memory) : Run (Option Nat × Heap σ × Memory) := do
  let realSize := u32 (nobj * size)
  let ⟨p, h⟩ ← malloc P realSize h
  match p with
  | some p => .ok (some p, h, liballocMemset mem p 0 realSize)
  | none => if realSize = 0 then .ok (none, h, mem) else .error .access

/--
The block of a pointer is said to be one of `size` bytes.
-/
def Heap.setReqSize (h : Heap σ) (i : Nat) (maj : Major) (min : Minor) (size : Nat) : Heap σ :=
  { h with majors := h.majors.set i { maj with minors := maj.minors.replace min { min with reqSize := size } } }

/--
What is copied may go to `NULL`.
-/
def realloc (p : Option Nat) (size : Nat) (h : Heap σ) (mem : Memory) : Run (Option Nat × Heap σ × Memory) :=
  if size = 0 then do
    let h ← free P p h
    .ok (none, h, mem)
  else
    match p with
    | none => do
      let ⟨p, h⟩ ← malloc P size h
      .ok (p, h, mem)
    | some p =>
      match h.blockOf p with
      | none => .error .access
      | some (i, maj, min) =>
        let realSize := min.reqSize
        if realSize ≥ size then
          .ok (some p, h.setReqSize i maj min size, mem)
        else do
          let ⟨q, h⟩ ← malloc P size h
          match q with
          | some q => do
            let mem := liballocMemcpy mem q p realSize
            let h ← free P (some p) h
            .ok (some q, h, mem)
          | none =>
            if realSize = 0 then do
              let h ← free P (some p) h
              .ok (none, h, mem)
            else
              .error .access

end Liballoc

end Emos
