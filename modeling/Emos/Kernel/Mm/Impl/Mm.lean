import Emos.Kernel.Mm.Impl.Pma

/-!
This module contains the virtual memory allocator and the mapping of pages. Page tables are reached
through the last entry of the page directory, which leads to the directory itself.
-/

open Lib

namespace Emos

structure Vma where
  userBaseVpn : Nat
  userLimitVpn : Nat
  userAllocVpn : Nat
  kernelBaseVpn : Nat
  kernelLimitVpn : Nat
  kernelAllocVpn : Nat
  deriving DecidableEq, Repr

def mmVmaInit (userBaseVpn userLimitVpn kernelBaseVpn kernelLimitVpn : Nat) : Vma where
  userBaseVpn := userBaseVpn
  userLimitVpn := userLimitVpn
  userAllocVpn := userBaseVpn
  kernelBaseVpn := kernelBaseVpn
  kernelLimitVpn := kernelLimitVpn
  kernelAllocVpn := kernelBaseVpn

def mmVmaGetAvailableKernelPageCount (a : Vma) : Nat := u32 (sub32 a.kernelLimitVpn a.kernelBaseVpn + 1)

def mmVmaGetFreeKernelPageCount (a : Vma) : Nat := u32 (sub32 a.kernelLimitVpn a.kernelAllocVpn + 1)

def mmVmaGetAvailableUserPageCount (a : Vma) : Nat := u32 (sub32 a.userLimitVpn a.userBaseVpn + 1)

def mmVmaGetFreeUserPageCount (a : Vma) : Nat := u32 (sub32 a.userLimitVpn a.userAllocVpn + 1)

/--
`kernel` is the flag `VAF_KERNEL`.
-/
def mmVmaAllocatePage (a : Vma) (pageCount : Nat) (kernel : Bool) : Except Status Nat × Vma :=
  if kernel then
    if u32 (a.kernelAllocVpn + pageCount) ≥ a.kernelLimitVpn then
      ⟨.error .insufficientMemory, a⟩
    else
      ⟨.ok a.kernelAllocVpn, { a with kernelAllocVpn := u32 (a.kernelAllocVpn + pageCount) }⟩
  else
    if u32 (a.userAllocVpn + pageCount) ≥ a.userLimitVpn then
      ⟨.error .insufficientMemory, a⟩
    else
      ⟨.ok a.userAllocVpn, { a with userAllocVpn := u32 (a.userAllocVpn + pageCount) }⟩

structure Mm where
  page : PageMemory
  pma : Pma
  vma : Vma

/--
The address of the entry of the page directory for a page.
-/
def pdeAddr (vpn : Nat) : Nat := 0xFFFFF000 + 4 * (vpn / 1024 % 1024)

/--
The address of entry `i` of the page table for a page.
-/
def ptAddr (vpn i : Nat) : Nat := 0xFFC00000 + 4096 * (vpn / 1024 % 1024) + 4 * i

/--
The address of the entry of the page table for a page.
-/
def pteAddr (vpn : Nat) : Nat := ptAddr vpn (vpn % 1024)

def mmVpnToPfn (m : PageMemory) (vpn : Nat) : Run (Except Status Nat) := do
  let pde ← m.read (pdeAddr vpn)
  if !entryPresent pde then
    .ok (.error .pageNotPresent)
  else
    let pte ← m.read (pteAddr vpn)
    if !entryPresent pte then
      .ok (.error .pageNotPresent)
    else
      .ok (.ok (entryBase pte))

structure MapFlags where
  readonly : Bool
  user : Bool
  nocache : Bool
  wtcache : Bool
  deriving DecidableEq, Repr

def pmfDefault : MapFlags := ⟨false, false, false, false⟩

def mapEntry (m : PageMemory) (pfn vpn : Nat) (flags : MapFlags) : Run PageMemory := do
  let addr := pteAddr vpn
  let m ← m.write addr (BitVec.ofNat 32 (pfn * 2 ^ 12))
  let m ← m.setBitsIf (!flags.readonly) addr 0x002#32
  let m ← m.setBitsIf flags.user addr 0x004#32
  let m ← m.setBitsIf (flags.nocache || flags.wtcache) addr 0x080#32
  let m ← m.setBitsIf flags.nocache addr 0x010#32
  let m ← m.setBitsIf flags.wtcache addr 0x008#32
  m.setBits addr 0x001#32

def map (m : Mm) (pfn vpn : Nat) (flags : MapFlags) : Run (Status × Mm) := do
  let pde ← m.page.read (pdeAddr vpn)
  if entryPresent pde then
    finish m
  else
    let ⟨res, pma⟩ ← mmPmaAllocateFrame m.pma 1
    let m := { m with pma }
    match res with
    | .error status => .ok ⟨status, m⟩
    | .ok newPtPfn =>
      let page ← m.page.write (pdeAddr vpn) (3#32 ||| BitVec.ofNat 32 (newPtPfn * 2 ^ 12))
      let page ← forRange (fun page i => page.write (ptAddr vpn i) 0) 1024 0 page
      finish { m with page }
where
  /-- once there is a page table -/
  finish (m : Mm) : Run (Status × Mm) := do
    let pte ← m.page.read (pteAddr vpn)
    if entryPresent pte then
      .ok ⟨.conflictingState, m⟩
    else
      let page ← mapEntry m.page pfn vpn flags
      .ok ⟨.success, { m with page }⟩

def mmMap (m : Mm) (pfn vpn pageCount : Nat) (flags : MapFlags) : Run (Status × Mm) :=
  go pageCount 0 m
where
  go : Nat → Nat → Mm → Run (Status × Mm)
    | 0, _, m => .ok ⟨.success, m⟩
    | n + 1, i, m => do
      let ⟨status, m⟩ ← map m (u32 (pfn + i)) (u32 (vpn + i)) flags
      if status = .success then go n (i + 1) m else .ok ⟨status, m⟩

def unmap (m : PageMemory) (vpn : Nat) : Run PageMemory := do
  let pde ← m.read (pdeAddr vpn)
  if !entryPresent pde then
    .ok m
  else
    let pte ← m.read (pteAddr vpn)
    if !entryPresent pte then
      .ok m
    else
      m.write (pteAddr vpn) 0

def mmUnmap (m : PageMemory) (vpn pageCount : Nat) : Run PageMemory :=
  forRange (fun m i => unmap m (u32 (vpn + i))) pageCount 0 m

end Emos
