import Emos.BootInfo.Basic

/-!
This module contains how the kernel finds the entries of the table it is started with, first in
`_pc_init` and again in `main`, where the table has been moved, and what it reads from them.
-/

open Lib

namespace Emos

structure EntryVisit where
  enthdr : Nat
  type : Nat
  headerSize : Nat
  size : Nat
  deriving DecidableEq, Repr

namespace EntryVisit

def span (v : EntryVisit) : Nat × Nat := ⟨v.enthdr, v.size⟩

end EntryVisit

def walkEntries (t : Bytes) : Nat → Nat → List EntryVisit
  | 0, _ => []
  | n + 1, enthdr =>
    let v : EntryVisit := {
      enthdr := enthdr
      type := EntryHeader.type t enthdr
      headerSize := EntryHeader.headerSize t enthdr
      size := EntryHeader.size t enthdr
    }
    v :: walkEntries t n (u32 (enthdr + v.size))

def visitedEntries (t : Bytes) : List EntryVisit :=
  walkEntries t (TableHeader.entryCount t) (TableHeader.headerSize t)

/--
The pointers behind the entry headers that have been found, each `NULL` at first.
-/
abbrev FoundEntries := EntryType → Option Nat

/--
The body of the loop, where the `switch` has a case for each type in `cases`.
-/
def noteEntry (cases : List EntryType) (found : FoundEntries) (v : EntryVisit) : FoundEntries :=
  match EntryType.ofCode? v.type with
  | none => found
  | some type =>
    if type ∈ cases then
      Function.update found type (some (u32 (v.enthdr + v.headerSize)))
    else
      found

def findEntries (cases : List EntryType) (t : Bytes) : FoundEntries :=
  (visitedEntries t).foldl (noteEntry cases) (fun _ => none)

def pcInitCases : List EntryType := [.memoryMap, .unavailableFrames, .pagetableVpn]

def mainCases : List EntryType :=
  [.commandArgs, .loaderInfo, .memoryMap, .systemDisk, .acpiRsdp, .framebuffer, .defaultFont,
    .bootGraphics, .unavailableFrames, .pagetableVpn, .ramdisk]

def memoryMapEntries (t : Bytes) (mment : Nat) : List MemoryMapEntry :=
  MemoryMapEntry.codec.getAll t (mment + sizeofMemoryMap) (t.read mment 4)

def unavailableFrameEntries (t : Bytes) (ufent : Nat) : List UnavailableFrame :=
  UnavailableFrame.codec.getAll t (ufent + sizeofUnavailableFrames) (t.read ufent 4)

def pagetableVpn (t : Bytes) (pvent : Nat) : Nat := t.read pvent 8

/--
The string at an offset into the string table. It has to end inside of the table header.
-/
def strtabString (t : Bytes) (offset : Nat) : Option (List (BitVec 8)) :=
  t.getString (TableHeader.strtab + offset)
    (TableHeader.headerSize t - (TableHeader.strtab + offset))

def commandArgs (t : Bytes) (caent : Nat) : List (Option (List (BitVec 8))) :=
  (List.range (t.read caent 4)).map fun j =>
    strtabString t (t.read (caent + sizeofCommandArgs + j * sizeofArgOffset) 4)

def loaderInfo (t : Bytes) (lient : Nat) : List (Option (List (BitVec 8))) :=
  [strtabString t (t.read (lient + 4) 4), strtabString t (t.read (lient + 8) 4),
    strtabString t (t.read (lient + 12) 4)]

def pcInitBootInfo (t : Bytes) : Run (Nat × List MemoryMapEntry × List UnavailableFrame) :=
  let found := findEntries pcInitCases t
  match found .memoryMap, found .unavailableFrames, found .pagetableVpn with
  | some mment, some ufent, some pvent =>
    .ok ⟨pagetableVpn t pvent, memoryMapEntries t mment, unavailableFrameEntries t ufent⟩
  | _, _, _ => .error (.panic .entryNotFound)

/--
The copy of the table that `_pc_init` makes in memory from `malloc`.
-/
def relocateTable (t fresh : Bytes) : Bytes := fun i =>
  if i < TableHeader.size t then t i else fresh i

end Emos
