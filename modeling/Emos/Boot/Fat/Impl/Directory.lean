import Emos.Boot.Fat.Impl.Fat

/-!
This module contains the enumeration of directories by the boot loader's FAT driver.
-/

open Lib

namespace Emos.Boot

def fatAttrVolumeId : Nat := 0x08
def fatAttrLfnentry : Nat := 0x0F

def fatAttr2LcaseName : Nat := 0x08
def fatAttr2LcaseExt : Nat := 0x10

def fatLfnBuflen : Nat := 256
def fatLfnU8Buflen : Nat := 255

/--
The buffer for the units of a long name. Its bytes are undefined until they are written.
-/
abbrev LfnBuf := Nat → BitVec 16

/--
The units of a fragment of a long name, which are in three places of the entry.
-/
def Direntry.nameFragment (e : Direntry) (i : Nat) : BitVec 16 :=
  .ofNat 16 <|
    if i < 5 then e.number (1 + 2 * i) 2
    else if i < 11 then e.number (14 + 2 * (i - 5)) 2
    else e.number (28 + 2 * (i - 11)) 2

def Direntry.sequenceNumber (e : Direntry) : Nat := (e 0).toNat &&& 0x1F

def Direntry.isLastFragment (e : Direntry) : Bool := (e 0).toNat &&& 0x40 ≠ 0

def LfnBuf.store (buf : LfnBuf) (e : Direntry) : LfnBuf := fun k =>
  let start := (e.sequenceNumber - 1) * 13
  if start ≤ k ∧ k < start + 13 then e.nameFragment (k - start)
  else if e.isLastFragment ∧ k = start + 13 then 0
  else buf k

/--
Whether the units of a fragment are inside of the buffer.
-/
def Direntry.fitsLfnBuf (e : Direntry) : Bool :=
  e.sequenceNumber ≠ 0
    && (e.sequenceNumber - 1) * 13 + (if e.isLastFragment then 14 else 13) ≤ fatLfnBuflen

def getLfnFilename (e : Direntry) (buf : LfnBuf) : Run LfnBuf :=
  if e.fitsLfnBuf then .ok (buf.store e) else .error .access

/--
The bytes of a unit, `none` if there is no room for them.
-/
def ucs2ToUtf8 (len : Nat) (ch : BitVec 16) : Option (List (BitVec 8)) :=
  let c := ch.toNat
  if c = 0 ∨ c = 0xFFFF then
    some []
  else if c < 0x7F then
    if len < 1 then none else some [.ofNat 8 c]
  else if c < 0x7FF then
    if len < 2 then none
    else some [.ofNat 8 (((c &&& 0x07C0) >>> 6) ||| 0xC0), .ofNat 8 ((c &&& 0x003F) ||| 0x80)]
  else
    if len < 3 then none
    else
      some [.ofNat 8 (((c &&& 0xF000) >>> 12) ||| 0xE0),
        .ofNat 8 (((c &&& 0x0FC0) >>> 6) ||| 0x80), .ofNat 8 ((c &&& 0x003F) ||| 0x80)]

/--
`lfn_ucs2_to_utf8` the way it is called, which allows characters other than ASCII ones. This is what is
written to the buffer, a name that fills it has no terminator.
-/
def lfnUcs2ToUtf8 (buf : LfnBuf) (fallback : BitVec 8) : List (BitVec 8) :=
  go fatLfnU8Buflen 0 []
where
  go : Nat → Nat → List (BitVec 8) → List (BitVec 8)
    | 0, _, out => out
    | fuel + 1, k, out =>
      if out.length < fatLfnU8Buflen then
        match ucs2ToUtf8 (fatLfnU8Buflen - out.length) (buf k) with
        | some [] => out ++ [0]
        | some bytes => go fuel (k + 1) (out ++ bytes)
        | none => go fuel (k + 1) (out ++ [fallback])
      else
        out

/--
How the loop of `lfn_ucs2_to_utf8` ends: the number of units it has read, and `bytes_written`.
-/
def lfnUcs2End (buf : LfnBuf) : Nat × Nat :=
  go fatLfnU8Buflen 0 0
where
  go : Nat → Nat → Nat → Nat × Nat
    | 0, k, bytesWritten => ⟨k, bytesWritten⟩
    | fuel + 1, k, bytesWritten =>
      if bytesWritten < fatLfnU8Buflen then
        match ucs2ToUtf8 (fatLfnU8Buflen - bytesWritten) (buf k) with
        | some [] => ⟨k + 1, bytesWritten⟩
        | some bytes => go fuel (k + 1) (bytesWritten + bytes.length)
        | none => go fuel (k + 1) (bytesWritten + 1)
      else
        ⟨k, bytesWritten⟩

def lfnUcs2UnitsRead (buf : LfnBuf) : Nat := (lfnUcs2End buf).1

/--
What `lfn_ucs2_to_utf8` returns.
-/
def lfnUcs2BytesWritten (buf : LfnBuf) : Nat := (lfnUcs2End buf).2

/--
`tolower` of a `char`, for which a table with 128 entries is looked up.
-/
def tolower (c : BitVec 8) : Run (BitVec 8) :=
  if c.toNat ≥ 128 then .error .access
  else if 0x41 ≤ c.toNat ∧ c.toNat ≤ 0x5A then .ok (c + 0x20)
  else .ok c

/--
The characters of a padded field up to the first blank.
-/
def unpadded (e : Direntry) (start len : Nat) : List (BitVec 8) :=
  ((List.range len).map fun i => e (Fin.ofNat 32 (start + i))).takeWhile (· ≠ 0x20)

def lowercase (flag : Bool) (chars : List (BitVec 8)) : Run (List (BitVec 8)) :=
  if flag then chars.mapM tolower else .ok chars

def getSfnFilename (e : Direntry) : Run (List (BitVec 8)) := do
  let name ← lowercase (e.attr2 &&& fatAttr2LcaseName ≠ 0) (unpadded e 0 8)
  let dot := if e 8 ≠ 0x20 then [0x2E] else []
  let extension ← lowercase (e.attr2 &&& fatAttr2LcaseExt ≠ 0) (unpadded e 8 3)
  .ok (name ++ dot ++ extension ++ [0])

structure FatDir where
  headCluster : Nat
  currentCluster : Nat
  currentEntryIndex : Nat
  direntry : Direntry

/--
The size of the array for the name of a reported entry.
-/
def filenameMax : Nat := 256

structure DirectoryEntry where
  name : List (BitVec 8)
  size : Nat
  deriving DecidableEq

def rewindDirectory (dir : FatDir) : FatDir :=
  { dir with currentCluster := dir.headCluster, currentEntryIndex := 0, direntry := fun _ => 0 }

def FatData.entryAt (d : FatData) (i : Nat) : Run Direntry :=
  if 32 * (i + 1) ≤ d.geometry.clusterSize then .ok fun k => d.databuf (32 * i + k)
  else .error .access

inductive Scan where
  /-- with the end of the directory -/
  | end (dir : FatDir)
  /-- with an entry to report, `isLfn` tells whether it has a long name -/
  | found (dir : FatDir) (buf : LfnBuf) (isLfn : Bool)
  /-- with the end of the block -/
  | exhausted (dir : FatDir) (buf : LfnBuf) (isLfn : Bool)

/--
The end of a round of the inner loop, `loop` is the next one.
-/
def nextEntry (loop : FatDir → LfnBuf → Bool → Run Scan) (entriesPerBlock : Nat) (dir : FatDir)
    (buf : LfnBuf) (isLfn : Bool) : Run Scan :=
  let dir := { dir with currentEntryIndex := dir.currentEntryIndex + 1 }
  if dir.currentEntryIndex % entriesPerBlock = 0 then
    .ok (.exhausted dir buf isLfn)
  else
    loop dir buf isLfn

/--
The inner loop of `iter_directory`, which takes at most as many rounds as there are entries in a block.
-/
def scanBlock (d : FatData) (isRootdir : Bool) (entriesPerBlock : Nat)
    : Nat → FatDir → LfnBuf → Bool → Run Scan
  | 0, dir, buf, isLfn => .ok (.exhausted dir buf isLfn)
  | fuel + 1, dir, buf, isLfn =>
    if !(isRootdir || dir.currentEntryIndex < entriesPerBlock) then
      .ok (.exhausted dir buf isLfn)
    else do
      let next := nextEntry (scanBlock d isRootdir entriesPerBlock fuel) entriesPerBlock dir
      let currentEntry ← d.entryAt (dir.currentEntryIndex % entriesPerBlock)
      if currentEntry 0 = 0 then
        .ok (.end dir)
      else if currentEntry 0 = 0xE5 then
        next buf isLfn
      else if currentEntry.attr &&& fatAttrLfnentry = fatAttrLfnentry then
        let buf ← getLfnFilename currentEntry buf
        next buf true
      else if currentEntry.attr &&& fatAttrVolumeId ≠ 0 then
        next buf false
      else
        .ok (.found dir buf isLfn)

/--
Have the block of the current entry in the data buffer.
-/
def fetchBlock (d : FatData) (dir : FatDir) (isRootdir : Bool) (entriesPerBlock : Nat)
    : Run (Except Status Unit × FatData × FatDir) :=
  if isRootdir then do
    let sector ← divide dir.currentEntryIndex entriesPerBlock
    if sector ≥ d.geometry.rootSectorCount then
      .ok ⟨.error .endOfList, d, dir⟩
    else
      let ⟨status, d⟩ ← d.readSector (u32 (d.geometry.dataAreaBegin + sector))
      .ok ⟨status, d, dir⟩
  else do
    let ⟨status, currentCluster, d, dir⟩ ←
      if dir.currentEntryIndex ≥ entriesPerBlock then do
        let ⟨status, cluster, d⟩ ← d.getNextCluster dir.currentCluster 1
        if status ≠ .success then
          pure ⟨status, cluster, d, dir⟩
        else
          pure ⟨.success, cluster, d, { dir with currentEntryIndex := 0 }⟩
      else
        pure (⟨.success, dir.currentCluster, d, dir⟩ : Status × Nat × FatData × FatDir)
    if status ≠ .success then
      .ok ⟨.error status, d, dir⟩
    else
      match ← d.readCluster currentCluster with
      | ⟨.error status, d⟩ => .ok ⟨.error status, d, dir⟩
      | ⟨.ok _, d⟩ => .ok ⟨.ok (), d, { dir with currentCluster := currentCluster }⟩

def reportEntry (d : FatData) (dir : FatDir) (buf : LfnBuf) (isLfn : Bool)
    : Run (DirectoryEntry × FatDir) := do
  let e ← d.entryAt dir.currentEntryIndex
  let name ← if isLfn then .ok (lfnUcs2ToUtf8 buf 0x3F) else getSfnFilename e
  .ok ⟨⟨name, e.size⟩,
    { dir with direntry := e, currentEntryIndex := dir.currentEntryIndex + 1 }⟩

def findEntry (isRootdir : Bool) (entriesPerBlock : Nat)
    : Nat → FatData → FatDir → LfnBuf → Bool → Run (Except Status DirectoryEntry × FatData × FatDir)
  | 0, _, _, _, _ => .error .hang
  | fuel + 1, d, dir, buf, isLfn => do
    match ← fetchBlock d dir isRootdir entriesPerBlock with
    | ⟨.error status, d, dir⟩ => .ok ⟨.error status, d, dir⟩
    | ⟨.ok _, d, dir⟩ =>
      match ← scanBlock d isRootdir entriesPerBlock entriesPerBlock dir buf isLfn with
      | .end dir => .ok ⟨.error .endOfList, d, dir⟩
      | .found dir buf isLfn =>
        let ⟨entry, dir⟩ ← reportEntry d dir buf isLfn
        .ok ⟨.ok entry, d, dir⟩
      | .exhausted dir buf isLfn => findEntry isRootdir entriesPerBlock fuel d dir buf isLfn

/--
`stack` is what the buffer for long names happens to have in it. Directories may be linked in a circle,
then the search may go on forever, here for `fuel` blocks.
-/
def iterDirectory (fuel : Nat) (stack : LfnBuf) (d : FatData) (dir : FatDir)
    : Run (Except Status DirectoryEntry × FatData × FatDir) :=
  let isRootdir := d.geometry.fatType ≠ .fat32 && dir.headCluster = 0
  let blockSize := (if isRootdir then d.geometry.sectorSize else d.geometry.clusterSize) % 2 ^ 16
  findEntry isRootdir (blockSize / 32) fuel d dir stack false

end Emos.Boot
