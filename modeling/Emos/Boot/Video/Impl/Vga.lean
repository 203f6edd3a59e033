import Emos.Boot.Console.Impl.Ansiterm
import Emos.Lib.Bitmap
import Emos.Lib.Bytes

/-!
This module contains the frame buffer and the text buffer of the VGA driver, with the map of what has changed
since the last flush.
-/

open Lib

namespace Emos.Boot

inductive VbeMemoryModel where
  | text
  | cga
  | hercules
  | planar
  | packed
  | nonChain
  | direct
  | yuv
  deriving DecidableEq, Repr

/--
`struct vbe_video_mode_info`, as far as it is read.
-/
structure VbeVideoModeInfo where
  pitch : Nat
  width : Nat
  height : Nat
  bpp : Nat
  memoryModel : VbeMemoryModel
  redMask : Nat
  redPosition : Nat
  greenMask : Nat
  greenPosition : Nat
  blueMask : Nat
  bluePosition : Nat
  framebuffer : Nat
  linNumImagePages : Nat
  deriving DecidableEq, Repr

/--
The functions that the pointer `convert_color` can have.
-/
inductive ConvertColor where
  | rgbx8888
  | rgb888
  | rgb565
  | generic
  deriving DecidableEq, Repr

/--
`struct vga_data`, and the memory that the hardware shows. A null pointer is memory without elements.
-/
structure VgaData where
  charBuffer : Buffer CharCell
  frameBuffer : Buffer (BitVec 32)
  diffBuffer : Buffer (BitVec 8)
  vbeAvailable : Bool
  vbeOffersNonvbeModeInfo : Bool
  isSwitchingMode : Bool
  videoMode : Nat
  vbeModeInfo : VbeVideoModeInfo
  vgaWidth : Nat
  vgaHeight : Nat
  modeSetByVbe : Bool
  convertColor : ConvertColor
  memory : Bytes

/--
The new memory of `realloc`, of which every byte is set to zero. Without a size the result is a null pointer.
-/
def reallocZeroed {α : Type} (count size : Nat) (zero : α) : Run (Buffer α) :=
  if u32 (count * size) = 0 then
    .error (.panic .unknownError)
  else
    .ok (Buffer.filled (u32 (count * size) / size) zero)

def diffRegionSize : Nat := 16

def convertColorRgbx8888 (m : Bytes) (dest : Nat) : List (BitVec 32) → Bytes
  | [] => m
  | orig :: rest => convertColorRgbx8888 (Bytes.write m dest 4 orig.toNat) (dest + 4) rest

/--
Store a colour of three bytes. In front of another pixel it is stored as four bytes.
-/
def writeColor24 (m : Bytes) (dest color : Nat) (last : Bool) : Bytes :=
  if dest % 2 = 1 then
    Bytes.write (Bytes.write m dest 1 color) (dest + 1) 2 (color / 2 ^ 8)
  else if !last then
    Bytes.write m dest 4 color
  else
    Bytes.write (Bytes.write m dest 2 color) (dest + 2) 1 (color / 2 ^ 16)

def convertColorRgb888 (m : Bytes) (dest : Nat) : List (BitVec 32) → Bytes
  | [] => m
  | orig :: rest => convertColorRgb888 (writeColor24 m dest orig.toNat rest.isEmpty) (dest + 3) rest

def color565 (orig : BitVec 32) : BitVec 32 :=
  ((orig &&& 0xF80000) >>> 8) ||| ((orig &&& 0x00FC00) >>> 5) ||| ((orig &&& 0x0000F8) >>> 3)

def convertColorRgb565 (m : Bytes) (dest : Nat) : List (BitVec 32) → Bytes
  | [] => m
  | orig :: rest => convertColorRgb565 (Bytes.write m dest 2 (color565 orig).toNat) (dest + 2) rest

/--
The highest `mask` of the eight bits from `shift` on. The processor takes the count of a shift modulo 32.
-/
def component (orig : BitVec 32) (shift mask : Nat) : BitVec 32 :=
  ((orig >>> shift) &&& 0xFF) >>> ((8 + 256 - mask) % 32)

def colorGeneric (mode : VbeVideoModeInfo) (orig : BitVec 32) : BitVec 32 :=
  let r := component orig 16 mode.redMask
  let g := component orig 8 mode.greenMask
  let b := component orig 0 mode.blueMask
  (r <<< (mode.redPosition % 32)) ||| (g <<< (mode.greenPosition % 32)) ||| (b <<< (mode.bluePosition % 32))

def convertColorGeneric (mode : VbeVideoModeInfo) (m : Bytes) (dest : Nat) : List (BitVec 32) → Bytes
  | [] => m
  | orig :: rest =>
    let color := (colorGeneric mode orig).toNat
    let m := match (mode.bpp + 7) / 2 ^ 3 with
      | 1 => Bytes.write m dest 1 color
      | 2 => Bytes.write m dest 2 color
      | 3 => writeColor24 m dest color rest.isEmpty
      | 4 => Bytes.write m dest 4 color
      | _ => m
    convertColorGeneric mode m (dest + (mode.bpp + 7) / 2 ^ 3) rest

def ConvertColor.convert (mode : VbeVideoModeInfo) (m : Bytes) (dest : Nat) (orig : List (BitVec 32))
    : ConvertColor → Bytes
  | .rgbx8888 => convertColorRgbx8888 m dest orig
  | .rgb888 => convertColorRgb888 m dest orig
  | .rgb565 => convertColorRgb565 m dest orig
  | .generic => convertColorGeneric mode m dest orig

def ConvertColor.ofBpp (bpp : Nat) : ConvertColor :=
  if bpp = 24 then .rgb888
  else if bpp = 32 then .rgbx8888
  else if bpp = 16 then .rgb565
  else .generic

/--
A character cell all of whose bytes are zero.
-/
def zeroCell : CharCell := ⟨⟨0, 0, false, false, false, false, false, false, 0, false⟩, 0⟩

def sizeofCharCell : Nat := 12

def vgaTextBase : Nat := 0xB8000

/--
The loops of an invalidation, which set the bits of the cells of a rectangle with its last row and column.
-/
def markCells (diffBuffer : Buffer (BitVec 8)) (width x0 y0 x1 y1 : Nat) : Run (Buffer (BitVec 8)) :=
  forRange (fun b y => forRange (fun b x => Bitmap.mark b .access (y * width + x)) (x1 + 1 - x0) x0 b)
    (y1 + 1 - y0) y0 diffBuffer

namespace VgaData

def setupBitmapBuffer (data : VgaData) (width height : Nat) : Run VgaData := do
  let frameBuffer ← reallocZeroed (width * height) 4 0
  let diffBuffer ← reallocZeroed ((width / diffRegionSize) * (height / diffRegionSize)) 1 0
  .ok { data with charBuffer := Buffer.filled 0 zeroCell, frameBuffer, diffBuffer }

def setupTextBuffer (data : VgaData) (width height : Nat) : Run VgaData := do
  let charBuffer ← reallocZeroed (width * height) sizeofCharCell zeroCell
  let diffBuffer ← reallocZeroed (width * height / 8) 1 0
  .ok { data with charBuffer, frameBuffer := Buffer.filled 0 0, diffBuffer }

def clearMemory (data : VgaData) (p n : Nat) : VgaData :=
  { data with memory := fun q => if p ≤ q ∧ q < p + n then 0 else data.memory q }

/--
The modes that are set without VBE. Neither the registers nor the cursor are modelled.
-/
def setModeVga (data : VgaData) (mode : Nat) : Run (Status × VgaData) :=
  match mode with
  | 0x00 => set 40 25
  | 0x03 => set 80 25
  | _ => .ok ⟨.entryNotFound, data⟩
where
  set (width height : Nat) : Run (Status × VgaData) := do
    let data := { data with
      vgaWidth := width, vgaHeight := height, isSwitchingMode := true, modeSetByVbe := false, videoMode := mode }
    let data ← data.setupTextBuffer width height
    let data := data.clearMemory vgaTextBase (width * height * 2)
    .ok ⟨.success, { data with isSwitchingMode := false }⟩

/--
`info` is what the firmware reports of the mode. Setting the mode itself succeeds.
-/
def setModeVbe (data : VgaData) (mode : Nat) (info : Except Status VbeVideoModeInfo) : Run (Status × VgaData) :=
  match info with
  | .error status =>
    if data.vbeOffersNonvbeModeInfo then data.setModeVga mode else .ok ⟨status, data⟩
  | .ok info => do
    let data := { data with isSwitchingMode := true }
    let data ←
      if info.memoryModel = .text then do
        let data ← data.setupTextBuffer info.width info.height
        .ok (if info.framebuffer = 0 then data.clearMemory vgaTextBase (info.width * info.height * 2) else data)
      else do
        let data ← data.setupBitmapBuffer info.width info.height
        let data := { data with convertColor := ConvertColor.ofBpp info.bpp }
        let hwFrameSize := u32 (info.pitch * info.height * info.bpp) / 8
        .ok (data.clearMemory info.framebuffer ((info.linNumImagePages + 1) * hwFrameSize))
    .ok ⟨.success, { data with
      vbeModeInfo := info, videoMode := mode, modeSetByVbe := true, isSwitchingMode := false }⟩

/--
The index of a region, which is divided after the product.
-/
def regionIndex (data : VgaData) (xregion yregion : Nat) : Nat :=
  yregion * data.vbeModeInfo.width / diffRegionSize + xregion

def setRegionDiff (data : VgaData) (xregion yregion : Nat) : Run VgaData := do
  let diffBuffer ← data.diffBuffer.set .access (data.regionIndex xregion yregion) 1
  .ok { data with diffBuffer }

def resetRegionDiff (data : VgaData) (xregion yregion : Nat) : Run VgaData := do
  let diffBuffer ← data.diffBuffer.set .access (data.regionIndex xregion yregion) 0
  .ok { data with diffBuffer }

def getRegionDiff (data : VgaData) (xregion yregion : Nat) : Run (BitVec 8) :=
  data.diffBuffer.get .access (data.regionIndex xregion yregion)

def fbInvalidateVbe (data : VgaData) (x0 y0 x1 y1 : Nat) : Run VgaData :=
  let xr := x0 / diffRegionSize
  let yr := y0 / diffRegionSize
  forRange (fun data yr =>
    forRange (fun (data : VgaData) xr => data.setRegionDiff xr yr)
      ((x1 + diffRegionSize - 1) / diffRegionSize - xr) xr data)
    ((y1 + diffRegionSize - 1) / diffRegionSize - yr) yr data

def fbInvalidate (data : VgaData) (x0 y0 x1 y1 : Nat) : Run (Status × VgaData) :=
  if data.isSwitchingMode then .ok ⟨.conflictingState, data⟩
  else if !data.vbeAvailable then .ok ⟨.unsupported, data⟩
  else do
    let data ← data.fbInvalidateVbe x0 y0 x1 y1
    .ok ⟨.success, data⟩

/--
How many of the `n` regions from `xr` on have the same value one after the other.
-/
def sameDiff (data : VgaData) (modifiedChunk : BitVec 8) (yr : Nat) : Nat → Nat → Run Nat
  | 0, _ => .ok 0
  | n + 1, xr => do
    let diff ← data.getRegionDiff xr yr
    if modifiedChunk ≠ diff then
      .ok 0
    else
      let size ← data.sameDiff modifiedChunk yr n (xr + 1)
      .ok (size + 1)

def getDiffChunkVbe (data : VgaData) (xr yr : Nat) : Run Int := do
  let modifiedChunk ← data.getRegionDiff xr yr
  let size ← data.sameDiff modifiedChunk yr (data.vbeModeInfo.width / diffRegionSize - (xr + 1)) (xr + 1)
  let chunkSize : Int := 1 + size
  .ok (if modifiedChunk ≠ 0 then chunkSize else -chunkSize)

/--
A row of pixels of a chunk.
-/
def copyRow (data : VgaData) (xr chunkSize y : Nat) : Run VgaData := do
  let mode := data.vbeModeInfo
  let fbOffs := y * mode.pitch + xr * diffRegionSize * mode.bpp / 8
  let orig ← data.frameBuffer.slice .access (y * mode.width + xr * diffRegionSize) (chunkSize * diffRegionSize)
  .ok { data with memory := data.convertColor.convert mode data.memory (mode.framebuffer + fbOffs) orig }

def flushChunk (data : VgaData) (xr yr chunkSize : Nat) : Run VgaData := do
  let data ← forRange (fun (data : VgaData) i => data.resetRegionDiff (xr + i) yr) chunkSize 0 data
  forRange (fun (data : VgaData) y => data.copyRow xr chunkSize y) diffRegionSize (yr * diffRegionSize) data

/--
The loop over the chunks of a row of regions. The first argument bounds its rounds.
-/
def flushRegions (yr : Nat) : Nat → Nat → VgaData → Run VgaData
  | 0, _, _ => .error .hang
  | n + 1, xr, data =>
    if xr < data.vbeModeInfo.width / diffRegionSize then do
      let chunkSize ← data.getDiffChunkVbe xr yr
      if chunkSize < 0 then
        flushRegions yr n (xr + (-chunkSize).toNat) data
      else
        let data ← data.flushChunk xr yr chunkSize.toNat
        flushRegions yr n (xr + chunkSize.toNat) data
    else
      .ok data

def fbFlushVbe (data : VgaData) : Run VgaData :=
  forRange (fun (data : VgaData) yr => flushRegions yr (data.vbeModeInfo.width / diffRegionSize + 1) 0 data)
    (data.vbeModeInfo.height / diffRegionSize) 0 data

def fbFlush (data : VgaData) : Run (Status × VgaData) :=
  if data.isSwitchingMode then .ok ⟨.conflictingState, data⟩
  else if !data.vbeAvailable then .ok ⟨.unsupported, data⟩
  else do
    let data ← data.fbFlushVbe
    .ok ⟨.success, data⟩

def getDimension (data : VgaData) : Except Status (Nat × Nat) :=
  if data.modeSetByVbe then
    if data.vbeModeInfo.memoryModel ≠ .text then .error .conflictingState
    else .ok ⟨data.vbeModeInfo.width, data.vbeModeInfo.height⟩
  else
    if data.videoMode > 0xFF then .error .conflictingState
    else .ok ⟨data.vgaWidth, data.vgaHeight⟩

def conInvalidate (data : VgaData) (x0 y0 x1 y1 : Nat) : Run (Status × VgaData) :=
  if data.isSwitchingMode then .ok ⟨.conflictingState, data⟩
  else
    match data.getDimension with
    | .error status => .ok ⟨status, data⟩
    | .ok ⟨width, _⟩ => do
      let diffBuffer ← markCells data.diffBuffer width x0 y0 x1 y1
      .ok ⟨.success, { data with diffBuffer }⟩

end VgaData

def rgbToIrgb (color : Nat) : Nat :=
  let r := color / 2 ^ 16 % 256
  let g := color / 2 ^ 8 % 256
  let b := color % 256
  let max := max (max r g) b
  let min := min (min r g) b
  if max - min < 0x50 then
    if (max + min) / 2 < 0x40 then 0x00
    else if (max + min) / 2 ≤ 0x80 then 0x08
    else if (max + min) / 2 < 0xC0 then 0x07
    else 0x0F
  else
    (if max ≥ 192 then 8 else 0) + (if r ≥ 0x80 then 4 else 0) + (if g ≥ 0x80 then 2 else 0)
      + (if b ≥ 0x80 then 1 else 0)

/--
The two bytes of the hardware for a cell, where `enc` is `enc_utf32_to_cp437`.
-/
def textCell (enc : Nat → Except Status (BitVec 8)) (src : CharCell) : BitVec 16 :=
  let cp437Char : BitVec 8 := match enc src.codepoint with
    | .ok c => c
    | .error _ => 0x3F
  let fg := if src.attr.textReversed then src.attr.bgColor else src.attr.fgColor
  let bg := if src.attr.textReversed then src.attr.fgColor else src.attr.bgColor
  let cell := cp437Char.setWidth 16
  let cell := cell ||| (BitVec.ofNat 16 (rgbToIrgb fg) &&& 0xF) <<< 8
  let cell := cell ||| (BitVec.ofNat 16 (rgbToIrgb bg) &&& 0xF) <<< 12
  if src.attr.textDim then cell &&& 0x77FF else cell

namespace VgaData

/--
The body of the loops of `con_flush`.
-/
def flushCell (enc : Nat → Except Status (BitVec 8)) (data : VgaData) (i : Nat) : Run VgaData := do
  let diff ← Bitmap.test data.diffBuffer .access i
  if !diff then
    .ok data
  else
    let src ← data.charBuffer.get .access i
    let memory := Bytes.write data.memory (vgaTextBase + 2 * i) 2 (textCell enc src).toNat
    let diffBuffer ← Bitmap.clear data.diffBuffer .access i
    .ok { data with memory, diffBuffer }

def conFlush (enc : Nat → Except Status (BitVec 8)) (data : VgaData) : Run (Status × VgaData) :=
  if data.isSwitchingMode then .ok ⟨.conflictingState, data⟩
  else
    match data.getDimension with
    | .error status => .ok ⟨status, data⟩
    | .ok ⟨width, height⟩ => do
      let data ← forRange (fun data y =>
        forRange (fun (data : VgaData) x => data.flushCell enc (y * width + x)) width 0 data) height 0 data
      .ok ⟨.success, data⟩

end VgaData

end Emos.Boot
