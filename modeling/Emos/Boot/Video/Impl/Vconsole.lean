import Emos.Boot.Video.Impl.Vga

/-!
This module contains the console that is drawn in a frame buffer, with the map of the cells that have changed
since the last flush. In a text mode all calls are passed on to the console of the video device.
-/

open Lib

namespace Emos.Boot

/--
A pixel of the frame buffer is written, or a rectangle of it is invalidated.
-/
inductive FbAction where
  | write (x y : Nat) (color : BitVec 32)
  | invalidate (x0 y0 x1 y1 : Nat)
  deriving DecidableEq, Repr

/--
`font_get_glyph_dimension` and `font_get_glyph_data`.
-/
structure Font where
  dimension : Nat → Except Status (Nat × Nat)
  data : Nat → Except Status (Nat → BitVec 8)

def fallbackGlyph : Array (BitVec 8) := #[
  0x00, 0x00, 0x00, 0x7E, 0x66, 0x5A, 0x5A, 0x7A, 0x76, 0x76, 0x7E, 0x76, 0x76, 0x7E, 0x00, 0x00
]

/--
The width, the height and the bits of a character, which are those of the fallback when the font has none.
-/
def loadGlyph (font : Font) (codepoint : Nat) : Nat × Nat × (Nat → BitVec 8) :=
  match font.dimension codepoint, font.data codepoint with
  | .ok ⟨cwidth, cheight⟩, .ok glyph =>
    if (cwidth ≠ 8 ∧ cwidth ≠ 16) ∨ cheight ≠ 16 then fallback else ⟨cwidth, cheight, glyph⟩
  | _, _ => fallback
where
  fallback : Nat × Nat × (Nat → BitVec 8) := ⟨8, 16, fun i => fallbackGlyph.getD i 0⟩

def getGlyphBit (glyph : Nat → BitVec 8) (cwidth x y : Nat) : Bool :=
  glyph ((y * cwidth + x) / 8) &&& (0x80 >>> ((y * cwidth + x) % 8)) ≠ 0

/--
Three quarters of the brightness.
-/
def dimColor (color : BitVec 32) : BitVec 32 :=
  let color := color &&& 0xFCFCFC
  (color >>> 1) + (color >>> 2)

def pixelColor (attr : CharAttributes) (fg : Bool) : BitVec 32 :=
  let dim (color : BitVec 32) := if attr.textDim then dimColor color else color
  let fgColor := dim (BitVec.ofNat 32 attr.fgColor)
  let bgColor := dim (BitVec.ofNat 32 attr.bgColor)
  if fg != attr.textReversed then fgColor else bgColor

/--
What is done to the frame buffer for a cell. The second half of a wide character is left as it is.
-/
def drawChar (font : Font) (cell : CharCell) (col row : Nat) : List FbAction :=
  if cell.codepoint = 0xFFFFFFFF then
    []
  else
    let xOffset := col * 8
    let yOffset := row * 16
    let ⟨cwidth, cheight, glyph⟩ := loadGlyph font cell.codepoint
    let line (y : Nat) : Bool := (cell.attr.textOverlined && y == 1) || (cell.attr.textStrike && y == 8)
      || (cell.attr.textUnderline && y == 15)
    let lineColor := BitVec.ofNat 32 (if cell.attr.textReversed then cell.attr.bgColor else cell.attr.fgColor)
    let drawRow (y : Nat) : List FbAction :=
      (List.range cwidth).map (fun x =>
        let fg := getGlyphBit glyph cwidth x y
        let fg := fg || (cell.attr.textBold && decide (x > 0) && getGlyphBit glyph cwidth (x - 1) y)
        .write (xOffset + x) (yOffset + y) (pixelColor cell.attr fg))
      ++ if line y then (List.range cwidth).map fun x => .write (xOffset + x) (yOffset + y) lineColor else []
    (List.range cheight).flatMap drawRow ++ [.invalidate xOffset yOffset (xOffset + cwidth) (yOffset + cheight)]

def drawCursor (col row : Nat) : List FbAction :=
  let xOffset := col * 8
  let yOffset := row * 16
  [14, 15].flatMap (fun y => (List.range 8).map fun x => .write (xOffset + x) (yOffset + y) 0xFFFFFF)
    ++ [.invalidate xOffset (yOffset + 14) (xOffset + 8) (yOffset + 16)]

/--
`struct vconsole_data` in a graphics mode.
-/
structure VconsoleData where
  isSwitchingMode : Bool
  cols : Nat
  rows : Nat
  cursorCol : Nat
  cursorRow : Nat
  cursorPrevCol : Nat
  cursorPrevRow : Nat
  cursorVisible : Bool
  charBuffer : Buffer CharCell
  diffBuffer : Buffer (BitVec 8)

namespace VconsoleData

def invalidate (data : VconsoleData) (x0 y0 x1 y1 : Nat) : Run (Status × VconsoleData) :=
  if data.isSwitchingMode then .ok ⟨.conflictingState, data⟩
  else do
    let diffBuffer ← markCells data.diffBuffer data.cols x0 y0 x1 y1
    .ok ⟨.success, { data with diffBuffer }⟩

def cursorMoved (data : VconsoleData) : Bool :=
  data.cursorPrevCol != data.cursorCol || data.cursorPrevRow != data.cursorRow

/--
The body of the loops of `flush`, which also draws the cell where the cursor has been.
-/
def flushCell (font : Font) (row : Nat) (s : VconsoleData × List FbAction) (col : Nat)
    : Run (VconsoleData × List FbAction) := do
  let ⟨data, drawn⟩ := s
  let i := row * data.cols + col
  let diff ← Bitmap.test data.diffBuffer .access i
  if diff || (data.cursorMoved && (data.cursorPrevCol == col && data.cursorPrevRow == row)) then
    let cell ← data.charBuffer.get .access i
    let diffBuffer ← Bitmap.clear data.diffBuffer .access i
    .ok ⟨{ data with diffBuffer }, drawn ++ drawChar font cell col row⟩
  else
    .ok ⟨data, drawn⟩

/--
The result has what is done to the frame buffer before that is flushed as well.
-/
def flush (font : Font) (data : VconsoleData) : Run (Status × VconsoleData × List FbAction) :=
  if data.isSwitchingMode then .ok ⟨.conflictingState, data, []⟩
  else do
    let ⟨data, drawn⟩ ← forRange (fun s row => forRange (flushCell font row) data.cols 0 s) data.rows 0 (data, [])
    if data.cursorMoved then
      let data := { data with cursorPrevCol := data.cursorCol, cursorPrevRow := data.cursorRow }
      .ok ⟨.success, data, if data.cursorVisible then drawn ++ drawCursor data.cursorCol data.cursorRow else drawn⟩
    else
      .ok ⟨.success, data, drawn⟩

def setCursorPos (data : VconsoleData) (col row : Nat) : VconsoleData :=
  { data with cursorCol := col, cursorRow := row }

def setCursorVisibility (font : Font) (data : VconsoleData) (visibility : Bool)
    : Run (Status × VconsoleData × List FbAction) :=
  { data with cursorVisible := visibility }.flush font

/--
A graphics mode of a width and a height is set.
-/
def videoModeCallback (font : Font) (data : VconsoleData) (width height : Nat)
    : Run (VconsoleData × List FbAction) := do
  let cols := width / 8
  let rows := height / 16
  let charBuffer ← reallocZeroed (cols * rows) sizeofCharCell zeroCell
  let diffBuffer ← reallocZeroed (cols * rows / 8) 1 0
  let data := { data with isSwitchingMode := true, cols, rows, charBuffer, diffBuffer }
  let ⟨_, data⟩ ← data.invalidate 0 0 (cols - 1) (rows - 1)
  let ⟨_, data, drawn⟩ ← data.flush font
  .ok ⟨{ data with
    cursorCol := 0, cursorRow := 0, cursorPrevCol := 0, cursorPrevRow := 0, isSwitchingMode := false }, drawn⟩

end VconsoleData

end Emos.Boot
