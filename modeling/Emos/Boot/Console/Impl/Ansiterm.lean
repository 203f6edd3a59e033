import Emos.Basic
import Emos.Lib.Loop
import Mathlib.Data.Nat.Basic
import Mathlib.Logic.Function.Basic

/-!
This module contains the console of `boot/device/video/vconsole.c` in graphics mode, `boot/stdc/wchar/wcwidth.c`, the
number of columns that a character takes, and the terminal of `boot/device/char/ansiterm.c` on top of the console,
whose functions do not fail. The pixels that `flush` draws are left out, nothing reads them. Numbers are the `int`s of
the source, an index that is not in its array is an error.
-/

open Lib

namespace Emos

structure CharAttributes where
  fgColor : Nat
  textBlinkLevel : Nat
  textReversed : Bool
  textBold : Bool
  textDim : Bool
  textItalic : Bool
  textUnderline : Bool
  textStrike : Bool
  bgColor : Nat
  textOverlined : Bool
  deriving DecidableEq, Repr

structure CharCell where
  attr : CharAttributes
  codepoint : Nat
  deriving DecidableEq, Repr

/--
`struct vconsole_data`. `char_buffer` has one element for each of the `cols * rows` cells, and
`diff_buffer` has one bit for each of them.
-/
structure Vconsole where
  cols : Int
  rows : Int
  cursorCol : Int
  cursorRow : Int
  cursorPrevCol : Int
  cursorPrevRow : Int
  cursorVisible : Bool
  charBuffer : Int → CharCell
  diffBuffer : Int → Bool

namespace Vconsole

def InBuffer (con : Vconsole) (i : Int) : Prop := 0 ≤ i ∧ i < con.cols * con.rows

instance (con : Vconsole) (i : Int) : Decidable (con.InBuffer i) := inferInstanceAs (Decidable (_ ∧ _))

def readCell (con : Vconsole) (i : Int) : Run CharCell :=
  if con.InBuffer i then .ok (con.charBuffer i) else .error .access

def writeCell (con : Vconsole) (i : Int) (cell : CharCell) : Run Vconsole :=
  if con.InBuffer i then
    .ok { con with charBuffer := Function.update con.charBuffer i cell }
  else
    .error .access

def invalidate (con : Vconsole) (x0 y0 x1 y1 : Int) : Run Vconsole :=
  forTo (fun con row =>
    forTo (fun (con : Vconsole) col =>
      .ok { con with diffBuffer := Function.update con.diffBuffer (row * con.cols + col) true })
      x0 x1 con)
    y0 y1 con

/--
Every cell whose bit is set is drawn, and the bit is cleared.
-/
def flush (con : Vconsole) : Vconsole :=
  { con with
    diffBuffer := fun i => if con.InBuffer i then false else con.diffBuffer i
    cursorPrevCol := con.cursorCol
    cursorPrevRow := con.cursorRow }

def setCursorPos (con : Vconsole) (col row : Int) : Vconsole :=
  { con with cursorCol := col, cursorRow := row }

def setCursorVisibility (con : Vconsole) (visibility : Bool) : Vconsole :=
  { con with cursorVisible := visibility }.flush

end Vconsole

structure Interval where
  first : Nat
  last : Nat
  deriving DecidableEq, Repr

/--
The intervals of non-spacing characters, in ascending order.
-/
def combining : Array Interval := #[
  ⟨0x0300, 0x036F⟩, ⟨0x0483, 0x0486⟩, ⟨0x0488, 0x0489⟩, ⟨0x0591, 0x05BD⟩, ⟨0x05BF, 0x05BF⟩,
  ⟨0x05C1, 0x05C2⟩, ⟨0x05C4, 0x05C5⟩, ⟨0x05C7, 0x05C7⟩, ⟨0x0600, 0x0603⟩, ⟨0x0610, 0x0615⟩,
  ⟨0x064B, 0x065E⟩, ⟨0x0670, 0x0670⟩, ⟨0x06D6, 0x06E4⟩, ⟨0x06E7, 0x06E8⟩, ⟨0x06EA, 0x06ED⟩,
  ⟨0x070F, 0x070F⟩, ⟨0x0711, 0x0711⟩, ⟨0x0730, 0x074A⟩, ⟨0x07A6, 0x07B0⟩, ⟨0x07EB, 0x07F3⟩,
  ⟨0x0901, 0x0902⟩, ⟨0x093C, 0x093C⟩, ⟨0x0941, 0x0948⟩, ⟨0x094D, 0x094D⟩, ⟨0x0951, 0x0954⟩,
  ⟨0x0962, 0x0963⟩, ⟨0x0981, 0x0981⟩, ⟨0x09BC, 0x09BC⟩, ⟨0x09C1, 0x09C4⟩, ⟨0x09CD, 0x09CD⟩,
  ⟨0x09E2, 0x09E3⟩, ⟨0x0A01, 0x0A02⟩, ⟨0x0A3C, 0x0A3C⟩, ⟨0x0A41, 0x0A42⟩, ⟨0x0A47, 0x0A48⟩,
  ⟨0x0A4B, 0x0A4D⟩, ⟨0x0A70, 0x0A71⟩, ⟨0x0A81, 0x0A82⟩, ⟨0x0ABC, 0x0ABC⟩, ⟨0x0AC1, 0x0AC5⟩,
  ⟨0x0AC7, 0x0AC8⟩, ⟨0x0ACD, 0x0ACD⟩, ⟨0x0AE2, 0x0AE3⟩, ⟨0x0B01, 0x0B01⟩, ⟨0x0B3C, 0x0B3C⟩,
  ⟨0x0B3F, 0x0B3F⟩, ⟨0x0B41, 0x0B43⟩, ⟨0x0B4D, 0x0B4D⟩, ⟨0x0B56, 0x0B56⟩, ⟨0x0B82, 0x0B82⟩,
  ⟨0x0BC0, 0x0BC0⟩, ⟨0x0BCD, 0x0BCD⟩, ⟨0x0C3E, 0x0C40⟩, ⟨0x0C46, 0x0C48⟩, ⟨0x0C4A, 0x0C4D⟩,
  ⟨0x0C55, 0x0C56⟩, ⟨0x0CBC, 0x0CBC⟩, ⟨0x0CBF, 0x0CBF⟩, ⟨0x0CC6, 0x0CC6⟩, ⟨0x0CCC, 0x0CCD⟩,
  ⟨0x0CE2, 0x0CE3⟩, ⟨0x0D41, 0x0D43⟩, ⟨0x0D4D, 0x0D4D⟩, ⟨0x0DCA, 0x0DCA⟩, ⟨0x0DD2, 0x0DD4⟩,
  ⟨0x0DD6, 0x0DD6⟩, ⟨0x0E31, 0x0E31⟩, ⟨0x0E34, 0x0E3A⟩, ⟨0x0E47, 0x0E4E⟩, ⟨0x0EB1, 0x0EB1⟩,
  ⟨0x0EB4, 0x0EB9⟩, ⟨0x0EBB, 0x0EBC⟩, ⟨0x0EC8, 0x0ECD⟩, ⟨0x0F18, 0x0F19⟩, ⟨0x0F35, 0x0F35⟩,
  ⟨0x0F37, 0x0F37⟩, ⟨0x0F39, 0x0F39⟩, ⟨0x0F71, 0x0F7E⟩, ⟨0x0F80, 0x0F84⟩, ⟨0x0F86, 0x0F87⟩,
  ⟨0x0F90, 0x0F97⟩, ⟨0x0F99, 0x0FBC⟩, ⟨0x0FC6, 0x0FC6⟩, ⟨0x102D, 0x1030⟩, ⟨0x1032, 0x1032⟩,
  ⟨0x1036, 0x1037⟩, ⟨0x1039, 0x1039⟩, ⟨0x1058, 0x1059⟩, ⟨0x1160, 0x11FF⟩, ⟨0x135F, 0x135F⟩,
  ⟨0x1712, 0x1714⟩, ⟨0x1732, 0x1734⟩, ⟨0x1752, 0x1753⟩, ⟨0x1772, 0x1773⟩, ⟨0x17B4, 0x17B5⟩,
  ⟨0x17B7, 0x17BD⟩, ⟨0x17C6, 0x17C6⟩, ⟨0x17C9, 0x17D3⟩, ⟨0x17DD, 0x17DD⟩, ⟨0x180B, 0x180D⟩,
  ⟨0x18A9, 0x18A9⟩, ⟨0x1920, 0x1922⟩, ⟨0x1927, 0x1928⟩, ⟨0x1932, 0x1932⟩, ⟨0x1939, 0x193B⟩,
  ⟨0x1A17, 0x1A18⟩, ⟨0x1B00, 0x1B03⟩, ⟨0x1B34, 0x1B34⟩, ⟨0x1B36, 0x1B3A⟩, ⟨0x1B3C, 0x1B3C⟩,
  ⟨0x1B42, 0x1B42⟩, ⟨0x1B6B, 0x1B73⟩, ⟨0x1DC0, 0x1DCA⟩, ⟨0x1DFE, 0x1DFF⟩, ⟨0x200B, 0x200F⟩,
  ⟨0x202A, 0x202E⟩, ⟨0x2060, 0x2063⟩, ⟨0x206A, 0x206F⟩, ⟨0x20D0, 0x20EF⟩, ⟨0x302A, 0x302F⟩,
  ⟨0x3099, 0x309A⟩, ⟨0xA806, 0xA806⟩, ⟨0xA80B, 0xA80B⟩, ⟨0xA825, 0xA826⟩, ⟨0xFB1E, 0xFB1E⟩,
  ⟨0xFE00, 0xFE0F⟩, ⟨0xFE20, 0xFE23⟩, ⟨0xFEFF, 0xFEFF⟩, ⟨0xFFF9, 0xFFFB⟩, ⟨0x10A01, 0x10A03⟩,
  ⟨0x10A05, 0x10A06⟩, ⟨0x10A0C, 0x10A0F⟩, ⟨0x10A38, 0x10A3A⟩, ⟨0x10A3F, 0x10A3F⟩, ⟨0x1D167, 0x1D169⟩,
  ⟨0x1D173, 0x1D182⟩, ⟨0x1D185, 0x1D18B⟩, ⟨0x1D1AA, 0x1D1AD⟩, ⟨0x1D242, 0x1D244⟩, ⟨0xE0001, 0xE0001⟩,
  ⟨0xE0020, 0xE007F⟩, ⟨0xE0100, 0xE01EF⟩
]

/--
The binary search for an interval of the table, whose last index is `max`.
-/
def bisearch (ucs : Nat) (table : Array Interval) (max : Nat) : Bool :=
  match table[0]?, table[max]? with
  | some head, some tail =>
    if ucs < head.first ∨ ucs > tail.last then false else go (max + 2) 0 max
  | _, _ => false
where
  /-- the first argument bounds the rounds of the loop, each of which takes `mid` away -/
  go : Nat → Int → Int → Bool
    | 0, _, _ => false
    | n + 1, min, max =>
      if max < min then
        false
      else
        let mid := (min + max) / 2
        match table[mid.toNat]? with
        | none => false
        | some interval =>
          if ucs > interval.last then
            go n (mid + 1) max
          else if ucs < interval.first then
            go n min (mid - 1)
          else
            true

def isWide (ucs : Nat) : Bool :=
  ucs ≥ 0x1100 &&
    (ucs ≤ 0x115F
      || ucs = 0x2329 || ucs = 0x232A
      || (ucs ≥ 0x2E80 && ucs ≤ 0xA4CF && ucs ≠ 0x303F)
      || (ucs ≥ 0xAC00 && ucs ≤ 0xD7A3)
      || (ucs ≥ 0xF900 && ucs ≤ 0xFAFF)
      || (ucs ≥ 0xFE10 && ucs ≤ 0xFE19)
      || (ucs ≥ 0xFE30 && ucs ≤ 0xFE6F)
      || (ucs ≥ 0xFF00 && ucs ≤ 0xFF60)
      || (ucs ≥ 0xFFE0 && ucs ≤ 0xFFE6)
      || (ucs ≥ 0x20000 && ucs ≤ 0x2FFFD)
      || (ucs ≥ 0x30000 && ucs ≤ 0x3FFFD))

def wcwidth (ucs : Nat) : Int :=
  if ucs = 0 then
    0
  else if ucs < 32 ∨ (ucs ≥ 0x7F ∧ ucs < 0xA0) then
    -1
  else if bisearch ucs combining (combining.size - 1) then
    0
  else if isWide ucs then
    2
  else
    1

def palette : Array Nat := #[
  0x000000, 0xAA0000, 0x00AA00, 0xAA5500, 0x0000AA, 0xAA00AA, 0x00AAAA, 0xAAAAAA, 0x555555, 0xFF5555,
  0x55FF55, 0xFFFF55, 0x5555FF, 0xFF55FF, 0x55FFFF, 0xFFFFFF, 0x000000, 0x00005F, 0x000087, 0x0000AF,
  0x0000D7, 0x0000FF, 0x005F00, 0x005F5F, 0x005F87, 0x005FAF, 0x005FD7, 0x005FFF, 0x008700, 0x00875F,
  0x008787, 0x0087AF, 0x0087D7, 0x0087FF, 0x00AF00, 0x00AF5F, 0x00AF87, 0x00AFAF, 0x00AFD7, 0x00AFFF,
  0x00D700, 0x00D75F, 0x00D787, 0x00D7AF, 0x00D7D7, 0x00D7FF, 0x00FF00, 0x00FF5F, 0x00FF87, 0x00FFAF,
  0x00FFD7, 0x00FFFF, 0x5F0000, 0x5F005F, 0x5F0087, 0x5F00AF, 0x5F00D7, 0x5F00FF, 0x5F5F00, 0x5F5F5F,
  0x5F5F87, 0x5F5FAF, 0x5F5FD7, 0x5F5FFF, 0x5F8700, 0x5F875F, 0x5F8787, 0x5F87AF, 0x5F87D7, 0x5F87FF,
  0x5FAF00, 0x5FAF5F, 0x5FAF87, 0x5FAFAF, 0x5FAFD7, 0x5FAFFF, 0x5FD700, 0x5FD75F, 0x5FD787, 0x5FD7AF,
  0x5FD7D7, 0x5FD7FF, 0x5FFF00, 0x5FFF5F, 0x5FFF87, 0x5FFFAF, 0x5FFFD7, 0x5FFFFF, 0x870000, 0x87005F,
  0x870087, 0x8700AF, 0x8700D7, 0x8700FF, 0x875F00, 0x875F5F, 0x875F87, 0x875FAF, 0x875FD7, 0x875FFF,
  0x878700, 0x87875F, 0x878787, 0x8787AF, 0x8787D7, 0x8787FF, 0x87AF00, 0x87AF5F, 0x87AF87, 0x87AFAF,
  0x87AFD7, 0x87AFFF, 0x87D700, 0x87D75F, 0x87D787, 0x87D7AF, 0x87D7D7, 0x87D7FF, 0x87FF00, 0x87FF5F,
  0x87FF87, 0x87FFAF, 0x87FFD7, 0x87FFFF, 0xAF0000, 0xAF005F, 0xAF0087, 0xAF00AF, 0xAF00D7, 0xAF00FF,
  0xAF5F00, 0xAF5F5F, 0xAF5F87, 0xAF5FAF, 0xAF5FD7, 0xAF5FFF, 0xAF8700, 0xAF875F, 0xAF8787, 0xAF87AF,
  0xAF87D7, 0xAF87FF, 0xAFAF00, 0xAFAF5F, 0xAFAF87, 0xAFAFAF, 0xAFAFD7, 0xAFAFFF, 0xAFD700, 0xAFD75F,
  0xAFD787, 0xAFD7AF, 0xAFD7D7, 0xAFD7FF, 0xAFFF00, 0xAFFF5F, 0xAFFF87, 0xAFFFAF, 0xAFFFD7, 0xAFFFFF,
  0xD70000, 0xD7005F, 0xD70087, 0xD700AF, 0xD700D7, 0xD700FF, 0xD75F00, 0xD75F5F, 0xD75F87, 0xD75FAF,
  0xD75FD7, 0xD75FFF, 0xD78700, 0xD7875F, 0xD78787, 0xD787AF, 0xD787D7, 0xD787FF, 0xD7AF00, 0xD7AF5F,
  0xD7AF87, 0xD7AFAF, 0xD7AFD7, 0xD7AFFF, 0xD7D700, 0xD7D75F, 0xD7D787, 0xD7D7AF, 0xD7D7D7, 0xD7D7FF,
  0xD7FF00, 0xD7FF5F, 0xD7FF87, 0xD7FFAF, 0xD7FFD7, 0xD7FFFF, 0xFF0000, 0xFF005F, 0xFF0087, 0xFF00AF,
  0xFF00D7, 0xFF00FF, 0xFF5F00, 0xFF5F5F, 0xFF5F87, 0xFF5FAF, 0xFF5FD7, 0xFF5FFF, 0xFF8700, 0xFF875F,
  0xFF8787, 0xFF87AF, 0xFF87D7, 0xFF87FF, 0xFFAF00, 0xFFAF5F, 0xFFAF87, 0xFFAFAF, 0xFFAFD7, 0xFFAFFF,
  0xFFD700, 0xFFD75F, 0xFFD787, 0xFFD7AF, 0xFFD7D7, 0xFFD7FF, 0xFFFF00, 0xFFFF5F, 0xFFFF87, 0xFFFFAF,
  0xFFFFD7, 0xFFFFFF, 0x080808, 0x121212, 0x1C1C1C, 0x262626, 0x303030, 0x3A3A3A, 0x444444, 0x4E4E4E,
  0x585858, 0x626262, 0x6C6C6C, 0x767676, 0x808080, 0x8A8A8A, 0x949494, 0x9E9E9E, 0xA8A8A8, 0xB2B2B2,
  0xBCBCBC, 0xC6C6C6, 0xD0D0D0, 0xDADADA, 0xE4E4E4, 0xEEEEEE
]

def paletteColor (i : Int) : Run Nat :=
  if i < 0 then
    .error .access
  else
    match palette[i.toNat]? with
    | none => .error .access
    | some color => .ok color

inductive EscapeState where
  | default
  | esc
  | ss2
  | ss3
  | dcs
  | csi
  | st
  | osc
  | sos
  | pm
  | apc
  deriving DecidableEq, Repr

/--
`struct ansiterm_data` and the console that it is on top of.
-/
structure Ansiterm where
  con : Vconsole
  /-- an array of 8 elements -/
  escapeSeqArgs : Int → Int
  escapeSeqArgCount : Int
  escapeSeqState : EscapeState
  escapeSeqNumberInput : Bool
  savedCursorX : Int
  savedCursorY : Int
  attrState : CharAttributes
  /-- the bytes of `utf8_fragment_buf` that are in use -/
  utf8Fragment : List UInt8

namespace Ansiterm

def setCon (t : Ansiterm) (con : Vconsole) : Ansiterm := { t with con }

def setCursorPos (t : Ansiterm) (x y : Int) : Ansiterm := t.setCon (t.con.setCursorPos x y)

def setState (t : Ansiterm) (state : EscapeState) : Ansiterm := { t with escapeSeqState := state }

def cellIndex (t : Ansiterm) (x y : Int) : Int := y * t.con.cols + x

/--
The new value of `cursor_x`, which stays in the first column.
-/
def consoleBackspace (t : Ansiterm) : Run Int := do
  let cursorX := t.con.cursorCol
  if cursorX < 1 then
    .ok cursorX
  else
    let cell ← t.con.readCell (t.cellIndex (cursorX - 1) t.con.cursorRow)
    if cell.codepoint ≠ 0 then
      .ok (cursorX - 1)
    else
      let tab := (cursorX - 1) / 8 * 8
      go tab (cursorX - 1 - tab).toNat (cursorX - 2)
where
  /-- the loop over the cells to the left, `n` of which are left -/
  go (tab : Int) : Nat → Int → Run Int
    | 0, _ => .ok tab
    | n + 1, x => do
      let cell ← t.con.readCell (t.cellIndex x t.con.cursorRow)
      if cell.codepoint ≠ 0 then
        .ok (x + 1)
      else
        go tab n (x - 1)

def consoleErase (t : Ansiterm) (x0 y0 x1 y1 : Int) : Run Ansiterm := do
  let t ← forTo (fun t y =>
    forTo (fun (t : Ansiterm) x => do
      let con ← t.con.writeCell (t.cellIndex x y) ⟨t.attrState, 0⟩
      .ok (t.setCon con))
      x0 x1 t)
    y0 y1 t
  let con ← t.con.invalidate x0 y0 x1 y1
  .ok (t.setCon con)

def copyRow (t : Ansiterm) (x0 x1 dst src : Int) : Run Ansiterm :=
  forTo (fun (t : Ansiterm) x => do
    let cell ← t.con.readCell (t.cellIndex x src)
    let con ← t.con.writeCell (t.cellIndex x dst) cell
    .ok (t.setCon con))
    x0 x1 t

def scrollUp (t : Ansiterm) (amount x0 y0 x1 y1 : Int) : Run Ansiterm := do
  let t ← forTo (fun (t : Ansiterm) y => t.copyRow x0 x1 y (y + amount)) y0 (y1 - amount) t
  t.consoleErase x0 (y1 - amount + 1) x1 y1

/--
The case of a negative amount, of which this is the absolute value. One row more than was moved is erased.
-/
def scrollDown (t : Ansiterm) (amount x0 y0 x1 y1 : Int) : Run Ansiterm := do
  let t ← forDownTo (fun (t : Ansiterm) y => t.copyRow x0 x1 (y + amount) y) (y1 - amount) y0 t
  t.consoleErase x0 y0 x1 (y0 + amount)

def scrollRows (t : Ansiterm) (amount x0 y0 x1 y1 : Int) : Run Ansiterm :=
  if amount > 0 then t.scrollUp amount x0 y0 x1 y1 else t.scrollDown (-amount) x0 y0 x1 y1

def consoleScroll (t : Ansiterm) (amount x0 y0 x1 y1 : Int) : Run Ansiterm :=
  if amount = 0 then
    .ok t
  else do
    let t ← t.scrollRows amount x0 y0 x1 y1
    let con ← t.con.invalidate x0 y0 x1 y1
    .ok (t.setCon con)

def scrollScreen (t : Ansiterm) (amount : Int) : Run Ansiterm :=
  t.consoleScroll amount 0 0 (t.con.cols - 1) (t.con.rows - 1)

/--
Write a cell. It is the cell at the cursor that is invalidated, also for the second half of a wide character.
-/
def putCell (t : Ansiterm) (x y : Int) (cell : CharCell) : Run Ansiterm := do
  let con ← t.con.writeCell (t.cellIndex x y) cell
  let con ← con.invalidate con.cursorCol con.cursorRow con.cursorCol con.cursorRow
  .ok (t.setCon con)

def consolePutchar (t : Ansiterm) (ch : Nat) : Run Ansiterm := do
  let x := t.con.cursorCol
  let y := t.con.cursorRow
  let t ← t.putCell x y ⟨t.attrState, ch⟩
  if wcwidth ch > 1 ∧ x + 1 < t.con.cols then
    t.putCell (x + 1) y ⟨t.attrState, 0xFFFFFFFF⟩
  else
    .ok t

def handleEsc (t : Ansiterm) (ch : Char) : Ansiterm :=
  let t := {
    t with
    escapeSeqArgs := fun _ => 0
    escapeSeqArgCount := 0
    escapeSeqNumberInput := false
  }
  t.setState <|
    match ch with
    | 'N' => .ss2
    | 'O' => .ss3
    | 'P' => .dcs
    | '[' => .csi
    | '\\' => .st
    | ']' => .osc
    | 'X' => .sos
    | '^' => .pm
    | '_' => .apc
    | _ => .default

def arg (t : Ansiterm) (i default : Int) : Int :=
  if t.escapeSeqArgCount < i + 1 then default else t.escapeSeqArgs i

end Ansiterm

end Emos
