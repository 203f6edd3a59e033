import Emos.Boot.Console.Impl.Ansiterm

/-!
This module contains the control sequences of `boot/device/char/ansiterm.c`.
-/

namespace Emos

/--
The value of a signed expression, which wraps around.
-/
def int32 (n : Int) : Int := n.bmod (2 ^ 32)

/--
`uint8_t`
-/
def uint8 (n : Int) : Nat := (n % 256).toNat

namespace Ansiterm

/--
Cursor up. The column is not kept, the console stores -1.
-/
def handleCuu (t : Ansiterm) : Ansiterm :=
  let cursorY := t.con.cursorRow
  let count := t.arg 0 1
  let count := if count < cursorY then count else cursorY
  (t.setState .default).setCursorPos (-1) (cursorY - count)

/--
Cursor down.
-/
def handleCud (t : Ansiterm) : Ansiterm :=
  let cursorY := t.con.cursorRow
  let count := t.arg 0 1
  let count := if count < t.con.rows - cursorY then count else t.con.rows - cursorY
  (t.setState .default).setCursorPos (-1) (cursorY + count)

/--
Cursor forward.
-/
def handleCuf (t : Ansiterm) : Ansiterm :=
  let cursorX := t.con.cursorCol
  let count := t.arg 0 1
  let count := if count < t.con.cols - cursorX then count else t.con.cols - cursorX
  (t.setState .default).setCursorPos (cursorX + count) (-1)

/--
Cursor back.
-/
def handleCub (t : Ansiterm) : Ansiterm :=
  let cursorX := t.con.cursorCol
  let count := t.arg 0 1
  let count := if count < cursorX then count else cursorX
  (t.setState .default).setCursorPos (cursorX - count) (-1)

/--
Cursor next line.
-/
def handleCnl (t : Ansiterm) : Ansiterm :=
  let cursorY := t.con.cursorRow
  let count := t.arg 0 1
  let count := if count < t.con.rows - cursorY then count else t.con.rows - cursorY
  (t.setState .default).setCursorPos 0 (cursorY + count)

/--
Cursor previous line.
-/
def handleCpl (t : Ansiterm) : Ansiterm :=
  let cursorY := t.con.cursorRow
  let count := t.arg 0 1
  let count := if count < cursorY then count else cursorY
  (t.setState .default).setCursorPos 0 (cursorY - count)

/--
Cursor horizontal absolute.
-/
def handleCha (t : Ansiterm) : Ansiterm :=
  let pos := t.arg 0 1
  let cursorX := if pos - 1 < 0 then 0 else pos - 1
  (t.setState .default).setCursorPos cursorX (-1)

/--
Cursor position.
-/
def handleCupHvp (t : Ansiterm) : Ansiterm :=
  let ypos := t.arg 0 1
  let xpos := t.arg 1 1
  let cursorX := if xpos - 1 < 0 then 0 else xpos - 1
  let cursorY := if ypos - 1 < 0 then 0 else ypos - 1
  (t.setState .default).setCursorPos cursorX cursorY

/--
The switch of `handle_ed`.
-/
def eraseInDisplay (t : Ansiterm) (option : Int) : Run Ansiterm :=
  let cursorX := t.con.cursorCol
  let cursorY := t.con.cursorRow
  let width := t.con.cols
  let height := t.con.rows
  match option with
  | 0 => do
    let t ← t.consoleErase cursorX cursorY (width - 1) cursorY
    if cursorY < height - 1 then
      .ok t
    else
      t.consoleErase 0 (cursorY + 1) (width - 1) (height - 1)
  | 1 => do
    let t ← t.consoleErase 0 cursorY cursorX cursorY
    if cursorX > 0 then
      .ok t
    else
      t.consoleErase 0 0 (width - 1) (cursorY - 1)
  | 2 => t.consoleErase 0 0 (width - 1) (height - 1)
  | 3 => t.consoleErase 0 0 (width - 1) (height - 1)
  | _ => .ok t

/--
Erase in display.
-/
def handleEd (t : Ansiterm) : Run Ansiterm := do
  let t ← t.eraseInDisplay (t.arg 0 0)
  .ok (t.setState .default)

/--
The switch of `handle_el`.
-/
def eraseInLine (t : Ansiterm) (option : Int) : Run Ansiterm :=
  let cursorX := t.con.cursorCol
  let cursorY := t.con.cursorRow
  let width := t.con.cols
  match option with
  | 0 => t.consoleErase cursorX cursorY (width - 1) cursorY
  | 1 => t.consoleErase 0 cursorY cursorX cursorY
  | 2 => t.consoleErase 0 cursorY (width - 1) cursorY
  | _ => .ok t

/--
Erase in line.
-/
def handleEl (t : Ansiterm) : Run Ansiterm := do
  let t ← t.eraseInLine (t.arg 0 0)
  .ok (t.setState .default)

/--
Scroll up.
-/
def handleSu (t : Ansiterm) : Run Ansiterm := do
  let t ← t.scrollScreen (t.arg 0 1)
  .ok (t.setState .default)

/--
Scroll down.
-/
def handleSd (t : Ansiterm) : Run Ansiterm := do
  let t ← t.scrollScreen (-t.arg 0 1)
  .ok (t.setState .default)

/--
The color that arguments 1 to 4 select, if there is one.
-/
def extendedColor (t : Ansiterm) : Run (Option Nat) :=
  if t.escapeSeqArgCount < 2 then
    .ok none
  else if t.escapeSeqArgs 1 = 5 then
    if t.escapeSeqArgCount < 3 then
      .ok none
    else do
      let color ← paletteColor (t.escapeSeqArgs 2)
      .ok (some color)
  else if t.escapeSeqArgs 1 = 2 then
    if t.escapeSeqArgCount < 5 then
      .ok none
    else
      let r := uint8 (t.escapeSeqArgs 2)
      let g := uint8 (t.escapeSeqArgs 3)
      let b := uint8 (t.escapeSeqArgs 4)
      .ok (some (r * 2 ^ 16 + g * 2 ^ 8 + b))
  else
    .ok none

/--
The cases of `handle_sgr` that turn an attribute on or off.
-/
def selectAttribute (attr : CharAttributes) : Int → Option CharAttributes
  | 1 => some { attr with textBold := true }
  | 2 => some { attr with textDim := true }
  | 3 => some { attr with textItalic := true }
  | 4 => some { attr with textUnderline := true }
  | 5 => some { attr with textBlinkLevel := 1 }
  | 6 => some { attr with textBlinkLevel := 2 }
  | 7 => some { attr with textReversed := true }
  | 8 => some { attr with textBlinkLevel := 3 }
  | 9 => some { attr with textStrike := true }
  | 22 => some { attr with textBold := false, textDim := false }
  | 23 => some { attr with textItalic := false }
  | 24 => some { attr with textUnderline := false }
  | 25 => some { attr with textBlinkLevel := 0 }
  | 27 => some { attr with textReversed := false }
  | 28 => some { attr with textBlinkLevel := 0 }
  | 29 => some { attr with textStrike := false }
  | 53 => some { attr with textOverlined := true }
  | 55 => some { attr with textOverlined := false }
  | _ => none

def selectColor (t : Ansiterm) (attr : CharAttributes) (option : Int) : Run CharAttributes :=
  if option = 0 then do
    let bgColor ← paletteColor 0
    let fgColor ← paletteColor 15
    .ok ⟨fgColor, 0, false, false, false, false, false, false, bgColor, false⟩
  else if 30 ≤ option ∧ option ≤ 37 then do
    let fgColor ← paletteColor (option - 30)
    .ok { attr with fgColor }
  else if option = 38 then do
    let color ← t.extendedColor
    .ok { attr with fgColor := color.getD attr.fgColor }
  else if option = 39 then do
    let fgColor ← paletteColor 7
    .ok { attr with fgColor }
  else if 40 ≤ option ∧ option ≤ 47 then do
    let bgColor ← paletteColor (option - 40)
    .ok { attr with bgColor }
  else if option = 48 then do
    let color ← t.extendedColor
    .ok { attr with bgColor := color.getD attr.bgColor }
  else if option = 49 then do
    let bgColor ← paletteColor 0
    .ok { attr with bgColor }
  else if 90 ≤ option ∧ option ≤ 97 then do
    let fgColor ← paletteColor (option - 90 + 8)
    .ok { attr with fgColor }
  else if 100 ≤ option ∧ option ≤ 107 then do
    let bgColor ← paletteColor (option - 100 + 8)
    .ok { attr with bgColor }
  else
    .ok attr

def selectGraphicRendition (t : Ansiterm) (option : Int) : Run CharAttributes :=
  match selectAttribute t.attrState option with
  | some attr => .ok attr
  | none => t.selectColor t.attrState option

def handleSgr (t : Ansiterm) : Run Ansiterm := do
  let attrState ← t.selectGraphicRendition (t.arg 0 0)
  .ok ({ t with attrState }.setState .default)

def handleDsr (t : Ansiterm) : Ansiterm := t.setState .default

def handleScosc (t : Ansiterm) : Ansiterm :=
  { t with savedCursorX := t.con.cursorCol, savedCursorY := t.con.cursorRow }.setState .default

def handleScorc (t : Ansiterm) : Ansiterm :=
  (t.setCursorPos t.savedCursorX t.savedCursorY).setState .default

def handleDectcemShow (t : Ansiterm) : Ansiterm :=
  (t.setCon (t.con.setCursorVisibility true)).setState .default

def handleDectcemHide (t : Ansiterm) : Ansiterm :=
  (t.setCon (t.con.setCursorVisibility false)).setState .default

def escapeSeqArgsSize : Int := 8

def setArg (t : Ansiterm) (i value : Int) : Run Ansiterm :=
  if 0 ≤ i ∧ i < escapeSeqArgsSize then
    .ok { t with escapeSeqArgs := Function.update t.escapeSeqArgs i value }
  else
    .error .access

def handleQuestionMark (t : Ansiterm) : Run Ansiterm :=
  if t.escapeSeqArgCount ≥ escapeSeqArgsSize then
    .ok t
  else do
    let t ← t.setArg t.escapeSeqArgCount (-63)
    .ok { t with escapeSeqArgCount := t.escapeSeqArgCount + 1 }

def handleDigit (t : Ansiterm) (digit : Int) : Run Ansiterm :=
  if t.escapeSeqArgCount ≥ escapeSeqArgsSize then
    .ok t
  else
    let count := if t.escapeSeqNumberInput then t.escapeSeqArgCount else t.escapeSeqArgCount + 1
    let t := { t with escapeSeqArgCount := count, escapeSeqNumberInput := true }
    t.setArg (count - 1) (int32 (int32 (t.escapeSeqArgs (count - 1) * 10) + digit))

def handleCsi (t : Ansiterm) (ch : Char) : Run Ansiterm :=
  match ch with
  | 'A' => .ok t.handleCuu
  | 'B' => .ok t.handleCud
  | 'C' => .ok t.handleCuf
  | 'D' => .ok t.handleCub
  | 'E' => .ok t.handleCnl
  | 'F' => .ok t.handleCpl
  | 'G' => .ok t.handleCha
  | 'f' => .ok t.handleCupHvp
  | 'H' => .ok t.handleCupHvp
  | 'h' => .ok t.handleDectcemShow
  | 'J' => t.handleEd
  | 'K' => t.handleEl
  | 'l' => .ok t.handleDectcemHide
  | 'S' => t.handleSu
  | 'T' => t.handleSd
  | 'm' => t.handleSgr
  | 'n' => .ok t.handleDsr
  | 's' => .ok t.handleScosc
  | 'u' => .ok t.handleScorc
  | '?' => t.handleQuestionMark
  | ';' => .ok { t with escapeSeqNumberInput := false }
  | ':' => .ok { t with escapeSeqNumberInput := false }
  | ch =>
    if '0' ≤ ch ∧ ch ≤ '9' then
      t.handleDigit (ch.toNat - '0'.toNat)
    else
      .ok (t.setState .default)

end Ansiterm

end Emos
