import Emos.Basic
import Emos.Lib.Buffer
import Emos.Lib.Loop

/-!
This module contains how the GUI shell moves the mouse cursor over what is drawn in the frame buffer. A position is on
the screen, so that it is not negative.
-/

open Lib

namespace Emos.Boot

def blendColor (upper lower : BitVec 32) : BitVec 32 :=
  let alpha := (upper >>> 24 &&& 0xFF).toNat
  if alpha = 0 then
    lower
  else if alpha = 0xFF then
    upper &&& 0xFFFFFF
  else
    let mix (shift : Nat) : BitVec 32 :=
      let upperC := (upper >>> shift &&& 0xFF).toNat
      let lowerC := (lower >>> shift &&& 0xFF).toNat
      BitVec.ofNat 32 (lowerC * (255 - alpha) / 255 + upperC * alpha / 255)
    (mix 16 <<< 16) ||| (mix 8 <<< 8) ||| mix 0

/--
The interface `framebuffer` of a device whose state is of type `δ`. The content of the frame buffer is only read.
-/
structure FbInterface (δ : Type) where
  invalidate : δ → Nat → Nat → Nat → Nat → Status × δ
  flush : δ → Buffer (BitVec 32) → Status × δ

/--
`CHECK_SUCCESS` of `status.h`.
-/
def checkSuccess : Status → Bool
  | .success | .noEvent => true
  | _ => false

namespace Cursor

def cursorHeight : Nat := 21

def cursorWidth : Nat := 12

def o : BitVec 32 := 0x00000000

def b : BitVec 32 := 0xFF000000

def w : BitVec 32 := 0xFFFFFFFF

def cursorData : List (List (BitVec 32)) := [
  [b, o, o, o, o, o, o, o, o, o, o, o],
  [b, b, o, o, o, o, o, o, o, o, o, o],
  [b, w, b, o, o, o, o, o, o, o, o, o],
  [b, w, w, b, o, o, o, o, o, o, o, o],
  [b, w, w, w, b, o, o, o, o, o, o, o],
  [b, w, w, w, w, b, o, o, o, o, o, o],
  [b, w, w, w, w, w, b, o, o, o, o, o],
  [b, w, w, w, w, w, w, b, o, o, o, o],
  [b, w, w, w, w, w, w, w, b, o, o, o],
  [b, w, w, w, w, w, w, w, w, b, o, o],
  [b, w, w, w, w, w, w, w, w, w, b, o],
  [b, w, w, w, w, w, w, w, w, w, w, b],
  [b, w, w, w, w, w, w, b, b, b, b, b],
  [b, w, w, w, b, w, w, b, o, o, o, o],
  [b, w, w, b, o, b, w, w, b, o, o, o],
  [b, w, b, o, o, b, w, w, b, o, o, o],
  [b, b, o, o, o, o, b, w, w, b, o, o],
  [o, o, o, o, o, o, b, w, w, b, o, o],
  [o, o, o, o, o, o, o, b, w, w, b, o],
  [o, o, o, o, o, o, o, b, w, w, b, o],
  [o, o, o, o, o, o, o, o, b, b, o, o]]

def cursorPixel (row col : Nat) : Run (BitVec 32) :=
  match cursorData[row]? with
  | none => .error .access
  | some pixels =>
    match pixels[col]? with
    | none => .error .access
    | some pixel => .ok pixel

end Cursor

/--
The frame buffer, the device that shows it, and the static variables for the cursor. Its saved area is an array of rows.
-/
structure GuishellState (δ : Type) where
  width : Nat
  height : Nat
  framebuffer : Buffer (BitVec 32)
  device : δ
  hasDrawnBefore : Bool
  prevXpos : Nat
  prevYpos : Nat
  prevCursorAreaData : Buffer (BitVec 32)

namespace GuishellState

open Cursor

variable {δ : Type}

/--
Both loops over the part of the cursor that is on the screen.
-/
def forCursor (body : Nat → GuishellState δ → Nat → Run (GuishellState δ)) (xpos ypos : Nat) (s : GuishellState δ)
    : Run (GuishellState δ) :=
  forRange (fun t y => forRange (body y) (min (xpos + cursorWidth) s.width - xpos) xpos t)
    (min (ypos + cursorHeight) s.height - ypos) ypos s

def drawPixel (xpos ypos y : Nat) (s : GuishellState δ) (x : Nat) : Run (GuishellState δ) := do
  let pixel ← cursorPixel (y - ypos) (x - xpos)
  let fbPixel ← s.framebuffer.get .access (y * s.width + x)
  let prevCursorAreaData ← s.prevCursorAreaData.set .access ((y - ypos) * cursorWidth + (x - xpos)) fbPixel
  let framebuffer ← s.framebuffer.set .access (y * s.width + x) (blendColor pixel fbPixel)
  .ok { s with framebuffer, prevCursorAreaData }

/--
The rectangle of the cursor is invalidated without clipping.
-/
def invalidate (fbif : FbInterface δ) (s : GuishellState δ) (xpos ypos : Nat) : Status × GuishellState δ :=
  let (status, device) := fbif.invalidate s.device xpos ypos (xpos + cursorWidth) (ypos + cursorHeight)
  (status, { s with device })

/--
What has been drawn at a position is shown.
-/
def present (fbif : FbInterface δ) (s : GuishellState δ) (xpos ypos : Nat) : Status × GuishellState δ :=
  match s.invalidate fbif xpos ypos with
  | (status, s) =>
    if !checkSuccess status then
      (status, s)
    else
      let (status, device) := fbif.flush s.device s.framebuffer
      (if checkSuccess status then .success else status, { s with device })

/--
`mouse_move_to` from where the old cursor has been taken away.
-/
def drawCursor (fbif : FbInterface δ) (s : GuishellState δ) (xpos ypos : Nat) : Run (Status × GuishellState δ) := do
  let s ← forCursor (drawPixel xpos ypos) xpos ypos { s with prevXpos := xpos, prevYpos := ypos }
  .ok ({ s with hasDrawnBefore := true }.present fbif xpos ypos)

end GuishellState

end Emos.Boot
