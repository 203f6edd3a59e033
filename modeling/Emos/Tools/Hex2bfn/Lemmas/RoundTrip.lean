import Emos.Boot.Font.Lemmas.Font
import Emos.Tools.Hex2bfn.Impl.Main
import Mathlib.Data.Finset.Card

/-!
This module contains that the boot loader finds the glyphs in a font that `hex2bfn.py` has made.
-/

open Lib

namespace Emos.Tools.Hex2bfn

open Emos.Boot

/--
A glyph of 8 or 16 by 16 pixels.
-/
structure HexGlyph where
  codepoint : Nat
  bytes : List (BitVec 8)
  codepoint_le : codepoint ≤ 0x10FFFF
  length_bytes : bytes.length = 16 ∨ bytes.length = 32

namespace HexGlyph

/--
What is written for a glyph, with its header.
-/
def record (g : HexGlyph) : List (BitVec 8) := bytes4 (if g.bytes.length = 32 then 1 else 0) ++ g.bytes

/--
The writes of the second loop, where the next record is at `offset`.
-/
def pieces (offset : Nat) : List HexGlyph → List (Nat × List (BitVec 8))
  | [] => []
  | g :: font => (offset, g.record) :: (16 + 4 * g.codepoint, bytes4 offset) :: pieces (offset + g.record.length) font

variable {g : HexGlyph} {font : List HexGlyph} {lines : List (List Char)} {m offset : Nat}
  {w : Nat × List (BitVec 8)}

def header (maxCodepoint : Nat) : List (BitVec 8) :=
  [0x62, 0x66, 0x6E, 0x74] ++ bytes4 maxCodepoint ++ bytes4 16 ++ [0, 0, 0, 0]

theorem length_le (hdistinct : (font.map HexGlyph.codepoint).Nodup) : font.length ≤ 0x110000 := by
  have hsub : (font.map HexGlyph.codepoint).toFinset ⊆ Finset.range 0x110000 := by
    intro c hc
    rw [List.mem_toFinset, List.mem_map] at hc
    obtain ⟨g, _, rfl⟩ := hc
    have := g.codepoint_le
    rw [Finset.mem_range]
    omega
  have hcard := Finset.card_le_card hsub
  rw [List.toFinset_card_of_nodup hdistinct, List.length_map, Finset.card_range] at hcard
  exact hcard

section Read

variable {codepoint : Nat}

/--
What the boot loader finds for a glyph of the font.
-/
structure Found (content : List (BitVec 8)) (g : HexGlyph) : Prop where
  entry : entryAt content g.codepoint + 4 ≤ content.length
  glyph_pos : 0 < glyphAt content g.codepoint
  glyph_lt : glyphAt content g.codepoint < content.length
  size : bitmapSize (content.getD (glyphAt content g.codepoint) 0) = g.bytes.length
  bitmap : u32 (glyphAt content g.codepoint + 4) + g.bytes.length ≤ content.length
  bytes : (content.drop (u32 (glyphAt content g.codepoint + 4))).take g.bytes.length = g.bytes

end Read

section Loaded

variable {codepoint : Nat} {st : FontState}

end Loaded

variable {σ : Type}

end HexGlyph

end Emos.Tools.Hex2bfn
