import Emos.Boot.Font.Impl.Font
import Emos.Boot.Stdc.Lemmas.Stdio

/-!
This module contains where the functions that look for a glyph read.
-/

open Lib

namespace Emos.Boot

variable {σ : Type}

/--
A file with these bytes. A read from its beginning that succeeds gives as many of them as it is asked for.
-/
structure FontFile.Holds (fp : FontFile σ) (content : List (BitVec 8)) : Prop where
  fileSize : fp.fileSize = content.length
  read : ∀ s, (s = fp.start ∨ ∃ s', s = fp.rewind s') → ∀ n,
    ∃ status data s', fp.read s n = .ok (status, data, s') ∧ data.length ≤ n
      ∧ (status = .success → data = content.take n)

/--
A file whose reads do not fail.
-/
structure FontFile.Delivers (fp : FontFile σ) (content : List (BitVec 8)) : Prop extends fp.Holds content where
  succeeds : ∀ s, (s = fp.start ∨ ∃ s', s = fp.rewind s') → ∀ n, ∃ data s', fp.read s n = .ok (.success, data, s')

namespace FontCall

def Gives (content : List (BitVec 8)) : FontCall σ → Prop
  | .file fp _ _ => fp.Holds content
  | _ => False

end FontCall

namespace FontState

variable {st st' : FontState} {content : List (BitVec 8)}

/--
The memory of `font_file_data` is allocated and has the whole of a file.
-/
def Loaded (st : FontState) (content : List (BitVec 8)) : Prop :=
  ∃ p, st.fontFileData = some p ∧ st.heap p = some ⟨content.length, fun i => content[i]?⟩

/--
There is no font, or all of a file is in memory.
-/
def Sound (calls : List (FontCall σ)) (st : FontState) : Prop :=
  st.fontFileData = none ∨ ∃ content, st.Loaded content ∧ ∃ call ∈ calls, call.Gives content

theorem Sound.mono {calls calls' : List (FontCall σ)} (h : Sound calls st) (hsub : calls ⊆ calls')
    : Sound calls' st := by
  rcases h with hnone | ⟨content, hloaded, call, hmem, hgives⟩
  . exact .inl hnone
  . exact .inr ⟨content, hloaded, call, hsub hmem, hgives⟩

section Loaded

variable {p offset n : Nat}

/--
The byte at an offset of a file.
-/
def byteAt (content : List (BitVec 8)) (offset : Nat) : Run (BitVec 8) :=
  if offset < content.length then .ok (content.getD offset 0) else .error .access

end Loaded

end FontState

/--
The number of 32 bits at an offset of a file.
-/
def uint32At (content : List (BitVec 8)) (offset : Nat) : Nat := littleEndian ((content.drop offset).take 4)

/--
Where the file has the offset of a glyph.
-/
def entryAt (content : List (BitVec 8)) (codepoint : Nat) : Nat := u32 (uint32At content 8 + 4 * codepoint)

def glyphAt (content : List (BitVec 8)) (codepoint : Nat) : Nat := uint32At content (entryAt content codepoint)

/--
The bytes of the bitmap behind the header of a glyph.
-/
def bitmapSize (flags : BitVec 8) : Nat := if flags.getLsbD 0 then 32 else 16

namespace FontState

variable {st : FontState} {content : List (BitVec 8)} {p offset codepoint : Nat}

section Returns

variable {α β : Type} {c : Prop} [Decidable c] {r : Run α}

end Returns

theorem length_bytes {l : List (BitVec 8)} {n : Nat} (h : st.bytes p offset n = .ok l) : l.length = n := by
  induction n generalizing offset l with
  | zero =>
    cases h
    rfl
  | succ n ih =>
    rw [bytes, bind_eq_ok] at h
    obtain ⟨b, _, h⟩ := h
    rw [bind_eq_ok] at h
    obtain ⟨rest, hrest, h⟩ := h
    cases h
    rw [List.length_cons, ih hrest]

end FontState

end Emos.Boot
