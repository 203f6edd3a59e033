import Emos.Boot.Guishell.Impl.Cursor
import Emos.Boot.Video.Impl.Vga
import Mathlib.Data.List.GetD

/-!
This module contains what is in the frame buffer after the mouse cursor has been moved.
-/

open Lib

namespace Emos.Boot

namespace GuishellState

open Cursor

variable {δ : Type}

def pixel (s : GuishellState δ) (p : Nat × Nat) : BitVec 32 := s.framebuffer.data (p.2 * s.width + p.1)

/--
The pixel of the cursor image at a distance from its corner.
-/
def cursorColor (row col : Nat) : BitVec 32 := (cursorData.getD row []).getD col 0

/--
The part of the cursor at a position that may be on the screen.
-/
def cursorRect (pos : Nat × Nat) : Set (Nat × Nat) :=
  {p | (pos.1 ≤ p.1 ∧ p.1 < pos.1 + cursorWidth) ∧ pos.2 ≤ p.2 ∧ p.2 < pos.2 + cursorHeight}

instance (pos p : Nat × Nat) : Decidable (p ∈ cursorRect pos) := inferInstanceAs (Decidable (_ ∧ _))

/--
The background with the cursor blended in at a position.
-/
def overlay (background : Nat × Nat → BitVec 32) (pos p : Nat × Nat) : BitVec 32 :=
  if p ∈ cursorRect pos then
    blendColor (cursorColor (p.2 - pos.2) (p.1 - pos.1)) (background p)
  else
    background p

def OnScreen (s : GuishellState δ) (p : Nat × Nat) : Prop := p.1 < s.width ∧ p.2 < s.height

/--
The memory is as large as the screen and the cursor.
-/
structure Valid (s : GuishellState δ) : Prop where
  framebuffer : s.framebuffer.size = s.width * s.height
  saved : s.prevCursorAreaData.size = cursorWidth * cursorHeight

/--
The cursor is at a position, and the background below it is saved.
-/
structure Shows (background : Nat × Nat → BitVec 32) (pos : Nat × Nat) (s : GuishellState δ) : Prop where
  valid : s.Valid
  drawn : s.hasDrawnBefore = true
  prevXpos : s.prevXpos = pos.1
  prevYpos : s.prevYpos = pos.2
  pixel : ∀ p, s.OnScreen p → s.pixel p = overlay background pos p
  saved : ∀ p ∈ cursorRect pos, s.OnScreen p →
    s.prevCursorAreaData.data ((p.2 - pos.2) * cursorWidth + (p.1 - pos.1)) = background p

variable {fbif : FbInterface δ} {Ready : δ → Prop} {s t : GuishellState δ} {background : Nat × Nat → BitVec 32}
  {pos p : Nat × Nat} {x y : Nat}

/--
The device and the size of the screen after a call.
-/
structure Follows (Ready : δ → Prop) (s t : GuishellState δ) : Prop where
  ready : Ready t.device
  width : t.width = s.width
  height : t.height = s.height

end GuishellState

namespace VgaData

variable {data t : VgaData} {status : Status} {x0 y0 x1 y1 : Nat}

/--
The frame buffer and the flags that decide about the status are left as they are.
-/
structure Keeps (data t : VgaData) : Prop where
  frameBuffer : t.frameBuffer = data.frameBuffer
  isSwitchingMode : t.isSwitchingMode = data.isSwitchingMode
  vbeAvailable : t.vbeAvailable = data.vbeAvailable

theorem Keeps.refl (data : VgaData) : Keeps data data := ⟨rfl, rfl, rfl⟩

theorem Keeps.trans {u : VgaData} (h : Keeps data t) (h' : Keeps t u) : Keeps data u :=
  ⟨h'.frameBuffer.trans h.frameBuffer, h'.isSwitchingMode.trans h.isSwitchingMode, h'.vbeAvailable.trans h.vbeAvailable⟩

/--
A loop keeps what each of its rounds keeps.
-/
theorem keeps_forRange {body : VgaData → Nat → Run VgaData} {n i : Nat}
    (hbody : ∀ u j u', body u j = .ok u' → Keeps u u') (h : forRange body n i data = .ok t)
    : Keeps data t := by
  refine forRange_invariant (fun _ u => Keeps data u) ?_ h (Keeps.refl data)
  intro j u u' _ _ hu hround
  exact hu.trans (hbody u j u' hround)

theorem keeps_setRegionDiff {xr yr : Nat} (h : data.setRegionDiff xr yr = .ok t) : Keeps data t := by
  unfold setRegionDiff at h
  rw [bind_eq_ok] at h
  obtain ⟨diffBuffer, -, h⟩ := h
  cases h
  exact ⟨rfl, rfl, rfl⟩

theorem fbInvalidate_success (hidle : data.isSwitchingMode = false) (havailable : data.vbeAvailable = true)
    (h : data.fbInvalidate x0 y0 x1 y1 = .ok (status, t))
    : status = .success ∧ Keeps data t := by
  unfold fbInvalidate at h
  rw [hidle, havailable] at h
  simp only [Bool.false_eq_true, if_false, Bool.not_true] at h
  rw [bind_eq_ok] at h
  obtain ⟨u, hu, h⟩ := h
  cases h
  refine ⟨rfl, keeps_forRange ?_ hu⟩
  intro u yr u' hrow
  exact keeps_forRange (fun u xr u' => keeps_setRegionDiff) hrow

theorem keeps_resetRegionDiff {xr yr : Nat} (h : data.resetRegionDiff xr yr = .ok t) : Keeps data t := by
  unfold resetRegionDiff at h
  rw [bind_eq_ok] at h
  obtain ⟨diffBuffer, -, h⟩ := h
  cases h
  exact ⟨rfl, rfl, rfl⟩

theorem keeps_copyRow {xr chunkSize y : Nat} (h : data.copyRow xr chunkSize y = .ok t) : Keeps data t := by
  unfold copyRow at h
  dsimp only at h
  rw [bind_eq_ok] at h
  obtain ⟨orig, -, h⟩ := h
  cases h
  exact ⟨rfl, rfl, rfl⟩

theorem keeps_flushChunk {xr yr chunkSize : Nat} (h : data.flushChunk xr yr chunkSize = .ok t) : Keeps data t := by
  unfold flushChunk at h
  rw [bind_eq_ok] at h
  obtain ⟨u, hreset, hcopy⟩ := h
  have hu : Keeps data u := keeps_forRange (fun u i u' => keeps_resetRegionDiff) hreset
  exact hu.trans (keeps_forRange (fun u y u' => keeps_copyRow) hcopy)

theorem keeps_flushRegions {yr n xr : Nat} (h : flushRegions yr n xr data = .ok t) : Keeps data t := by
  induction n generalizing xr data with
  | zero => contradiction
  | succ n ih =>
    unfold flushRegions at h
    split at h
    . rw [bind_eq_ok] at h
      obtain ⟨chunkSize, -, h⟩ := h
      split at h
      . exact ih h
      . rw [bind_eq_ok] at h
        obtain ⟨u, hchunk, h⟩ := h
        exact (keeps_flushChunk hchunk).trans (ih h)
    . cases h
      exact Keeps.refl _

theorem fbFlush_success (hidle : data.isSwitchingMode = false) (havailable : data.vbeAvailable = true)
    (h : data.fbFlush = .ok (status, t))
    : status = .success ∧ Keeps data t := by
  unfold fbFlush at h
  rw [hidle, havailable] at h
  simp only [Bool.false_eq_true, if_false, Bool.not_true] at h
  rw [bind_eq_ok] at h
  obtain ⟨u, hu, h⟩ := h
  cases h
  exact ⟨rfl, keeps_forRange (fun u yr u' => keeps_flushRegions) hu⟩

end VgaData

end Emos.Boot
