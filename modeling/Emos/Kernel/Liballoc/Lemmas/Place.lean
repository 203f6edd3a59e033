import Emos.Kernel.Liballoc.Impl.Liballoc
import Emos.Lib.Arena

/-!
This module contains where a new block is put into a major block: into the first gap that it fits into.
-/

open Lib

namespace Emos

namespace Liballoc

/--
What a block takes with its header.
-/
def Minor.len (min : Minor) : Nat := minorSize + min.size

/--
There is room for what was requested behind a pointer that is a multiple of 16.
-/
structure Minor.Valid (min : Minor) : Prop where
  room : min.reqSize + (alignment + alignInfo) ≤ min.size
  info_le : alignInfo ≤ min.info
  info_lt : min.info < alignment + alignInfo
  aligned : (min.addr + minorSize + min.info) % alignment = 0

/--
The blocks lie one behind the other in the pages of their major block, and its usage is what they take.
-/
structure Major.Valid (maj : Major) : Prop where
  size_eq : maj.size = maj.pages * pageSize
  addr_pos : 0 < maj.addr
  fits : maj.addr + maj.size < 2 ^ 32
  packed : Packed Minor.addr Minor.len (maj.addr + majorSize) (maj.addr + maj.size) maj.minors
  usage_eq : maj.usage = majorSize + occupied Minor.len maj.minors
  minors : ∀ min ∈ maj.minors, min.Valid

def Major.gaps (maj : Major) : List Nat :=
  Lib.gaps Minor.addr Minor.len (maj.addr + majorSize) (maj.addr + maj.size) maj.minors

/--
There is no gap for a block of `size` bytes.
-/
def Major.Full (maj : Major) (size : Nat) : Prop := ∀ g ∈ maj.gaps, g < size + minorSize

variable {maj : Major} {size reqSize lo : Nat} {min : Minor} {minors : List Minor}

theorem alignPtr_eq {ptr : Nat} (h : ptr + (alignment + alignInfo) ≤ 2 ^ 32)
    : ∃ info, alignPtr ptr = (ptr + info, info) ∧ alignInfo ≤ info ∧ info < alignment + alignInfo
        ∧ (ptr + info) % alignment = 0 := by
  unfold alignment alignInfo at h
  unfold alignPtr alignment alignInfo
  rw [u32_of_lt (by omega)]
  dsimp only
  split
  . refine ⟨16 - (ptr + 16) % 16 + 16, ?_, by lia, by lia, by lia⟩
    rw [u32_of_lt (by lia)]
    congr 1
    omega
  . refine ⟨16, ?_, by omega, by omega, by omega⟩
    congr 1
    omega

theorem Minor.pointer_eq (h : min.Valid) (hfits : min.addr + min.len < 2 ^ 32)
    : min.pointer = min.addr + minorSize + min.info := by
  have hroom := h.room
  have hinfo := h.info_lt
  unfold Minor.len at hfits
  exact u32_of_lt (by omega)

/--
A new block, with the pointer that is returned.
-/
theorem newMinor_eq (addr : Nat) (hroom : reqSize + (alignment + alignInfo) ≤ size)
    (hfits : addr + (minorSize + size) < 2 ^ 32)
    : ∃ new p, newMinor addr size reqSize = (new, p) ∧ new.addr = addr ∧ new.size = size ∧ new.reqSize = reqSize
        ∧ new.Valid ∧ new.pointer = p := by
  unfold newMinor
  rw [u32_of_lt (by omega)]
  have hend : addr + minorSize + (alignment + alignInfo) ≤ 2 ^ 32 := by omega
  obtain ⟨info, halign, hle, hlt, haligned⟩ := alignPtr_eq hend
  rw [halign]
  have hvalid : Minor.Valid ⟨addr, size, reqSize, info⟩ := ⟨hroom, hle, hlt, haligned⟩
  exact ⟨_, _, rfl, rfl, rfl, rfl, hvalid, Minor.pointer_eq hvalid hfits⟩

/--
The new block lies in the list of blocks, and the others are as before.
-/
structure Inserted (minors : List Minor) (size reqSize : Nat) (minors' : List Minor) (p : Nat) (new : Minor)
    (front back : List Minor) : Prop where
  old : minors = front ++ back
  now : minors' = front ++ new :: back
  size_eq : new.size = size
  reqSize_eq : new.reqSize = reqSize
  valid : new.Valid
  pointer : new.pointer = p

/--
The space between a block and what is behind it.
-/
theorem space_eq {top : Nat} (htop : top < 2 ^ 32) (hle : min.addr + (minorSize + min.size) ≤ top)
    : sub32 (sub32 (sub32 top min.addr) minorSize) min.size = top - (min.addr + (minorSize + min.size)) := by
  have hfirst : sub32 top min.addr = top - min.addr := sub32_of_le (by omega) htop
  have hsecond : sub32 (top - min.addr) minorSize = top - min.addr - minorSize := sub32_of_le (by lia) (by lia)
  rw [hfirst, hsecond, sub32_of_le (by omega) (by omega)]
  omega

theorem placeBehind_spec (hroom : reqSize + (alignment + alignInfo) ≤ size) (hsize : size + minorSize < 2 ^ 32)
    (hfits : maj.addr + maj.size < 2 ^ 32)
    (hpacked : Packed Minor.addr Minor.len lo (maj.addr + maj.size) (min :: minors))
    : match placeBehind maj size reqSize (min :: minors) with
      | some (minors', p) =>
        (∃ new front back, Inserted (min :: minors) size reqSize minors' p new front back)
          ∧ Packed Minor.addr Minor.len lo (maj.addr + maj.size) minors'
      | none =>
        ∀ g ∈ Lib.gaps Minor.addr Minor.len (min.addr + min.len) (maj.addr + maj.size) minors,
          g < size + minorSize := by
  have hneeded : needed size = size + minorSize := u32_of_lt hsize
  have hmin := hpacked.2.le
  unfold Minor.len at hmin
  induction minors generalizing min lo with
  | nil =>
    unfold placeBehind
    rw [u32_of_lt hfits, space_eq hfits hmin, hneeded]
    by_cases hge : maj.addr + maj.size - (min.addr + (minorSize + min.size)) ≥ size + minorSize
    . obtain ⟨new, p, hnew, haddr, hsize', hreq, hvalid, hp⟩ := newMinor_eq (min.addr + minorSize + min.size) hroom
        (by lia)
      rw [if_pos hge, u32_of_lt (by lia), hnew]
      refine ⟨⟨new, [min], [], rfl, rfl, hsize', hreq, hvalid, hp⟩, hpacked.1, ?_, ?_⟩
      . unfold Minor.len
        omega
      . change new.addr + new.len ≤ maj.addr + maj.size
        unfold Minor.len
        lia
    . rw [if_neg hge]
      intro g hg
      rw [Lib.gaps, List.mem_singleton] at hg
      unfold Minor.len at hg
      lia
  | cons next minors ih =>
    have hnext := hpacked.2.1
    have hlast := hpacked.2.2.le
    unfold Minor.len at hnext hlast
    unfold placeBehind
    rw [space_eq (by lia) hnext, hneeded]
    by_cases hge : next.addr - (min.addr + (minorSize + min.size)) ≥ size + minorSize
    . obtain ⟨new, p, hnew, haddr, hsize', hreq, hvalid, hp⟩ := newMinor_eq (min.addr + minorSize + min.size) hroom
        (by lia)
      rw [if_pos hge, u32_of_lt (by lia), hnew]
      refine ⟨⟨new, [min], next :: minors, rfl, rfl, hsize', hreq, hvalid, hp⟩, hpacked.1, ?_, ?_, hpacked.2.2⟩
      . unfold Minor.len
        omega
      . unfold Minor.len
        lia
    . rw [if_neg hge]
      have hrest := ih hpacked.2 hlast
      cases hplace : placeBehind maj size reqSize (next :: minors) with
      | none =>
        rw [hplace] at hrest
        intro g hg
        rw [Lib.gaps, List.mem_cons] at hg
        cases hg with
        | inl hg =>
          unfold Minor.len at hg
          lia
        | inr hg => exact hrest g hg
      | some r =>
        obtain ⟨minors', p⟩ := r
        rw [hplace] at hrest
        obtain ⟨⟨new, front, back, hins⟩, hpacked'⟩ := hrest
        refine ⟨⟨new, min :: front, back, ?_, ?_, hins.size_eq, hins.reqSize_eq, hins.valid, hins.pointer⟩, hpacked.1,
          hpacked'⟩
        . rw [hins.old, List.cons_append]
        . rw [hins.now, List.cons_append]

/--
A block of `size` bytes has been put into a major block.
-/
structure Placed (maj : Major) (size reqSize : Nat) (maj' : Major) (p : Nat) : Prop where
  addr_eq : maj'.addr = maj.addr
  pages_eq : maj'.pages = maj.pages
  size_eq : maj'.size = maj.size
  valid : maj'.Valid
  inserted : ∃ new front back, Inserted maj.minors size reqSize maj'.minors p new front back

theorem placeMinor_spec (h : maj.Valid) (hroom : reqSize + (alignment + alignInfo) ≤ size)
    (hsize : size + minorSize < 2 ^ 32) (hempty : maj.minors = [] → majorSize + (size + minorSize) ≤ maj.size)
    : match placeMinor maj size reqSize with
      | some (minors', p) =>
        (∃ new front back, Inserted maj.minors size reqSize minors' p new front back)
          ∧ Packed Minor.addr Minor.len (maj.addr + majorSize) (maj.addr + maj.size) minors'
      | none => maj.Full size := by
  have hfits := h.fits
  have hpacked := h.packed
  have htop := hpacked.le
  unfold placeMinor Major.Full Major.gaps
  cases hminors : maj.minors with
  | nil =>
    have hempty := hempty hminors
    obtain ⟨new, p, hnew, haddr, hsize', hreq, hvalid, hp⟩ := newMinor_eq (maj.addr + majorSize) hroom (by omega)
    dsimp only
    rw [u32_of_lt (by lia), hnew]
    refine ⟨⟨new, [], [], rfl, rfl, hsize', hreq, hvalid, hp⟩, Nat.le_of_eq haddr.symm, ?_⟩
    change new.addr + new.len ≤ maj.addr + maj.size
    unfold Minor.len
    lia
  | cons first minors =>
    rw [hminors] at hpacked
    have hfirst := hpacked.1
    have hlast := hpacked.2.le
    have hdiff : sub32 (sub32 first.addr maj.addr) majorSize = first.addr - (maj.addr + majorSize) := by
      have hinner : sub32 first.addr maj.addr = first.addr - maj.addr := sub32_of_le (by omega) (by omega)
      rw [hinner, sub32_of_le (by lia) (by lia)]
      omega
    have hneeded : needed size = size + minorSize := u32_of_lt hsize
    dsimp only
    rw [hdiff, hneeded]
    by_cases hge : first.addr - (maj.addr + majorSize) ≥ size + minorSize
    . obtain ⟨new, p, hnew, haddr, hsize', hreq, hvalid, hp⟩ := newMinor_eq (maj.addr + majorSize) hroom (by lia)
      rw [if_pos hge, u32_of_lt (by lia), hnew]
      refine ⟨⟨new, [], first :: minors, rfl, rfl, hsize', hreq, hvalid, hp⟩, Nat.le_of_eq haddr.symm, ?_, hpacked.2⟩
      change new.addr + new.len ≤ first.addr
      unfold Minor.len
      lia
    . rw [if_neg hge]
      have hbehind := placeBehind_spec hroom hsize hfits hpacked
      cases hplace : placeBehind maj size reqSize (first :: minors) with
      | some r =>
        rw [hplace] at hbehind
        exact hbehind
      | none =>
        rw [hplace] at hbehind
        intro g hg
        rw [Lib.gaps, List.mem_cons] at hg
        cases hg with
        | inl hg => lia
        | inr hg => exact hbehind g hg

theorem place_spec (h : maj.Valid) (hroom : reqSize + (alignment + alignInfo) ≤ size)
    (hsize : size + minorSize < 2 ^ 32) (hempty : maj.minors = [] → majorSize + (size + minorSize) ≤ maj.size)
    : match place maj size reqSize with
      | some (maj', p) => Placed maj size reqSize maj' p
      | none => maj.Full size := by
  have hminor := placeMinor_spec h hroom hsize hempty
  have hfits := h.fits
  unfold place
  cases hplace : placeMinor maj size reqSize with
  | none =>
    rw [hplace] at hminor
    exact hminor
  | some r =>
    obtain ⟨minors', p⟩ := r
    rw [hplace] at hminor
    obtain ⟨⟨new, front, back, hins⟩, hpacked⟩ := hminor
    have husage : maj.usage + (size + minorSize) = majorSize + occupied Minor.len minors' := by
      rw [h.usage_eq, hins.old, hins.now, occupied_insert]
      unfold Minor.len
      rw [hins.size_eq]
      lia
    have hle := hpacked.occupied_le
    have hneeded : needed size = size + minorSize := u32_of_lt hsize
    refine ⟨rfl, rfl, rfl, ⟨h.size_eq, h.addr_pos, h.fits, hpacked, ?_, ?_⟩, new, front, back, hins⟩
    . dsimp only
      rw [hneeded, husage, u32_of_lt (by omega)]
    . intro min hmin
      dsimp only at hmin
      rw [hins.now, List.mem_append, List.mem_cons] at hmin
      obtain hmin | rfl | hmin := hmin
      . exact h.minors min (hins.old ▸ List.mem_append_left back hmin)
      . exact hins.valid
      . exact h.minors min (hins.old ▸ List.mem_append_right front hmin)

/--
There is no gap in a block with less free memory than is needed.
-/
theorem Major.Valid.full (h : maj.Valid) (hlt : maj.size - maj.usage < size + minorSize) : maj.Full size := by
  intro g hg
  have hsum := h.packed.gaps_sum
  have hle := le_of_mem_gaps hg
  have husage := h.usage_eq
  lia

end Liballoc

end Emos
