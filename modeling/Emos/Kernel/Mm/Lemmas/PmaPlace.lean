import Emos.Kernel.Mm.Lemmas.PmaInit

/-!
This module contains where the allocator places its own bitmap: the gaps in front of the unavailable
frames, in the order of the list, are filled one after the other until the bitmap is placed.
-/

open Lib

namespace Emos

/--
`length` frames from `first` on, counted as `pfn_t` counts.
-/
structure PmaGap where
  first : Nat
  length : Nat
  deriving DecidableEq, Repr

namespace PmaGap

def pfn (g : PmaGap) (k : Nat) : Nat := u32 (g.first + k)

def Has (g : PmaGap) (pfn : Nat) : Prop := ∃ k < g.length, g.pfn k = pfn

/--
The gap in front of an unavailable frame. Every `pfn_t` lies in front of a frame that `pfn_t` does not
hold.
-/
def before (basePfn bound : Nat) : PmaGap :=
  ⟨basePfn, if bound < 2 ^ 32 then bound - basePfn else 2 ^ 32⟩

/--
The gaps of a region: each begins behind the unavailable frame that ends the one before it, and ends
with the next frame of the list that is not in front of it.
-/
def ofRegion (limitPfn : Nat) : Nat → List UnavailableFrame → List PmaGap
  | _, [] => []
  | basePfn, e :: ufent =>
    if e.pfn.toNat < basePfn then
      ofRegion limitPfn basePfn ufent
    else if limitPfn < basePfn then
      []
    else
      before basePfn e.pfn.toNat :: ofRegion limitPfn (u32 (e.pfn.toNat + 1)) ufent

/--
The first `n` frames of the gaps.
-/
def cut : Nat → List PmaGap → List PmaGap
  | _, [] => []
  | n, g :: gs => ⟨g.first, min n g.length⟩ :: cut (n - g.length) gs

def total (gs : List PmaGap) : Nat := (gs.map length).sum

def expand (g : PmaGap) : List Nat := (List.range g.length).map g.pfn

def frames (gs : List PmaGap) : List Nat := gs.flatMap expand

@[simp]
theorem length_expand (g : PmaGap) : g.expand.length = g.length := by
  simp [expand]

@[simp]
theorem frames_nil : frames [] = [] := rfl

@[simp]
theorem frames_cons (g : PmaGap) (gs : List PmaGap) : frames (g :: gs) = g.expand ++ frames gs := rfl

@[simp]
theorem total_cons (g : PmaGap) (gs : List PmaGap) : total (g :: gs) = g.length + total gs := rfl

theorem length_frames_cut (n : Nat) (gs : List PmaGap)
    : (frames (cut n gs)).length = min n (total gs) := by
  induction gs generalizing n with
  | nil => simp [cut, total]
  | cons g gs ih =>
    simp only [cut, frames_cons, List.length_append, length_expand, ih, total_cons]
    lia

theorem frames_cut_zero (gs : List PmaGap) : frames (cut 0 gs) = [] := by
  apply List.eq_nil_of_length_eq_zero
  rw [length_frames_cut, Nat.zero_min]

end PmaGap

open PmaGap

namespace pmaAllocateBitmapFrame

theorem fill_eq {pages bound n pfn : Nat} {list : List Nat} (hpfn : pfn < 2 ^ 32)
    (hlist : list.length < min pages bitmapPfnListSize)
    (hn : min pages bitmapPfnListSize ≤ list.length + n)
    : fill pages bound n pfn list
        =
      list ++ expand ⟨pfn, min (min pages bitmapPfnListSize - list.length) (before pfn bound).length⟩ := by
  induction n generalizing pfn list with
  | zero => omega
  | succ n ih =>
    have hfirst : u32 pfn = pfn := u32_of_lt hpfn
    have hsize : bitmapPfnListSize = 64 := rfl
    unfold fill
    by_cases hbound : pfn < bound
    . have hlength : (list ++ [pfn]).length = list.length + 1 := by simp
      have hbefore : 0 < (before pfn bound).length := by
        unfold before
        dsimp only
        split <;> lia
      rw [if_pos hbound]
      dsimp only
      by_cases hfull : min pages bitmapPfnListSize ≤ list.length + 1
      . have hone : min (min pages bitmapPfnListSize - list.length) (before pfn bound).length = 1 := by
          lia
        have hlast : expand ⟨pfn, 1⟩ = [pfn] := by simp [expand, PmaGap.pfn, hfirst]
        rw [hone, hlast]
        split
        . rfl
        . rw [if_pos (by lia)]
      . have hnext : min (min pages bitmapPfnListSize - list.length) (before pfn bound).length
            = min (min pages bitmapPfnListSize - (list.length + 1))
              (before (u32 (pfn + 1)) bound).length + 1 := by
          unfold before u32
          dsimp only
          split <;> lia
        have hexpand : ∀ k, expand ⟨pfn, k + 1⟩ = pfn :: expand ⟨u32 (pfn + 1), k⟩ := by
          intro k
          unfold expand PmaGap.pfn
          dsimp only
          rw [List.range_succ_eq_map, List.map_cons, Nat.add_zero, hfirst, List.map_map]
          congr 1
          apply List.map_congr_left
          intro j _
          unfold u32
          simp only [Function.comp_apply]
          lia
        rw [if_neg (by lia), if_neg (by lia), ih (u32_lt _) (by lia) (by lia), hlength, hnext,
          hexpand, List.append_assoc, List.singleton_append]
    . have hnone : (before pfn bound).length = 0 := by
        unfold before
        dsimp only
        rw [if_pos (by omega)]
        lia
      rw [if_neg hbound, hnone, Nat.min_zero]
      simp [expand]

theorem go_eq {pages limitPfn basePfn : Nat} {list : List Nat} {ufent : List UnavailableFrame}
    (hbase : basePfn < 2 ^ 32) (hlist : list.length ≤ min pages bitmapPfnListSize)
    : go pages limitPfn basePfn list ufent
        =
      list ++ frames (cut (min pages bitmapPfnListSize - list.length) (ofRegion limitPfn basePfn ufent)) := by
  induction ufent generalizing basePfn list with
  | nil => simp [go, ofRegion, cut]
  | cons e ufent ih =>
    unfold go ofRegion
    by_cases hskip : e.pfn.toNat < basePfn
    . rw [if_pos hskip, if_pos hskip]
      exact ih hbase hlist
    . rw [if_neg hskip, if_neg hskip]
      by_cases hlimit : limitPfn < basePfn
      . rw [if_pos hlimit, if_pos hlimit]
        simp [cut]
      . rw [if_neg hlimit, if_neg hlimit]
        by_cases hfull : list.length < min pages bitmapPfnListSize
        . have hfill := @fill_eq pages e.pfn.toNat bitmapPfnListSize _ list hbase hfull (by omega)
          have hlength := congrArg List.length hfill
          rw [List.length_append, length_expand] at hlength
          dsimp only at hlength
          rw [if_neg (by lia), if_neg (by lia), ih (u32_lt _) (by lia), cut, frames_cons,
            ← List.append_assoc, hlength, hfill, before]
          congr 3
          lia
        . have hzero : min pages bitmapPfnListSize - list.length = 0 := by omega
          rw [hzero, frames_cut_zero, List.append_nil]
          split
          . rfl
          . rw [if_pos (by lia)]

end pmaAllocateBitmapFrame

end Emos
