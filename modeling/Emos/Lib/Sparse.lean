import Mathlib.Data.List.GetD
import Mathlib.Order.Lattice

/-!
This module contains files that are written at positions that may be behind their ends. What is skipped is filled.
-/

namespace Lib

namespace Sparse

variable {α : Type} (fill : α)

/--
A write of nothing does not make the file longer.
-/
def writeAt (file : List α) (pos : Nat) : List α → List α
  | [] => file
  | a :: data =>
    (file ++ List.replicate (pos - file.length) fill).take pos ++ a :: data ++ file.drop (pos + (a :: data).length)

/--
The pieces are written one after the other.
-/
def writeAll (file : List α) (pieces : List (Nat × List α)) : List α :=
  pieces.foldl (fun file piece => writeAt fill file piece.1 piece.2) file

/--
The two pieces have no position in common.
-/
def Apart (v w : Nat × List α) : Prop := v.1 + v.2.length ≤ w.1 ∨ w.1 + w.2.length ≤ v.1

section WriteAt

variable (file : List α) (pos : Nat)

end WriteAt

section WriteAll

variable (file : List α) {pieces : List (Nat × List α)} {w : Nat × List α} {i : Nat}

theorem writeAll_cons (w : Nat × List α) (pieces : List (Nat × List α))
    : writeAll fill file (w :: pieces) = writeAll fill (writeAt fill file w.1 w.2) pieces :=
  rfl

end WriteAll

end Sparse

end Lib
