import Emos.Boot.Console.Impl.Csi
import Emos.Boot.Console.Lemmas.Bounds

/-!
This module contains which cells the control sequences that erase and scroll change.
-/

open Lib

namespace Emos

namespace Vconsole

variable {con : Vconsole}

theorem invalidate_charBuffer (con : Vconsole) (x0 y0 x1 y1 : Int)
    : ∃ con', con.invalidate x0 y0 x1 y1 = .ok con' ∧ con.SameScreen con' ∧ con'.charBuffer = con.charBuffer := by
  apply forTo_total (fun con' => con.SameScreen con' ∧ con'.charBuffer = con.charBuffer) _ ⟨SameScreen.refl con, rfl⟩
  intro row con1 _ _ h1
  apply forTo_total (fun con' => con.SameScreen con' ∧ con'.charBuffer = con.charBuffer) _ h1
  intro col con2 _ _ h2
  exact ⟨_, rfl, ⟨h2.1.cols, h2.1.rows, h2.1.cursorCol, h2.1.cursorRow⟩, h2.2⟩

end Vconsole

namespace Ansiterm

open Vconsole

def HasCell (t : Ansiterm) (x y : Int) : Prop := (0 ≤ x ∧ x < t.con.cols) ∧ 0 ≤ y ∧ y < t.con.rows

def cell (t : Ansiterm) (x y : Int) : CharCell := t.con.charBuffer (t.cellIndex x y)

/--
What erasing puts into a cell.
-/
def blank (t : Ansiterm) : CharCell := ⟨t.attrState, 0⟩

/--
The terminal is the same but for the cells, which are those of `f`.
-/
structure Shows (t t' : Ansiterm) (f : Int → Int → CharCell) : Prop where
  same : t.SameTerm t'
  cells : ∀ x y, t.HasCell x y → t'.cell x y = f x y

variable {t t1 : Ansiterm} {f g : Int → Int → CharCell}

theorem Shows.self (t : Ansiterm)
    : t.Shows t t.cell :=
  ⟨SameTerm.refl t, fun _ _ _ => rfl⟩

theorem Shows.congr (h : t.Shows t1 f) (hfg : ∀ x y, t.HasCell x y → f x y = g x y)
    : t.Shows t1 g := by
  constructor
  . exact h.same
  . intro x y hxy
    rw [h.cells x y hxy, hfg x y hxy]

theorem Shows.invalidate (h : t.Shows t1 f) (x0 y0 x1 y1 : Int)
    : ∃ con, t1.con.invalidate x0 y0 x1 y1 = .ok con ∧ t.Shows (t1.setCon con) f := by
  obtain ⟨con, hrun, hsame, hbuffer⟩ := invalidate_charBuffer t1.con x0 y0 x1 y1
  refine ⟨con, hrun, h.same.setCon hsame, ?_⟩
  intro x y hxy
  rw [← h.cells x y hxy, cell, cell, cellIndex, cellIndex, setCon]
  simp only [hsame.cols, hbuffer]

theorem cellIndex_inj {x y x' y' : Int} (h : t.HasCell x y) (h' : t.HasCell x' y')
    : t.cellIndex x y = t.cellIndex x' y' ↔ x = x' ∧ y = y' := by
  obtain ⟨⟨hx0, hx⟩, hy0, hy⟩ := h
  obtain ⟨⟨hx0', hx'⟩, hy0', hy'⟩ := h'
  unfold cellIndex
  constructor
  . intro heq
    have hrow : ∀ a b : Int, a < b → a * t.con.cols + t.con.cols ≤ b * t.con.cols := by
      intro a b hab
      have hle : (a + 1) * t.con.cols ≤ b * t.con.cols := Int.mul_le_mul_of_nonneg_right (by omega) (by omega)
      rw [Int.add_mul, Int.one_mul] at hle
      exact hle
    rcases Int.lt_trichotomy y y' with hlt | rfl | hgt
    . have := hrow y y' hlt
      omega
    . omega
    . have := hrow y' y hgt
      omega
  . rintro ⟨rfl, rfl⟩
    rfl

theorem SameTerm.hasCell (h : t.SameTerm t1) {x y : Int} (hxy : t.HasCell x y)
    : t1.HasCell x y := by
  unfold HasCell
  rw [h.con.cols, h.con.rows]
  exact hxy

theorem SameTerm.attrState (h : t.SameTerm t1)
    : t1.attrState = t.attrState := by
  rw [h.rest]
  rfl

theorem HasCell.inBuffer {x y : Int} (h : t.HasCell x y)
    : t.con.InBuffer (t.cellIndex x y) :=
  inBuffer_of_lt h.1.1 h.1.2 h.2.1 h.2.2

theorem Shows.writeCell (h : t.Shows t1 f) {x y : Int} (hxy : t.HasCell x y) (c : CharCell)
    : ∃ con, t1.con.writeCell (t1.cellIndex x y) c = .ok con
        ∧ t.Shows (t1.setCon con) (fun x' y' => if x' = x ∧ y' = y then c else f x' y') := by
  have hxy1 := h.same.hasCell hxy
  refine ⟨_, if_pos hxy1.inBuffer, h.same.setCon ⟨rfl, rfl, rfl, rfl⟩, ?_⟩
  intro x' y' hxy'
  have hcell : ∀ i, (t1.setCon { t1.con with charBuffer := Function.update t1.con.charBuffer i c }).cell x' y'
      = if t1.cellIndex x' y' = i then c else t1.cell x' y' := by
    intro i
    exact Function.update_apply ..
  rw [hcell, h.cells x' y' hxy']
  simp only [cellIndex_inj (h.same.hasCell hxy') hxy1]

abbrev InRect (x0 y0 x1 y1 x y : Int) : Prop := (x0 ≤ x ∧ x ≤ x1) ∧ y0 ≤ y ∧ y ≤ y1

/--
The rectangle may be empty.
-/
structure Fits (t : Ansiterm) (x0 y0 x1 y1 : Int) : Prop where
  x0_nonneg : 0 ≤ x0
  x0_le : x0 ≤ x1 + 1
  x1_lt : x1 < t.con.cols
  y0_nonneg : 0 ≤ y0
  y0_le : y0 ≤ y1 + 1
  y1_lt : y1 < t.con.rows

/--
The body of the loop over a row of a rectangle.
-/
def eraseCell (y : Int) (t : Ansiterm) (x : Int) : Run Ansiterm := do
  let con ← t.con.writeCell (t.cellIndex x y) ⟨t.attrState, 0⟩
  .ok (t.setCon con)

theorem Shows.eraseRow (h : t.Shows t1 f) {x0 y0 x1 y1 y : Int} (hfits : t.Fits x0 y0 x1 y1) (hy0 : y0 ≤ y)
    (hy1 : y ≤ y1)
    : ∃ t2, forTo (eraseCell y) x0 x1 t1 = .ok t2
        ∧ t.Shows t2 (fun x' y' => if InRect x0 y x1 y x' y' then t.blank else f x' y') := by
  have hx0 := hfits.x0_nonneg
  have hx1 := hfits.x1_lt
  have hynonneg := hfits.y0_nonneg
  have hylt := hfits.y1_lt
  have hloop : ∃ t2, forTo (eraseCell y) x0 x1 t1 = .ok t2
      ∧ t.Shows t2 (fun x' y' => if InRect x0 y (x1 + 1 - 1) y x' y' then t.blank else f x' y') := by
    apply forTo_index (fun x t2 => t.Shows t2 (fun x' y' => if InRect x0 y (x - 1) y x' y' then t.blank else f x' y'))
      hfits.x0_le
    . intro x t2 hlo hhi h2
      obtain ⟨con, hwrite, hcon⟩ := h2.writeCell (x := x) (y := y) ⟨by omega, by omega⟩ ⟨t2.attrState, 0⟩
      refine ⟨t2.setCon con, ?_, ?_⟩
      . rw [eraseCell, hwrite]
        rfl
      . apply hcon.congr
        intro x' y' _
        rw [h2.same.attrState]
        unfold InRect
        by_cases hnew : x' = x ∧ y' = y
        . rw [if_pos hnew, if_pos (by lia)]
          rfl
        . rw [if_neg hnew]
          split
          . rw [if_pos (by lia)]
          . rw [if_neg (by lia)]
    . apply h.congr
      intro x' y' _
      rw [if_neg]
      unfold InRect
      omega
  rw [Int.add_sub_cancel] at hloop
  exact hloop

theorem Shows.consoleErase (h : t.Shows t1 f) {x0 y0 x1 y1 : Int} (hfits : t.Fits x0 y0 x1 y1)
    : ∃ t2, t1.consoleErase x0 y0 x1 y1 = .ok t2
        ∧ t.Shows t2 (fun x y => if InRect x0 y0 x1 y1 x y then t.blank else f x y) := by
  have hloop : ∃ t2, forTo (fun t y => forTo (eraseCell y) x0 x1 t) y0 y1 t1 = .ok t2
      ∧ t.Shows t2 (fun x' y' => if InRect x0 y0 x1 (y1 + 1 - 1) x' y' then t.blank else f x' y') := by
    apply forTo_index (fun y t2 => t.Shows t2 (fun x' y' => if InRect x0 y0 x1 (y - 1) x' y' then t.blank else f x' y'))
      hfits.y0_le
    . intro y t2 hlo hhi h2
      obtain ⟨t3, hrow, h3⟩ := h2.eraseRow hfits hlo hhi
      refine ⟨t3, hrow, ?_⟩
      apply h3.congr
      intro x' y' _
      unfold InRect
      by_cases hnew : (x0 ≤ x' ∧ x' ≤ x1) ∧ y ≤ y' ∧ y' ≤ y
      . rw [if_pos hnew, if_pos (by lia)]
      . rw [if_neg hnew]
        split
        . rw [if_pos (by lia)]
        . rw [if_neg (by lia)]
    . apply h.congr
      intro x' y' _
      rw [if_neg]
      unfold InRect
      omega
  rw [Int.add_sub_cancel] at hloop
  obtain ⟨t2, hrun, h2⟩ := hloop
  obtain ⟨con, hinvalidate, hcon⟩ := h2.invalidate x0 y0 x1 y1
  refine ⟨t2.setCon con, ?_, hcon⟩
  have herase : t1.consoleErase x0 y0 x1 y1 = (do
      let t ← forTo (fun t y => forTo (eraseCell y) x0 x1 t) y0 y1 t1
      let con ← t.con.invalidate x0 y0 x1 y1
      .ok (t.setCon con)) := rfl
  rw [herase, hrun, ok_bind, hinvalidate]
  rfl

/--
The body of the loop that copies a row.
-/
def copyCell (dst src : Int) (t : Ansiterm) (x : Int) : Run Ansiterm := do
  let cell ← t.con.readCell (t.cellIndex x src)
  let con ← t.con.writeCell (t.cellIndex x dst) cell
  .ok (t.setCon con)

theorem Shows.copyRow (h : t.Shows t1 f) (dst src : Int) (hdst : 0 ≤ dst ∧ dst < t.con.rows)
    (hsrc : 0 ≤ src ∧ src < t.con.rows) (hcols : 0 ≤ t.con.cols)
    : ∃ t2, t1.copyRow 0 (t.con.cols - 1) dst src = .ok t2
        ∧ t.Shows t2 (fun x y => if y = dst then f x src else f x y) := by
  have hloop : ∃ t2, forTo (copyCell dst src) 0 (t.con.cols - 1) t1 = .ok t2
      ∧ t.Shows t2 (fun x' y' => if y' = dst ∧ x' < t.con.cols - 1 + 1 then f x' src else f x' y') := by
    apply forTo_index (fun x t2 => t.Shows t2 (fun x' y' => if y' = dst ∧ x' < x then f x' src else f x' y')) (by omega)
    . intro x t2 hlo hhi h2
      have hon : t.HasCell x src := ⟨by omega, hsrc⟩
      have hcell := h2.cells x src hon
      have hold : (if src = dst ∧ x < x then f x src else f x src) = f x src := by
        split
        . rfl
        . rfl
      rw [hold] at hcell
      obtain ⟨con, hwrite, hcon⟩ := h2.writeCell (x := x) (y := dst) ⟨by omega, hdst⟩ (f x src)
      refine ⟨t2.setCon con, ?_, ?_⟩
      . rw [copyCell, readCell_total (h2.same.hasCell hon).inBuffer, ok_bind]
        change t2.con.writeCell (t2.cellIndex x dst) (t2.cell x src) >>= _ = _
        rw [hcell, hwrite]
        rfl
      . apply hcon.congr
        intro x' y' _
        by_cases hnew : x' = x ∧ y' = dst
        . rw [if_pos hnew, if_pos (by omega), hnew.1]
        . rw [if_neg hnew]
          split
          . rw [if_pos (by omega)]
          . rw [if_neg (by lia)]
    . apply h.congr
      intro x' y' hxy
      have := hxy.1.1
      rw [if_neg (by omega)]
  obtain ⟨t2, hrun, h2⟩ := hloop
  refine ⟨t2, hrun, ?_⟩
  apply h2.congr
  intro x' y' hxy
  have := hxy.1.2
  by_cases hy : y' = dst
  . rw [if_pos (by omega), if_pos hy]
  . rw [if_neg (by omega), if_neg hy]

theorem Shows.scrollUp (h : t.Shows t1 f) {n : Int} (hn : 0 < n) (hle : n ≤ t.con.rows) (hcols : 0 ≤ t.con.cols)
    : ∃ t2, t1.scrollUp n 0 0 (t.con.cols - 1) (t.con.rows - 1) = .ok t2
        ∧ t.Shows t2 (fun x y => if y < t.con.rows - n then f x (y + n) else t.blank) := by
  have hloop : ∃ t2, forTo (fun (t2 : Ansiterm) y => t2.copyRow 0 (t.con.cols - 1) y (y + n)) 0
        (t.con.rows - 1 - n) t1 = .ok t2
      ∧ t.Shows t2 (fun x y => if y < t.con.rows - 1 - n + 1 then f x (y + n) else f x y) := by
    apply forTo_index (fun y t2 => t.Shows t2 (fun x' y' => if y' < y then f x' (y' + n) else f x' y')) (by omega)
    . intro y t2 hlo hhi h2
      obtain ⟨t3, hcopy, h3⟩ := h2.copyRow y (y + n) (by omega) (by omega) hcols
      refine ⟨t3, hcopy, ?_⟩
      apply h3.congr
      intro x' y' _
      by_cases hy : y' = y
      . rw [if_pos hy, if_neg (by omega), if_pos (by omega), hy]
      . rw [if_neg hy]
        split
        . rw [if_pos (by omega)]
        . rw [if_neg (by omega)]
    . apply h.congr
      intro x' y' hxy
      have := hxy.2.1
      rw [if_neg (by omega)]
  obtain ⟨t2, hmove, h2⟩ := hloop
  have hfits : t.Fits 0 (t.con.rows - 1 - n + 1) (t.con.cols - 1) (t.con.rows - 1) := by
    constructor <;> omega
  obtain ⟨t3, herase, h3⟩ := h2.consoleErase hfits
  refine ⟨t3, ?_, ?_⟩
  . rw [Ansiterm.scrollUp, hmove]
    exact herase
  . apply h3.congr
    intro x' y' hxy
    obtain ⟨⟨_, _⟩, _, _⟩ := hxy
    unfold InRect
    by_cases hy : y' < t.con.rows - n
    . rw [if_neg (by omega), if_pos (by omega), if_pos hy]
    . rw [if_pos (by lia), if_neg hy]

theorem Shows.scrollDown (h : t.Shows t1 f) {n : Int} (hn : 0 < n) (hlt : n < t.con.rows) (hcols : 0 ≤ t.con.cols)
    : ∃ t2, t1.scrollDown n 0 0 (t.con.cols - 1) (t.con.rows - 1) = .ok t2
        ∧ t.Shows t2 (fun x y => if y ≤ n then t.blank else f x (y - n)) := by
  have hloop : ∃ t2, forDownTo (fun (t2 : Ansiterm) y => t2.copyRow 0 (t.con.cols - 1) (y + n) y)
        (t.con.rows - 1 - n) 0 t1 = .ok t2
      ∧ t.Shows t2 (fun x y => if 0 - 1 + n < y then f x (y - n) else f x y) := by
    apply forDownTo_index (fun y t2 => t.Shows t2 (fun x' y' => if y + n < y' then f x' (y' - n) else f x' y')) (by omega)
    . intro y t2 hlo hhi h2
      obtain ⟨t3, hcopy, h3⟩ := h2.copyRow (y + n) y (by omega) (by omega) hcols
      refine ⟨t3, hcopy, ?_⟩
      apply h3.congr
      intro x' y' _
      by_cases hy : y' = y + n
      . rw [if_pos hy, if_neg (by omega), if_pos (by omega), hy, Int.add_sub_cancel]
      . rw [if_neg hy]
        split
        . rw [if_pos (by omega)]
        . rw [if_neg (by omega)]
    . apply h.congr
      intro x' y' hxy
      have := hxy.2.2
      rw [if_neg (by omega)]
  obtain ⟨t2, hmove, h2⟩ := hloop
  have hfits : t.Fits 0 0 (t.con.cols - 1) (0 + n) := by
    constructor <;> omega
  obtain ⟨t3, herase, h3⟩ := h2.consoleErase hfits
  refine ⟨t3, ?_, ?_⟩
  . rw [Ansiterm.scrollDown, hmove]
    exact herase
  . apply h3.congr
    intro x' y' hxy
    obtain ⟨⟨_, _⟩, _, _⟩ := hxy
    unfold InRect
    by_cases hy : y' ≤ n
    . rw [if_pos (by omega), if_pos hy]
    . rw [if_neg (by omega), if_pos (by omega), if_neg hy]

theorem scrollScreen_up {n : Int} (hn : 0 < n) (hle : n ≤ t.con.rows) (hcols : 0 ≤ t.con.cols)
    : ∃ t1, t.scrollScreen n = .ok t1
        ∧ t.Shows t1 (fun x y => if y < t.con.rows - n then t.cell x (y + n) else t.blank) := by
  obtain ⟨t1, hscroll, h1⟩ := (Shows.self t).scrollUp hn hle hcols
  obtain ⟨con, hinvalidate, hcon⟩ := h1.invalidate 0 0 (t.con.cols - 1) (t.con.rows - 1)
  refine ⟨t1.setCon con, ?_, hcon⟩
  rw [scrollScreen, consoleScroll, if_neg (by omega), scrollRows, if_pos hn, hscroll, ok_bind, hinvalidate]
  rfl

theorem scrollScreen_down {n : Int} (hn : 0 < n) (hlt : n < t.con.rows) (hcols : 0 ≤ t.con.cols)
    : ∃ t1, t.scrollScreen (-n) = .ok t1
        ∧ t.Shows t1 (fun x y => if y ≤ n then t.blank else t.cell x (y - n)) := by
  obtain ⟨t1, hscroll, h1⟩ := (Shows.self t).scrollDown hn hlt hcols
  obtain ⟨con, hinvalidate, hcon⟩ := h1.invalidate 0 0 (t.con.cols - 1) (t.con.rows - 1)
  refine ⟨t1.setCon con, ?_, hcon⟩
  rw [scrollScreen, consoleScroll, if_neg (by omega), scrollRows, if_neg (by omega), Int.neg_neg, hscroll, ok_bind,
    hinvalidate]
  rfl

/--
Erasing the row below the last one leaves the buffer.
-/
theorem eraseRow_outside (hsame : t.SameTerm t1) (hcols : 0 < t.con.cols) {t2 : Ansiterm}
    : forTo (eraseCell t.con.rows) 0 (t.con.cols - 1) t1 ≠ .ok t2 := by
  intro hrun
  have hpast : ∀ x, 0 ≤ x → ¬ t1.con.InBuffer (t1.cellIndex x t.con.rows) := by
    intro x hx
    unfold InBuffer cellIndex
    rw [hsame.con.cols, hsame.con.rows, Int.mul_comm]
    omega
  have hend := forRange_invariant (fun j t3 => j = 0 ∧ t3 = t1)
    (by
      rintro j t3 t4 _ _ ⟨rfl, rfl⟩ hbody
      rw [eraseCell, bind_eq_ok] at hbody
      obtain ⟨con, hwrite, _⟩ := hbody
      rw [Vconsole.writeCell, if_neg (hpast _ (by omega))] at hwrite
      contradiction)
    hrun ⟨rfl, rfl⟩
  omega

/--
A row that can be erased is not the one behind the last one.
-/
theorem eraseRow_next (hcols : 0 < t.con.cols) {j : Nat} {t2 : Ansiterm} (hj : (j : Int) ≤ t.con.rows)
    (hsame : t.SameTerm t1) (hrun : forTo (eraseCell (0 + j)) 0 (t.con.cols - 1) t1 = .ok t2)
    : ((j + 1 : Nat) : Int) ≤ t.con.rows ∧ t.SameTerm t2 := by
  rw [Int.zero_add] at hrun
  by_cases hlast : (j : Int) = t.con.rows
  . rw [hlast] at hrun
    exact absurd hrun (eraseRow_outside hsame hcols)
  . have hshows : t.Shows t1 t1.cell := ⟨hsame, fun _ _ _ => rfl⟩
    have hfits : t.Fits 0 j (t.con.cols - 1) j := by
      constructor <;> omega
    obtain ⟨t3, hrow, h3⟩ := hshows.eraseRow hfits (Int.le_refl _) (Int.le_refl _)
    have heq : t2 = t3 := Except.ok.inj (hrun.symm.trans hrow)
    rw [heq]
    exact ⟨by omega, h3.same⟩

theorem scrollScreen_down_height {t2 : Ansiterm} (hrows : 0 < t.con.rows) (hcols : 0 < t.con.cols)
    : t.scrollScreen (-t.con.rows) ≠ .ok t2 := by
  intro hrun
  rw [scrollScreen, consoleScroll, if_neg (by omega), bind_eq_ok] at hrun
  obtain ⟨t3, hscroll, _⟩ := hrun
  rw [scrollRows, if_neg (by omega), Int.neg_neg, scrollDown, bind_eq_ok] at hscroll
  obtain ⟨t4, hmove, herase⟩ := hscroll
  rw [forDownTo, show (t.con.rows - 1 - t.con.rows + 1 - 0).toNat = 0 by omega, forRange, Except.ok.injEq] at hmove
  rw [← hmove, Ansiterm.consoleErase, bind_eq_ok] at herase
  obtain ⟨t5, hloop, _⟩ := herase
  have hend := forRange_invariant (fun (j : Nat) t6 => (j : Int) ≤ t.con.rows ∧ t.SameTerm t6)
    (fun j t6 t7 _ _ h hbody => eraseRow_next hcols h.1 h.2 hbody) hloop ⟨by omega, SameTerm.refl t⟩
  omega

end Ansiterm

/--
The control sequences that erase a part of the screen or scroll it by `n` rows.
-/
inductive ScreenCommand where
  | eraseBelow
  | eraseAbove
  | eraseLineRight
  | eraseLineLeft
  | eraseLine
  | scrollUp (n : Int)
  | scrollDown (n : Int)
  deriving DecidableEq, Repr

namespace ScreenCommand

open Ansiterm

def final : ScreenCommand → Char
  | eraseBelow | eraseAbove => 'J'
  | eraseLineRight | eraseLineLeft | eraseLine => 'K'
  | scrollUp _ => 'S'
  | scrollDown _ => 'T'

/--
The terminal has read the parameter of the command.
-/
def Given (t : Ansiterm) : ScreenCommand → Prop
  | eraseBelow | eraseLineRight => t.arg 0 0 = 0
  | eraseAbove | eraseLineLeft => t.arg 0 0 = 1
  | eraseLine => t.arg 0 0 = 2
  | scrollUp n | scrollDown n => t.arg 0 1 = n ∧ 1 ≤ n ∧ n ≤ t.con.rows

/--
The cells that the screen should have after the command.
-/
def expected (t : Ansiterm) : ScreenCommand → Int → Int → CharCell
  | eraseBelow, x, y =>
    if t.con.cursorRow < y ∨ (y = t.con.cursorRow ∧ t.con.cursorCol ≤ x) then t.blank else t.cell x y
  | eraseAbove, x, y =>
    if y < t.con.cursorRow ∨ (y = t.con.cursorRow ∧ x ≤ t.con.cursorCol) then t.blank else t.cell x y
  | eraseLineRight, x, y => if y = t.con.cursorRow ∧ t.con.cursorCol ≤ x then t.blank else t.cell x y
  | eraseLineLeft, x, y => if y = t.con.cursorRow ∧ x ≤ t.con.cursorCol then t.blank else t.cell x y
  | eraseLine, x, y => if y = t.con.cursorRow then t.blank else t.cell x y
  | scrollUp n, x, y => if y < t.con.rows - n then t.cell x (y + n) else t.blank
  | scrollDown n, x, y => if n ≤ y then t.cell x (y - n) else t.blank

def Performs (t : Ansiterm) (cmd : ScreenCommand) : Prop :=
  ∃ t', t.handleCsi cmd.final = .ok t' ∧ t.con.SameScreen t'.con
    ∧ ∀ x y, t.HasCell x y → t'.cell x y = cmd.expected t x y

/--
The cells that the terminal does not erase, or erases although they should be kept, are already as they should be.
-/
def HoldsWhen (t : Ansiterm) : ScreenCommand → Prop
  | eraseBelow => ∀ x y, t.HasCell x y → t.con.cursorRow < y → t.cell x y = t.blank
  | eraseAbove => 0 < t.con.cursorCol → ∀ x y, t.HasCell x y → y < t.con.cursorRow → t.cell x y = t.blank
  | scrollDown n => n < t.con.rows ∧ ∀ x, 0 ≤ x → x < t.con.cols → t.cell x 0 = t.blank
  | eraseLineRight | eraseLineLeft | eraseLine | scrollUp _ => True

variable {t t1 : Ansiterm} {cmd : ScreenCommand} {f : Int → Int → CharCell}

theorem performs_iff (hrun : t.handleCsi cmd.final = (.ok (t1.setState .default))) (h : t.Shows t1 f)
    : Performs t cmd ↔ ∀ x y, t.HasCell x y → f x y = cmd.expected t x y := by
  constructor
  . intro ⟨t', hrun', _, hcells⟩ x y hxy
    rw [hrun, Except.ok.injEq] at hrun'
    rw [← hcells x y hxy, ← hrun', ← h.cells x y hxy]
    rfl
  . intro hf
    refine ⟨_, hrun, h.same.con, ?_⟩
    intro x y hxy
    rw [← hf x y hxy, ← h.cells x y hxy]
    rfl

theorem handleCsi_ed
    : t.handleCsi 'J' = t.eraseInDisplay (t.arg 0 0) >>= fun t => .ok (t.setState .default) := rfl

theorem handleCsi_el
    : t.handleCsi 'K' = t.eraseInLine (t.arg 0 0) >>= fun t => .ok (t.setState .default) := rfl

theorem eraseInDisplay_below
    : t.eraseInDisplay 0 = (do
        let t1 ← t.consoleErase t.con.cursorCol t.con.cursorRow (t.con.cols - 1) t.con.cursorRow
        if t.con.cursorRow < t.con.rows - 1 then
          .ok t1
        else
          t1.consoleErase 0 (t.con.cursorRow + 1) (t.con.cols - 1) (t.con.rows - 1)) := rfl

theorem eraseInDisplay_above
    : t.eraseInDisplay 1 = (do
        let t1 ← t.consoleErase 0 t.con.cursorRow t.con.cursorCol t.con.cursorRow
        if t.con.cursorCol > 0 then
          .ok t1
        else
          t1.consoleErase 0 0 (t.con.cols - 1) (t.con.cursorRow - 1)) := rfl

/--
What both commands that erase a part of the screen do first.
-/
theorem erase_cursorRow (hcursor : t.HasCell t.con.cursorCol t.con.cursorRow) (x0 x1 : Int) (hx0 : 0 ≤ x0)
    (hle : x0 ≤ x1) (hx1 : x1 < t.con.cols)
    : ∃ t1, t.consoleErase x0 t.con.cursorRow x1 t.con.cursorRow = .ok t1
        ∧ t.Shows t1 (fun x y =>
            if InRect x0 t.con.cursorRow x1 t.con.cursorRow x y then t.blank else t.cell x y) := by
  obtain ⟨_, hy0, hy1⟩ := hcursor
  apply (Shows.self t).consoleErase
  constructor <;> omega

theorem eraseBelow_iff (hcursor : t.HasCell t.con.cursorCol t.con.cursorRow) (hgiven : Given t eraseBelow)
    : Performs t eraseBelow ↔ HoldsWhen t eraseBelow := by
  have hcursor' := hcursor
  obtain ⟨⟨hx0, hx1⟩, hy0, hy1⟩ := hcursor'
  obtain ⟨t1, hline, h1⟩ := erase_cursorRow hcursor t.con.cursorCol (t.con.cols - 1) hx0 (by omega) (by omega)
  by_cases hlast : t.con.cursorRow < t.con.rows - 1
  . have hrun : t.handleCsi 'J' = .ok (t1.setState .default) := by
      rw [handleCsi_ed, hgiven, eraseInDisplay_below, hline, ok_bind, if_pos hlast]
      rfl
    rw [performs_iff hrun h1]
    constructor
    . intro hf x y hxy hbelow
      have hcell := hf x y hxy
      rw [if_neg (by unfold InRect; omega), expected, if_pos (.inl hbelow)] at hcell
      exact hcell
    . intro hwhen x y hxy
      have hcols := hxy.1.2
      rw [expected]
      by_cases hbelow : t.con.cursorRow < y
      . rw [if_neg (by unfold InRect; omega), if_pos (.inl hbelow), hwhen x y hxy hbelow]
      . unfold InRect
        split
        . rw [if_pos (by lia)]
        . rw [if_neg (by lia)]
  . have hfits : t.Fits 0 (t.con.cursorRow + 1) (t.con.cols - 1) (t.con.rows - 1) := by
      constructor <;> omega
    obtain ⟨t2, hrest, h2⟩ := h1.consoleErase hfits
    have hrun : t.handleCsi 'J' = .ok (t2.setState .default) := by
      rw [handleCsi_ed, hgiven, eraseInDisplay_below, hline, ok_bind, if_neg hlast, hrest]
      rfl
    rw [performs_iff hrun h2]
    constructor
    . intro _ x y hxy hbelow
      have hrows := hxy.2.2
      omega
    . intro _ x y hxy
      obtain ⟨⟨_, hcols⟩, _, hrows⟩ := hxy
      rw [expected, if_neg (by unfold InRect; omega)]
      unfold InRect
      split
      . rw [if_pos (by lia)]
      . rw [if_neg (by lia)]

theorem eraseAbove_iff (hcursor : t.HasCell t.con.cursorCol t.con.cursorRow) (hgiven : Given t eraseAbove)
    : Performs t eraseAbove ↔ HoldsWhen t eraseAbove := by
  have hcursor' := hcursor
  obtain ⟨⟨hx0, hx1⟩, hy0, hy1⟩ := hcursor'
  obtain ⟨t1, hline, h1⟩ := erase_cursorRow hcursor 0 t.con.cursorCol (by omega) hx0 hx1
  by_cases hright : t.con.cursorCol > 0
  . have hrun : t.handleCsi 'J' = .ok (t1.setState .default) := by
      rw [handleCsi_ed, hgiven, eraseInDisplay_above, hline, ok_bind, if_pos hright]
      rfl
    rw [performs_iff hrun h1]
    constructor
    . intro hf _ x y hxy habove
      have hcell := hf x y hxy
      rw [if_neg (by unfold InRect; omega), expected, if_pos (.inl habove)] at hcell
      exact hcell
    . intro hwhen x y hxy
      have hcols := hxy.1.1
      rw [expected]
      by_cases habove : y < t.con.cursorRow
      . rw [if_neg (by unfold InRect; omega), if_pos (.inl habove), hwhen hright x y hxy habove]
      . unfold InRect
        split
        . rw [if_pos (by lia)]
        . rw [if_neg (by lia)]
  . have hfits : t.Fits 0 0 (t.con.cols - 1) (t.con.cursorRow - 1) := by
      constructor <;> omega
    obtain ⟨t2, hrest, h2⟩ := h1.consoleErase hfits
    have hrun : t.handleCsi 'J' = .ok (t2.setState .default) := by
      rw [handleCsi_ed, hgiven, eraseInDisplay_above, hline, ok_bind, if_neg hright, hrest]
      rfl
    rw [performs_iff hrun h2]
    constructor
    . intro _ hpos
      omega
    . intro _ x y hxy
      obtain ⟨⟨hcols0, hcols⟩, hrows0, _⟩ := hxy
      rw [expected]
      unfold InRect
      by_cases habove : y < t.con.cursorRow
      . rw [if_pos (by lia), if_pos (by lia)]
      . rw [if_neg (by omega)]
        split
        . rw [if_pos (by lia)]
        . rw [if_neg (by lia)]

/--
The three commands that erase a part of the line.
-/
theorem eraseLine_performs (hcursor : t.HasCell t.con.cursorCol t.con.cursorRow) (x0 x1 : Int) (hx0 : 0 ≤ x0)
    (hle : x0 ≤ x1) (hx1 : x1 < t.con.cols) (hfinal : cmd.final = 'K')
    (herase : t.eraseInLine (t.arg 0 0) = t.consoleErase x0 t.con.cursorRow x1 t.con.cursorRow)
    (hexpected : ∀ x y, t.HasCell x y
      → (if InRect x0 t.con.cursorRow x1 t.con.cursorRow x y then t.blank else t.cell x y) = cmd.expected t x y)
    : Performs t cmd := by
  obtain ⟨t1, hline, h1⟩ := erase_cursorRow hcursor x0 x1 hx0 hle hx1
  have hrun : t.handleCsi cmd.final = .ok (t1.setState .default) := by
    rw [hfinal, handleCsi_el, herase, hline]
    rfl
  rw [performs_iff hrun h1]
  exact hexpected

theorem scrollUp_performs {n : Int} (hgiven : Given t (scrollUp n)) (hcols : 0 ≤ t.con.cols)
    : Performs t (scrollUp n) := by
  obtain ⟨harg, hn, hle⟩ := hgiven
  obtain ⟨t1, hscroll, h1⟩ := scrollScreen_up (by omega) hle hcols
  have hrun : t.handleCsi 'S' = .ok (t1.setState .default) := by
    change t.handleSu = _
    rw [handleSu, harg, hscroll, ok_bind]
  exact (performs_iff hrun h1).mpr fun _ _ _ => rfl

theorem scrollDown_iff {n : Int} (hgiven : Given t (scrollDown n)) (hcols : 0 < t.con.cols)
    : Performs t (scrollDown n) ↔ HoldsWhen t (scrollDown n) := by
  obtain ⟨harg, hn, hle⟩ := hgiven
  have hhandle : t.handleCsi 'T' = t.scrollScreen (-n) >>= fun t => .ok (t.setState .default) := by
    change t.handleSd = _
    rw [handleSd, harg]
  by_cases hlt : n < t.con.rows
  . obtain ⟨t1, hscroll, h1⟩ := scrollScreen_down (by omega) hlt (by omega)
    have hrun : t.handleCsi 'T' = .ok (t1.setState .default) := by
      rw [hhandle, hscroll]
      rfl
    rw [performs_iff hrun h1]
    constructor
    . intro hf
      refine ⟨hlt, ?_⟩
      intro x hx0 hx1
      have hcell := hf x n ⟨⟨hx0, hx1⟩, by omega, hlt⟩
      rw [if_pos (Int.le_refl n), expected, if_pos (Int.le_refl n), Int.sub_self] at hcell
      exact hcell.symm
    . intro ⟨_, hrow⟩ x y hxy
      rw [expected]
      rcases Int.lt_trichotomy y n with hbelow | heq | habove
      . rw [if_pos (by omega), if_neg (by omega)]
      . rw [heq, if_pos (Int.le_refl n), if_pos (Int.le_refl n), Int.sub_self, hrow x hxy.1.1 hxy.1.2]
      . rw [if_neg (by omega), if_pos (by omega)]
  . constructor
    . intro ⟨t', hrun, _⟩
      have hlast : n = t.con.rows := by omega
      change t.handleCsi 'T' = _ at hrun
      rw [hhandle, hlast, bind_eq_ok] at hrun
      obtain ⟨t1, hscroll, _⟩ := hrun
      exact absurd hscroll (scrollScreen_down_height (by omega) hcols)
    . intro hwhen
      exact absurd hwhen.1 hlt

theorem screen_command_iff (hcursor : t.HasCell t.con.cursorCol t.con.cursorRow) (hgiven : Given t cmd)
    : Performs t cmd ↔ HoldsWhen t cmd := by
  have hcursor' := hcursor
  obtain ⟨⟨hx0, hx1⟩, _, _⟩ := hcursor'
  cases cmd with
  | eraseBelow => exact eraseBelow_iff hcursor hgiven
  | eraseAbove => exact eraseAbove_iff hcursor hgiven
  | eraseLineRight =>
    refine iff_of_true ?_ trivial
    apply eraseLine_performs hcursor t.con.cursorCol (t.con.cols - 1) hx0 (by omega) (by omega) rfl
    . rw [hgiven]
      rfl
    . intro x y hxy
      have := hxy.1.2
      rw [expected]
      unfold InRect
      split
      . rw [if_pos (by omega)]
      . rw [if_neg (by lia)]
  | eraseLineLeft =>
    refine iff_of_true ?_ trivial
    apply eraseLine_performs hcursor 0 t.con.cursorCol (by omega) hx0 hx1 rfl
    . rw [hgiven]
      rfl
    . intro x y hxy
      have := hxy.1.1
      rw [expected]
      unfold InRect
      split
      . rw [if_pos (by omega)]
      . rw [if_neg (by omega)]
  | eraseLine =>
    refine iff_of_true ?_ trivial
    apply eraseLine_performs hcursor 0 (t.con.cols - 1) (by omega) (by omega) (by omega) rfl
    . rw [hgiven]
      rfl
    . intro x y hxy
      obtain ⟨⟨_, _⟩, _, _⟩ := hxy
      rw [expected]
      unfold InRect
      split
      . rw [if_pos (by omega)]
      . rw [if_neg (by lia)]
  | scrollUp n => exact iff_of_true (scrollUp_performs hgiven (by omega)) trivial
  | scrollDown n => exact scrollDown_iff hgiven (by omega)

/--
A screen with two rows of one letter each, and the cursor in the first of them.
-/
def twoRows : Ansiterm where
  con := {
    cols := 1
    rows := 2
    cursorCol := 0
    cursorRow := 0
    cursorPrevCol := 0
    cursorPrevRow := 0
    cursorVisible := true
    charBuffer := fun _ => ⟨⟨0xFFFFFF, 0, false, false, false, false, false, false, 0, false⟩, 65⟩
    diffBuffer := fun _ => false }
  escapeSeqArgs := fun _ => 0
  escapeSeqArgCount := 0
  escapeSeqState := .csi
  escapeSeqNumberInput := false
  savedCursorX := 0
  savedCursorY := 0
  attrState := ⟨0xFFFFFF, 0, false, false, false, false, false, false, 0, false⟩
  utf8Fragment := []

theorem screen_command_iff_scrollUp : Performs twoRows (scrollUp 1) ↔ HoldsWhen twoRows (scrollUp 1) :=
  screen_command_iff ⟨by decide, by decide⟩ ⟨rfl, by decide, by decide⟩

/--
The letter in the row below the cursor stays.
-/
theorem erase_below_keeps_row : ¬ Performs twoRows eraseBelow := by
  have hiff : Performs twoRows eraseBelow ↔ HoldsWhen twoRows eraseBelow :=
    eraseBelow_iff ⟨by decide, by decide⟩ rfl
  rw [hiff]
  intro hwhen
  have hcell := hwhen 0 1 ⟨by decide, by decide⟩ (by decide)
  contradiction

end ScreenCommand

end Emos
