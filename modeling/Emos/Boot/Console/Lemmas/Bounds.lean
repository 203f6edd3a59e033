import Emos.Boot.Console.Impl.Write
import Emos.Lib.Trace

/-!
This module contains when the cursor of the terminal stays on the screen and its functions stay inside of
their arrays.
-/

open Lib

namespace Emos

namespace Vconsole

structure SameScreen (con con' : Vconsole) : Prop where
  cols : con'.cols = con.cols
  rows : con'.rows = con.rows
  cursorCol : con'.cursorCol = con.cursorCol
  cursorRow : con'.cursorRow = con.cursorRow

variable {con con' con'' : Vconsole}

theorem SameScreen.refl (con : Vconsole) : con.SameScreen con := ⟨rfl, rfl, rfl, rfl⟩

theorem SameScreen.trans (h1 : con.SameScreen con') (h2 : con'.SameScreen con'')
    : con.SameScreen con'' :=
  ⟨h2.cols.trans h1.cols, h2.rows.trans h1.rows, h2.cursorCol.trans h1.cursorCol,
    h2.cursorRow.trans h1.cursorRow⟩

theorem SameScreen.inBuffer {i : Int} (h : con.SameScreen con') (hi : con.InBuffer i)
    : con'.InBuffer i := by
  unfold InBuffer
  rw [h.cols, h.rows]
  exact hi

theorem inBuffer_of_lt {x y : Int} (hx0 : 0 ≤ x) (hx : x < con.cols) (hy0 : 0 ≤ y) (hy : y < con.rows)
    : con.InBuffer (y * con.cols + x) := by
  have hlow : 0 ≤ y * con.cols := Int.mul_nonneg hy0 (by omega)
  have hrow : (y + 1) * con.cols ≤ con.rows * con.cols :=
    Int.mul_le_mul_of_nonneg_right (by omega) (by omega)
  have hnext : (y + 1) * con.cols = y * con.cols + con.cols := by
    rw [Int.add_mul, Int.one_mul]
  have hsize : con.rows * con.cols = con.cols * con.rows := Int.mul_comm ..
  exact ⟨by omega, by omega⟩

theorem readCell_total {i : Int} (hi : con.InBuffer i) : con.readCell i = .ok (con.charBuffer i) :=
  if_pos hi

theorem writeCell_total {i : Int} (cell : CharCell) (hi : con.InBuffer i)
    : ∃ con', con.writeCell i cell = .ok con' ∧ con.SameScreen con' :=
  ⟨_, if_pos hi, rfl, rfl, rfl, rfl⟩

theorem invalidate_total (con : Vconsole) (x0 y0 x1 y1 : Int)
    : ∃ con', con.invalidate x0 y0 x1 y1 = .ok con' ∧ con.SameScreen con' := by
  apply forTo_total con.SameScreen _ (SameScreen.refl con)
  intro row con1 _ _ h1
  apply forTo_total con.SameScreen _ h1
  intro col con2 _ _ h2
  exact ⟨_, rfl, h2.cols, h2.rows, h2.cursorCol, h2.cursorRow⟩

end Vconsole

namespace Ansiterm

open Vconsole

structure SameTerm (t t' : Ansiterm) : Prop where
  con : t.con.SameScreen t'.con
  rest : t' = t.setCon t'.con

variable {t t' t'' : Ansiterm}

theorem SameTerm.refl (t : Ansiterm) : t.SameTerm t := ⟨SameScreen.refl _, rfl⟩

theorem SameTerm.trans (h1 : t.SameTerm t') (h2 : t'.SameTerm t'') : t.SameTerm t'' := by
  refine ⟨h1.con.trans h2.con, ?_⟩
  rw [h2.rest, h1.rest]
  rfl

theorem SameTerm.setCon {con : Vconsole} (h : t.SameTerm t') (hcon : t'.con.SameScreen con)
    : t.SameTerm (t'.setCon con) := by
  refine ⟨h.con.trans hcon, ?_⟩
  rw [h.rest]
  rfl

theorem consoleErase_total {x0 y0 x1 y1 : Int}
    (hin : ∀ x y, x0 ≤ x → x ≤ x1 → y0 ≤ y → y ≤ y1 → t.con.InBuffer (t.cellIndex x y))
    : ∃ t', t.consoleErase x0 y0 x1 y1 = .ok t' ∧ t.SameTerm t' := by
  have hloop : ∃ t', forTo (fun t y =>
      forTo (fun (t : Ansiterm) x => do
        let con ← t.con.writeCell (t.cellIndex x y) ⟨t.attrState, 0⟩
        .ok (t.setCon con))
        x0 x1 t)
      y0 y1 t = .ok t' ∧ t.SameTerm t' := by
    apply forTo_total t.SameTerm _ (SameTerm.refl t)
    intro y t1 hy0 hy1 h1
    apply forTo_total t.SameTerm _ h1
    intro x t2 hx0 hx1 h2
    have hcell : t2.con.InBuffer (t2.cellIndex x y) := by
      unfold cellIndex
      rw [h2.con.cols]
      exact h2.con.inBuffer (hin x y hx0 hx1 hy0 hy1)
    obtain ⟨con, hwrite, hsame⟩ := writeCell_total ⟨t2.attrState, 0⟩ hcell
    refine ⟨t2.setCon con, ?_, h2.setCon hsame⟩
    rw [bind_eq_ok]
    exact ⟨con, hwrite, rfl⟩
  obtain ⟨t1, hrun, h1⟩ := hloop
  obtain ⟨con, hinvalidate, hsame⟩ := invalidate_total t1.con x0 y0 x1 y1
  refine ⟨t1.setCon con, ?_, h1.setCon hsame⟩
  rw [consoleErase, bind_eq_ok]
  refine ⟨t1, hrun, ?_⟩
  rw [bind_eq_ok]
  exact ⟨con, hinvalidate, rfl⟩

theorem inBuffer_of_rect {x0 y0 x1 y1 : Int} (hx0 : 0 ≤ x0) (hx1 : x1 < t.con.cols) (hy0 : 0 ≤ y0)
    (hy1 : y1 < t.con.rows) (x y : Int) (h1 : x0 ≤ x) (h2 : x ≤ x1) (h3 : y0 ≤ y) (h4 : y ≤ y1)
    : t.con.InBuffer (t.cellIndex x y) :=
  inBuffer_of_lt (by omega) (by omega) (by omega) (by omega)

theorem copyRow_total {dst src : Int} (hdst0 : 0 ≤ dst) (hdst : dst < t.con.rows) (hsrc0 : 0 ≤ src)
    (hsrc : src < t.con.rows)
    : ∃ t', t.copyRow 0 (t.con.cols - 1) dst src = .ok t' ∧ t.SameTerm t' := by
  apply forTo_total t.SameTerm _ (SameTerm.refl t)
  intro x t1 hx0 hx1 h1
  have hcell : ∀ y, 0 ≤ y → y < t.con.rows → t1.con.InBuffer (t1.cellIndex x y) := by
    intro y hy0 hy
    apply inBuffer_of_lt hx0 _ hy0
    . rw [h1.con.rows]
      exact hy
    . rw [h1.con.cols]
      omega
  obtain ⟨con, hwrite, hsame⟩ := writeCell_total (t1.con.charBuffer (t1.cellIndex x src))
    (hcell dst hdst0 hdst)
  refine ⟨t1.setCon con, ?_, h1.setCon hsame⟩
  rw [bind_eq_ok]
  refine ⟨_, readCell_total (hcell src hsrc0 hsrc), ?_⟩
  rw [bind_eq_ok]
  exact ⟨con, hwrite, rfl⟩

theorem SameTerm.copyRow {dst src : Int} (h : t.SameTerm t') (hdst0 : 0 ≤ dst)
    (hdst : dst < t.con.rows) (hsrc0 : 0 ≤ src) (hsrc : src < t.con.rows)
    : ∃ t'', t'.copyRow 0 (t.con.cols - 1) dst src = .ok t'' ∧ t.SameTerm t'' := by
  rw [← h.con.rows] at hdst hsrc
  obtain ⟨t'', hrun, hsame⟩ := copyRow_total hdst0 hdst hsrc0 hsrc
  rw [h.con.cols] at hrun
  exact ⟨t'', hrun, h.trans hsame⟩

theorem SameTerm.consoleErase {y0 y1 : Int} (h : t.SameTerm t') (hy0 : 0 ≤ y0) (hy1 : y1 < t.con.rows)
    : ∃ t'', t'.consoleErase 0 y0 (t.con.cols - 1) y1 = .ok t'' ∧ t.SameTerm t'' := by
  rw [← h.con.rows] at hy1
  obtain ⟨t'', hrun, hsame⟩ := consoleErase_total
    (inBuffer_of_rect (Int.le_refl 0) (Int.sub_one_lt_of_le (Int.le_refl t'.con.cols)) hy0 hy1)
  rw [h.con.cols] at hrun
  exact ⟨t'', hrun, h.trans hsame⟩

theorem scrollUp_total {amount : Int} (hpos : 0 < amount) (hle : amount ≤ t.con.rows)
    : ∃ t', t.scrollUp amount 0 0 (t.con.cols - 1) (t.con.rows - 1) = .ok t' ∧ t.SameTerm t' := by
  obtain ⟨t1, hmove, h1⟩ : ∃ t', forTo (fun (t1 : Ansiterm) y => t1.copyRow 0 (t.con.cols - 1) y (y + amount)) 0
      (t.con.rows - 1 - amount) t = .ok t' ∧ t.SameTerm t' := by
    apply forTo_total t.SameTerm _ (SameTerm.refl t)
    intro y t1 hy0 hy1 h1
    exact h1.copyRow hy0 (by omega) (by omega) (by omega)
  have hfirst : 0 ≤ t.con.rows - 1 - amount + 1 := by omega
  have hlast : t.con.rows - 1 < t.con.rows := by omega
  obtain ⟨t2, herase, h2⟩ := h1.consoleErase hfirst hlast
  refine ⟨t2, ?_, h2⟩
  rw [scrollUp, bind_eq_ok]
  exact ⟨t1, hmove, herase⟩

theorem scrollDown_total {amount : Int} (hpos : 0 < amount) (hlt : amount < t.con.rows)
    : ∃ t', t.scrollDown amount 0 0 (t.con.cols - 1) (t.con.rows - 1) = .ok t' ∧ t.SameTerm t' := by
  obtain ⟨t1, hmove, h1⟩ : ∃ t', forDownTo (fun (t1 : Ansiterm) y => t1.copyRow 0 (t.con.cols - 1) (y + amount) y)
      (t.con.rows - 1 - amount) 0 t = .ok t' ∧ t.SameTerm t' := by
    apply forDownTo_total t.SameTerm _ (SameTerm.refl t)
    intro y t1 hy0 hy1 h1
    exact h1.copyRow (by omega) (by omega) hy0 (by omega)
  have hlast : 0 + amount < t.con.rows := by omega
  obtain ⟨t2, herase, h2⟩ := h1.consoleErase (Int.le_refl 0) hlast
  refine ⟨t2, ?_, h2⟩
  rw [scrollDown, bind_eq_ok]
  exact ⟨t1, hmove, herase⟩

/--
Scrolling by `amount` rows erases no row outside of the screen.
-/
def ScrollFits (t : Ansiterm) (amount : Int) : Prop := -t.con.rows < amount ∧ amount ≤ t.con.rows

theorem scrollScreen_total {amount : Int} (hfits : t.ScrollFits amount)
    : ∃ t', t.scrollScreen amount = .ok t' ∧ t.SameTerm t' := by
  obtain ⟨hdown, hup⟩ := hfits
  unfold scrollScreen consoleScroll
  split
  . exact ⟨t, rfl, SameTerm.refl t⟩
  . next hne =>
    obtain ⟨t1, hscroll, h1⟩ : ∃ t', t.scrollRows amount 0 0 (t.con.cols - 1) (t.con.rows - 1) = .ok t'
        ∧ t.SameTerm t' := by
      unfold scrollRows
      split
      . next hpos => exact scrollUp_total hpos hup
      . exact scrollDown_total (by omega) (by omega)
    obtain ⟨con, hinvalidate, hsame⟩ := invalidate_total t1.con 0 0 (t.con.cols - 1) (t.con.rows - 1)
    refine ⟨t1.setCon con, ?_, h1.setCon hsame⟩
    rw [bind_eq_ok]
    refine ⟨t1, hscroll, ?_⟩
    rw [bind_eq_ok]
    exact ⟨con, hinvalidate, rfl⟩

/--
The cursor and the saved cursor are on the screen, and the arguments are in their array.
-/
structure Inside (t : Ansiterm) : Prop where
  cursorCol : 0 ≤ t.con.cursorCol ∧ t.con.cursorCol < t.con.cols
  cursorRow : 0 ≤ t.con.cursorRow ∧ t.con.cursorRow < t.con.rows
  savedCursorX : 0 ≤ t.savedCursorX ∧ t.savedCursorX < t.con.cols
  savedCursorY : 0 ≤ t.savedCursorY ∧ t.savedCursorY < t.con.rows
  argCount : 0 ≤ t.escapeSeqArgCount ∧ t.escapeSeqArgCount ≤ escapeSeqArgsSize

theorem Inside.sameTerm (h : t.Inside) (hsame : t.SameTerm t') : t'.Inside := by
  obtain ⟨hcon, hrest⟩ := hsame
  have hcols := hcon.cols
  have hrows := hcon.rows
  constructor
  . rw [hcon.cursorCol, hcols]
    exact h.cursorCol
  . rw [hcon.cursorRow, hrows]
    exact h.cursorRow
  . rw [hrest]
    exact ⟨h.savedCursorX.1, hcols ▸ h.savedCursorX.2⟩
  . rw [hrest]
    exact ⟨h.savedCursorY.1, hrows ▸ h.savedCursorY.2⟩
  . rw [hrest]
    exact h.argCount

theorem Inside.setCursorPos {x y : Int} (h : t.Inside) (hx : 0 ≤ x ∧ x < t.con.cols)
    (hy : 0 ≤ y ∧ y < t.con.rows)
    : (t.setCursorPos x y).Inside :=
  ⟨hx, hy, h.savedCursorX, h.savedCursorY, h.argCount⟩

theorem Inside.setState (h : t.Inside) (state : EscapeState) : (t.setState state).Inside :=
  ⟨h.cursorCol, h.cursorRow, h.savedCursorX, h.savedCursorY, h.argCount⟩

theorem nextRow_total {y : Int} (hy : 0 ≤ y ∧ y < t.con.rows)
    : ∃ y' t', t.nextRow y = .ok ⟨y', t'⟩ ∧ t.SameTerm t' ∧ 0 ≤ y' ∧ y' < t.con.rows := by
  unfold nextRow
  split
  . next hlt => exact ⟨y + 1, t, rfl, SameTerm.refl t, by omega, hlt⟩
  . have hfits : t.ScrollFits 1 := ⟨by omega, by omega⟩
    obtain ⟨t1, hscroll, h1⟩ := scrollScreen_total hfits
    have hrows := h1.con.rows
    refine ⟨t1.con.rows - 1, t1, ?_, h1, by omega, by omega⟩
    rw [bind_eq_ok]
    exact ⟨t1, hscroll, rfl⟩

theorem Inside.nextRow {x y : Int} (h : t.Inside) (hx : 0 ≤ x ∧ x < t.con.cols)
    (hy : 0 ≤ y ∧ y < t.con.rows)
    : ∃ y' t', t.nextRow y = .ok ⟨y', t'⟩ ∧ (t'.setCursorPos x y').Inside := by
  obtain ⟨y', t1, hrun, hsame, hy'⟩ := nextRow_total hy
  refine ⟨y', t1, hrun, (h.sameTerm hsame).setCursorPos ?_ ?_⟩
  . rw [hsame.con.cols]
    exact hx
  . rw [hsame.con.rows]
    exact hy'

theorem Inside.advance {x y : Int} (h : t.Inside) (hx : 0 ≤ x) (hy : 0 ≤ y ∧ y < t.con.rows)
    : ∃ t', t.advance x y = .ok t' ∧ t'.Inside := by
  unfold Ansiterm.advance
  split
  . next hlt => exact ⟨_, rfl, h.setCursorPos ⟨hx, hlt⟩ hy⟩
  . have hcols := h.cursorCol
    obtain ⟨y', t1, hrun, h1⟩ := h.nextRow (x := 0) ⟨Int.le_refl 0, by omega⟩ hy
    refine ⟨_, ?_, h1⟩
    rw [bind_eq_ok]
    exact ⟨_, hrun, rfl⟩

theorem consoleBackspace_total (h : t.Inside)
    : ∃ x, t.consoleBackspace = .ok x ∧ 0 ≤ x ∧ x < t.con.cols := by
  obtain ⟨hx0, hx⟩ := h.cursorCol
  obtain ⟨hy0, hy⟩ := h.cursorRow
  have hread : ∀ x, 0 ≤ x → x < t.con.cols
      → t.con.readCell (t.cellIndex x t.con.cursorRow) = .ok (t.con.charBuffer (t.cellIndex x t.con.cursorRow)) :=
    fun x hx0 hx => readCell_total (inBuffer_of_lt hx0 hx hy0 hy)
  have hgo : ∀ (tab : Int) (n : Nat) x, 0 ≤ tab → tab < t.con.cols → tab + n = x + 1 → x + 1 < t.con.cols
      → ∃ x', consoleBackspace.go t tab n x = .ok x' ∧ 0 ≤ x' ∧ x' < t.con.cols := by
    intro tab n
    induction n with
    | zero =>
      intro x htab0 htab _ _
      exact ⟨tab, rfl, htab0, htab⟩
    | succ n ih =>
      intro x htab0 htab heq hlt
      rw [consoleBackspace.go, hread x (by omega) (by omega)]
      dsimp only [bind, Except.bind]
      split
      . exact ⟨x + 1, rfl, by omega, hlt⟩
      . exact ih (x - 1) htab0 htab (by lia) (by lia)
  unfold consoleBackspace
  dsimp only
  split
  . exact ⟨_, rfl, hx0, hx⟩
  . next hpos =>
    rw [hread (t.con.cursorCol - 1) (by omega) (by omega)]
    dsimp only [bind, Except.bind]
    split
    . exact ⟨_, rfl, by omega, by omega⟩
    . exact hgo _ _ _ (by lia) (by lia) (by lia) (by lia)

theorem putCell_total {x y : Int} (cell : CharCell) (hin : t.con.InBuffer (t.cellIndex x y))
    : ∃ t', t.putCell x y cell = .ok t' ∧ t.SameTerm t' := by
  obtain ⟨con1, hwrite, h1⟩ := writeCell_total cell hin
  obtain ⟨con2, hinvalidate, h2⟩ := invalidate_total con1 con1.cursorCol con1.cursorRow
    con1.cursorCol con1.cursorRow
  refine ⟨t.setCon con2, ?_, (SameTerm.refl t).setCon (h1.trans h2)⟩
  rw [putCell, bind_eq_ok]
  refine ⟨con1, hwrite, ?_⟩
  rw [bind_eq_ok]
  exact ⟨con2, hinvalidate, rfl⟩

theorem consolePutchar_total (h : t.Inside) (ch : Nat)
    : ∃ t', t.consolePutchar ch = .ok t' ∧ t.SameTerm t' := by
  obtain ⟨hx0, hx⟩ := h.cursorCol
  obtain ⟨hy0, hy⟩ := h.cursorRow
  obtain ⟨t1, hput1, h1⟩ := putCell_total ⟨t.attrState, ch⟩ (inBuffer_of_lt hx0 hx hy0 hy)
  have hrest : ∃ t', (if wcwidth ch > 1 ∧ t.con.cursorCol + 1 < t1.con.cols then
        t1.putCell (t.con.cursorCol + 1) t.con.cursorRow ⟨t1.attrState, 0xFFFFFFFF⟩
      else
        .ok t1) = .ok t' ∧ t.SameTerm t' := by
    split
    . next hwide =>
      rw [← h1.con.rows] at hy
      obtain ⟨t2, hput2, h2⟩ := putCell_total ⟨t1.attrState, 0xFFFFFFFF⟩
        (inBuffer_of_lt (by omega) hwide.2 hy0 hy)
      exact ⟨t2, hput2, h1.trans h2⟩
    . exact ⟨t1, rfl, h1⟩
  obtain ⟨t2, hrun, h2⟩ := hrest
  refine ⟨t2, ?_, h2⟩
  rw [consolePutchar, bind_eq_ok]
  exact ⟨t1, hput1, hrun⟩

theorem wcwidth_of_control {ch : Nat} (h : wcwidth ch < 0) (hch : 0x20 ≤ ch)
    : wcwidth ch = -1 ∧ 0x7F ≤ ch ∧ ch < 0xA0 := by
  unfold wcwidth at h ⊢
  split at h
  . omega
  . split at h
    . next hcontrol =>
      rw [if_neg (by omega), if_pos hcontrol]
      exact ⟨rfl, by omega⟩
    . split at h
      . omega
      . split at h
        . omega
        . omega

theorem wrapWide_total (h : t.Inside) (cwidth : Int)
    : ∃ t', t.wrapWide cwidth = .ok t' ∧ t'.Inside ∧ (cwidth ≤ 1 → t' = t) := by
  have hcols := h.cursorCol
  unfold wrapWide
  split
  . next hwide =>
    obtain ⟨y, t1, hrun, h1⟩ := h.nextRow (x := 0) ⟨Int.le_refl 0, by omega⟩ h.cursorRow
    refine ⟨_, ?_, h1, fun hle => absurd hle (by omega)⟩
    rw [bind_eq_ok]
    exact ⟨_, hrun, rfl⟩
  . exact ⟨t, rfl, h, fun _ => rfl⟩

theorem putPrintable_total {ch : Nat} (h : t.Inside) (hch : 0x20 ≤ ch)
    (htame : 0x7F ≤ ch ∧ ch < 0xA0 → t.con.cursorCol ≠ 0)
    : ∃ t', t.putPrintable ch = .ok t' ∧ t'.Inside := by
  obtain ⟨t1, hwrap, h1, hsame⟩ := wrapWide_total h (wcwidth ch)
  obtain ⟨t2, hput, h2⟩ := consolePutchar_total h1 ch
  have hx : 0 ≤ t1.con.cursorCol + wcwidth ch := by
    have hcol := h1.cursorCol.1
    by_cases hneg : wcwidth ch < 0
    . obtain ⟨hwidth, hcontrol⟩ := wcwidth_of_control hneg hch
      rw [hsame (by omega)] at hcol ⊢
      have := htame hcontrol
      omega
    . omega
  have hy : 0 ≤ t1.con.cursorRow ∧ t1.con.cursorRow < t2.con.rows := by
    rw [h2.con.rows]
    exact h1.cursorRow
  obtain ⟨t3, hadvance, h3⟩ := (h1.sameTerm h2).advance hx hy
  refine ⟨t3, ?_, h3⟩
  rw [putPrintable, bind_eq_ok]
  refine ⟨t1, hwrap, ?_⟩
  rw [bind_eq_ok]
  exact ⟨t2, hput, hadvance⟩

/--
The character, outside of an escape sequence, is neither a tab that ends outside of the screen nor a control
character that moves the cursor to the left of the first column.
-/
def TameText (t : Ansiterm) (ch : Nat) : Prop :=
  (ch = 0x09 → t.con.InBuffer (t.cellIndex ((t.con.cursorCol.tdiv 8 + 1) * 8) t.con.cursorRow))
    ∧ (0x7F ≤ ch ∧ ch < 0xA0 → t.con.cursorCol ≠ 0)

theorem tab_total {tab : Int} (h : t.Inside) (htab0 : 0 ≤ tab)
    (htab : t.con.InBuffer (t.cellIndex tab t.con.cursorRow))
    : ∃ t1, t.consoleErase t.con.cursorCol t.con.cursorRow tab t.con.cursorRow = .ok t1
        ∧ ∃ t2, t1.advance tab t.con.cursorRow = .ok t2 ∧ t2.Inside := by
  have hin : ∀ x y, t.con.cursorCol ≤ x → x ≤ tab → t.con.cursorRow ≤ y → y ≤ t.con.cursorRow
      → t.con.InBuffer (t.cellIndex x y) := by
    intro x y hx0 hx1 hy0 hy1
    rw [show y = t.con.cursorRow by omega]
    have hlow := (inBuffer_of_lt h.cursorCol.1 h.cursorCol.2 h.cursorRow.1 h.cursorRow.2).1
    unfold InBuffer cellIndex at *
    omega
  obtain ⟨t1, herase, h1⟩ := consoleErase_total hin
  refine ⟨t1, herase, (h.sameTerm h1).advance htab0 ?_⟩
  rw [h1.con.rows]
  exact h.cursorRow

theorem putText_total {ch : Nat} (h : t.Inside) (htame : t.TameText ch)
    : ∃ t', t.putText ch = .ok t' ∧ t'.Inside := by
  obtain ⟨hx0, hx⟩ := h.cursorCol
  obtain ⟨hy0, hy⟩ := h.cursorRow
  have hkeep : (t.setCursorPos t.con.cursorCol t.con.cursorRow).Inside :=
    h.setCursorPos h.cursorCol h.cursorRow
  have hfirst : (0 : Int) ≤ 0 ∧ 0 < t.con.cols := ⟨Int.le_refl 0, by omega⟩
  unfold putText
  dsimp only
  split
  . exact ⟨_, rfl, hkeep⟩
  . obtain ⟨x, hback, hcol⟩ := consoleBackspace_total h
    refine ⟨_, ?_, h.setCursorPos hcol h.cursorRow⟩
    rw [bind_eq_ok]
    exact ⟨x, hback, rfl⟩
  . have htab0 : 0 ≤ (t.con.cursorCol.tdiv 8 + 1) * 8 := by
      have := Int.tdiv_nonneg hx0 (show (0 : Int) ≤ 8 by decide)
      omega
    obtain ⟨t1, herase, t2, hadvance, h2⟩ := tab_total h htab0 (htame.1 rfl)
    refine ⟨t2, ?_, h2⟩
    rw [bind_eq_ok]
    exact ⟨t1, herase, hadvance⟩
  . obtain ⟨y, t1, hrun, h1⟩ := h.nextRow hfirst h.cursorRow
    refine ⟨_, ?_, h1⟩
    rw [bind_eq_ok]
    exact ⟨_, hrun, rfl⟩
  . obtain ⟨y, t1, hrun, h1⟩ := h.nextRow h.cursorCol h.cursorRow
    refine ⟨_, ?_, h1⟩
    rw [bind_eq_ok]
    exact ⟨_, hrun, rfl⟩
  . exact ⟨_, rfl, hkeep⟩
  . exact ⟨_, rfl, h.setCursorPos hfirst h.cursorRow⟩
  . exact ⟨_, rfl, (h.setState .esc).setCursorPos h.cursorCol h.cursorRow⟩
  . split
    . exact ⟨_, rfl, hkeep⟩
    . next hch => exact putPrintable_total h (by omega) htame.2

end Ansiterm

end Emos
