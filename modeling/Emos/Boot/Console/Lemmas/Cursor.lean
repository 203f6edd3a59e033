import Emos.Boot.Console.Lemmas.Bounds
import Emos.Lib.Trace

/-!
This module contains which characters and control sequences keep the cursor of the terminal on the screen.
The console stores positions without a check, so that those that the terminal does not clamp are stored as
they are.
-/

open Lib

namespace Emos

namespace Ansiterm

open Vconsole

variable {t : Ansiterm}

theorem Inside.cnl (h : t.Inside) (hlow : 0 ≤ t.con.cursorRow + t.arg 0 1)
    (hhigh : t.con.cursorRow + t.arg 0 1 < t.con.rows)
    : t.handleCnl.Inside := by
  have hcols := h.cursorCol
  refine (h.setState .default).setCursorPos ⟨Int.le_refl 0, ?_⟩ ?_
  . exact Int.lt_of_le_of_lt hcols.1 hcols.2
  . rw [if_pos (by omega)]
    exact ⟨hlow, hhigh⟩

theorem Inside.cpl (h : t.Inside) (hlow : t.con.cursorRow - t.arg 0 1 < t.con.rows)
    : t.handleCpl.Inside := by
  have hcols := h.cursorCol
  have hrows := h.cursorRow
  refine (h.setState .default).setCursorPos ⟨Int.le_refl 0, ?_⟩ ?_
  . exact Int.lt_of_le_of_lt hcols.1 hcols.2
  . split
    . exact ⟨by omega, hlow⟩
    . exact ⟨by omega, Int.lt_of_le_of_lt (by omega) hrows.2⟩

theorem Inside.cupHvp (h : t.Inside) (hx : t.arg 1 1 ≤ t.con.cols) (hy : t.arg 0 1 ≤ t.con.rows)
    : t.handleCupHvp.Inside := by
  have hcols := h.cursorCol
  have hrows := h.cursorRow
  have hclamp : ∀ pos n : Int, pos ≤ n → 0 < n
      → 0 ≤ (if pos - 1 < 0 then 0 else pos - 1) ∧ (if pos - 1 < 0 then 0 else pos - 1) < n := by
    intro pos n hle hpos
    split
    . exact ⟨Int.le_refl 0, hpos⟩
    . exact ⟨by omega, by omega⟩
  refine (h.setState .default).setCursorPos ?_ ?_
  . exact hclamp _ _ hx (Int.lt_of_le_of_lt hcols.1 hcols.2)
  . exact hclamp _ _ hy (Int.lt_of_le_of_lt hrows.1 hrows.2)

def OnScreen (t : Ansiterm) : Prop :=
  (0 ≤ t.con.cursorCol ∧ t.con.cursorCol < t.con.cols) ∧ 0 ≤ t.con.cursorRow ∧ t.con.cursorRow < t.con.rows

theorem eraseInDisplay_total (h : t.OnScreen) (option : Int)
    : ∃ t', t.eraseInDisplay option = .ok t' ∧ t.SameTerm t' := by
  obtain ⟨⟨hx0, hx⟩, hy0, hy⟩ := h
  have hwidth : t.con.cols - 1 < t.con.cols := by omega
  have hheight : t.con.rows - 1 < t.con.rows := by omega
  unfold eraseInDisplay
  dsimp only
  split
  . obtain ⟨t1, herase, h1⟩ := consoleErase_total (inBuffer_of_rect hx0 hwidth hy0 hy)
    have hbelow : 0 ≤ t.con.cursorRow + 1 := by omega
    obtain ⟨t2, hrest, h2⟩ := h1.consoleErase hbelow hheight
    rw [herase]
    dsimp only [bind, Except.bind]
    split
    . exact ⟨t1, rfl, h1⟩
    . exact ⟨t2, hrest, h2⟩
  . obtain ⟨t1, herase, h1⟩ := consoleErase_total (inBuffer_of_rect (Int.le_refl 0) hx hy0 hy)
    have habove : t.con.cursorRow - 1 < t.con.rows := by omega
    obtain ⟨t2, hrest, h2⟩ := h1.consoleErase (Int.le_refl 0) habove
    rw [herase]
    dsimp only [bind, Except.bind]
    split
    . exact ⟨t1, rfl, h1⟩
    . exact ⟨t2, hrest, h2⟩
  . exact consoleErase_total (inBuffer_of_rect (Int.le_refl 0) hwidth (Int.le_refl 0) hheight)
  . exact consoleErase_total (inBuffer_of_rect (Int.le_refl 0) hwidth (Int.le_refl 0) hheight)
  . exact ⟨t, rfl, SameTerm.refl t⟩

theorem eraseInLine_total (h : t.OnScreen) (option : Int)
    : ∃ t', t.eraseInLine option = .ok t' ∧ t.SameTerm t' := by
  obtain ⟨⟨hx0, hx⟩, hy0, hy⟩ := h
  have hwidth : t.con.cols - 1 < t.con.cols := by omega
  unfold eraseInLine
  dsimp only
  split
  . exact consoleErase_total (inBuffer_of_rect hx0 hwidth hy0 hy)
  . exact consoleErase_total (inBuffer_of_rect (Int.le_refl 0) hx hy0 hy)
  . exact consoleErase_total (inBuffer_of_rect (Int.le_refl 0) hwidth hy0 hy)
  . exact ⟨t, rfl, SameTerm.refl t⟩

set_option maxRecDepth 2000 in
theorem palette_size : palette.size = 256 := by rfl

theorem paletteColor_total {i : Int} (h0 : 0 ≤ i) (h : i < 256) : ∃ color, paletteColor i = .ok color := by
  have hsize : i.toNat < palette.size := by
    rw [palette_size]
    omega
  unfold paletteColor
  rw [if_neg (by omega), Array.getElem?_eq_getElem hsize]
  exact ⟨_, rfl⟩

theorem paletteColor_bind {i : Int} {k : Nat → Run CharAttributes} (h0 : 0 ≤ i) (h : i < 256)
    (hk : ∀ color, ∃ attr, k color = .ok attr)
    : ∃ attr, (paletteColor i >>= k) = .ok attr := by
  obtain ⟨color, hcolor⟩ := paletteColor_total h0 h
  rw [hcolor]
  exact hk color

/--
A color that is selected by its number has a number below 256.
-/
def TameColor (t : Ansiterm) : Prop :=
  3 ≤ t.escapeSeqArgCount → t.escapeSeqArgs 1 = 5 → 0 ≤ t.escapeSeqArgs 2 ∧ t.escapeSeqArgs 2 < 256

theorem extendedColor_total (h : t.TameColor) : ∃ color, t.extendedColor = .ok color := by
  unfold extendedColor
  split
  . exact ⟨_, rfl⟩
  . split
    . next hfive =>
      split
      . exact ⟨_, rfl⟩
      . obtain ⟨h0, hlt⟩ := h (by omega) hfive
        obtain ⟨color, hcolor⟩ := paletteColor_total h0 hlt
        rw [hcolor]
        exact ⟨_, rfl⟩
    . split
      . split
        . exact ⟨_, rfl⟩
        . exact ⟨_, rfl⟩
      . exact ⟨_, rfl⟩

theorem extendedColor_bind {k : Option Nat → Run CharAttributes} (h : t.TameColor)
    (hk : ∀ color, ∃ attr, k color = .ok attr)
    : ∃ attr, (t.extendedColor >>= k) = .ok attr := by
  obtain ⟨color, hcolor⟩ := extendedColor_total h
  rw [hcolor]
  exact hk color

theorem selectColor_total {option : Int} (attr : CharAttributes)
    (h : option = 38 ∨ option = 48 → t.TameColor)
    : ∃ attr', t.selectColor attr option = .ok attr' := by
  unfold selectColor
  split
  . apply paletteColor_bind (by decide) (by decide)
    intro bgColor
    exact paletteColor_bind (by decide) (by decide) (fun _ => ⟨_, rfl⟩)
  . split
    . exact paletteColor_bind (by omega) (by omega) (fun _ => ⟨_, rfl⟩)
    . split
      . next hfg => exact extendedColor_bind (h (.inl hfg)) (fun _ => ⟨_, rfl⟩)
      . split
        . exact paletteColor_bind (by decide) (by decide) (fun _ => ⟨_, rfl⟩)
        . split
          . exact paletteColor_bind (by omega) (by omega) (fun _ => ⟨_, rfl⟩)
          . split
            . next hbg => exact extendedColor_bind (h (.inr hbg)) (fun _ => ⟨_, rfl⟩)
            . split
              . exact paletteColor_bind (by decide) (by decide) (fun _ => ⟨_, rfl⟩)
              . split
                . exact paletteColor_bind (by omega) (by omega) (fun _ => ⟨_, rfl⟩)
                . split
                  . exact paletteColor_bind (by omega) (by omega) (fun _ => ⟨_, rfl⟩)
                  . exact ⟨_, rfl⟩

theorem selectGraphicRendition_total {option : Int} (h : option = 38 ∨ option = 48 → t.TameColor)
    : ∃ attr, t.selectGraphicRendition option = .ok attr := by
  unfold selectGraphicRendition
  cases selectAttribute t.attrState option with
  | some attr => exact ⟨attr, rfl⟩
  | none => exact selectColor_total t.attrState h

theorem Inside.sgr (h : t.Inside) (htame : t.arg 0 0 = 38 ∨ t.arg 0 0 = 48 → t.TameColor)
    : ∃ t', t.handleSgr = .ok t' ∧ t'.Inside := by
  obtain ⟨attr, hattr⟩ := selectGraphicRendition_total htame
  refine ⟨({ t with attrState := attr } : Ansiterm).setState .default, ?_, ?_⟩
  . rw [handleSgr, bind_eq_ok]
    exact ⟨attr, hattr, rfl⟩
  . exact ⟨h.cursorCol, h.cursorRow, h.savedCursorX, h.savedCursorY, h.argCount⟩

theorem Inside.questionMark (h : t.Inside) : ∃ t', t.handleQuestionMark = .ok t' ∧ t'.Inside := by
  obtain ⟨hcount0, hcount⟩ := h.argCount
  unfold handleQuestionMark
  split
  . exact ⟨t, rfl, h⟩
  . rw [setArg, if_pos (by omega)]
    refine ⟨_, rfl, h.cursorCol, h.cursorRow, h.savedCursorX, h.savedCursorY, ?_⟩
    exact ⟨Int.le_add_one hcount0, by dsimp only; omega⟩

def TameDigit (t : Ansiterm) : Prop :=
  t.escapeSeqArgCount < escapeSeqArgsSize → t.escapeSeqNumberInput = true → 1 ≤ t.escapeSeqArgCount

theorem Inside.digit {digit : Int} (h : t.Inside) (htame : t.TameDigit)
    : ∃ t', t.handleDigit digit = .ok t' ∧ t'.Inside := by
  obtain ⟨hcount0, hcount⟩ := h.argCount
  unfold handleDigit
  split
  . exact ⟨t, rfl, h⟩
  . next hlt =>
    have hindex : 1 ≤ (if t.escapeSeqNumberInput then t.escapeSeqArgCount else t.escapeSeqArgCount + 1)
        ∧ (if t.escapeSeqNumberInput then t.escapeSeqArgCount else t.escapeSeqArgCount + 1)
          ≤ escapeSeqArgsSize := by
      split
      . next hinput => exact ⟨htame (by omega) hinput, hcount⟩
      . exact ⟨by omega, by omega⟩
    dsimp only
    rw [setArg, if_pos (by omega)]
    refine ⟨_, rfl, h.cursorCol, h.cursorRow, h.savedCursorX, h.savedCursorY, ?_⟩
    exact ⟨by dsimp only; omega, hindex.2⟩

/--
The control sequence, which ends with `ch`, keeps the cursor on the screen and stays inside of the arrays.
-/
def TameCsi (t : Ansiterm) (ch : Char) : Prop :=
  ('0' ≤ ch ∧ ch ≤ '9' → t.TameDigit)
    ∧
  match ch with
  -- one of the coordinates is set to -1
  | 'A' | 'B' | 'C' | 'D' | 'G' => False
  | 'E' => 0 ≤ t.con.cursorRow + t.arg 0 1 ∧ t.con.cursorRow + t.arg 0 1 < t.con.rows
  | 'F' => t.con.cursorRow - t.arg 0 1 < t.con.rows
  | 'f' | 'H' => t.arg 1 1 ≤ t.con.cols ∧ t.arg 0 1 ≤ t.con.rows
  | 'S' => t.ScrollFits (t.arg 0 1)
  | 'T' => t.ScrollFits (-t.arg 0 1)
  | 'm' => t.arg 0 0 = 38 ∨ t.arg 0 0 = 48 → t.TameColor
  | _ => True

theorem Inside.of_sameTerm {r : Run Ansiterm} (h : t.Inside) (hr : ∃ t', r = .ok t' ∧ t.SameTerm t')
    : ∃ t', (r >>= fun t => .ok (t.setState .default)) = .ok t' ∧ t'.Inside := by
  obtain ⟨t1, hrun, h1⟩ := hr
  rw [hrun]
  exact ⟨_, rfl, (h.sameTerm h1).setState .default⟩

theorem Inside.csi {ch : Char} (h : t.Inside) (htame : t.TameCsi ch)
    : ∃ t', t.handleCsi ch = .ok t' ∧ t'.Inside := by
  obtain ⟨hdigit, hletter⟩ := htame
  unfold handleCsi
  split
  . contradiction
  . contradiction
  . contradiction
  . contradiction
  . exact ⟨_, rfl, h.cnl hletter.1 hletter.2⟩
  . exact ⟨_, rfl, h.cpl hletter⟩
  . contradiction
  . exact ⟨_, rfl, h.cupHvp hletter.1 hletter.2⟩
  . exact ⟨_, rfl, h.cupHvp hletter.1 hletter.2⟩
  . exact ⟨_, rfl, h.cursorCol, h.cursorRow, h.savedCursorX, h.savedCursorY, h.argCount⟩
  . exact h.of_sameTerm (eraseInDisplay_total ⟨h.cursorCol, h.cursorRow⟩ _)
  . exact h.of_sameTerm (eraseInLine_total ⟨h.cursorCol, h.cursorRow⟩ _)
  . exact ⟨_, rfl, h.cursorCol, h.cursorRow, h.savedCursorX, h.savedCursorY, h.argCount⟩
  . exact h.of_sameTerm (scrollScreen_total hletter)
  . exact h.of_sameTerm (scrollScreen_total hletter)
  . exact h.sgr hletter
  . exact ⟨_, rfl, h.setState .default⟩
  . exact ⟨_, rfl, h.cursorCol, h.cursorRow, h.cursorCol, h.cursorRow, h.argCount⟩
  . exact ⟨_, rfl, h.savedCursorX, h.savedCursorY, h.savedCursorX, h.savedCursorY, h.argCount⟩
  . exact h.questionMark
  . exact ⟨_, rfl, h.cursorCol, h.cursorRow, h.savedCursorX, h.savedCursorY, h.argCount⟩
  . exact ⟨_, rfl, h.cursorCol, h.cursorRow, h.savedCursorX, h.savedCursorY, h.argCount⟩
  . split
    . next hrange => exact h.digit (hdigit hrange)
    . exact ⟨_, rfl, h.setState .default⟩

def Tame (t : Ansiterm) (ch : Nat) : Prop :=
  match t.escapeSeqState with
  | .default => t.TameText ch
  | .csi => t.TameCsi (Char.ofNat (ch % 256))
  | _ => True

theorem Inside.putChar {ch : Nat} (h : t.Inside) (htame : t.Tame ch)
    : ∃ t', t.putChar ch = .ok t' ∧ t'.Inside := by
  unfold Ansiterm.putChar
  unfold Tame at htame
  split
  . next hstate =>
    rw [hstate] at htame
    exact putText_total h htame
  . refine ⟨_, rfl, h.cursorCol, h.cursorRow, h.savedCursorX, h.savedCursorY, ?_⟩
    have hsize : (0 : Int) ≤ escapeSeqArgsSize := by decide
    exact ⟨Int.le_refl 0, hsize⟩
  . next hstate =>
    rw [hstate] at htame
    exact h.csi htame
  . exact ⟨_, rfl, h.setState .default⟩

theorem inside_probe {con : Vconsole} (hcols : 1 ≤ con.cols) (hrows : 1 ≤ con.rows)
    (args : Int → Int) (state : EscapeState) (numberInput : Bool)
    : (probe con args state numberInput).Inside := by
  have hx : (0 : Int) ≤ 0 ∧ 0 < con.cols := ⟨Int.le_refl 0, by omega⟩
  have hy : (0 : Int) ≤ 0 ∧ 0 < con.rows := ⟨Int.le_refl 0, by omega⟩
  have hsize : (0 : Int) ≤ escapeSeqArgsSize := by decide
  exact ⟨hx, hy, hx, hy, Int.le_refl 0, hsize⟩

end Ansiterm

namespace Writing

variable {s t : Writing}

def Puts (s : Writing) (a : WriteAction) (ch : Nat) : Prop :=
  a = .round ∧ s.len ≠ 0 ∧ ∃ charLen, s.term.utf8Round s.mem s.buf s.len = .ok (.char ch charLen)

def Tame (s : Writing) (a : WriteAction) : Prop := ∀ ch, s.Puts a ch → s.term.Tame ch

/--
All indices that are used for the character are inside of their arrays.
-/
def InArrays (s : Writing) (a : WriteAction) : Prop :=
  ∀ ch, s.Puts a ch → ∃ term, s.term.putChar ch = .ok term

theorem writeRound_inside {mem : BufferMemory} {buf : Int} {len : Nat} {term term' : Ansiterm}
    {rest : Int × Nat × Int} (h : term.Inside)
    (htame : ∀ ch charLen, term.utf8Round mem buf len = .ok (.char ch charLen) → term.Tame ch)
    (hrun : term.writeRound mem buf len = .ok ⟨term', rest⟩)
    : term'.Inside := by
  rw [Ansiterm.writeRound, bind_eq_ok] at hrun
  obtain ⟨round, hround, hrun⟩ := hrun
  cases round with
  | fragment bytes =>
    cases hrun
    exact ⟨h.cursorCol, h.cursorRow, h.savedCursorX, h.savedCursorY, h.argCount⟩
  | char wch charLen =>
    dsimp only at hrun
    rw [bind_eq_ok] at hrun
    obtain ⟨term1, hput, hrun⟩ := hrun
    cases hrun
    obtain ⟨term2, hput2, h2⟩ := h.putChar (htame wch charLen hround)
    rw [hput] at hput2
    cases hput2
    exact ⟨h2.cursorCol, h2.cursorRow, h2.savedCursorX, h2.savedCursorY, h2.argCount⟩

theorem step_inside {a : WriteAction} (h : s.term.Inside) (htame : s.Tame a)
    (hstep : s.step a = .ok t)
    : t.term.Inside := by
  cases a with
  | write mem buf len =>
    cases hstep
    split
    . exact h
    . exact h
  | round =>
    unfold step at hstep
    dsimp only at hstep
    split at hstep
    . cases hstep
      exact ⟨h.cursorCol, h.cursorRow, h.savedCursorX, h.savedCursorY, h.argCount⟩
    . next hlen =>
      rw [bind_eq_ok] at hstep
      obtain ⟨⟨term, rest⟩, hrun, hstep⟩ := hstep
      cases hstep
      apply writeRound_inside h _ hrun
      intro ch charLen hround
      exact htame ch ⟨rfl, hlen, charLen, hround⟩

theorem write_rounds {mem : BufferMemory} {fuel : Nat} {term term' : Ansiterm} {buf writtenLen writtenLen' : Int}
    {len : Nat} (h : term.write mem fuel buf len writtenLen = .ok ⟨writtenLen', term'⟩)
    : ∃ n buf', steps ⟨term, mem, buf, len⟩ (List.replicate n .round) = .ok ⟨term', mem, buf', 0⟩ := by
  induction fuel generalizing term buf len writtenLen with
  | zero =>
    cases len with
    | zero =>
      cases h
      exact ⟨1, buf, rfl⟩
    | succ len => contradiction
  | succ fuel ih =>
    cases len with
    | zero =>
      cases h
      exact ⟨1, buf, rfl⟩
    | succ len =>
      rw [Ansiterm.write, bind_eq_ok] at h
      . obtain ⟨⟨term1, buf1, len1, used⟩, hround, h⟩ := h
        obtain ⟨n, buf', hrest⟩ := ih h
        refine ⟨n + 1, buf', ?_⟩
        rw [List.replicate_succ, steps, bind_eq_ok]
        refine ⟨⟨term1, mem, buf1, len1⟩, ?_, hrest⟩
        unfold step
        dsimp only
        rw [if_neg (Nat.succ_ne_zero len), bind_eq_ok]
        exact ⟨_, hround, rfl⟩
      . exact Nat.succ_ne_zero len

/--
As long as every character is one that keeps the cursor on the screen, the cursor is on the screen after
each of them, and no index is outside of its array.
-/
theorem cursor_stays_on_screen (con : Vconsole) (hcols : 1 ≤ con.cols) (hrows : 1 ≤ con.rows)
    (args : Int → Int) (state : EscapeState) (numberInput : Bool) (mem : BufferMemory) (as : List WriteAction)
    (htame : Along step Tame ⟨.probe con args state numberInput, mem, 0, 0⟩ as)
    : Throughout step (fun s => s.term.OnScreen) ⟨.probe con args state numberInput, mem, 0, 0⟩ as
        ∧ Along step InArrays ⟨.probe con args state numberInput, mem, 0, 0⟩ as := by
  have hinside : Throughout step (fun s => s.term.Inside) ⟨.probe con args state numberInput, mem, 0, 0⟩ as :=
    Throughout.of_step (fun _ _ _ => step_inside)
      (Ansiterm.inside_probe hcols hrows args state numberInput) htame
  constructor
  . exact hinside.mono (fun s h => ⟨h.cursorCol, h.cursorRow⟩)
  . apply htame.and_throughout _ hinside
    intro s a h htame ch hputs
    obtain ⟨term, hput, _⟩ := h.putChar (htame ch hputs)
    exact ⟨term, hput⟩

def textConsole : Vconsole where
  cols := 80
  rows := 25
  cursorCol := 0
  cursorRow := 0
  cursorPrevCol := 0
  cursorPrevRow := 0
  cursorVisible := true
  charBuffer := fun _ => ⟨⟨0, 0, false, false, false, false, false, false, 0, false⟩, 0⟩
  diffBuffer := fun _ => false

def bytesOf (bytes : List UInt8) : BufferMemory := fun p => if p < 0 then none else bytes[p.toNat]?

/--
A terminal on top of the console, which is not in an escape sequence.
-/
def textTerminal : Writing := ⟨.probe textConsole (fun _ => 0) .default false, bytesOf [], 0, 0⟩

set_option maxRecDepth 4000 in
theorem cursor_stays_on_screen_text
    : ∃ s, textTerminal.steps [.write (bytesOf [0x41, 0x0D]) 0 2, .round, .round] = .ok s
        ∧ s.term.con.charBuffer 0 = ⟨s.term.attrState, 0x41⟩ ∧ s.len = 0
        ∧ Throughout step (fun s => s.term.OnScreen) textTerminal
          [.write (bytesOf [0x41, 0x0D]) 0 2, .round, .round]
        ∧ Along step InArrays textTerminal [.write (bytesOf [0x41, 0x0D]) 0 2, .round, .round] := by
  refine ⟨_, rfl, rfl, rfl, ?_⟩
  apply cursor_stays_on_screen textConsole (by decide) (by decide) (fun _ => 0) .default false
  refine ⟨fun _ h => absurd h.1 nofun, ?_⟩
  intro s1 hs1
  cases hs1
  refine ⟨?_, ?_⟩
  . intro ch ⟨_, _, charLen, hround⟩
    cases hround
    exact ⟨nofun, fun h => absurd h.1 (by decide)⟩
  intro s2 hs2
  cases hs2
  refine ⟨?_, fun _ _ => trivial⟩
  intro ch ⟨_, _, charLen, hround⟩
  cases hround
  exact ⟨nofun, fun h => absurd h.1 (by decide)⟩

/--
`ESC [ A` moves the cursor out of the screen.
-/
theorem cursor_up_leaves_screen
    : ∃ s, textTerminal.steps
          [.write (bytesOf [0x1B, 0x5B, 0x41]) 0 3, .round, .round, .round] = .ok s
        ∧ s.term.con.cursorCol = -1 ∧ ¬ s.term.OnScreen := by
  refine ⟨_, rfl, rfl, ?_⟩
  intro h
  exact absurd h.1.1 (by decide)

end Writing

end Emos
