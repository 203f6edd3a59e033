import Emos.Boot.Video.Impl.Vconsole

/-!
This module contains that the map of the changed cells of a console has room for all of them, and that a
flush draws every cell that has changed, for the sizes whose number of cells is a multiple of eight.
-/

open Lib

namespace Emos.Boot

/--
What is done with a console between two flushes: a cell of its buffer is changed, cells are invalidated, or
the cursor is moved.
-/
inductive ConAction where
  | change (col row : Nat) (cell : CharCell)
  | invalidate (x0 y0 x1 y1 : Nat)
  | setCursorPos (col row : Nat)

namespace ConAction

def Inside (width height : Nat) : ConAction → Prop
  | .change col row _ => col < width ∧ row < height
  | .invalidate _ _ x1 y1 => x1 < width ∧ y1 < height
  | .setCursorPos _ _ => True

/--
Every cell that is changed is in a rectangle that is invalidated.
-/
def Covered (as : List ConAction) : Prop :=
  ∀ col row cell, .change col row cell ∈ as →
    ∃ x0 y0 x1 y1, .invalidate x0 y0 x1 y1 ∈ as ∧ x0 ≤ col ∧ col ≤ x1 ∧ y0 ≤ row ∧ row ≤ y1

end ConAction

/--
A console with its state, the ways in which it is flushed, and what a flush returns.
-/
structure Console (σ κ Out : Type) where
  step : σ → ConAction → Run σ
  flush : σ → κ → Run (σ × Out)

namespace Console

variable {σ κ Out : Type} (con : Console σ κ Out)

def steps (s : σ) : List ConAction → Run σ
  | [] => .ok s
  | a :: as => do
    let s ← con.step s a
    steps s as

/--
Actions with a flush at the end.
-/
def round (s : σ) (as : List ConAction) (k : κ) : Run (σ × Out) := do
  let s ← con.steps s as
  con.flush s k

def rounds (s : σ) : List (List ConAction × κ) → Run σ
  | [] => .ok s
  | ⟨as, k⟩ :: rest => do
    let ⟨s, _⟩ ← con.round s as k
    rounds s rest

/--
The console is set up, and after any number of rounds there is another one, which draws all the cells that
were changed in it.
-/
def Complete (setup : Run σ) (width height : Nat) (Redrawn : σ → Out → Nat → Nat → Prop) : Prop :=
  ∃ start, setup = .ok start
    ∧ ∀ rounds as k,
      (∀ r ∈ rounds ++ [(as, k)], (∀ a ∈ r.1, ConAction.Inside width height a) ∧ ConAction.Covered r.1) →
      ∃ s t out, con.rounds start rounds = .ok s ∧ con.round s as k = .ok (t, out)
        ∧ ∀ col row cell, .change col row cell ∈ as → Redrawn t out col row

/--
What the map of a console has to meet: actions keep an invariant, an invalidation marks its cells and nothing
else takes marks away, and a flush draws the marked cells.
-/
structure Marks (width height : Nat) (I : σ → Prop) (Marked : σ → Nat → Nat → Prop)
    (Redrawn : σ → Out → Nat → Nat → Prop) : Prop where
  step : ∀ s a, I s → ConAction.Inside width height a →
    ∃ t, con.step s a = .ok t ∧ I t ∧ (∀ col row, Marked s col row → Marked t col row)
      ∧ ∀ x0 y0 x1 y1, a = .invalidate x0 y0 x1 y1 →
        ∀ col row, x0 ≤ col → col ≤ x1 → y0 ≤ row → row ≤ y1 → Marked t col row
  flush : ∀ s k, I s → ∃ t out, con.flush s k = .ok (t, out) ∧ I t
    ∧ ∀ col row, col < width → row < height → Marked s col row → Redrawn t out col row

variable {con} {width height : Nat} {I : σ → Prop} {Marked : σ → Nat → Nat → Prop}
  {Redrawn : σ → Out → Nat → Nat → Prop} {s : σ} {as : List ConAction}

theorem Marks.steps (h : con.Marks width height I Marked Redrawn) (hs : I s)
    (hinside : ∀ a ∈ as, ConAction.Inside width height a)
    : ∃ t, con.steps s as = .ok t ∧ I t ∧ (∀ col row, Marked s col row → Marked t col row)
        ∧ ∀ x0 y0 x1 y1, .invalidate x0 y0 x1 y1 ∈ as →
          ∀ col row, x0 ≤ col → col ≤ x1 → y0 ≤ row → row ≤ y1 → Marked t col row := by
  induction as generalizing s with
  | nil =>
    refine ⟨s, rfl, hs, fun col row hm => hm, ?_⟩
    intro x0 y0 x1 y1 hmem
    contradiction
  | cons a as ih =>
    rw [List.forall_mem_cons] at hinside
    obtain ⟨t, ht, hnext, hkeep, hmark⟩ := h.step s a hs hinside.1
    obtain ⟨u, hu, hend, hkeep', hmark'⟩ := ih hnext hinside.2
    refine ⟨u, (bind_eq_ok _ _ _).mpr ⟨t, ht, hu⟩, hend, fun col row hm => hkeep' col row (hkeep col row hm), ?_⟩
    intro x0 y0 x1 y1 hmem col row hx0 hx1 hy0 hy1
    rw [List.mem_cons] at hmem
    cases hmem with
    | inl heq => exact hkeep' col row (hmark x0 y0 x1 y1 heq.symm col row hx0 hx1 hy0 hy1)
    | inr hmem => exact hmark' x0 y0 x1 y1 hmem col row hx0 hx1 hy0 hy1

theorem Marks.round (h : con.Marks width height I Marked Redrawn) (hs : I s) (k : κ)
    (hinside : ∀ a ∈ as, ConAction.Inside width height a) (hcovered : ConAction.Covered as)
    : ∃ t out, con.round s as k = .ok (t, out) ∧ I t
        ∧ ∀ col row cell, .change col row cell ∈ as → Redrawn t out col row := by
  obtain ⟨t, ht, hnext, _, hmark⟩ := h.steps hs hinside
  obtain ⟨u, out, hu, hend, hdrawn⟩ := h.flush t k hnext
  refine ⟨u, out, (bind_eq_ok _ _ _).mpr ⟨t, ht, hu⟩, hend, ?_⟩
  intro col row cell hchange
  obtain ⟨x0, y0, x1, y1, hmem, hx0, hx1, hy0, hy1⟩ := hcovered col row cell hchange
  have hcell : col < width ∧ row < height := hinside _ hchange
  exact hdrawn col row hcell.1 hcell.2 (hmark x0 y0 x1 y1 hmem col row hx0 hx1 hy0 hy1)

theorem Marks.complete (h : con.Marks width height I Marked Redrawn) {setup : Run σ} {start : σ}
    (hsetup : setup = .ok start) (hstart : I start)
    : con.Complete setup width height Redrawn := by
  refine ⟨start, hsetup, ?_⟩
  intro rounds as k hrounds
  clear hsetup
  induction rounds generalizing start with
  | nil =>
    obtain ⟨hinside, hcovered⟩ := hrounds (as, k) (List.mem_singleton_self _)
    obtain ⟨t, out, ht, _, hdrawn⟩ := h.round hstart k hinside hcovered
    exact ⟨start, t, out, rfl, ht, hdrawn⟩
  | cons r rounds ih =>
    rw [List.cons_append, List.forall_mem_cons] at hrounds
    obtain ⟨t, out, ht, hnext, _⟩ := h.round hstart r.2 hrounds.1.1 hrounds.1.2
    obtain ⟨s, u, out', hs, hu, hdrawn⟩ := ih hnext hrounds.2
    exact ⟨s, u, out', (bind_eq_ok _ _ _).mpr ⟨(t, out), ht, hs⟩, hu, hdrawn⟩

end Console

variable {b : Buffer (BitVec 8)} {width height : Nat}

theorem markRow_eq {lo n y : Nat} (hin : ∀ x, lo ≤ x → x < lo + n → (y * width + x) / 8 < b.size)
    : ∃ b', forRange (fun b x => Bitmap.mark b Fault.access (y * width + x)) n lo b = .ok b' ∧ b'.size = b.size
        ∧ (∀ j, Bitmap.bit b j = true → Bitmap.bit b' j = true)
        ∧ ∀ x, lo ≤ x → x < lo + n → Bitmap.bit b' (y * width + x) = true := by
  refine forRange_total (fun k t => t.size = b.size ∧ (∀ j, Bitmap.bit b j = true → Bitmap.bit t j = true)
    ∧ ∀ x, lo ≤ x → x < k → Bitmap.bit t (y * width + x) = true) ?_
    ⟨rfl, fun j hj => hj, fun x hlo hlt => absurd hlt (Nat.not_lt_of_le hlo)⟩
  intro k t hlo hk ⟨hsize, hkeep, hrow⟩
  have hmark : Bitmap.mark t Fault.access (y * width + k) = .ok _ :=
    Bitmap.mark_of_lt (hsize ▸ hin k hlo hk)
  obtain ⟨hsize', hbits⟩ := Bitmap.bit_mark _ hmark
  refine ⟨_, hmark, hsize'.trans hsize, ?_, ?_⟩
  . intro j hj
    rw [hbits, hkeep j hj, Bool.true_or]
  . intro x hx hlt
    rw [hbits, Bool.or_eq_true, decide_eq_true_iff]
    by_cases heq : x = k
    . exact .inr (by rw [heq])
    . exact .inl (hrow x hx (by omega))

/--
An invalidation sets the bits of its cells, and keeps the others that are set.
-/
theorem markCells_eq {x0 y0 x1 y1 : Nat}
    (hin : ∀ x y, x0 ≤ x → x ≤ x1 → y0 ≤ y → y ≤ y1 → (y * width + x) / 8 < b.size)
    : ∃ b', markCells b width x0 y0 x1 y1 = .ok b' ∧ b'.size = b.size
        ∧ (∀ j, Bitmap.bit b j = true → Bitmap.bit b' j = true)
        ∧ ∀ x y, x0 ≤ x → x ≤ x1 → y0 ≤ y → y ≤ y1 → Bitmap.bit b' (y * width + x) = true := by
  obtain ⟨t, ht, hsize, hkeep, hrows⟩ := forRange_total (n := y1 + 1 - y0) (i := y0) (s := b)
    (fun k t => t.size = b.size ∧ (∀ j, Bitmap.bit b j = true → Bitmap.bit t j = true)
      ∧ ∀ x y, x0 ≤ x → x ≤ x1 → y0 ≤ y → y < k → Bitmap.bit t (y * width + x) = true)
    (by
      intro k t hlo hk ⟨hsize, hkeep, hrows⟩
      obtain ⟨u, hu, hsize', hkeep', hrow⟩ := @markRow_eq t width x0 (x1 + 1 - x0) k
        (fun x hx hlt => hsize ▸ hin x k hx (by lia) hlo (by lia))
      refine ⟨u, hu, hsize'.trans hsize, fun j hj => hkeep' j (hkeep j hj), ?_⟩
      intro x y hx hx' hy hy'
      by_cases heq : y = k
      . rw [heq]
        exact hrow x hx (by lia)
      . exact hkeep' _ (hrows x y hx hx' hy (by lia)))
    ⟨rfl, fun j hj => hj, fun x y _ _ hy hlt => by omega⟩
  exact ⟨t, ht, hsize, hkeep, fun x y hx hx' hy hy' => hrows x y hx hx' hy (by lia)⟩

/--
The number of cells for which the buffer and the map of a console are large enough.
-/
structure CellsFit (n : Nat) : Prop where
  pos : 0 < n
  dvd : 8 ∣ n
  size : n * sizeofCharCell < 2 ^ 32

theorem CellsFit.charBuffer {n : Nat} (h : CellsFit n)
    : reallocZeroed n sizeofCharCell zeroCell = .ok (Buffer.filled n zeroCell) := by
  unfold reallocZeroed
  rw [u32_of_lt h.size, if_neg (Nat.mul_pos h.pos (by decide)).ne', Nat.mul_div_cancel _ (by decide)]

theorem CellsFit.diffBuffer {n : Nat} (h : CellsFit n)
    : reallocZeroed (n / 8) 1 (0 : BitVec 8) = .ok (Buffer.filled (n / 8) 0) := by
  have hpos := h.pos
  have hdvd := h.dvd
  have hsize := h.size
  unfold sizeofCharCell at hsize
  unfold reallocZeroed
  rw [u32_of_lt (by omega), if_neg (by omega), Nat.div_one, Nat.mul_one]

theorem size_reallocZeroed {α : Type} {count size : Nat} {zero : α} {b : Buffer α}
    (h : reallocZeroed count size zero = .ok b)
    : 0 < count ∧ b.size * size ≤ count * size ∧ b.size * size < 2 ^ 32 := by
  unfold reallocZeroed at h
  split at h
  . contradiction
  next hne =>
    cases h
    have hle : u32 (count * size) / size * size ≤ u32 (count * size) := Nat.div_mul_le_self _ _
    have hmod : u32 (count * size) ≤ count * size := Nat.mod_le _ _
    have hlt := u32_lt (count * size)
    refine ⟨Nat.pos_of_ne_zero ?_, Nat.le_trans hle hmod, Nat.lt_of_le_of_lt hle hlt⟩
    rintro rfl
    rw [Nat.zero_mul] at hne
    exact hne rfl

/--
The last cell is in the buffer and has a bit in the map only when they are large enough.
-/
theorem CellsFit.of_last {n : Nat} {chars : Buffer CharCell} {diffs : Buffer (BitVec 8)}
    (hchars : reallocZeroed n sizeofCharCell zeroCell = .ok chars) (hdiffs : reallocZeroed (n / 8) 1 0 = .ok diffs)
    (hchar : n - 1 < chars.size) (hdiff : (n - 1) / 8 < diffs.size)
    : CellsFit n := by
  obtain ⟨hpos, _, hlt⟩ := size_reallocZeroed hchars
  obtain ⟨_, hle, _⟩ := size_reallocZeroed hdiffs
  unfold sizeofCharCell at hlt
  refine ⟨hpos, by lia, ?_⟩
  unfold sizeofCharCell
  omega

theorem CellsFit.div_lt {n i : Nat} (h : CellsFit n) (hi : i < n) : i / 8 < n / 8 := by
  have := h.dvd
  omega

/--
A text mode as the firmware reports it.
-/
structure TextMode extends VbeVideoModeInfo where
  text : memoryModel = .text

/--
The console of the video device in a text mode.
-/
def textConsole (enc : Nat → Except Status (BitVec 8)) : Console VgaData Unit Unit where
  step data a := match a with
    | .change col row cell =>
      match data.getDimension with
      | .error _ => .ok data
      | .ok ⟨width, _⟩ => do
        let charBuffer ← data.charBuffer.set .access (row * width + col) cell
        .ok { data with charBuffer }
    | .invalidate x0 y0 x1 y1 => do
      let ⟨_, data⟩ ← data.conInvalidate x0 y0 x1 y1
      .ok data
    | .setCursorPos _ _ => .ok data
  flush data _ := do
    let ⟨_, data⟩ ← data.conFlush enc
    .ok ⟨data, ()⟩

namespace VgaData

/--
What the hardware has for a cell.
-/
def word (data : VgaData) (i : Nat) : Nat := Bytes.read data.memory (vgaTextBase + 2 * i) 2

/--
The hardware has a cell as it is in the buffer.
-/
def Redrawn (enc : Nat → Except Status (BitVec 8)) (data : VgaData) (_ : Unit) (col row : Nat) : Prop :=
  ∀ width height, data.getDimension = .ok ⟨width, height⟩ →
    data.word (row * width + col) = (textCell enc (data.charBuffer.data (row * width + col))).toNat

structure TextReady (width height : Nat) (data : VgaData) : Prop where
  idle : data.isSwitchingMode = false
  dimension : data.getDimension = .ok ⟨width, height⟩
  charSize : data.charBuffer.size = width * height
  diffSize : data.diffBuffer.size = width * height / 8

variable {data t : VgaData} {enc : Nat → Except Status (BitVec 8)}

theorem TextReady.diff_lt (h : TextReady width height data) (hfit : CellsFit (width * height)) {x y : Nat}
    (hx : x < width) (hy : y < height)
    : (y * width + x) / 8 < data.diffBuffer.size := by
  rw [h.diffSize]
  exact hfit.div_lt (Buffer.row_lt hx hy)

theorem TextReady.of_diffBuffer (h : TextReady width height data) {diffBuffer : Buffer (BitVec 8)}
    (hsize : diffBuffer.size = data.diffBuffer.size)
    : TextReady width height { data with diffBuffer } :=
  ⟨h.idle, h.dimension, h.charSize, hsize.trans h.diffSize⟩

/--
The cells in front of `i` are drawn if their bits were set, and nothing else has changed.
-/
structure Flushed (enc : Nat → Except Status (BitVec 8)) (width height : Nat) (start : VgaData) (i : Nat)
    (data : VgaData) : Prop where
  ready : TextReady width height data
  chars : data.charBuffer = start.charBuffer
  bits : ∀ j, i ≤ j → Bitmap.bit data.diffBuffer j = Bitmap.bit start.diffBuffer j
  drawn : ∀ j, j < i → Bitmap.bit start.diffBuffer j = true →
    data.word j = (textCell enc (start.charBuffer.data j)).toNat

theorem flushCell_eq (hfit : CellsFit (width * height)) {start : VgaData} {x y : Nat} (hx : x < width)
    (hy : y < height) (h : Flushed enc width height start (y * width + x) data)
    : ∃ t, data.flushCell enc (y * width + x) = .ok t ∧ Flushed enc width height start (y * width + x + 1) t := by
  have hlt := h.ready.diff_lt hfit hx hy
  have hchar : y * width + x < data.charBuffer.size := by
    rw [h.ready.charSize]
    exact Buffer.row_lt hx hy
  unfold flushCell
  rw [Bitmap.test_of_lt hlt]
  generalize y * width + x = i at *
  by_cases hbit : Bitmap.bit data.diffBuffer i = true
  . have hclear : Bitmap.clear data.diffBuffer Fault.access _ = .ok _ := Bitmap.clear_of_lt hlt
    obtain ⟨hsize, hbits⟩ := Bitmap.bit_clear _ hclear
    rw [hbit]
    refine ⟨_, (bind_eq_ok _ _ _).mpr ⟨true, rfl, (bind_eq_ok _ _ _).mpr ⟨_, Buffer.get_of_lt hchar,
      (bind_eq_ok _ _ _).mpr ⟨_, hclear, rfl⟩⟩⟩, ?_⟩
    have hready := h.ready.of_diffBuffer hsize
    refine ⟨⟨hready.idle, hready.dimension, hready.charSize, hready.diffSize⟩, h.chars, ?_, ?_⟩
    . intro j hj
      dsimp only
      rw [hbits, decide_eq_false (by omega), Bool.not_false, Bool.and_true]
      exact h.bits j (by omega)
    . intro j hj hset
      unfold word
      dsimp only
      by_cases heq : j = i
      . rw [heq, Bytes.read_write_of_lt (BitVec.isLt _), h.chars]
      . rw [Bytes.read_write_disjoint (by lia)]
        exact h.drawn j (by lia) hset
  . rw [Bool.eq_false_of_not_eq_true hbit]
    refine ⟨data, rfl, h.ready, h.chars, fun j hj => h.bits j (by omega), ?_⟩
    intro j hj hset
    by_cases heq : j = i
    . subst heq
      rw [h.bits j (Nat.le_refl j)] at hbit
      exact absurd hset hbit
    . exact h.drawn j (by lia) hset

theorem textMarks (hfit : CellsFit (width * height))
    : (textConsole enc).Marks width height (TextReady width height)
        (fun data col row => Bitmap.bit data.diffBuffer (row * width + col) = true) (Redrawn enc) := by
  constructor
  . intro data a h hinside
    cases a with
    | change col row cell =>
      have hlt : row * width + col < data.charBuffer.size := by
        rw [h.charSize]
        exact Buffer.row_lt hinside.1 hinside.2
      unfold textConsole
      dsimp only
      rw [h.dimension]
      refine ⟨_, (bind_eq_ok _ _ _).mpr ⟨_, Buffer.set_of_lt hlt, rfl⟩, ?_, fun _ _ hm => hm, fun _ _ _ _ heq => ?_⟩
      . exact ⟨h.idle, h.dimension, h.charSize, h.diffSize⟩
      . contradiction
    | invalidate x0 y0 x1 y1 =>
      obtain ⟨b, hb, hsize, hkeep, hmark⟩ := @markCells_eq data.diffBuffer width x0 y0 x1 y1
        (fun x y _ hx _ hy => h.diff_lt hfit (Nat.lt_of_le_of_lt hx hinside.1) (Nat.lt_of_le_of_lt hy hinside.2))
      have hcon : data.conInvalidate x0 y0 x1 y1 = .ok ⟨.success, { data with diffBuffer := b }⟩ := by
        unfold conInvalidate
        rw [if_neg (by rw [h.idle]; decide), h.dimension]
        exact (bind_eq_ok _ _ _).mpr ⟨b, hb, rfl⟩
      refine ⟨{ data with diffBuffer := b }, (bind_eq_ok _ _ _).mpr ⟨_, hcon, rfl⟩, h.of_diffBuffer hsize,
        fun col row hm => hkeep _ hm, ?_⟩
      . intro x0' y0' x1' y1' heq col row hx0 hx1 hy0 hy1
        cases heq
        exact hmark col row hx0 hx1 hy0 hy1
    | setCursorPos col row => exact ⟨data, rfl, h, fun _ _ hm => hm, fun _ _ _ _ heq => by contradiction⟩
  . intro data k h
    have hstart : Flushed enc width height data 0 data :=
      ⟨h, rfl, fun _ _ => rfl, fun j hj => absurd hj (Nat.not_lt_zero j)⟩
    obtain ⟨t, ht, hflushed⟩ := forRange_rows (fun i t => Flushed enc width height data i t)
      (fun y x t hy hx ht => flushCell_eq hfit hx hy ht) hstart
    have hcon : data.conFlush enc = .ok ⟨.success, t⟩ := by
      unfold conFlush
      rw [if_neg (by rw [h.idle]; decide), h.dimension]
      exact (bind_eq_ok _ _ _).mpr ⟨t, ht, rfl⟩
    refine ⟨t, (), (bind_eq_ok _ _ _).mpr ⟨_, hcon, rfl⟩, hflushed.ready, ?_⟩
    . intro col row hcol hrow hbit width' height' hdimension
      rw [hflushed.ready.dimension] at hdimension
      cases hdimension
      rw [hflushed.chars]
      apply hflushed.drawn _ _ hbit
      rw [Nat.mul_comm height]
      exact Buffer.row_lt hcol hrow

end VgaData

/--
The console that is drawn in a frame buffer. Showing or hiding the cursor flushes it as well.
-/
def graphicsConsole (font : Font) : Console VconsoleData (Option Bool) (List FbAction) where
  step data a := match a with
    | .change col row cell => do
      let charBuffer ← data.charBuffer.set .access (row * data.cols + col) cell
      .ok { data with charBuffer }
    | .invalidate x0 y0 x1 y1 => do
      let ⟨_, data⟩ ← data.invalidate x0 y0 x1 y1
      .ok data
    | .setCursorPos col row => .ok (data.setCursorPos col row)
  flush data visibility := do
    let ⟨_, data, drawn⟩ ← match visibility with
      | none => data.flush font
      | some visibility => data.setCursorVisibility font visibility
    .ok ⟨data, drawn⟩

namespace VconsoleData

/--
A cell is drawn in the frame buffer as it is in the buffer of the console.
-/
def Redrawn (font : Font) (data : VconsoleData) (drawn : List FbAction) (col row : Nat) : Prop :=
  ∃ before after, drawn = before ++ drawChar font (data.charBuffer.data (row * data.cols + col)) col row ++ after

structure GraphicsReady (cols rows : Nat) (data : VconsoleData) : Prop where
  idle : data.isSwitchingMode = false
  cols_eq : data.cols = cols
  rows_eq : data.rows = rows
  charSize : data.charBuffer.size = cols * rows
  diffSize : data.diffBuffer.size = cols * rows / 8

variable {font : Font} {data : VconsoleData} {cols rows : Nat} {drawn : List FbAction}

theorem GraphicsReady.diff_lt (h : GraphicsReady cols rows data) (hfit : CellsFit (cols * rows)) {x y : Nat}
    (hx : x < cols) (hy : y < rows)
    : (y * cols + x) / 8 < data.diffBuffer.size := by
  rw [h.diffSize]
  exact hfit.div_lt (Buffer.row_lt hx hy)

theorem GraphicsReady.of_diffBuffer (h : GraphicsReady cols rows data) {diffBuffer : Buffer (BitVec 8)}
    (hsize : diffBuffer.size = data.diffBuffer.size)
    : GraphicsReady cols rows { data with diffBuffer } :=
  ⟨h.idle, h.cols_eq, h.rows_eq, h.charSize, hsize.trans h.diffSize⟩

/--
The cells in front of `i` are drawn if their bits were set.
-/
structure Flushed (font : Font) (cols rows : Nat) (start : VconsoleData) (i : Nat)
    (s : VconsoleData × List FbAction) : Prop where
  ready : GraphicsReady cols rows s.1
  chars : s.1.charBuffer = start.charBuffer
  bits : ∀ j, i ≤ j → Bitmap.bit s.1.diffBuffer j = Bitmap.bit start.diffBuffer j
  drawn : ∀ col row, col < cols → row * cols + col < i → Bitmap.bit start.diffBuffer (row * cols + col) = true →
    ∃ before after, s.2 = before ++ drawChar font (start.charBuffer.data (row * cols + col)) col row ++ after

theorem Flushed.append {start : VconsoleData} {i : Nat} {s : VconsoleData × List FbAction}
    (h : Flushed font cols rows start i s) (more : List FbAction) {col row : Nat} (hcol : col < cols)
    (hlt : row * cols + col < i) (hbit : Bitmap.bit start.diffBuffer (row * cols + col) = true)
    : ∃ before after, s.2 ++ more
        = before ++ drawChar font (start.charBuffer.data (row * cols + col)) col row ++ after := by
  obtain ⟨before, after, heq⟩ := h.drawn col row hcol hlt hbit
  exact ⟨before, after ++ more, by rw [heq, List.append_assoc]⟩

theorem flushCell_eq (hfit : CellsFit (cols * rows)) {start : VconsoleData} {x y : Nat} (hx : x < cols)
    (hy : y < rows) {s : VconsoleData × List FbAction} (h : Flushed font cols rows start (y * cols + x) s)
    : ∃ t, flushCell font y s x = .ok t ∧ Flushed font cols rows start (y * cols + x + 1) t := by
  obtain ⟨data, drawn⟩ := s
  have hlt : (y * cols + x) / 8 < data.diffBuffer.size := h.ready.diff_lt hfit hx hy
  have hchar : y * cols + x < data.charBuffer.size := by
    rw [h.ready.charSize]
    exact Buffer.row_lt hx hy
  have hcols : data.cols = cols := h.ready.cols_eq
  subst hcols
  unfold flushCell
  dsimp only
  rw [Bitmap.test_of_lt hlt]
  -- the bit is cleared whether it was set or the cursor has been there
  by_cases hdraw : (Bitmap.bit data.diffBuffer (y * data.cols + x)
      || (data.cursorMoved && (data.cursorPrevCol == x && data.cursorPrevRow == y))) = true
  . have hclear : Bitmap.clear data.diffBuffer Fault.access _ = .ok _ := Bitmap.clear_of_lt hlt
    obtain ⟨hsize, hbits⟩ := Bitmap.bit_clear _ hclear
    refine ⟨_, (bind_eq_ok _ _ _).mpr ⟨_, rfl, (if_pos hdraw).trans ((bind_eq_ok _ _ _).mpr
      ⟨_, Buffer.get_of_lt hchar, (bind_eq_ok _ _ _).mpr ⟨_, hclear, rfl⟩⟩)⟩, ?_⟩
    refine ⟨h.ready.of_diffBuffer hsize, h.chars, ?_, ?_⟩
    . intro j hj
      dsimp only
      rw [hbits, decide_eq_false (by omega), Bool.not_false, Bool.and_true]
      exact h.bits j (by omega)
    . intro col row hcol hlt' hbit
      by_cases heq : row * data.cols + col = y * data.cols + x
      . obtain ⟨rfl, rfl⟩ := Buffer.row_inj hcol hx heq
        rw [← h.chars]
        exact ⟨drawn, [], (List.append_nil _).symm⟩
      . exact h.append _ hcol (by lia) hbit
  . refine ⟨(data, drawn), (bind_eq_ok _ _ _).mpr ⟨_, rfl, if_neg hdraw⟩, h.ready, h.chars,
      fun j hj => h.bits j (by omega), ?_⟩
    intro col row hcol hlt' hbit
    by_cases heq : row * data.cols + col = y * data.cols + x
    . rw [heq, ← h.bits _ (Nat.le_refl _)] at hbit
      exact absurd (by rw [hbit]; rfl) hdraw
    . exact h.drawn col row hcol (by lia) hbit

theorem flush_eq (hfit : CellsFit (cols * rows)) (h : GraphicsReady cols rows data)
    : ∃ t drawn, data.flush font = .ok ⟨.success, t, drawn⟩ ∧ GraphicsReady cols rows t
        ∧ ∀ col row, col < cols → row < rows → Bitmap.bit data.diffBuffer (row * cols + col) = true →
          Redrawn font t drawn col row := by
  have hstart : Flushed font cols rows data 0 (data, []) :=
    ⟨h, rfl, fun _ _ => rfl, fun _ _ _ hj => absurd hj (Nat.not_lt_zero _)⟩
  obtain ⟨⟨t, drawn⟩, ht, hflushed⟩ := forRange_rows
    (Flushed font cols rows data) (fun y x t hy hx ht => flushCell_eq hfit hx hy ht) hstart
  have hcell (more : List FbAction) {col row : Nat} (hcol : col < cols) (hrow : row < rows)
      (hbit : Bitmap.bit data.diffBuffer (row * cols + col) = true) : Redrawn font t (drawn ++ more) col row := by
    unfold Redrawn
    rw [hflushed.ready.cols_eq, hflushed.chars]
    refine hflushed.append more hcol ?_ hbit
    rw [Nat.mul_comm rows]
    exact Buffer.row_lt hcol hrow
  unfold flush
  rw [if_neg (by rw [h.idle]; decide), h.cols_eq, h.rows_eq, ht]
  by_cases hmoved : t.cursorMoved = true
  . refine ⟨{ t with cursorPrevCol := t.cursorCol, cursorPrevRow := t.cursorRow },
      drawn ++ if t.cursorVisible then drawCursor t.cursorCol t.cursorRow else [], ?_, ?_, ?_⟩
    . refine (bind_eq_ok _ _ _).mpr ⟨(t, drawn), rfl, ?_⟩
      dsimp only
      rw [if_pos hmoved]
      cases t.cursorVisible
      . rw [if_neg nofun, if_neg nofun, List.append_nil]
      . rw [if_pos rfl, if_pos rfl]
    . exact ⟨hflushed.ready.idle, hflushed.ready.cols_eq, hflushed.ready.rows_eq, hflushed.ready.charSize,
        hflushed.ready.diffSize⟩
    . exact fun col row hcol hrow hbit => hcell _ hcol hrow hbit
  . refine ⟨t, drawn, (bind_eq_ok _ _ _).mpr ⟨(t, drawn), rfl, if_neg hmoved⟩, hflushed.ready, ?_⟩
    intro col row hcol hrow hbit
    have := hcell [] hcol hrow hbit
    rwa [List.append_nil] at this

theorem graphicsMarks (hfit : CellsFit (cols * rows))
    : (graphicsConsole font).Marks cols rows (GraphicsReady cols rows)
        (fun data col row => Bitmap.bit data.diffBuffer (row * cols + col) = true) (Redrawn font) := by
  constructor
  . intro data a h hinside
    cases a with
    | change col row cell =>
      have hlt : row * data.cols + col < data.charBuffer.size := by
        rw [h.cols_eq, h.charSize]
        exact Buffer.row_lt hinside.1 hinside.2
      refine ⟨_, (bind_eq_ok _ _ _).mpr ⟨_, Buffer.set_of_lt hlt, rfl⟩, ?_, fun _ _ hm => hm, fun _ _ _ _ heq => ?_⟩
      . exact ⟨h.idle, h.cols_eq, h.rows_eq, h.charSize, h.diffSize⟩
      . contradiction
    | invalidate x0 y0 x1 y1 =>
      obtain ⟨b, hb, hsize, hkeep, hmark⟩ := @markCells_eq data.diffBuffer cols x0 y0 x1 y1
        (fun x y _ hx _ hy => h.diff_lt hfit (Nat.lt_of_le_of_lt hx hinside.1) (Nat.lt_of_le_of_lt hy hinside.2))
      have hcon : data.invalidate x0 y0 x1 y1 = .ok ⟨.success, { data with diffBuffer := b }⟩ := by
        unfold invalidate
        rw [if_neg (by rw [h.idle]; decide)]
        refine (bind_eq_ok _ _ _).mpr ⟨b, ?_, rfl⟩
        rw [h.cols_eq]
        exact hb
      refine ⟨{ data with diffBuffer := b }, (bind_eq_ok _ _ _).mpr ⟨_, hcon, rfl⟩, h.of_diffBuffer hsize,
        fun col row hm => hkeep _ hm, ?_⟩
      intro x0' y0' x1' y1' heq col row hx0 hx1 hy0 hy1
      cases heq
      exact hmark col row hx0 hx1 hy0 hy1
    | setCursorPos col row =>
      refine ⟨data.setCursorPos col row, rfl, ?_, fun _ _ hm => hm, fun _ _ _ _ heq => by contradiction⟩
      exact ⟨h.idle, h.cols_eq, h.rows_eq, h.charSize, h.diffSize⟩
  . intro data visibility h
    cases visibility with
    | none =>
      obtain ⟨t, drawn, ht, hnext, hdrawn⟩ := @flush_eq font _ _ _ hfit h
      exact ⟨t, drawn, (bind_eq_ok _ _ _).mpr ⟨_, ht, rfl⟩, hnext, hdrawn⟩
    | some visibility =>
      obtain ⟨t, drawn, ht, hnext, hdrawn⟩ := @flush_eq font
        { data with cursorVisible := visibility } _ _ hfit ⟨h.idle, h.cols_eq, h.rows_eq, h.charSize, h.diffSize⟩
      exact ⟨t, drawn, (bind_eq_ok _ _ _).mpr ⟨_, ht, rfl⟩, hnext, hdrawn⟩

end VconsoleData

theorem lt_of_markCells {x y : Nat} {b' : Buffer (BitVec 8)} (h : markCells b width x y x y = .ok b')
    : (y * width + x) / 8 < b.size := by
  unfold markCells at h
  rw [Nat.add_sub_cancel_left, Nat.add_sub_cancel_left] at h
  obtain ⟨_, hrow, _⟩ := (bind_eq_ok _ _ _).mp h
  obtain ⟨_, hmark, _⟩ := (bind_eq_ok _ _ _).mp hrow
  obtain ⟨_, hget, _⟩ := (bind_eq_ok _ _ _).mp hmark
  exact (Buffer.get_eq_ok hget).1

/--
The last cell is changed and invalidated.
-/
def changeLast (width height : Nat) : List ConAction :=
  [.change (width - 1) (height - 1) zeroCell, .invalidate (width - 1) (height - 1) (width - 1) (height - 1)]

theorem changeLast_ok (hpos : 0 < width * height)
    : (∀ a ∈ changeLast width height, ConAction.Inside width height a)
        ∧ ConAction.Covered (changeLast width height) := by
  have hwidth : 0 < width := Nat.pos_of_mul_pos_right hpos
  have hheight : 0 < height := Nat.pos_of_mul_pos_left hpos
  constructor
  . unfold changeLast
    rw [List.forall_mem_cons, List.forall_mem_singleton]
    exact ⟨⟨by omega, by omega⟩, by omega, by omega⟩
  . intro col row cell hmem
    unfold changeLast at hmem
    rw [List.mem_cons, List.mem_singleton] at hmem
    obtain heq | heq := hmem
    . cases heq
      exact ⟨_, _, _, _, List.mem_cons_of_mem _ (List.mem_singleton_self _), Nat.le_refl _, Nat.le_refl _,
        Nat.le_refl _, Nat.le_refl _⟩
    . contradiction

theorem last_eq (hpos : 0 < width * height) : (height - 1) * width + (width - 1) = width * height - 1 := by
  have hheight : 0 < height := Nat.pos_of_mul_pos_left hpos
  have hwidth : 0 < width := Nat.pos_of_mul_pos_right hpos
  have harea : (height - 1) * width + width = width * height := by
    rw [← Nat.succ_mul, Nat.succ_eq_add_one, Nat.sub_add_cancel hheight, Nat.mul_comm]
  lia

namespace VgaData

variable {data : VgaData} {enc : Nat → Except Status (BitVec 8)}

def setTextMode (data : VgaData) (number : Nat) (mode : TextMode) : Run VgaData := do
  let ⟨_, data⟩ ← data.setModeVbe number (.ok mode.toVbeVideoModeInfo)
  .ok data

def setVgaMode (data : VgaData) (number : Nat) : Run VgaData := do
  let ⟨_, data⟩ ← data.setModeVga number
  .ok data

theorem setupTextBuffer_eq (hfit : CellsFit (width * height))
    : data.setupTextBuffer width height
        = .ok { data with
          charBuffer := Buffer.filled (width * height) zeroCell
          frameBuffer := Buffer.filled 0 0
          diffBuffer := Buffer.filled (width * height / 8) 0 } := by
  unfold setupTextBuffer
  rw [hfit.charBuffer, hfit.diffBuffer]
  rfl

theorem setTextMode_ready (number : Nat) (mode : TextMode) (hfit : CellsFit (mode.width * mode.height))
    : ∃ start, data.setTextMode number mode = .ok start ∧ TextReady mode.width mode.height start := by
  have hdimension (t : VgaData) (hvbe : t.modeSetByVbe = true) (hinfo : t.vbeModeInfo = mode.toVbeVideoModeInfo)
      : t.getDimension = .ok ⟨mode.width, mode.height⟩ := by
    unfold getDimension
    rw [if_pos hvbe, hinfo, if_neg (fun hne => hne mode.text)]
  unfold setTextMode setModeVbe
  dsimp only
  rw [if_pos mode.text, setupTextBuffer_eq hfit]
  refine ⟨_, rfl, ?_⟩
  by_cases hframe : mode.framebuffer = 0
  . rw [if_pos hframe]
    exact ⟨rfl, hdimension _ rfl rfl, rfl, rfl⟩
  . rw [if_neg hframe]
    exact ⟨rfl, hdimension _ rfl rfl, rfl, rfl⟩

theorem setVgaMode_ready
    : (∃ start, data.setVgaMode 0x00 = .ok start ∧ TextReady 40 25 start)
        ∧ ∃ start, data.setVgaMode 0x03 = .ok start ∧ TextReady 80 25 start := by
  have hfit0 : CellsFit (40 * 25) := ⟨by decide, by decide, by decide⟩
  have hfit3 : CellsFit (80 * 25) := ⟨by decide, by decide, by decide⟩
  constructor
  . unfold setVgaMode setModeVga setModeVga.set
    dsimp only
    rw [setupTextBuffer_eq hfit0]
    exact ⟨_, rfl, rfl, rfl, rfl, rfl⟩
  . unfold setVgaMode setModeVga setModeVga.set
    dsimp only
    rw [setupTextBuffer_eq hfit3]
    exact ⟨_, rfl, rfl, rfl, rfl, rfl⟩

theorem cellsFit_of_round {start t : VgaData} (hidle : start.isSwitchingMode = false)
    (hdimension : start.getDimension = .ok ⟨width, height⟩)
    (hchars : reallocZeroed (width * height) sizeofCharCell zeroCell = .ok start.charBuffer)
    (hdiffs : reallocZeroed (width * height / 8) 1 0 = .ok start.diffBuffer)
    (hround : (textConsole enc).round start (changeLast width height) () = .ok (t, ()))
    : CellsFit (width * height) := by
  have hpos := (size_reallocZeroed hchars).1
  obtain ⟨_, hsteps, _⟩ := (bind_eq_ok _ _ _).mp hround
  obtain ⟨u, hchange, hrest⟩ := (bind_eq_ok _ _ _).mp hsteps
  unfold textConsole at hchange
  dsimp only at hchange
  rw [hdimension] at hchange
  obtain ⟨chars, hset, heq⟩ := (bind_eq_ok _ _ _).mp hchange
  cases heq
  obtain ⟨_, hinvalidate, _⟩ := (bind_eq_ok _ _ _).mp hrest
  obtain ⟨_, hinvalidate, _⟩ := (bind_eq_ok _ _ _).mp hinvalidate
  have hdimension' : getDimension { start with charBuffer := chars } = .ok ⟨width, height⟩ := hdimension
  unfold conInvalidate at hinvalidate
  rw [if_neg (by rw [hidle]; decide), hdimension'] at hinvalidate
  obtain ⟨_, hmark, _⟩ := (bind_eq_ok _ _ _).mp hinvalidate
  have hchar := (Buffer.set_eq_ok hset).1
  have hdiff := lt_of_markCells hmark
  rw [last_eq hpos] at hchar hdiff
  exact CellsFit.of_last hchars hdiffs hchar hdiff

/--
A text console in which the last cell can be changed and flushed has room for its cells.
-/
theorem cellsFit_of_complete {number : Nat} {mode : TextMode}
    (h : (textConsole enc).Complete (data.setTextMode number mode) mode.width mode.height (Redrawn enc))
    : CellsFit (mode.width * mode.height) := by
  obtain ⟨start, hstart, hrounds⟩ := h
  unfold setTextMode setModeVbe at hstart
  dsimp only at hstart
  rw [if_pos mode.text] at hstart
  obtain ⟨⟨_, t⟩, hmode, heq⟩ := (bind_eq_ok _ _ _).mp hstart
  cases heq
  obtain ⟨u, hsetup, heq⟩ := (bind_eq_ok _ _ _).mp hmode
  obtain ⟨chars, hchars, hsetup⟩ := (bind_eq_ok _ _ _).mp hsetup
  obtain ⟨diffs, hdiffs, hsetup⟩ := (bind_eq_ok _ _ _).mp hsetup
  cases hsetup
  obtain ⟨_, v, out, hnil, hround, _⟩ := hrounds [] (changeLast mode.width mode.height) () (by
    rw [List.nil_append, List.forall_mem_singleton]
    exact changeLast_ok (size_reallocZeroed hchars).1)
  cases hnil
  have hdimension (t : VgaData) (hvbe : t.modeSetByVbe = true) (hinfo : t.vbeModeInfo = mode.toVbeVideoModeInfo)
      : t.getDimension = .ok ⟨mode.width, mode.height⟩ := by
    unfold getDimension
    rw [if_pos hvbe, hinfo, if_neg (fun hne => hne mode.text)]
  by_cases hframe : mode.framebuffer = 0
  . rw [if_pos hframe] at heq
    cases heq
    exact cellsFit_of_round rfl (hdimension _ rfl rfl) hchars hdiffs hround
  . rw [if_neg hframe] at heq
    cases heq
    exact cellsFit_of_round rfl (hdimension _ rfl rfl) hchars hdiffs hround

end VgaData

namespace VconsoleData

variable {data : VconsoleData} {font : Font}

def setGraphicsMode (font : Font) (data : VconsoleData) (width height : Nat) : Run VconsoleData := do
  let ⟨data, _⟩ ← data.videoModeCallback font width height
  .ok data

/--
The invalidation and the flush of `videoModeCallback` do nothing, since the mode is being switched.
-/
theorem setGraphicsMode_eq {chars : Buffer CharCell} {diffs : Buffer (BitVec 8)} {width height : Nat}
    (hchars : reallocZeroed (width / 8 * (height / 16)) sizeofCharCell zeroCell = .ok chars)
    (hdiffs : reallocZeroed (width / 8 * (height / 16) / 8) 1 0 = .ok diffs)
    : data.setGraphicsMode font width height
        = .ok {
          isSwitchingMode := false
          cols := width / 8
          rows := height / 16
          cursorCol := 0
          cursorRow := 0
          cursorPrevCol := 0
          cursorPrevRow := 0
          cursorVisible := data.cursorVisible
          charBuffer := chars
          diffBuffer := diffs } := by
  unfold setGraphicsMode videoModeCallback
  dsimp only
  rw [hchars, hdiffs]
  rfl

theorem cellsFit_of_complete {width height : Nat}
    (h : (graphicsConsole font).Complete (data.setGraphicsMode font width height) (width / 8) (height / 16)
      (Redrawn font))
    : CellsFit (width / 8 * (height / 16)) := by
  obtain ⟨start, hstart, hrounds⟩ := h
  obtain ⟨_, hcallback, _⟩ := (bind_eq_ok _ _ _).mp hstart
  obtain ⟨chars, hchars, hcallback⟩ := (bind_eq_ok _ _ _).mp hcallback
  obtain ⟨diffs, hdiffs, _⟩ := (bind_eq_ok _ _ _).mp hcallback
  rw [setGraphicsMode_eq hchars hdiffs] at hstart
  cases hstart
  generalize width / 8 = cols at *
  generalize height / 16 = rows at *
  have hpos := (size_reallocZeroed hchars).1
  obtain ⟨_, t, out, hnil, hround, _⟩ := hrounds [] (changeLast cols rows) none (by
    rw [List.nil_append, List.forall_mem_singleton]
    exact changeLast_ok hpos)
  cases hnil
  obtain ⟨_, hsteps, _⟩ := (bind_eq_ok _ _ _).mp hround
  obtain ⟨_, hchange, hrest⟩ := (bind_eq_ok _ _ _).mp hsteps
  obtain ⟨_, hset, heq⟩ := (bind_eq_ok _ _ _).mp hchange
  cases heq
  obtain ⟨_, hinvalidate, _⟩ := (bind_eq_ok _ _ _).mp hrest
  obtain ⟨_, hinvalidate, _⟩ := (bind_eq_ok _ _ _).mp hinvalidate
  obtain ⟨_, hmark, _⟩ := (bind_eq_ok _ _ _).mp hinvalidate
  have hchar := (Buffer.set_eq_ok hset).1
  have hdiff := lt_of_markCells hmark
  dsimp only at hchar hdiff
  rw [last_eq hpos] at hchar hdiff
  exact CellsFit.of_last hchars hdiffs hchar hdiff

end VconsoleData

/--
In both consoles every cell has a bit in the map, and a flush draws what has changed, exactly for the sizes
whose number of cells is a positive multiple of eight that the buffer has room for. The text modes that are
set without VBE have such a size.
-/
theorem consoleMap_iff (font : Font) (enc : Nat → Except Status (BitVec 8)) (data : VconsoleData)
    (text : VgaData) (width height number : Nat) (mode : TextMode)
    : ((graphicsConsole font).Complete (data.setGraphicsMode font width height) (width / 8) (height / 16)
            (VconsoleData.Redrawn font)
          ↔ CellsFit (width / 8 * (height / 16)))
        ∧ ((textConsole enc).Complete (text.setTextMode number mode) mode.width mode.height (VgaData.Redrawn enc)
          ↔ CellsFit (mode.width * mode.height))
        ∧ (textConsole enc).Complete (text.setVgaMode 0x00) 40 25 (VgaData.Redrawn enc)
        ∧ (textConsole enc).Complete (text.setVgaMode 0x03) 80 25 (VgaData.Redrawn enc) := by
  refine ⟨?_, ?_, ?_⟩
  . refine ⟨VconsoleData.cellsFit_of_complete, fun hfit => ?_⟩
    exact (VconsoleData.graphicsMarks hfit).complete (VconsoleData.setGraphicsMode_eq hfit.charBuffer hfit.diffBuffer)
      ⟨rfl, rfl, rfl, rfl, rfl⟩
  . refine ⟨VgaData.cellsFit_of_complete, fun hfit => ?_⟩
    obtain ⟨start, hstart, hready⟩ := @VgaData.setTextMode_ready text number mode hfit
    exact (VgaData.textMarks hfit).complete hstart hready
  . obtain ⟨⟨start0, hstart0, hready0⟩, start3, hstart3, hready3⟩ := @VgaData.setVgaMode_ready text
    exact ⟨(VgaData.textMarks ⟨by decide, by decide, by decide⟩).complete hstart0 hready0,
      (VgaData.textMarks ⟨by decide, by decide, by decide⟩).complete hstart3 hready3⟩

def emptyFont : Font := ⟨fun _ => .error .entryNotFound, fun _ => .error .entryNotFound⟩

/--
As `probe` leaves it, without the mode.
-/
def newVconsole : VconsoleData :=
  ⟨false, 0, 0, 0, 0, 0, 0, true, Buffer.filled 0 zeroCell, Buffer.filled 0 0⟩

/--
A mode of 800 columns and 600 rows of pixels has 3700 cells, of which the last four have no bit in the map of
462 bytes.
-/
theorem consoleMap_false
    : (do
        let data ← newVconsole.setGraphicsMode emptyFont 800 600
        let ⟨status, _⟩ ← data.invalidate 99 36 99 36
        Except.ok status) = .error .access
        ∧ ¬(graphicsConsole emptyFont).Complete (newVconsole.setGraphicsMode emptyFont 800 600) 100 37
            (VconsoleData.Redrawn emptyFont) := by
  refine ⟨by decide, fun h => ?_⟩
  exact absurd (VconsoleData.cellsFit_of_complete h).dvd (by decide)

end Emos.Boot
