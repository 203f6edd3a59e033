import Emos.Boot.Console.Impl.Csi

/-!
This module contains what the terminal does with a character and with a sequence of bytes.
-/

namespace Emos

namespace Ansiterm

/--
The row below row `y`, the screen is scrolled if there is none.
-/
def nextRow (t : Ansiterm) (y : Int) : Run (Int × Ansiterm) :=
  if y + 1 < t.con.rows then
    .ok ⟨y + 1, t⟩
  else do
    let t ← t.scrollScreen 1
    .ok ⟨t.con.rows - 1, t⟩

/--
A wide character that does not fit into its row goes to the next one.
-/
def wrapWide (t : Ansiterm) (cwidth : Int) : Run Ansiterm :=
  if cwidth > 1 ∧ t.con.cursorCol + cwidth > t.con.cols then do
    let ⟨y, t⟩ ← t.nextRow t.con.cursorRow
    .ok (t.setCursorPos 0 y)
  else
    .ok t

/--
Set the cursor to row `y`, or to the beginning of the next row if `x` is not in this one.
-/
def advance (t : Ansiterm) (x y : Int) : Run Ansiterm :=
  if x < t.con.cols then
    .ok (t.setCursorPos x y)
  else do
    let ⟨y, t⟩ ← t.nextRow y
    .ok (t.setCursorPos 0 y)

def putPrintable (t : Ansiterm) (ch : Nat) : Run Ansiterm := do
  let cwidth := wcwidth ch
  let t ← t.wrapWide cwidth
  let cursorX := t.con.cursorCol
  let cursorY := t.con.cursorRow
  let t ← t.consolePutchar ch
  t.advance (cursorX + cwidth) cursorY

def putText (t : Ansiterm) (ch : Nat) : Run Ansiterm :=
  let cursorX := t.con.cursorCol
  let cursorY := t.con.cursorRow
  match ch with
  | 0x07 => .ok (t.setCursorPos cursorX cursorY)
  | 0x08 => do
    let x ← t.consoleBackspace
    .ok (t.setCursorPos x cursorY)
  | 0x09 => do
    let tab := (cursorX.tdiv 8 + 1) * 8
    let t ← t.consoleErase cursorX cursorY tab cursorY
    t.advance tab cursorY
  | 0x0A => do
    let ⟨y, t⟩ ← t.nextRow cursorY
    .ok (t.setCursorPos 0 y)
  | 0x0B => do
    let ⟨y, t⟩ ← t.nextRow cursorY
    .ok (t.setCursorPos cursorX y)
  | 0x0C => .ok (t.setCursorPos cursorX cursorY)
  | 0x0D => .ok (t.setCursorPos 0 cursorY)
  | 0x1B => .ok ((t.setState .esc).setCursorPos cursorX cursorY)
  | ch =>
    if ch < 0x20 then
      .ok (t.setCursorPos cursorX cursorY)
    else
      t.putPrintable ch

def putChar (t : Ansiterm) (ch : Nat) : Run Ansiterm :=
  match t.escapeSeqState with
  | .default => t.putText ch
  -- the character is truncated to a `char`
  | .esc => .ok (t.handleEsc (Char.ofNat (ch % 256)))
  | .csi => t.handleCsi (Char.ofNat (ch % 256))
  | _ => .ok (t.setState .default)

end Ansiterm

def BufferMemory := Int → Option UInt8

def BufferMemory.read (mem : BufferMemory) (p : Int) : Run UInt8 :=
  match mem p with
  | none => .error .access
  | some byte => .ok byte

def BufferMemory.copy (mem : BufferMemory) (p : Int) : Nat → Run (List UInt8)
  | 0 => .ok []
  | len + 1 => do
    let byte ← mem.read p
    let rest ← mem.copy (p + 1) len
    .ok (byte :: rest)

/--
What a round of the loop in `write` finds: a character of `charLen` bytes, or bytes that are kept until
there are more of them.
-/
inductive Utf8Round where
  | fragment (bytes : List UInt8)
  | char (wch : Nat) (charLen : Int)
  deriving DecidableEq, Repr

namespace Ansiterm

def utf8FragmentSize : Nat := 6

/--
The low 8 bits of the result, those of -1 if there is no such byte.
-/
def getSeqChar (t : Ansiterm) (mem : BufferMemory) (buf : Int) (len idx : Nat) : Run Nat :=
  match t.utf8Fragment[idx]? with
  | some byte => .ok byte.toNat
  | none =>
    if idx < t.utf8Fragment.length + len then do
      let byte ← mem.read (buf + (idx - t.utf8Fragment.length))
      .ok byte.toNat
    else
      .ok 0xFF

/--
The length of a character that begins with byte `lead`, and the bits of it that are in this byte.
-/
def utf8Lead (lead : Nat) : Int × Nat :=
  if lead < 0x80 then ⟨1, lead &&& 0x7F⟩
  else if lead < 0xE0 then ⟨2, (lead &&& 0x1F) <<< 6⟩
  else if lead < 0xF0 then ⟨3, (lead &&& 0x0F) <<< 12⟩
  else if lead < 0xF8 then ⟨4, (lead &&& 0x07) <<< 18⟩
  else ⟨-1, 0⟩

/--
The loop over the other bytes of a character, `n` of which are left.
-/
def utf8Tail (t : Ansiterm) (mem : BufferMemory) (buf : Int) (len : Nat) : Nat → Nat → Nat → Run (Nat × Int)
  | 0, i, wch => .ok ⟨wch, i⟩
  | n + 1, i, wch => do
    let seqChar ← t.getSeqChar mem buf len i
    if seqChar &&& 0xC0 ≠ 0x80 then
      .ok ⟨0xFFFD, i⟩
    else
      t.utf8Tail mem buf len n (i + 1) (wch ||| (seqChar &&& 0x3F) <<< (n * 6))

def utf8Round (t : Ansiterm) (mem : BufferMemory) (buf : Int) (len : Nat) : Run Utf8Round := do
  let lead ← t.getSeqChar mem buf len 0
  let ⟨charLen, wch⟩ := utf8Lead lead
  -- the comparison is one of unsigned numbers, among which -1 is the largest
  if charLen < 0 ∨ t.utf8Fragment.length + len < charLen then
    let bytes ← mem.copy buf len
    if t.utf8Fragment.length + len > utf8FragmentSize then
      .error .access
    else
      .ok (.fragment (t.utf8Fragment ++ bytes))
  else
    let ⟨wch, charLen⟩ ← t.utf8Tail mem buf len (charLen - 1).toNat 1 wch
    if charLen < 1 then
      .ok (.char 0xFFFD 1)
    else
      .ok (.char wch charLen)

/--
A round of the loop, which returns the rest of the buffer and how many bytes of it were used. The buffer
grows again if a fragment is longer than the character.
-/
def writeRound (t : Ansiterm) (mem : BufferMemory) (buf : Int) (len : Nat)
    : Run (Ansiterm × Int × Nat × Int) := do
  let round ← t.utf8Round mem buf len
  match round with
  | .fragment bytes => .ok ⟨{ t with utf8Fragment := bytes }, buf, 0, len⟩
  | .char wch charLen =>
    let used := charLen - t.utf8Fragment.length
    let t ← t.putChar wch
    .ok ⟨{ t with utf8Fragment := [] }, buf + used, (len - used).toNat, used⟩

/--
Returns `written_len`, `fuel` bounds the rounds of the loop.
-/
def write (mem : BufferMemory) : Nat → Ansiterm → Int → Nat → Int → Run (Int × Ansiterm)
  | _, t, _, 0, writtenLen => .ok ⟨writtenLen, t.setCon t.con.flush⟩
  | 0, _, _, _, _ => .error .hang
  | fuel + 1, t, buf, len, writtenLen => do
    let ⟨t, buf, len, used⟩ ← t.writeRound mem buf len
    t.write mem fuel buf len (writtenLen + used)

/--
The terminal that `probe` makes. `malloc` does not clear memory, and three members are not set.
-/
def probe (con : Vconsole) (escapeSeqArgs : Int → Int) (escapeSeqState : EscapeState)
    (escapeSeqNumberInput : Bool) : Ansiterm where
  con := con.setCursorPos 0 0
  escapeSeqArgs := escapeSeqArgs
  escapeSeqArgCount := 0
  escapeSeqState := escapeSeqState
  escapeSeqNumberInput := escapeSeqNumberInput
  savedCursorX := 0
  savedCursorY := 0
  attrState := ⟨0xFFFFFF, 0, false, false, false, false, false, false, 0x000000, false⟩
  utf8Fragment := []

end Ansiterm

/--
A terminal and what is left of the buffer that was passed to `write`.
-/
structure Writing where
  term : Ansiterm
  mem : BufferMemory
  buf : Int
  len : Nat

/--
What happens next: the terminal is given a buffer, or it takes a round of the loop.
-/
inductive WriteAction where
  | write (mem : BufferMemory) (buf : Int) (len : Nat)
  | round

namespace Writing

def step (s : Writing) : WriteAction → Run Writing
  -- the next call has to wait until this one has returned
  | .write mem buf len => .ok (if s.len = 0 then ⟨s.term, mem, buf, len⟩ else s)
  | .round =>
    if s.len = 0 then
      .ok { s with term := s.term.setCon s.term.con.flush }
    else do
      let ⟨term, buf, len, _⟩ ← s.term.writeRound s.mem s.buf s.len
      .ok ⟨term, s.mem, buf, len⟩

def steps (s : Writing) : List WriteAction → Run Writing
  | [] => .ok s
  | a :: as => do
    let s ← s.step a
    s.steps as

end Writing

end Emos
