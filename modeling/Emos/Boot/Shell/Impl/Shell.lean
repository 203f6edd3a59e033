import Emos.Boot.Shell.Impl.Variable
import Emos.Boot.Stdc.Impl.String
import Emos.Lib.Buffer
import Emos.Lib.Record

/-!
This module contains how the shell expands variables in a line, takes words from it and runs it. Arguments are
positions in `elem_buf`.
-/

open Lib

namespace Emos.Boot

/--
A character that is not ASCII is negative, which is outside of `ctype_table`.
-/
def isalnum (c : BitVec 8) : Run Bool :=
  if 0x80 ≤ c then
    .error .access
  else
    .ok ((0x30 ≤ c ∧ c ≤ 0x39) ∨ (0x41 ≤ c ∧ c ≤ 0x5a) ∨ (0x61 ≤ c ∧ c ≤ 0x7a))

/--
The name of a variable in front of a line, and what follows it. `room` is what is left of `var_key`.
-/
def varKey : Nat → List (BitVec 8) → Run (List (BitVec 8) × List (BitVec 8))
  | _, [] => .ok ([], [])
  | room, c :: line => do
    let alnum ← isalnum c
    match room with
    | 0 => .ok ([], c :: line)
    | room + 1 =>
      if alnum ∨ c = 0x5f then do
        let ⟨key, rest⟩ ← varKey room line
        .ok (c :: key, rest)
      else
        .ok ([], c :: line)

/--
The bytes that are stored for a line without its terminating zero, where `buf` was stored before. At
most as many rounds are made as there are characters.
-/
def shellExpand {α : Type} (t : ShellVars α) (fuel : Nat) (buflen : Nat)
    : Nat → List (BitVec 8) → List (BitVec 8) → Run (Except Status (List (BitVec 8)))
  | _, [], buf => .ok (.ok (if buf.length < buflen then buf ++ [0] else buf))
  | 0, _, _ => .error .hang
  | n + 1, c :: line, buf =>
    if c = 0x5c ∧ charAt line = 0x24 then
      if buf.length < buflen then
        shellExpand t fuel buflen n line.tail (buf ++ [0x24])
      else
        .ok (.error .bufferTooSmall)
    else if c = 0x24 then do
      let ⟨key, line⟩ ← varKey 63 line
      let varValue :=
        match ← t.getVariable key fuel with
        | .ok value => value
        | .error _ => []
      if buf.length + varValue.length ≤ buflen then
        shellExpand t fuel buflen n line (buf ++ varValue)
      else
        .ok (.error .bufferTooSmall)
    else
      if buf.length < buflen then
        shellExpand t fuel buflen n line (buf ++ [c])
      else
        .ok (.error .bufferTooSmall)

/--
The character that `line` points to, where all bytes of the string up to the end of its memory are left.
-/
def load (line : List (BitVec 8)) : Run (BitVec 8) :=
  match line with
  | [] => .error .access
  | c :: _ => .ok c

/--
Where the next character of a word goes, and how many more may.
-/
structure WordBuf where
  data : Buffer (BitVec 8)
  pos : Nat
  buflen : Int

namespace WordBuf

/--
`PUSH_CHAR`, and what is done if there was room for the character.
-/
def push (b : WordBuf) (ch : BitVec 8) (next : WordBuf → Run (Option (List (BitVec 8)) × Buffer (BitVec 8)))
    : Run (Option (List (BitVec 8)) × Buffer (BitVec 8)) :=
  if 0 < b.buflen then do
    let data ← b.data.set .access b.pos ch
    next ⟨data, b.pos + 1, b.buflen - 1⟩
  else
    .ok (none, b.data)

/--
What is done at the end of a word.
-/
def finish (b : WordBuf) (line : List (BitVec 8)) : Run (Option (List (BitVec 8)) × Buffer (BitVec 8)) :=
  if 0 < b.buflen then do
    let data ← b.data.set .access b.pos 0
    .ok (some line, data)
  else
    .ok (some line, b.data)

end WordBuf

def isBlank (c : BitVec 8) : Bool := c = 0x20 ∨ c = 0x09

/--
The characters that stand for themselves behind a backslash.
-/
def isEscapable (c : BitVec 8) : Bool :=
  c = 0x5c ∨ c = 0x27 ∨ c = 0x22 ∨ c = 0x3f ∨ c = 0x20 ∨ c = 0x09

/--
The character that a letter behind a backslash stands for. The letter itself is not skipped.
-/
def letterEscape (c : BitVec 8) : Option (BitVec 8) :=
  if c = 0x61 then some 0x07
  else if c = 0x62 then some 0x08
  else if c = 0x65 then some 0x1b
  else if c = 0x66 then some 0x0c
  else if c = 0x6e then some 0x0a
  else if c = 0x72 then some 0x0d
  else if c = 0x74 then some 0x09
  else if c = 0x76 then some 0x0b
  else none

/--
The character that a number stands for, and the line from its end on.
-/
def numberEscape (line : List (BitVec 8)) (base : Int) : BitVec 8 × List (BitVec 8) :=
  let str := line.takeWhile (· ≠ 0)
  match strtol str base with
  | (value, none) => (value.setWidth 8, line)
  | (value, some rest) => (value.setWidth 8, line.drop (str.length - rest.length))

/--
What follows a backslash, where `line` begins with the character behind it.
-/
def escape (line : List (BitVec 8)) (b : WordBuf)
    (next : List (BitVec 8) → WordBuf → Run (Option (List (BitVec 8)) × Buffer (BitVec 8)))
    : Run (Option (List (BitVec 8)) × Buffer (BitVec 8)) := do
  let c ← load line
  if isEscapable c then
    b.push c (next line.tail)
  else
    match letterEscape c with
    | some ch => b.push ch (next line)
    | none =>
      if 0x30 ≤ c ∧ c ≤ 0x37 then
        let ⟨ch, rest⟩ := numberEscape line 8
        b.push ch (next rest)
      else if c = 0x78 then
        let ⟨ch, rest⟩ := numberEscape line.tail 16
        b.push ch (next rest)
      else
        next line b

namespace shellParse

/--
The loop over the characters of a word. Each round takes a character from the line.
-/
def go : Nat → BitVec 8 → List (BitVec 8) → WordBuf → Run (Option (List (BitVec 8)) × Buffer (BitVec 8))
  | 0, _, _, _ => .error .hang
  | n + 1, quoteChar, line, b => do
    let c ← load line
    if c = 0 then
      b.finish line
    else if c = 0x22 ∨ c = 0x27 then
      go n (if quoteChar = c then 0 else c) line.tail b
    else if c = 0x5c then
      escape line.tail b (go n quoteChar)
    else if isBlank c ∧ quoteChar = 0 then
      b.finish line
    else
      b.push c (go n quoteChar line.tail)

end shellParse

/--
What is left of the line behind a word, or nothing if there is no word or no room for it.
-/
def shellParse (line : List (BitVec 8)) (b : WordBuf) : Run (Option (List (BitVec 8)) × Buffer (BitVec 8)) := do
  let line := line.dropWhile isBlank
  let c ← load line
  if c = 0 then
    .ok (none, b.data)
  else
    shellParse.go (line.length + 1) 0 line b

end Emos.Boot

namespace Emos.Boot

/--
A handler receives the memory of its arguments, where each one begins, and the state of everything else.
-/
structure Command (σ : Type) where
  name : CString
  handler : Buffer (BitVec 8) → List Nat → σ → Run (Int × σ)

def strnlen (b : Buffer (BitVec 8)) : Nat → Nat → Run Nat
  | _, 0 => .ok 0
  | p, n + 1 => do
    let c ← b.get .access p
    if c = 0 then
      .ok 0
    else do
      let len ← strnlen b (p + 1) n
      .ok (len + 1)

/--
`strcmp(str, p) == 0` for a string without its terminating zero and one in memory.
-/
def strcmpEq (b : Buffer (BitVec 8)) : List (BitVec 8) → Nat → Run Bool
  | [], p => do
    let c ← b.get .access p
    .ok (c = 0)
  | a :: str, p => do
    let c ← b.get .access p
    if a = c then
      strcmpEq b str (p + 1)
    else
      .ok false

/--
A `size_t` that is passed as a `long`.
-/
def toLong (n : Nat) : Int := if n < 2 ^ 31 then n else n - 2 ^ 32

/--
The loop that takes words from the line, `n` more at most. `argv` is what it has found.
-/
def parseWords : Nat → List (BitVec 8) → Buffer (BitVec 8) → Nat → Nat → List Nat
    → Run (List Nat × Buffer (BitVec 8))
  | 0, _, elemBuf, _, _, argv => .ok (argv, elemBuf)
  | n + 1, line, elemBuf, elemCursor, elemBufLen, argv => do
    let ⟨rest, elemBuf⟩ ← shellParse line ⟨elemBuf, elemCursor, toLong elemBufLen⟩
    match rest with
    | none => .ok (argv, elemBuf)
    | some line => do
      let elemLen ← strnlen elemBuf elemCursor elemBufLen
      parseWords n line elemBuf (elemCursor + (elemLen + 1)) (sub32 elemBufLen (elemLen + 1))
        (argv ++ [elemCursor])

/--
The first command of this name in the list.
-/
def findCommand {σ : Type} (b : Buffer (BitVec 8)) (name : Nat) : List (Command σ) → Run (Option (Command σ))
  | [] => .ok none
  | cmd :: cmds => do
    if ← strcmpEq b cmd.name.bytes name then
      .ok (some cmd)
    else
      findCommand b name cmds

def exitName : List (BitVec 8) := [0x65, 0x78, 0x69, 0x74]

/--
`elemBuf` is what `elem_buf` holds before anything is stored there.
-/
def shellExecute {α σ : Type} (commands : List (Command σ)) (t : ShellVars α) (fuel : Nat)
    (elemBuf : Nat → BitVec 8) (line : List (BitVec 8)) (s : σ)
    : Run (Int × σ) := do
  match ← shellExpand t fuel 4096 line.length line [] with
  | .error _ => .ok (1, s)
  | .ok line => do
    let ⟨newargv, elemBuf⟩ ← parseWords 32 line ⟨512, elemBuf⟩ 0 512 []
    match newargv with
    | [] => .ok (0, s)
    | name :: _ =>
      if ← strcmpEq elemBuf exitName name then
        .ok (-1, s)
      else
        match ← findCommand elemBuf name commands with
        | some cmd => cmd.handler elemBuf newargv s
        | none => .ok (1, s)

end Emos.Boot
