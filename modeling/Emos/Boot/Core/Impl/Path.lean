import Emos.Boot.Stdc.Impl.String

/-!
This module contains how the components of a path are found one after the other, and how a path is normalized. A
pointer into a path is the text from there to the end.
-/

open Lib

namespace Emos.Boot.Core

/--
`FILENAME_MAX`, the number of characters of an element with its terminator.
-/
def filenameMax : Nat := 256

def slash : BitVec 8 := 0x2F

def colon : BitVec 8 := 0x3A

def dot : BitVec 8 := 0x2E

structure PathIterator where
  path : List (BitVec 8)
  cursor : List (BitVec 8)
  element : List (BitVec 8)
  hasSeparator : Bool

/--
The characters that are copied into an element.
-/
def elementOf (text : List (BitVec 8)) (len : Nat) : List (BitVec 8) :=
  text.take (if len ≥ filenameMax then filenameMax - 1 else len)

def pathIterInit (path : List (BitVec 8)) : PathIterator :=
  match path.idxOf? colon with
  | some len => ⟨path, path.drop (len + 1), elementOf path len, false⟩
  | none => ⟨path, path, [], false⟩

/--
The text behind a separator, if there is one in front of it.
-/
def skipSeparator (text : List (BitVec 8)) : List (BitVec 8) :=
  if text.head? = some slash then text.tail else text

/--
The number of characters in front of the next slash or the end.
-/
def elementLen (text : List (BitVec 8)) : Nat :=
  match text.idxOf? slash with
  | some len => len
  | none => text.length

/--
It returns whether there is nothing left.
-/
def pathIterNext (it : PathIterator) : Bool × PathIterator :=
  let p := skipSeparator it.cursor
  let it := { it with hasSeparator := it.cursor.head? = some slash }
  if p = [] then
    (true, { it with element := [], cursor := p })
  else
    let cursor := p.drop (elementLen p)
    (cursor = [], { it with cursor, element := elementOf p (elementLen p) })

/--
What `path_normalize` works with: the memory at `dest`, an index into it, and two flags.
-/
structure PathNormalizer where
  dest : Buffer (BitVec 8)
  writePos : Nat
  isAbsolute : Bool
  hasFilesystem : Bool

namespace PathNormalizer

variable (s : PathNormalizer)

def destEnd : Nat := s.dest.size - 1

/--
A character is written if there is room for it in front of the last one.
-/
def put (c : BitVec 8) : Run PathNormalizer :=
  if s.writePos < s.destEnd then do
    let dest ← s.dest.set .access s.writePos c
    .ok { s with dest := dest, writePos := s.writePos + 1 }
  else
    .ok s

def putDotDot : Run PathNormalizer :=
  if s.writePos + 2 < s.destEnd then do
    let dest ← s.dest.set .access s.writePos dot
    let dest ← dest.set .access (s.writePos + 1) dot
    .ok { s with dest := dest, writePos := s.writePos + 2 }
  else
    .ok s

/--
The loop that moves `last_sep` back. Here and below this is the number of characters up to and including that
place, which is 0 in front of the buffer.
-/
def moveBack (limit : Nat) : Nat → Run Nat
  | 0 => .ok 0
  | sep + 1 =>
    if sep > limit then do
      let c ← s.dest.get .access sep
      if c ≠ slash then moveBack limit sep else .ok (sep + 1)
    else
      .ok (sep + 1)

def lastSep (limit : Nat) : Run Nat := do
  let c ← s.dest.get .access (s.writePos - 1)
  s.moveBack limit (if c = slash then s.writePos - 1 else s.writePos)

def colonPos : Run Nat := do
  match ← Stdc.strchr s.dest 0 colon with
  | some p => .ok p
  | none => .error .access

/--
A separator in front of the first element makes the path an absolute one.
-/
def start (firstLoop hasSeparator : Bool) : Run PathNormalizer :=
  if firstLoop && hasSeparator then
    put { s with isAbsolute := true } slash
  else
    .ok s

/--
`..` in an absolute path.
-/
def upAbsolute : Run PathNormalizer :=
  if s.writePos > 0 then do
    let sep ← s.lastSep 0
    if s.hasFilesystem then do
      let p ← s.colonPos
      -- the start of the buffer is in front of the colon, so that it is not asked for below
      if sep ≤ p + 2 then
        put { s with writePos := p + 1 } slash
      else
        .ok { s with writePos := sep }
    else if sep ≤ 1 then
      put { s with writePos := 0 } slash
    else
      .ok { s with writePos := sep }
  else
    .ok s

/--
`..` in a path with a filesystem and no slash behind the colon.
-/
def upFilesystem : Run PathNormalizer := do
  let p ← s.colonPos
  if s.writePos > p + 1 then do
    let sep ← s.lastSep (p + 1)
    if sep ≤ p + 2 then
      .ok { s with writePos := p + 1 }
    else
      .ok { s with writePos := sep }
  else
    s.putDotDot

def upRelative : Run PathNormalizer := do
  let s ← if s.writePos > 0 then s.put slash else .ok s
  s.putDotDot

/--
Any other element, with a separator in front of it if there is none yet.
-/
def enter (element : List (BitVec 8)) : Run PathNormalizer := do
  let s ←
    if s.writePos > 0 then do
      let c ← s.dest.get .access (s.writePos - 1)
      if c ≠ slash then s.put slash else .ok s
    else
      .ok s
  if s.writePos + element.length < s.destEnd then do
    let dest ← Stdc.strcpy s.dest s.writePos element
    .ok { s with dest := dest, writePos := s.writePos + element.length }
  else
    .ok s

def step (element : List (BitVec 8)) : Run PathNormalizer :=
  if element = [] then
    .ok s
  else if element = [dot] then
    .ok s
  else if element = [dot, dot] then
    if s.isAbsolute then s.upAbsolute
    else if s.hasFilesystem then s.upFilesystem
    else s.upRelative
  else
    s.enter element

/--
An empty result becomes a dot.
-/
def writeDot : Run PathNormalizer :=
  if !s.hasFilesystem ∧ s.writePos = 0 ∧ s.destEnd > 0 then do
    let dest ← s.dest.set .access 0 dot
    .ok { s with dest := dest, writePos := 1 }
  else
    .ok s

/--
A slash at the end is taken away, except for the one of the root.
-/
def trim : Run PathNormalizer :=
  if s.writePos > 1 then do
    let c ← s.dest.get .access (s.writePos - 1)
    if c ≠ slash then
      .ok s
    else if !s.hasFilesystem then
      .ok { s with writePos := s.writePos - 1 }
    else do
      let p ← s.colonPos
      if s.writePos > p + 2 then .ok { s with writePos := s.writePos - 1 } else .ok s
  else
    .ok s

def terminate : Run (Buffer (BitVec 8)) :=
  if s.writePos < s.dest.size then s.dest.set .access s.writePos 0 else s.dest.set .access (s.dest.size - 1) 0

/--
What comes behind the loop.
-/
def finish : Run (Buffer (BitVec 8)) := do
  let s ← s.writeDot
  let s ← s.trim
  s.terminate

end PathNormalizer

def normalizeLoop : Nat → Bool → PathIterator → PathNormalizer → Run PathNormalizer
  | 0, _, _, _ => .error .hang
  | n + 1, firstLoop, it, s => do
    let ⟨last, it⟩ := pathIterNext it
    let s ← s.start firstLoop it.hasSeparator
    let s ← s.step it.element
    if last then .ok s else normalizeLoop n false it s

/--
`path_normalize` for a buffer with as many characters as `dest` has, `none` if it returns `NULL`.
-/
def pathNormalize (dest : Buffer (BitVec 8)) (src : CString) : Run (Option (Buffer (BitVec 8))) :=
  if dest.size = 0 then
    .ok none
  else do
    let it := pathIterInit src.bytes
    if it.element ≠ [] then
      if it.element.length + 1 ≥ dest.size - 1 then do
        let dest ← dest.set .access 0 0
        .ok (some dest)
      else do
        let dest ← Stdc.strcpy dest 0 it.element
        let dest ← dest.set .access it.element.length colon
        let s ← normalizeLoop (src.strlen + 1) true it ⟨dest, it.element.length + 1, false, true⟩
        let dest ← s.finish
        .ok (some dest)
    else do
      let s ← normalizeLoop (src.strlen + 1) true it ⟨dest, 0, false, false⟩
      let dest ← s.finish
      .ok (some dest)

end Emos.Boot.Core
