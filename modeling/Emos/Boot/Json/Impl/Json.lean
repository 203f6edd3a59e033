import Emos.Basic

/-!
This module contains the JSON parser of the boot loader.
-/

namespace Emos.Boot

mutual

/--
`struct json_value`
-/
inductive JsonValue where
  | null
  | string (str : List (BitVec 8))
  | number (num : BitVec 64)
  | boolean (boolean : Bool)
  | object (elem : JsonObjectElem)
  | array (elem : JsonArrayElem)

/--
A pointer to a `struct json_object_elem`. A key has no terminating zero.
-/
inductive JsonObjectElem where
  | null
  | elem (key : List (BitVec 8)) (value : JsonValue) (next : JsonObjectElem)

/--
A pointer to a `struct json_array_elem`.
-/
inductive JsonArrayElem where
  | null
  | elem (index : BitVec 32) (value : JsonValue) (next : JsonArrayElem)

end

/--
The ways in which the parser ends without a value.
-/
inductive JsonStop where
  /-- `JSON_SYNTAX_ERR` or `STATUS_SYNTAX_ERROR` is returned -/
  | syntaxErr
  | fault (fault : Fault)
  deriving DecidableEq, Repr

abbrev Parse (α : Type) := Except JsonStop α

/--
What is left of the text from the cursor on, and the memory behind the text. The cursor has reached the
length when nothing of the text is left.
-/
structure JsonState where
  text : List (BitVec 8)
  after : List (BitVec 8)
  deriving DecidableEq, Repr

namespace JsonState

/--
`state->str[state->cursor]`
-/
def peek (s : JsonState) : Parse (BitVec 8) :=
  match s.text ++ s.after with
  | [] => .error (.fault .access)
  | c :: _ => .ok c

def next (s : JsonState) : JsonState :=
  match s.text with
  | [] => ⟨[], s.after.tail⟩
  | _ :: text => ⟨text, s.after⟩

/--
`if (++state->cursor >= state->len)` with the error that it leads to.
-/
def advance (s : JsonState) : Parse JsonState :=
  if s.next.text = [] then .error .syntaxErr else .ok s.next

end JsonState

/--
A character that is not ASCII is negative, which is outside of `ctype_table`.
-/
def isspace (c : BitVec 8) : Parse Bool :=
  if 0x80 ≤ c then .error (.fault .access) else .ok ((0x09 ≤ c ∧ c ≤ 0x0d) ∨ c = 0x20)

def isdigit (c : BitVec 8) : Parse Bool :=
  if 0x80 ≤ c then .error (.fault .access) else .ok (0x30 ≤ c ∧ c ≤ 0x39)

/--
The loop of `skip_whitespace`.
-/
def skipText (after : List (BitVec 8)) : List (BitVec 8) → Parse JsonState
  | [] => .ok ⟨[], after⟩
  | c :: text => do
    if ← isspace c then
      skipText after text
    else
      .ok ⟨c :: text, after⟩

def skipWhitespace (s : JsonState) : Parse JsonState := skipText s.after s.text

def countEscapedStringLen : List (BitVec 8) → Nat
  | [] => 0
  | [c] => if c = 0x22 then 0 else 1
  | c :: d :: text =>
    if c = 0x5c then
      countEscapedStringLen text + 1
    else if c = 0x22 then
      0
    else
      countEscapedStringLen (d :: text) + 1

/--
The loop of `parse_string_literal` from a position of the text on, which may write to `room` characters.
-/
def copyChars (room : Nat) (buf : List (BitVec 8)) : List (BitVec 8) → Parse (List (BitVec 8) × List (BitVec 8))
  | [] => .error .syntaxErr
  | c :: text =>
    if c = 0x5c then
      match text with
      | [] => .error .syntaxErr
      | _ :: text => copyChars room buf text
    else if c = 0x22 then
      if text = [] then .error .syntaxErr else .ok (buf, text)
    else if room ≤ buf.length then
      .error (.fault .access)
    else
      copyChars room (buf ++ [c]) text

def parseStringLiteral (s : JsonState) : Parse (List (BitVec 8) × JsonState) := do
  let s ← skipWhitespace s
  if (← s.peek) ≠ 0x22 then
    .error .syntaxErr
  else
    let s ← s.advance
    let ⟨str, text⟩ ← copyChars (countEscapedStringLen s.text) [] s.text
    .ok (str, ⟨text, s.after⟩)

def parseString (s : JsonState) : Parse (JsonValue × JsonState) := do
  if (← s.peek) ≠ 0x22 then
    .error .syntaxErr
  else
    let ⟨str, s⟩ ← parseStringLiteral s
    .ok (.string str, s)

/--
The loop of `parse_number`, which also reads behind the text.
-/
def readNumber (num : BitVec 64) : List (BitVec 8) → List (BitVec 8) → Parse (BitVec 64 × JsonState)
  | [], [] => .error (.fault .access)
  | [], c :: after => do
    if ← isdigit c then
      readNumber (num * 10 + c.signExtend 64 - 0x30) [] after
    else
      .ok (num, ⟨[], c :: after⟩)
  | c :: text, after => do
    if ← isdigit c then
      readNumber (num * 10 + c.signExtend 64 - 0x30) text after
    else
      .ok (num, ⟨c :: text, after⟩)

def parseNumber (s : JsonState) : Parse (JsonValue × JsonState) := do
  let s ← skipWhitespace s
  let c ← s.peek
  let digit ← isdigit c
  if !digit && c ≠ 0x2d then
    .error .syntaxErr
  else if s.text.length ≤ 1 then
    .error .syntaxErr
  else
    let negate : Bool := c = 0x2d
    let s := if negate then s.next else s
    let ⟨num, s⟩ ← readNumber 0 s.text s.after
    .ok (.number (if negate then -num else num), s)

/--
A literal that does not end with the text.
-/
def parseLiteral (s : JsonState) (str : List (BitVec 8)) (value : JsonValue) : Parse (JsonValue × JsonState) :=
  if s.text.length ≤ str.length then
    .error .syntaxErr
  else if s.text.take str.length ≠ str then
    .error .syntaxErr
  else
    .ok (value, ⟨s.text.drop str.length, s.after⟩)

def parseOther (s : JsonState) : Parse (JsonValue × JsonState) := do
  let s ← skipWhitespace s
  let c ← s.peek
  if c = 0x74 then
    parseLiteral s [0x74, 0x72, 0x75, 0x65] (.boolean true)
  else if c = 0x66 then
    parseLiteral s [0x66, 0x61, 0x6c, 0x73, 0x65] (.boolean false)
  else if c = 0x6e then
    parseLiteral s [0x6e, 0x75, 0x6c, 0x6c] .null
  else
    .error .syntaxErr

/--
`elems` is the loop over the elements. Its errors end in `panic`.
-/
def parseObject (elems : JsonState → Parse (JsonObjectElem × JsonState)) (s : JsonState)
    : Parse (JsonValue × JsonState) := do
  let s ← skipWhitespace s
  if (← s.peek) ≠ 0x7b then
    .error .syntaxErr
  else
    let s ← s.advance
    match elems s with
    | .error .syntaxErr => .error (.fault (.panic .unimplemented))
    | .error e => .error e
    | .ok (elem, s) => .ok (.object elem, s)

def parseArray (elems : JsonState → Parse (JsonArrayElem × JsonState)) (s : JsonState)
    : Parse (JsonValue × JsonState) := do
  let s ← skipWhitespace s
  if (← s.peek) ≠ 0x5b then
    .error .syntaxErr
  else
    let s ← s.advance
    let ⟨elem, s⟩ ← elems s
    .ok (.array elem, s)

mutual

/--
`fuel` bounds the depth of the calls.
-/
def parseValue : Nat → JsonState → Parse (JsonValue × JsonState)
  | 0, _ => .error (.fault .hang)
  | fuel + 1, s => do
    let s ← skipWhitespace s
    let c ← s.peek
    if c = 0x7b then
      parseObject (parseObjectElems fuel) s
    else if c = 0x5b then
      parseArray (parseArrayElems fuel 0) s
    else if c = 0x22 then
      parseString s
    else if (0x30 ≤ c ∧ c ≤ 0x39) ∨ c = 0x2d then
      parseNumber s
    else if c = 0x74 ∨ c = 0x66 ∨ c = 0x6e then
      parseOther s
    else
      .error .syntaxErr

/--
The loop of `parse_object`.
-/
def parseObjectElems : Nat → JsonState → Parse (JsonObjectElem × JsonState)
  | 0, _ => .error (.fault .hang)
  | fuel + 1, s => do
    let s ← skipWhitespace s
    let ⟨key, s⟩ ← parseStringLiteral s
    let s ← skipWhitespace s
    if (← s.peek) ≠ 0x3a then
      .error .syntaxErr
    else
      let s ← s.advance
      let s ← skipWhitespace s
      let ⟨value, s⟩ ← parseValue fuel s
      let s ← skipWhitespace s
      let c ← s.peek
      if c = 0x7d then
        let s ← s.advance
        .ok (.elem key value .null, s)
      else if c = 0x2c then
        let s ← s.advance
        let s ← s.advance
        let ⟨next, s⟩ ← parseObjectElems fuel s
        .ok (.elem key value next, s)
      else
        .error .syntaxErr

/--
The loop of `parse_array`.
-/
def parseArrayElems : Nat → BitVec 32 → JsonState → Parse (JsonArrayElem × JsonState)
  | 0, _, _ => .error (.fault .hang)
  | fuel + 1, index, s => do
    let s ← skipWhitespace s
    let ⟨value, s⟩ ← parseValue fuel s
    let s ← skipWhitespace s
    let c ← s.peek
    if c = 0x5d then
      let s ← s.advance
      .ok (.elem index value .null, s)
    else if c = 0x2c then
      let s ← s.advance
      let s ← s.advance
      let ⟨next, s⟩ ← parseArrayElems fuel (index + 1) s
      .ok (.elem index value next, s)
    else
      .error .syntaxErr

end

/--
`str` is the memory that the text of length `len` begins.
-/
def jsonParse (fuel : Nat) (str : List (BitVec 8)) (len : Nat) : Parse JsonValue := do
  let ⟨value, _⟩ ← parseValue fuel ⟨str.take len, str.drop len⟩
  .ok value

end Emos.Boot
