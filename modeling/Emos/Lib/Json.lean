import Emos.Lib.Decimal

/-!
This module contains the texts that JSON values are written as. Numbers are integers of 64 bits, without
a fraction and an exponent.
-/

namespace Lib

namespace Json

inductive Blank where
  | space
  | tab
  | lineFeed
  | carriageReturn
  deriving DecidableEq, Repr

def Blank.byte : Blank → BitVec 8
  | .space => 0x20
  | .tab => 0x09
  | .lineFeed => 0x0a
  | .carriageReturn => 0x0d

def blanks (ws : List Blank) : List (BitVec 8) := ws.map Blank.byte

structure HexDigit where
  digit : Fin 16
  upper : Bool
  deriving DecidableEq, Repr

def HexDigit.byte (d : HexDigit) : BitVec 8 :=
  if d.digit.val < 10 then
    BitVec.ofNat 8 (0x30 + d.digit.val)
  else if d.upper then
    BitVec.ofNat 8 (0x37 + d.digit.val)
  else
    BitVec.ofNat 8 (0x57 + d.digit.val)

/--
The four digits of an escape sequence.
-/
structure HexDigits where
  d₁ : HexDigit
  d₂ : HexDigit
  d₃ : HexDigit
  d₄ : HexDigit
  deriving DecidableEq, Repr

namespace HexDigits

def print (u : HexDigits) : List (BitVec 8) := [u.d₁.byte, u.d₂.byte, u.d₃.byte, u.d₄.byte]

def value (u : HexDigits) : Nat :=
  ((u.d₁.digit.val * 16 + u.d₂.digit.val) * 16 + u.d₃.digit.val) * 16 + u.d₄.digit.val

def IsHighSurrogate (u : HexDigits) : Prop := 0xd800 ≤ u.value ∧ u.value ≤ 0xdbff

def IsLowSurrogate (u : HexDigits) : Prop := 0xdc00 ≤ u.value ∧ u.value ≤ 0xdfff

end HexDigits

/--
The bytes of a character in UTF-8.
-/
def utf8 (c : Nat) : List (BitVec 8) :=
  if c < 0x80 then
    [BitVec.ofNat 8 c]
  else if c < 0x800 then
    [BitVec.ofNat 8 (0xc0 + c / 0x40), BitVec.ofNat 8 (0x80 + c % 0x40)]
  else if c < 0x10000 then
    [BitVec.ofNat 8 (0xe0 + c / 0x1000), BitVec.ofNat 8 (0x80 + c / 0x40 % 0x40),
      BitVec.ofNat 8 (0x80 + c % 0x40)]
  else
    [BitVec.ofNat 8 (0xf0 + c / 0x40000), BitVec.ofNat 8 (0x80 + c / 0x1000 % 0x40),
      BitVec.ofNat 8 (0x80 + c / 0x40 % 0x40), BitVec.ofNat 8 (0x80 + c % 0x40)]

/--
The escape sequences of one letter.
-/
inductive Short where
  | quote
  | backslash
  | slash
  | backspace
  | formFeed
  | lineFeed
  | carriageReturn
  | tab
  deriving DecidableEq, Repr

def Short.letter : Short → BitVec 8
  | .quote => 0x22
  | .backslash => 0x5c
  | .slash => 0x2f
  | .backspace => 0x62
  | .formFeed => 0x66
  | .lineFeed => 0x6e
  | .carriageReturn => 0x72
  | .tab => 0x74

def Short.byte : Short → BitVec 8
  | .quote => 0x22
  | .backslash => 0x5c
  | .slash => 0x2f
  | .backspace => 0x08
  | .formFeed => 0x0c
  | .lineFeed => 0x0a
  | .carriageReturn => 0x0d
  | .tab => 0x09

def IsPlain (b : BitVec 8) : Prop := 0x20 ≤ b ∧ b ≠ 0x22 ∧ b ≠ 0x5c

instance (b : BitVec 8) : Decidable (IsPlain b) := inferInstanceAs (Decidable (_ ∧ _))

/--
A part of a string: a byte that stands for itself, or an escape sequence.
-/
inductive Piece where
  | plain (b : BitVec 8) (h : IsPlain b)
  | short (e : Short)
  | unicode (u : HexDigits) (hhigh : ¬ u.IsHighSurrogate) (hlow : ¬ u.IsLowSurrogate)
  | surrogates (high low : HexDigits) (hhigh : high.IsHighSurrogate) (hlow : low.IsLowSurrogate)

namespace Piece

def print : Piece → List (BitVec 8)
  | plain b _ => [b]
  | short e => [0x5c, e.letter]
  | unicode u _ _ => [0x5c, 0x75] ++ u.print
  | surrogates high low _ _ => [0x5c, 0x75] ++ high.print ++ ([0x5c, 0x75] ++ low.print)

def value : Piece → List (BitVec 8)
  | plain b _ => [b]
  | short e => [e.byte]
  | unicode u _ _ => utf8 u.value
  | surrogates high low _ _ => utf8 (0x10000 + (high.value - 0xd800) * 0x400 + (low.value - 0xdc00))

def isShort : Piece → Bool
  | short _ => true
  | _ => false

def isUnicode : Piece → Bool
  | unicode _ _ _ | surrogates _ _ _ _ => true
  | _ => false

def IsEscape : Piece → Prop
  | plain _ _ => False
  | _ => True

end Piece

def printString (s : List Piece) : List (BitVec 8) := 0x22 :: (s.flatMap Piece.print ++ [0x22])

def stringValue (s : List Piece) : List (BitVec 8) := s.flatMap Piece.value

structure Number where
  negative : Bool
  magnitude : Nat
  inRange : if negative then magnitude ≤ 2 ^ 63 else magnitude < 2 ^ 63

namespace Number

def print (n : Number) : List (BitVec 8) :=
  if n.negative then 0x2d :: Decimal.numeral n.magnitude else Decimal.numeral n.magnitude

def value (n : Number) : Int := if n.negative then -n.magnitude else n.magnitude

end Number

mutual

inductive Text where
  | null
  | boolean (b : Bool)
  | number (n : Number)
  | string (s : List Piece)
  | emptyArray (inside : List Blank)
  | array (elems : Elements)
  | emptyObject (inside : List Blank)
  | object (members : Members)

/--
The elements of an array that is not empty.
-/
inductive Elements where
  | last (before : List Blank) (value : Text) (behind : List Blank)
  | more (before : List Blank) (value : Text) (behind : List Blank) (rest : Elements)

/--
The members of an object that is not empty.
-/
inductive Members where
  | last (before : List Blank) (key : List Piece) (between : List Blank) (gap : List Blank) (value : Text)
    (behind : List Blank)
  | more (before : List Blank) (key : List Piece) (between : List Blank) (gap : List Blank) (value : Text)
    (behind : List Blank) (rest : Members)

end

def Elements.before : Elements → List Blank
  | last before _ _ | more before _ _ _ => before

def Elements.first : Elements → Text
  | last _ value _ | more _ value _ _ => value

def Members.before : Members → List Blank
  | last before _ _ _ _ _ | more before _ _ _ _ _ _ => before

def Members.firstKey : Members → List Piece
  | last _ key _ _ _ _ | more _ key _ _ _ _ _ => key

mutual

def Text.print : Text → List (BitVec 8)
  | .null => [0x6e, 0x75, 0x6c, 0x6c]
  | .boolean true => [0x74, 0x72, 0x75, 0x65]
  | .boolean false => [0x66, 0x61, 0x6c, 0x73, 0x65]
  | .number n => n.print
  | .string s => printString s
  | .emptyArray inside => 0x5b :: (blanks inside ++ [0x5d])
  | .array elems => 0x5b :: elems.print
  | .emptyObject inside => 0x7b :: (blanks inside ++ [0x7d])
  | .object members => 0x7b :: members.print

/--
The elements and the bracket behind them.
-/
def Elements.print : Elements → List (BitVec 8)
  | .last before value behind => blanks before ++ (value.print ++ (blanks behind ++ [0x5d]))
  | .more before value behind rest =>
    blanks before ++ (value.print ++ (blanks behind ++ 0x2c :: rest.print))

def Members.print : Members → List (BitVec 8)
  | .last before key between gap value behind =>
    blanks before ++ (printString key ++ (blanks between ++ 0x3a :: (blanks gap ++ (value.print
      ++ (blanks behind ++ [0x7d])))))
  | .more before key between gap value behind rest =>
    blanks before ++ (printString key ++ (blanks between ++ 0x3a :: (blanks gap ++ (value.print
      ++ (blanks behind ++ 0x2c :: rest.print)))))

end

def IsInteger (l : List (BitVec 8)) : Prop :=
  l = [0x30] ∨ ∃ c rest, l = c :: rest ∧ 0x31 ≤ c ∧ c ≤ 0x39 ∧ ∀ d ∈ rest, Decimal.IsDigit d

def IsFraction (l : List (BitVec 8)) : Prop :=
  l = [] ∨ ∃ digits, l = 0x2e :: digits ∧ digits ≠ [] ∧ ∀ d ∈ digits, Decimal.IsDigit d

def IsExponent (l : List (BitVec 8)) : Prop :=
  l = [] ∨ ∃ c sign digits, l = c :: (sign ++ digits) ∧ (c = 0x65 ∨ c = 0x45)
    ∧ (sign = [] ∨ sign = [0x2b] ∨ sign = [0x2d]) ∧ digits ≠ [] ∧ ∀ d ∈ digits, Decimal.IsDigit d

def IsNumber (l : List (BitVec 8)) : Prop :=
  ∃ sign int frac exp, l = sign ++ int ++ frac ++ exp ∧ (sign = [] ∨ sign = [0x2d]) ∧ IsInteger int
    ∧ IsFraction frac ∧ IsExponent exp

/--
What stands between the quotes of a string.
-/
inductive IsChars : List (BitVec 8) → Prop where
  | nil : IsChars []
  | plain {b l} (hb : IsPlain b) (h : IsChars l) : IsChars (b :: l)
  | short {l} (e : Short) (h : IsChars l) : IsChars (0x5c :: e.letter :: l)
  | unicode {l} (u : HexDigits) (h : IsChars l) : IsChars (0x5c :: 0x75 :: (u.print ++ l))

mutual

/--
The grammar of JSON, with all of its numbers.
-/
inductive IsValue : List (BitVec 8) → Prop where
  | null : IsValue [0x6e, 0x75, 0x6c, 0x6c]
  | true : IsValue [0x74, 0x72, 0x75, 0x65]
  | false : IsValue [0x66, 0x61, 0x6c, 0x73, 0x65]
  | number {l} (h : IsNumber l) : IsValue l
  | string {l} (h : IsChars l) : IsValue (0x22 :: (l ++ [0x22]))
  | emptyArray (ws : List Blank) : IsValue (0x5b :: (blanks ws ++ [0x5d]))
  | array {l} (h : IsElements l) : IsValue (0x5b :: (l ++ [0x5d]))
  | emptyObject (ws : List Blank) : IsValue (0x7b :: (blanks ws ++ [0x7d]))
  | object {l} (h : IsMembers l) : IsValue (0x7b :: (l ++ [0x7d]))

inductive IsElements : List (BitVec 8) → Prop where
  | last {l} (ws₁ ws₂ : List Blank) (h : IsValue l) : IsElements (blanks ws₁ ++ l ++ blanks ws₂)
  | more {l rest} (ws₁ ws₂ : List Blank) (h : IsValue l) (hrest : IsElements rest)
    : IsElements (blanks ws₁ ++ l ++ blanks ws₂ ++ 0x2c :: rest)

inductive IsMembers : List (BitVec 8) → Prop where
  | last {key l} (ws₁ ws₂ ws₃ ws₄ : List Blank) (hkey : IsChars key) (h : IsValue l)
    : IsMembers (blanks ws₁ ++ 0x22 :: (key ++ 0x22 :: (blanks ws₂ ++ 0x3a :: (blanks ws₃ ++ l ++ blanks ws₄))))
  | more {key l rest} (ws₁ ws₂ ws₃ ws₄ : List Blank) (hkey : IsChars key) (h : IsValue l)
    (hrest : IsMembers rest)
    : IsMembers (blanks ws₁ ++ 0x22 :: (key ++ 0x22 :: (blanks ws₂ ++ 0x3a :: (blanks ws₃ ++ l ++ blanks ws₄
      ++ 0x2c :: rest))))

end

def WellFormed (text : List (BitVec 8)) : Prop :=
  ∃ ws₁ l ws₂, IsValue l ∧ text = blanks ws₁ ++ l ++ blanks ws₂

end Json

end Lib
