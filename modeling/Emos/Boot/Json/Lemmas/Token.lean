import Emos.Lib.Json
import Emos.Boot.Json.Lemmas.Parse

/-!
This module contains how whitespace, numbers and strings are parsed.
-/

open Lib Lib.Decimal Lib.Json

namespace Emos.Boot

variable {s s' : JsonState} {c : BitVec 8} {text tail after : List (BitVec 8)} {v : JsonValue} {n : Nat}

theorem isspace_of_toNat (hlow : 0x20 < c.toNat) (hhigh : c.toNat < 0x80) : isspace c = .ok false := by
  unfold isspace
  rw [if_neg]
  . congr 1
    apply decide_eq_false
    rintro (⟨-, hle⟩ | rfl)
    . rw [BitVec.le_def] at hle
      exact absurd (Nat.lt_of_lt_of_le hlow hle) (by decide)
    . exact absurd hlow (by decide)
  . rw [BitVec.le_def]
    exact Nat.not_le.mpr hhigh

theorem isspace_of_isDigit (h : IsDigit c) : isspace c = .ok false := by
  obtain ⟨hlow, hhigh⟩ := h.toNat
  exact isspace_of_toNat (by omega) (by omega)

theorem isdigit_of_isDigit (h : IsDigit c) : isdigit c = .ok true := by
  obtain ⟨hlow, hhigh⟩ := h.toNat
  unfold isdigit
  rw [if_neg]
  . congr 1
    exact decide_eq_true h
  . rw [BitVec.le_def]
    have : (0x80 : BitVec 8).toNat = 0x80 := rfl
    omega

theorem skipText_blanks (ws : List Blank) : skipText after (blanks ws ++ text) = skipText after text := by
  induction ws with
  | nil => rfl
  | cons w ws ih =>
    have hw : isspace w.byte = .ok true := by cases w <;> rfl
    unfold blanks at ih ⊢
    rw [List.map_cons, List.cons_append, skipText_of_blank hw, ih]

theorem skipWhitespace_blanks (ws : List Blank) (hc : isspace c = .ok false)
    : skipWhitespace ⟨blanks ws ++ c :: text, after⟩ = .ok ⟨c :: text, after⟩ :=
  (skipText_blanks ws).trans (skipText_of_token hc)

theorem parsesTo_blanks (ws : List Blank)
    : ParsesTo ⟨blanks ws ++ text, after⟩ v s' ↔ ParsesTo ⟨text, after⟩ v s' := by
  have hskip : skipWhitespace ⟨blanks ws ++ text, after⟩ = skipWhitespace ⟨text, after⟩ := skipText_blanks ws
  cases ht : skipWhitespace ⟨text, after⟩ with
  | ok t => rw [parsesTo_of_skip (hskip.trans ht), parsesTo_of_skip ht]
  | error e =>
    apply iff_of_false
    . intro h
      obtain ⟨t, h⟩ := exists_skip_of_parsesTo h
      rw [hskip, ht] at h
      contradiction
    . intro h
      obtain ⟨t, h⟩ := exists_skip_of_parsesTo h
      rw [ht] at h
      contradiction

/--
What follows a value does not go on with digits: there is another character in the text, or no memory
behind it.
-/
def Follows (after : List (BitVec 8)) : List (BitVec 8) → Prop
  | [] => after = []
  | c :: _ => isdigit c = .ok false

theorem follows_blanks (ws : List Blank) (hc : isdigit c = .ok false)
    : Follows after (blanks ws ++ c :: text) := by
  cases ws with
  | nil => exact hc
  | cons w ws => cases w <;> rfl

theorem readNumber_of_isDigit (h : IsDigit c)
    : readNumber (BitVec.ofNat 64 n) (c :: text) after
        = readNumber (BitVec.ofNat 64 (10 * n + (c.toNat - 0x30))) text after := by
  have hnum : BitVec.ofNat 64 n * 10 + c.signExtend 64 - 0x30 = BitVec.ofNat 64 (10 * n + (c.toNat - 0x30)) := by
    obtain ⟨hlow, hhigh⟩ := h.toNat
    have hmsb : c.msb = false := by
      rw [BitVec.msb_eq_decide]
      exact decide_eq_false (by omega)
    have hthirty : (0x30 : BitVec 64).toNat = 0x30 := rfl
    have hten : (10 : BitVec 64).toNat = 10 := rfl
    apply BitVec.eq_of_toNat_eq
    rw [BitVec.signExtend_eq_setWidth_of_msb_false hmsb, BitVec.toNat_sub, BitVec.toNat_add, BitVec.toNat_mul,
      BitVec.toNat_ofNat, BitVec.toNat_ofNat, BitVec.toNat_setWidth, hthirty, hten]
    lia
  rw [readNumber, isdigit_of_isDigit h]
  change readNumber _ text after = _
  rw [hnum]

theorem readNumber_digits {digits : List (BitVec 8)} (h : ∀ c ∈ digits, IsDigit c)
    : readNumber (BitVec.ofNat 64 n) (digits ++ tail) after
        = readNumber (BitVec.ofNat 64 (valueFrom n digits)) tail after := by
  induction digits generalizing n with
  | nil => rfl
  | cons c digits ih =>
    rw [List.forall_mem_cons] at h
    rw [List.cons_append, readNumber_of_isDigit h.1, ih h.2, valueFrom_cons]

theorem readNumber_eq_ok {num num' : BitVec 64} (h : Follows after tail)
    : readNumber num tail after = .ok (num', s') ↔ tail ≠ [] ∧ num' = num ∧ s' = ⟨tail, after⟩ := by
  cases tail with
  | nil =>
    have hafter : after = [] := h
    subst hafter
    simp [readNumber]
  | cons c tail =>
    have hc : isdigit c = .ok false := h
    rw [readNumber, hc]
    change Except.ok (num, (⟨c :: tail, after⟩ : JsonState)) = .ok (num', s') ↔ _
    simp [eq_comm]

theorem parsesTo_digits {digits : List (BitVec 8)} (hne : digits ≠ []) (hdigits : ∀ c ∈ digits, IsDigit c)
    (h : Follows after tail)
    : ParsesTo ⟨digits ++ tail, after⟩ v s'
        ↔ tail ≠ [] ∧ v = .number (BitVec.ofNat 64 (value digits)) ∧ s' = ⟨tail, after⟩ := by
  obtain ⟨c, rest, rfl⟩ := List.exists_cons_of_ne_nil hne
  have hc := hdigits c List.mem_cons_self
  have hchar (x : BitVec 8) (hx : ¬ IsDigit x) : c ≠ x := by
    rintro rfl
    exact hx hc
  have hread : readNumber 0 (c :: rest ++ tail) after = readNumber (BitVec.ofNat 64 (value (c :: rest))) tail after :=
    readNumber_digits (n := 0) hdigits
  rw [List.cons_append, parsesTo_cons (isspace_of_isDigit hc)]
  simp only [hchar 0x7b (by decide), hchar 0x5b (by decide), hchar 0x22 (by decide), hchar 0x74 (by decide),
    hchar 0x66 (by decide), hchar 0x6e (by decide), hchar 0x2d (by decide), false_and, or_false, false_or,
    if_false, ← List.cons_append, hread, readNumber_eq_ok h]
  constructor
  . rintro ⟨-, -, num, ⟨htail, rfl, rfl⟩, rfl⟩
    exact ⟨htail, rfl, rfl⟩
  . rintro ⟨htail, rfl, rfl⟩
    exact ⟨hc, by simp [htail], _, ⟨htail, rfl, rfl⟩, rfl⟩

theorem parsesTo_minus {digits : List (BitVec 8)} (hne : digits ≠ []) (hdigits : ∀ c ∈ digits, IsDigit c)
    (h : Follows after tail)
    : ParsesTo ⟨0x2d :: (digits ++ tail), after⟩ v s'
        ↔ tail ≠ [] ∧ v = .number (-BitVec.ofNat 64 (value digits)) ∧ s' = ⟨tail, after⟩ := by
  have hread : readNumber 0 (digits ++ tail) after = readNumber (BitVec.ofNat 64 (value digits)) tail after :=
    readNumber_digits (n := 0) hdigits
  rw [parsesTo_cons rfl, if_pos rfl, hread]
  simp only [readNumber_eq_ok h, if_true]
  constructor
  . rintro (⟨h, -⟩ | ⟨h, -⟩ | ⟨h, -⟩ | ⟨-, -, num, ⟨htail, rfl, rfl⟩, rfl⟩ | ⟨h, -⟩)
    . exact absurd h (by decide)
    . exact absurd h (by decide)
    . exact absurd h (by decide)
    . exact ⟨htail, rfl, rfl⟩
    . exact absurd h (by decide)
  . rintro ⟨htail, rfl, rfl⟩
    exact .inr (.inr (.inr (.inl ⟨.inr trivial, by simp [hne], _, ⟨htail, rfl, rfl⟩, rfl⟩)))

/--
A byte that is copied to a string.
-/
def IsCopied (b : BitVec 8) : Prop := b ≠ 0x22 ∧ b ≠ 0x5c

instance (b : BitVec 8) : Decidable (IsCopied b) := inferInstanceAs (Decidable (_ ∧ _))

theorem copyChars_of_ne {room : Nat} {buf : List (BitVec 8)} (h : IsCopied c)
    : copyChars room buf (c :: text)
        = if room ≤ buf.length then .error (.fault .access) else copyChars room (buf ++ [c]) text := by
  rw [copyChars.eq_def]
  dsimp only
  rw [if_neg h.2, if_neg h.1]

theorem copyChars_eq_of_ok {room : Nat} {buf bytes : List (BitVec 8)} (h : ∀ b ∈ bytes, IsCopied b)
    {r : List (BitVec 8) × List (BitVec 8)} (hr : copyChars room buf (bytes ++ text) = .ok r)
    : copyChars room (buf ++ bytes) text = .ok r := by
  induction bytes generalizing buf with
  | nil => simpa using hr
  | cons b bytes ih =>
    rw [List.forall_mem_cons] at h
    rw [List.cons_append, copyChars_of_ne h.1, ite_error_eq_ok] at hr
    rw [List.append_cons]
    exact ih h.2 hr.2

theorem copyChars_eq {room : Nat} {buf bytes : List (BitVec 8)} (h : ∀ b ∈ bytes, IsCopied b)
    (hroom : buf.length + bytes.length ≤ room)
    : copyChars room buf (bytes ++ text) = copyChars room (buf ++ bytes) text := by
  induction bytes generalizing buf with
  | nil => simp
  | cons b bytes ih =>
    rw [List.forall_mem_cons] at h
    rw [List.length_cons] at hroom
    rw [List.cons_append, copyChars_of_ne h.1, if_neg (by omega), List.append_cons buf b bytes]
    apply ih h.2
    rw [List.length_append, List.length_singleton]
    omega

theorem countEscapedStringLen_eq {bytes : List (BitVec 8)} (h : ∀ b ∈ bytes, IsCopied b)
    : countEscapedStringLen (bytes ++ 0x22 :: tail) = bytes.length := by
  induction bytes with
  | nil =>
    cases tail with
    | nil => rfl
    | cons c tail => rfl
  | cons b bytes ih =>
    rw [List.forall_mem_cons] at h
    obtain ⟨d, rest, hrest⟩ : ∃ d rest, bytes ++ 0x22 :: tail = d :: rest :=
      List.exists_cons_of_ne_nil (by simp)
    rw [List.cons_append, hrest, countEscapedStringLen, if_neg h.1.2, if_neg h.1.1, ← hrest, ih h.2,
      List.length_cons]

theorem copyChars_quote {room : Nat} {buf str rest : List (BitVec 8)}
    : copyChars room buf (0x22 :: tail) = .ok (str, rest) ↔ tail ≠ [] ∧ str = buf ∧ rest = tail := by
  rw [copyChars.eq_def]
  dsimp only
  rw [if_neg (by decide), if_pos rfl, ite_error_eq_ok]
  simp [eq_comm]

/--
A string without escape sequences is copied as it is.
-/
theorem copyChars_bytes {bytes str rest : List (BitVec 8)} (h : ∀ b ∈ bytes, IsCopied b)
    : copyChars (countEscapedStringLen (bytes ++ 0x22 :: tail)) [] (bytes ++ 0x22 :: tail) = .ok (str, rest)
        ↔ tail ≠ [] ∧ str = bytes ∧ rest = tail := by
  rw [countEscapedStringLen_eq h, copyChars_eq h (by simp), List.nil_append, copyChars_quote]

/--
What is copied of a part of a string: of an escape sequence only the hexadecimal digits.
-/
def copied : Piece → List (BitVec 8)
  | .plain b _ => [b]
  | .short _ => []
  | .unicode u _ _ => u.print
  | .surrogates high low _ _ => high.print ++ low.print

theorem hexDigit_toNat (d : HexDigit)
    : (0x30 ≤ d.byte.toNat ∧ d.byte.toNat ≤ 0x39) ∨ (0x41 ≤ d.byte.toNat ∧ d.byte.toNat ≤ 0x46)
        ∨ (0x61 ≤ d.byte.toNat ∧ d.byte.toNat ≤ 0x66) := by
  obtain ⟨⟨digit, hlt⟩, upper⟩ := d
  unfold HexDigit.byte
  split
  . rw [BitVec.toNat_ofNat]
    lia
  . split
    . rw [BitVec.toNat_ofNat]
      lia
    . rw [BitVec.toNat_ofNat]
      lia

theorem isCopied_hexDigit (d : HexDigit) : IsCopied d.byte := by
  have hd := hexDigit_toNat d
  constructor
  . intro heq
    rw [heq] at hd
    revert hd
    decide
  . intro heq
    rw [heq] at hd
    revert hd
    decide

theorem isCopied_hexDigits (u : HexDigits) : ∀ b ∈ u.print, IsCopied b := by
  simp [HexDigits.print, isCopied_hexDigit]

theorem copyChars_escape {room : Nat} {buf : List (BitVec 8)} (c : BitVec 8)
    : copyChars room buf (0x5c :: c :: text) = copyChars room buf text := by
  rw [copyChars, if_pos rfl]

theorem copyChars_piece {room : Nat} {buf : List (BitVec 8)} (p : Piece) {r : List (BitVec 8) × List (BitVec 8)}
    (hr : copyChars room buf (p.print ++ text) = .ok r)
    : copyChars room (buf ++ copied p) text = .ok r := by
  cases p with
  | plain b h =>
    have hb : ∀ x ∈ [b], IsCopied x := by
      intro x hx
      rw [List.mem_singleton] at hx
      rw [hx]
      exact h.2
    exact copyChars_eq_of_ok hb hr
  | short e =>
    change copyChars room buf (0x5c :: e.letter :: text) = .ok r at hr
    rw [copyChars_escape] at hr
    simpa [copied] using hr
  | unicode u =>
    change copyChars room buf (0x5c :: 0x75 :: (u.print ++ text)) = .ok r at hr
    rw [copyChars_escape] at hr
    exact copyChars_eq_of_ok (isCopied_hexDigits u) hr
  | surrogates high low =>
    change copyChars room buf (0x5c :: 0x75 :: (high.print ++ (0x5c :: 0x75 :: (low.print ++ text)))) = .ok r at hr
    rw [copyChars_escape] at hr
    have hrest := copyChars_eq_of_ok (isCopied_hexDigits high) hr
    rw [copyChars_escape] at hrest
    have hlast := copyChars_eq_of_ok (isCopied_hexDigits low) hrest
    rw [List.append_assoc] at hlast
    exact hlast

theorem copyChars_pieces {room : Nat} {buf str rest : List (BitVec 8)} (l : List Piece)
    (h : copyChars room buf (l.flatMap Piece.print ++ 0x22 :: tail) = .ok (str, rest))
    : str = buf ++ l.flatMap copied ∧ rest = tail := by
  induction l generalizing buf with
  | nil =>
    obtain ⟨-, rfl, rfl⟩ := copyChars_quote.1 h
    simp
  | cons p l ih =>
    rw [List.flatMap_cons, List.append_assoc] at h
    obtain ⟨rfl, rfl⟩ := ih (copyChars_piece p h)
    simp

/--
The bytes that only an escape sequence of one letter, or a slash, stands for.
-/
def isSpecial (b : BitVec 8) : Bool := b = 0x22 ∨ b = 0x5c ∨ b = 0x2f ∨ b < 0x20

theorem isSpecial_hexDigit (d : HexDigit) : isSpecial d.byte = false := by
  have hd := hexDigit_toNat d
  have hne (x : BitVec 8) (hx : x.toNat < 0x30 ∨ (0x39 < x.toNat ∧ x.toNat < 0x61)
      ∧ (x.toNat < 0x41 ∨ 0x46 < x.toNat)) : d.byte ≠ x := by
    intro heq
    rw [heq] at hd
    lia
  apply decide_eq_false
  rintro (h | h | h | h)
  . exact hne 0x22 (by decide) h
  . exact hne 0x5c (by decide) h
  . exact hne 0x2f (by decide) h
  . rw [BitVec.lt_def] at h
    have : (0x20 : BitVec 8).toNat = 0x20 := rfl
    omega

theorem countP_isSpecial_print (u : HexDigits) : u.print.countP isSpecial = 0 := by
  simp [HexDigits.print, isSpecial_hexDigit]

theorem length_utf8_le (c : Nat) : (utf8 c).length ≤ 4 ∧ (c < 0x10000 → (utf8 c).length ≤ 3) := by
  unfold utf8
  split
  . simp
  . split
    . simp
    . split
      . simp
      . next hge => simpa using hge

theorem hexDigits_value_lt (u : HexDigits) : u.value < 0x10000 := by
  obtain ⟨⟨⟨a, ha⟩, _⟩, ⟨⟨b, hb⟩, _⟩, ⟨⟨c, hc⟩, _⟩, ⟨⟨d, hd⟩, _⟩⟩ := u
  unfold HexDigits.value
  dsimp only
  omega

theorem countP_isSpecial_piece (p : Piece)
    : (copied p).countP isSpecial + (if p.isShort then 1 else 0) ≤ p.value.countP isSpecial := by
  cases p with
  | plain b => simp [copied, Piece.value, Piece.isShort]
  | short e => cases e <;> decide
  | unicode u =>
    change u.print.countP isSpecial + 0 ≤ _
    rw [countP_isSpecial_print]
    exact Nat.zero_le _
  | surrogates high low =>
    change (high.print ++ low.print).countP isSpecial + 0 ≤ _
    rw [List.countP_append, countP_isSpecial_print, countP_isSpecial_print]
    exact Nat.zero_le _

theorem length_piece_le (p : Piece)
    : p.value.length + (if p.isUnicode then 1 else 0)
        ≤ (copied p).length + if p.isShort then 1 else 0 := by
  cases p with
  | plain b => simp [copied, Piece.value, Piece.isShort, Piece.isUnicode]
  | short e => simp [copied, Piece.value, Piece.isShort, Piece.isUnicode]
  | unicode u =>
    have := (length_utf8_le u.value).2 (hexDigits_value_lt u)
    change (utf8 u.value).length + 1 ≤ 4 + 0
    omega
  | surrogates high low =>
    have := (length_utf8_le (0x10000 + (high.value - 0xd800) * 0x400 + (low.value - 0xdc00))).1
    change (utf8 _).length + 1 ≤ 8 + 0
    omega

theorem countP_isSpecial_le (l : List Piece)
    : (l.flatMap copied).countP isSpecial + l.countP Piece.isShort ≤ (stringValue l).countP isSpecial := by
  unfold stringValue
  induction l with
  | nil => exact Nat.le_refl 0
  | cons p l ih =>
    have hp := countP_isSpecial_piece p
    rw [List.flatMap_cons, List.flatMap_cons, List.countP_append, List.countP_append, List.countP_cons]
    omega

theorem length_stringValue_le (l : List Piece)
    : (stringValue l).length + l.countP Piece.isUnicode
        ≤ (l.flatMap copied).length + l.countP Piece.isShort := by
  unfold stringValue
  induction l with
  | nil => exact Nat.le_refl 0
  | cons p l ih =>
    have hp := length_piece_le p
    rw [List.flatMap_cons, List.flatMap_cons, List.length_append, List.length_append, List.countP_cons,
      List.countP_cons]
    omega

/--
The string that is copied is never the right one if there is an escape sequence in it: one of one letter
leaves out a byte that no other part makes up for, and one of digits is too long.
-/
theorem not_isEscape_of_copied_eq {l : List Piece} (h : l.flatMap copied = stringValue l)
    : ∀ p ∈ l, ¬ p.IsEscape := by
  have hspecial := countP_isSpecial_le l
  have hlength := length_stringValue_le l
  rw [h] at hspecial hlength
  have hshort : l.countP Piece.isShort = 0 := by omega
  have hunicode : l.countP Piece.isUnicode = 0 := by omega
  rw [List.countP_eq_zero] at hshort hunicode
  intro p hp hescape
  cases p with
  | plain b => exact hescape
  | short e => exact hshort _ hp rfl
  | unicode u => exact hunicode _ hp rfl
  | surrogates high low => exact hunicode _ hp rfl

/--
A string without escape sequences is written as its bytes.
-/
theorem flatMap_print_eq {l : List Piece} (h : ∀ p ∈ l, ¬ p.IsEscape)
    : l.flatMap Piece.print = stringValue l ∧ ∀ b ∈ stringValue l, IsPlain b := by
  unfold stringValue
  induction l with
  | nil => exact ⟨rfl, by simp⟩
  | cons p l ih =>
    rw [List.forall_mem_cons] at h
    obtain ⟨heq, hplain⟩ := ih h.2
    cases p with
    | plain b hb =>
      rw [List.flatMap_cons, List.flatMap_cons, heq]
      refine ⟨rfl, List.forall_mem_cons.mpr ⟨hb, hplain⟩⟩
    | short e => exact absurd trivial h.1
    | unicode u => exact absurd trivial h.1
    | surrogates high low => exact absurd trivial h.1

theorem parsesTo_literal {str : List (BitVec 8)} {w : JsonValue} (h : JsonLiteral str w)
    : ParsesTo ⟨str ++ tail, after⟩ v s' ↔ tail ≠ [] ∧ v = w ∧ s' = ⟨tail, after⟩ := by
  have hsame {str' : List (BitVec 8)} (h' : JsonLiteral str' v) (hstart : str' <+: str ++ tail)
      : str' = str ∧ v = w := by
    cases h <;> cases h' <;> first
      | exact ⟨rfl, rfl⟩
      | exact absurd (List.cons_prefix_cons.mp hstart).1 (by decide)
  obtain ⟨c, rest, hstr, hc, hother⟩ : ∃ c rest, str ++ tail = c :: rest ∧ isspace c = .ok false
      ∧ (c = 0x74 ∨ c = 0x66 ∨ c = 0x6e) := by
    cases h
    . exact ⟨_, _, rfl, rfl, .inl rfl⟩
    . exact ⟨_, _, rfl, rfl, .inr (.inl rfl)⟩
    . exact ⟨_, _, rfl, rfl, .inr (.inr rfl)⟩
  have hne (x : BitVec 8) (hx : ¬ (x = 0x74 ∨ x = 0x66 ∨ x = 0x6e)) : c ≠ x := by
    rintro rfl
    exact hx hother
  have hnumber : ¬ ((0x30 ≤ c ∧ c ≤ 0x39) ∨ c = 0x2d) := by
    obtain rfl | rfl | rfl := hother <;> decide
  rw [hstr, parsesTo_cons hc, ← hstr]
  simp only [hne 0x7b (by decide), hne 0x5b (by decide), hne 0x22 (by decide), hnumber, false_and, false_or]
  constructor
  . rintro ⟨-, str', hliteral, hlength, hstart, rfl⟩
    obtain ⟨rfl, rfl⟩ := hsame hliteral hstart
    refine ⟨?_, rfl, by rw [List.drop_left]⟩
    rintro rfl
    simp at hlength
  . rintro ⟨htail, rfl, rfl⟩
    refine ⟨hother, str, h, ?_, List.prefix_append _ _, by rw [List.drop_left]⟩
    rw [List.length_append]
    have := List.length_pos_iff.mpr htail
    omega

/--
A string that is read is the one of the bytes if no byte is special, and never the one of parts of which
one is an escape sequence.
-/
theorem parsesTo_bytes {bytes : List (BitVec 8)} (h : ∀ b ∈ bytes, IsCopied b)
    : ParsesTo ⟨0x22 :: (bytes ++ 0x22 :: tail), after⟩ v s'
        ↔ tail ≠ [] ∧ v = .string bytes ∧ s' = ⟨tail, after⟩ := by
  rw [parsesTo_cons rfl]
  constructor
  . rintro (⟨h, -⟩ | ⟨h, -⟩ | ⟨-, -, str, rest, hcopy, rfl, rfl⟩ | ⟨h, -⟩ | ⟨h, -⟩)
    . exact absurd h (by decide)
    . exact absurd h (by decide)
    . obtain ⟨htail, rfl, rfl⟩ := (copyChars_bytes h).mp hcopy
      exact ⟨htail, rfl, rfl⟩
    . exact absurd h (by decide)
    . exact absurd h (by decide)
  . rintro ⟨htail, rfl, rfl⟩
    exact .inr (.inr (.inl ⟨rfl, by simp, bytes, tail, (copyChars_bytes h).mpr ⟨htail, rfl, rfl⟩, rfl, rfl⟩))

theorem exists_copyChars_of_parsesTo {str : List (BitVec 8)} (hc : isspace c = .ok false)
    (h : ParsesTo ⟨c :: text, after⟩ (.string str) s')
    : c = 0x22 ∧ ∃ rest, copyChars (countEscapedStringLen text) [] text = .ok (str, rest) := by
  obtain ⟨_, _, _, _, heq⟩ | ⟨_, _, _, _, heq⟩ | ⟨hquote, _, str', rest, hcopy, heq, _⟩ | ⟨_, _, _, _, heq⟩
    | ⟨_, _, hliteral, _⟩ := (parsesTo_cons hc).mp h
  . contradiction
  . contradiction
  . cases heq
    exact ⟨hquote, rest, hcopy⟩
  . contradiction
  . contradiction

end Emos.Boot
