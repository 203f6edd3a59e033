import Emos.Boot.Json.Lemmas.Value

/-!
This module contains for which texts the parser returns the value that is written there.
-/

open Lib Lib.Decimal Lib.Json

namespace Emos.Boot

variable {s s' : JsonState} {c x : BitVec 8} {i : BitVec 32} {text text' tail after : List (BitVec 8)}
  {v : JsonValue} {e : JsonArrayElem} {o : JsonObjectElem} {t : Text} {es : Elements} {ms : Members}

/--
A value that is read from `text` is the one of `t`, and all of `text` is read. If `t` cannot be parsed,
it is another one or none.
-/
structure Reads (after : List (BitVec 8)) (t : Text) (text : List (BitVec 8)) : Prop where
  parsable : Parsable t → ∀ tail v s', Follows after tail
    → (ParsesTo ⟨text ++ tail, after⟩ v s' ↔ tail ≠ [] ∧ v = jsonOf t ∧ s' = ⟨tail, after⟩)
  unparsable : ¬ Parsable t → ∀ tail s', ¬ ParsesTo ⟨text ++ tail, after⟩ (jsonOf t) s'

theorem Reads.blanks (h : Reads after t text) (ws : List Blank) : Reads after t (blanks ws ++ text) where
  parsable := by
    intro ht tail v s' hfollows
    rw [List.append_assoc, parsesTo_blanks]
    exact h.parsable ht tail v s' hfollows
  unparsable := by
    intro ht tail s'
    rw [List.append_assoc, parsesTo_blanks]
    exact h.unparsable ht tail s'

theorem reads_literal {str : List (BitVec 8)} (h : JsonLiteral str (jsonOf t)) (ht : Parsable t)
    : Reads after t str where
  parsable := fun _ _ _ _ _ => parsesTo_literal h
  unparsable := fun hnot => absurd ht hnot

theorem reads_digits {n : Number} {digits : List (BitVec 8)} (hne : digits ≠ [])
    (hdigits : ∀ c ∈ digits, IsDigit c) (hvalue : BitVec.ofNat 64 (value digits) = BitVec.ofInt 64 n.value)
    : Reads after (.number n) digits where
  parsable := by
    intro _ tail v s' hfollows
    rw [parsesTo_digits hne hdigits hfollows, hvalue]
    rfl
  unparsable := fun hnot => absurd trivial hnot

theorem reads_number (n : Number) : Reads after (.number n) n.print := by
  have hne := numeral_ne_nil n.magnitude
  have hdigits := isDigit_numeral n.magnitude
  unfold Number.print
  cases hn : n.negative with
  | false =>
    apply reads_digits hne hdigits
    unfold Number.value
    rw [hn, value_numeral]
    exact (BitVec.ofInt_natCast 64 n.magnitude).symm
  | true =>
    have hvalue : -BitVec.ofNat 64 (value (numeral n.magnitude)) = BitVec.ofInt 64 n.value := by
      unfold Number.value
      rw [hn, value_numeral, if_pos rfl, BitVec.ofInt_neg, BitVec.ofInt_natCast]
    refine ⟨?_, fun hnot => absurd trivial hnot⟩
    intro _ tail v s' hfollows
    rw [if_pos rfl, List.cons_append, parsesTo_minus hne hdigits hfollows, hvalue]
    rfl

/--
Without its sign, such a number is the same.
-/
theorem reads_signOnly (h : SignOnly t) : ∃ digits, t.print = 0x2d :: digits ∧ Reads after t digits := by
  cases t with
  | number n =>
    obtain ⟨hn, hmagnitude⟩ := h
    refine ⟨numeral n.magnitude, ?_, reads_digits (numeral_ne_nil _) (isDigit_numeral _) ?_⟩
    . change n.print = _
      unfold Number.print
      rw [hn, if_pos rfl]
    . unfold Number.value
      rw [hn, value_numeral, if_pos rfl]
      obtain hzero | hmax := hmagnitude
      . rw [hzero]
        rfl
      . rw [hmax]
        rfl
  | _ => exact absurd h id

theorem isCopied_of_isPlain {b : BitVec 8} (h : IsPlain b) : IsCopied b := h.2

theorem reads_string (l : List Piece) : Reads after (.string l) (printString l) where
  parsable := by
    intro hl tail v s' _
    obtain ⟨hprint, hplain⟩ := flatMap_print_eq hl
    unfold printString
    rw [hprint, List.cons_append, List.append_assoc, List.singleton_append]
    exact parsesTo_bytes fun b hb => isCopied_of_isPlain (hplain b hb)
  unparsable := by
    intro hl tail s' h
    unfold printString at h
    rw [List.cons_append, List.append_assoc, List.singleton_append] at h
    obtain ⟨-, rest, hcopy⟩ := exists_copyChars_of_parsesTo rfl h
    obtain ⟨heq, -⟩ := copyChars_pieces l hcopy
    exact hl (not_isEscape_of_copied_eq heq.symm)

theorem reads_emptyArray (ws : List Blank) : Reads after (.emptyArray ws) (Text.emptyArray ws).print where
  parsable := fun h => absurd h id
  unparsable := by
    intro _ tail s' h
    change ParsesTo ⟨0x5b :: (blanks ws ++ [0x5d] ++ tail), after⟩ _ s' at h
    rw [List.append_assoc, List.singleton_append] at h
    obtain ⟨-, e, he, -⟩ := parsesTo_bracket.mp h
    obtain ⟨v, t, u, hv, -⟩ := arrayParsesTo_iff.mp he
    rw [parsesTo_blanks] at hv
    exact not_parsesTo_of_start rfl (by decide) hv

theorem reads_emptyObject (ws : List Blank) : Reads after (.emptyObject ws) (Text.emptyObject ws).print where
  parsable := fun h => absurd h id
  unparsable := by
    intro _ tail s' h
    change ParsesTo ⟨0x7b :: (blanks ws ++ [0x7d] ++ tail), after⟩ _ s' at h
    rw [List.append_assoc, List.singleton_append] at h
    obtain ⟨-, o, ho, -⟩ := parsesTo_brace.mp h
    obtain ⟨s₁, key, s₂, s₃, s₄, v, s₆, s₇, h₁, hkey, -⟩ := objectParsesTo_iff.mp ho
    rw [skipWhitespace_blanks ws rfl] at h₁
    cases h₁
    exact parseStringLiteral_of_ne rfl (by decide) hkey

/--
One round of the loop of `parse_array` that reads the right value. Of what follows a comma, the first
character is left out.
-/
theorem Reads.arrayParsesTo_iff (h : Reads after t text) (ht : Parsable t) (ws : List Blank)
    (hspace : isspace c = .ok false) (hdigit : isdigit c = .ok false)
    : ArrayParsesTo i ⟨text ++ (Json.blanks ws ++ c :: tail), after⟩ e s'
        ↔ (c = 0x5d ∧ tail ≠ [] ∧ s' = ⟨tail, after⟩ ∧ e = .elem i (jsonOf t) .null)
          ∨ (c = 0x2c ∧ ∃ x rest n, tail = x :: rest ∧ rest ≠ [] ∧ ArrayParsesTo (i + 1) ⟨rest, after⟩ n s'
            ∧ e = .elem i (jsonOf t) n) := by
  have hreads (v : JsonValue) (u : JsonState) := h.parsable ht (Json.blanks ws ++ c :: tail) v u
    (follows_blanks ws hdigit)
  rw [Emos.Boot.arrayParsesTo_iff]
  constructor
  . rintro ⟨v, u, w, hv, hw, hend⟩
    obtain ⟨-, rfl, rfl⟩ := (hreads v u).mp hv
    rw [skipWhitespace_blanks ws hspace] at hw
    cases hw
    obtain ⟨hd, hadvance, rfl⟩ | ⟨hd, a, b, n, ha, hb, hn, rfl⟩ := hend
    . cases hd
      obtain ⟨htail, rfl⟩ := advance_eq_ok.mp hadvance
      exact .inl ⟨rfl, htail, rfl, rfl⟩
    . cases hd
      obtain ⟨htail, rfl⟩ := advance_eq_ok.mp ha
      obtain ⟨x, rest, rfl⟩ := List.exists_cons_of_ne_nil htail
      obtain ⟨hrest, rfl⟩ := advance_eq_ok.mp hb
      exact .inr ⟨rfl, x, rest, n, rfl, hrest, hn, rfl⟩
  . intro hend
    refine ⟨jsonOf t, _, _, (hreads _ _).mpr ⟨by simp, rfl, rfl⟩, skipWhitespace_blanks ws hspace, ?_⟩
    obtain ⟨rfl, htail, rfl, rfl⟩ | ⟨rfl, x, rest, n, rfl, hrest, hn, rfl⟩ := hend
    . exact .inl ⟨rfl, advance_eq_ok.mpr ⟨htail, rfl⟩, rfl⟩
    . exact .inr ⟨rfl, _, _, n, advance_eq_ok.mpr ⟨by simp, rfl⟩, advance_eq_ok.mpr ⟨hrest, rfl⟩, hn, rfl⟩

/--
What follows the first element of an array.
-/
def elementsBehind : Elements → List (BitVec 8)
  | .last _ _ behind => blanks behind ++ [0x5d]
  | .more _ _ behind rest => blanks behind ++ 0x2c :: rest.print

theorem elements_print (es : Elements) : es.print = blanks es.before ++ (es.first.print ++ elementsBehind es) := by
  cases es <;> rfl

/--
The same for the elements of an array whose first value is read from `text`.
-/
structure ReadsElements (after : List (BitVec 8)) (i : BitVec 32) (es : Elements) (text : List (BitVec 8))
    : Prop where
  parsable : ElementsParsable es → ∀ tail e s',
    ArrayParsesTo i ⟨text ++ (elementsBehind es ++ tail), after⟩ e s'
      ↔ tail ≠ [] ∧ e = arrayOf i es ∧ s' = ⟨tail, after⟩
  unparsable : ¬ ElementsParsable es → ∀ tail s',
    ¬ ArrayParsesTo i ⟨text ++ (elementsBehind es ++ tail), after⟩ (arrayOf i es) s'

theorem readsElements_last {before behind : List Blank} (h : Reads after t text)
    : ReadsElements after i (.last before t behind) text where
  parsable := by
    intro ht tail e s'
    change ArrayParsesTo i ⟨text ++ ((blanks behind ++ [0x5d]) ++ tail), after⟩ e s' ↔ _
    rw [List.append_assoc, List.singleton_append, h.arrayParsesTo_iff ht behind rfl rfl]
    constructor
    . rintro (⟨-, htail, rfl, rfl⟩ | ⟨hcomma, -⟩)
      . exact ⟨htail, rfl, rfl⟩
      . exact absurd hcomma (by decide)
    . rintro ⟨htail, rfl, rfl⟩
      exact .inl ⟨rfl, htail, rfl, rfl⟩
  unparsable := by
    intro ht tail s' harray
    obtain ⟨u, hu⟩ := exists_parsesTo_of_array harray
    exact h.unparsable ht _ u hu

/--
Of whitespace and of a sign in front of an element, nothing but the first character is left out.
-/
theorem exists_dropped {rest : Elements} (h : rest.before ≠ [] ∨ SignOnly rest.first)
    (hfirst : Reads after rest.first rest.first.print)
    : ∃ x text, rest.print = x :: (text ++ elementsBehind rest) ∧ Reads after rest.first text := by
  rw [elements_print]
  cases hbefore : rest.before with
  | nil =>
    obtain ⟨digits, hprint, hreads⟩ := reads_signOnly (h.resolve_left (fun hne => hne hbefore))
    refine ⟨0x2d, digits, ?_, hreads⟩
    rw [hprint]
    rfl
  | cons w ws =>
    refine ⟨w.byte, blanks ws ++ rest.first.print, ?_, hfirst.blanks ws⟩
    rw [List.append_assoc]
    rfl

theorem elementsBehind_append_ne_nil (es : Elements) : elementsBehind es ++ tail ≠ [] := by
  cases es <;> simp [elementsBehind]

theorem exists_arrayOf (i : BitVec 32) (es : Elements) : ∃ n, arrayOf i es = .elem i (jsonOf es.first) n := by
  cases es <;> exact ⟨_, rfl⟩

theorem exists_elementsBehind (es : Elements)
    : ∃ ws c rest, elementsBehind es = blanks ws ++ c :: rest ∧ (c = 0x2c ∨ c = 0x5d ∨ c = 0x7d) := by
  cases es with
  | last _ _ behind => exact ⟨behind, 0x5d, [], rfl, .inr (.inl rfl)⟩
  | more _ _ behind rest => exact ⟨behind, 0x2c, rest.print, rfl, .inl rfl⟩

/--
If there is no whitespace after the comma, the first character of the next element is left out.
-/
theorem not_arrayParsesTo_dropped {rest : Elements} (h : ¬ (rest.before ≠ [] ∨ SignOnly rest.first))
    (hprint : rest.print ++ tail = x :: text) : ¬ ArrayParsesTo i ⟨text, after⟩ (arrayOf i rest) s' := by
  rw [not_or, not_not] at h
  obtain ⟨hbefore, hsign⟩ := h
  intro harray
  obtain ⟨n, hn⟩ := exists_arrayOf i rest
  rw [hn] at harray
  obtain ⟨u, hu⟩ := exists_parsesTo_of_array harray
  obtain ⟨ws, c, behind, hbehind, hc⟩ := exists_elementsBehind rest
  obtain ⟨d, first, hfirst⟩ := List.exists_cons_of_ne_nil (print_ne_nil rest.first)
  have htext : text = rest.first.print.tail ++ (blanks ws ++ c :: (behind ++ tail)) := by
    rw [elements_print, hbefore, hbehind, hfirst] at hprint
    obtain ⟨-, heq⟩ := List.cons.inj hprint
    rw [← heq, hfirst]
    simp
  rw [htext] at hu
  exact not_parsesTo_dropped hsign hc hu

theorem readsElements_more {before behind : List Blank} {rest : Elements} (h : Reads after t text)
    (hfirst : Reads after rest.first rest.first.print)
    (hrest : ∀ i text, Reads after rest.first text → ReadsElements after i rest text)
    : ReadsElements after i (.more before t behind rest) text where
  parsable := by
    rintro ⟨ht, hdrop, hparsable⟩ tail e s'
    obtain ⟨x, text', hprint, hreads⟩ := exists_dropped hdrop hfirst
    have hround (n : JsonArrayElem) := ((hrest (i + 1) text' hreads).parsable hparsable tail n s')
    change ArrayParsesTo i ⟨text ++ ((blanks behind ++ 0x2c :: rest.print) ++ tail), after⟩ e s' ↔ _
    rw [List.append_assoc, List.cons_append, h.arrayParsesTo_iff ht behind rfl rfl, hprint, List.cons_append,
      List.append_assoc]
    constructor
    . rintro (⟨hbracket, -⟩ | ⟨-, y, rest', n, heq, -, hn, rfl⟩)
      . exact absurd hbracket (by decide)
      . obtain ⟨-, rfl⟩ := List.cons.inj heq
        obtain ⟨htail, rfl, rfl⟩ := (hround n).mp hn
        exact ⟨htail, rfl, rfl⟩
    . rintro ⟨htail, rfl, rfl⟩
      refine .inr ⟨rfl, x, _, _, rfl, ?_, (hround _).mpr ⟨htail, rfl, rfl⟩, rfl⟩
      exact List.append_ne_nil_of_right_ne_nil _ (elementsBehind_append_ne_nil rest)
  unparsable := by
    intro hnot tail s' harray
    change ArrayParsesTo i ⟨text ++ ((blanks behind ++ 0x2c :: rest.print) ++ tail), after⟩
      (.elem i (jsonOf t) (arrayOf (i + 1) rest)) s' at harray
    by_cases ht : Parsable t
    . rw [List.append_assoc, List.cons_append, h.arrayParsesTo_iff ht behind rfl rfl] at harray
      obtain ⟨hbracket, -⟩ | ⟨-, x, rest', n, hprint, -, hn, heq⟩ := harray
      . exact absurd hbracket (by decide)
      . cases heq
        by_cases hdrop : rest.before ≠ [] ∨ SignOnly rest.first
        . obtain ⟨y, text', hprint', hreads⟩ := exists_dropped hdrop hfirst
          rw [hprint', List.cons_append, List.append_assoc] at hprint
          obtain ⟨-, rfl⟩ := List.cons.inj hprint
          exact (hrest (i + 1) text' hreads).unparsable (fun hparsable => hnot ⟨ht, hdrop, hparsable⟩) tail s' hn
        . exact not_arrayParsesTo_dropped hdrop hprint hn
    . obtain ⟨u, hu⟩ := exists_parsesTo_of_array harray
      exact h.unparsable ht _ u hu

theorem reads_array (h : ∀ i, ReadsElements after i es (blanks es.before ++ es.first.print))
    : Reads after (.array es) (Text.array es).print where
  parsable := by
    intro hparsable tail v s' _
    have hround (e : JsonArrayElem) := (h 0).parsable hparsable tail e s'
    change ParsesTo ⟨0x5b :: (es.print ++ tail), after⟩ v s' ↔ tail ≠ [] ∧ v = .array (arrayOf 0 es) ∧ _
    rw [parsesTo_bracket, elements_print, ← List.append_assoc, List.append_assoc]
    constructor
    . rintro ⟨-, e, he, rfl⟩
      obtain ⟨htail, rfl, rfl⟩ := (hround e).mp he
      exact ⟨htail, rfl, rfl⟩
    . rintro ⟨htail, rfl, rfl⟩
      refine ⟨?_, _, (hround _).mpr ⟨htail, rfl, rfl⟩, rfl⟩
      exact List.append_ne_nil_of_right_ne_nil _ (elementsBehind_append_ne_nil es)
  unparsable := by
    intro hparsable tail s' harray
    change ParsesTo ⟨0x5b :: (es.print ++ tail), after⟩ (.array (arrayOf 0 es)) s' at harray
    rw [parsesTo_bracket, elements_print, ← List.append_assoc, List.append_assoc] at harray
    obtain ⟨-, e, he, heq⟩ := harray
    cases heq
    exact (h 0).unparsable hparsable tail s' he

/--
A key and the colon behind it.
-/
theorem parseStringLiteral_iff {key : List Piece} (h : Unescaped key) {r : List (BitVec 8) × JsonState}
    : parseStringLiteral ⟨printString key ++ tail, after⟩ = .ok r
        ↔ tail ≠ [] ∧ r = (stringValue key, ⟨tail, after⟩) := by
  obtain ⟨hprint, hplain⟩ := flatMap_print_eq h
  unfold printString
  rw [hprint, List.cons_append, List.append_assoc, List.singleton_append, parseStringLiteral_quote]
  constructor
  . rintro ⟨-, str, rest, hcopy, rfl⟩
    obtain ⟨htail, rfl, rfl⟩ := (copyChars_bytes fun b hb => isCopied_of_isPlain (hplain b hb)).mp hcopy
    exact ⟨htail, rfl⟩
  . rintro ⟨htail, rfl⟩
    exact ⟨by simp, _, _, (copyChars_bytes fun b hb => isCopied_of_isPlain (hplain b hb)).mpr ⟨htail, rfl, rfl⟩, rfl⟩

theorem unescaped_of_parseStringLiteral {key : List Piece} {u : JsonState}
    (h : parseStringLiteral ⟨printString key ++ tail, after⟩ = .ok (stringValue key, u)) : Unescaped key := by
  unfold printString at h
  rw [List.cons_append, List.append_assoc, List.singleton_append, parseStringLiteral_quote] at h
  obtain ⟨-, str, rest, hcopy, heq⟩ := h
  cases heq
  obtain ⟨heq, -⟩ := copyChars_pieces key hcopy
  exact not_isEscape_of_copied_eq heq.symm

theorem objectParsesTo_key {key : List Piece} (h : Unescaped key) (ws between : List Blank)
    : ObjectParsesTo ⟨blanks ws ++ (printString key ++ (blanks between ++ 0x3a :: text)), after⟩ o s'
        ↔ text ≠ [] ∧ ∃ v u w, ParsesTo ⟨text, after⟩ v u ∧ skipWhitespace u = .ok w
          ∧ ((w.peek = .ok 0x7d ∧ w.advance = .ok s' ∧ o = .elem (stringValue key) v .null)
            ∨ (w.peek = .ok 0x2c ∧ ∃ a b n, w.advance = .ok a ∧ a.advance = .ok b
              ∧ ObjectParsesTo b n s' ∧ o = .elem (stringValue key) v n)) := by
  have hskip : skipWhitespace ⟨blanks ws ++ (printString key ++ (blanks between ++ 0x3a :: text)), after⟩
      = .ok ⟨printString key ++ (blanks between ++ 0x3a :: text), after⟩ :=
    skipWhitespace_blanks ws rfl
  rw [objectParsesTo_iff]
  constructor
  . rintro ⟨s₁, key', s₂, s₃, s₄, v, s₆, s₇, h₁, hkey, h₃, hcolon, h₄, hv, h₇, hend⟩
    rw [hskip] at h₁
    cases h₁
    obtain ⟨-, heq⟩ := (parseStringLiteral_iff h).mp hkey
    cases heq
    rw [skipWhitespace_blanks between rfl] at h₃
    cases h₃
    obtain ⟨htext, rfl⟩ := advance_eq_ok.mp h₄
    exact ⟨htext, v, s₆, s₇, hv, h₇, hend⟩
  . rintro ⟨htext, v, u, w, hv, hw, hend⟩
    refine ⟨_, _, _, _, _, v, u, w, hskip, (parseStringLiteral_iff h).mpr ⟨by simp, rfl⟩,
      skipWhitespace_blanks between rfl, rfl, advance_eq_ok.mpr ⟨htext, rfl⟩, hv, hw, hend⟩

/--
One round of the loop of `parse_object` that reads the right key and the right value.
-/
theorem Reads.objectParsesTo_iff {key : List Piece} (h : Reads after t text) (hkey : Unescaped key)
    (ht : Parsable t) (ws between behind : List Blank) (hspace : isspace c = .ok false)
    (hdigit : isdigit c = .ok false)
    : ObjectParsesTo ⟨Json.blanks ws ++ (printString key ++ (Json.blanks between
          ++ 0x3a :: (text ++ (Json.blanks behind ++ c :: tail)))), after⟩ o s'
        ↔ (c = 0x7d ∧ tail ≠ [] ∧ s' = ⟨tail, after⟩ ∧ o = .elem (stringValue key) (jsonOf t) .null)
          ∨ (c = 0x2c ∧ ∃ x rest n, tail = x :: rest ∧ rest ≠ [] ∧ ObjectParsesTo ⟨rest, after⟩ n s'
            ∧ o = .elem (stringValue key) (jsonOf t) n) := by
  have hreads (v : JsonValue) (u : JsonState) := h.parsable ht (Json.blanks behind ++ c :: tail) v u
    (follows_blanks behind hdigit)
  rw [objectParsesTo_key hkey]
  constructor
  . rintro ⟨-, v, u, w, hv, hw, hend⟩
    obtain ⟨-, rfl, rfl⟩ := (hreads v u).mp hv
    rw [skipWhitespace_blanks behind hspace] at hw
    cases hw
    obtain ⟨hd, hadvance, rfl⟩ | ⟨hd, a, b, n, ha, hb, hn, rfl⟩ := hend
    . cases hd
      obtain ⟨htail, rfl⟩ := advance_eq_ok.mp hadvance
      exact .inl ⟨rfl, htail, rfl, rfl⟩
    . cases hd
      obtain ⟨htail, rfl⟩ := advance_eq_ok.mp ha
      obtain ⟨x, rest, rfl⟩ := List.exists_cons_of_ne_nil htail
      obtain ⟨hrest, rfl⟩ := advance_eq_ok.mp hb
      exact .inr ⟨rfl, x, rest, n, rfl, hrest, hn, rfl⟩
  . intro hend
    refine ⟨by simp, jsonOf t, _, _, (hreads _ _).mpr ⟨by simp, rfl, rfl⟩, skipWhitespace_blanks behind hspace, ?_⟩
    obtain ⟨rfl, htail, rfl, rfl⟩ | ⟨rfl, x, rest, n, rfl, hrest, hn, rfl⟩ := hend
    . exact .inl ⟨rfl, advance_eq_ok.mpr ⟨htail, rfl⟩, rfl⟩
    . exact .inr ⟨rfl, _, _, n, advance_eq_ok.mpr ⟨by simp, rfl⟩, advance_eq_ok.mpr ⟨hrest, rfl⟩, hn, rfl⟩

theorem exists_parsesTo_of_object {key : List Piece} {ws between : List Blank} {n : JsonObjectElem}
    (h : ObjectParsesTo ⟨blanks ws ++ (printString key ++ (blanks between ++ 0x3a :: text)), after⟩
      (.elem (stringValue key) v n) s')
    : Unescaped key ∧ ∃ u, ParsesTo ⟨text, after⟩ v u := by
  have hkey : Unescaped key := by
    obtain ⟨s₁, key', s₂, s₃, s₄, w, s₆, s₇, h₁, hkey, -, -, -, -, -, hend⟩ := objectParsesTo_iff.1 h
    have hskip : skipWhitespace ⟨blanks ws ++ (printString key ++ (blanks between ++ 0x3a :: text)), after⟩
        = .ok ⟨printString key ++ (blanks between ++ 0x3a :: text), after⟩ :=
      skipWhitespace_blanks ws rfl
    rw [hskip] at h₁
    cases h₁
    obtain ⟨-, -, heq⟩ | ⟨-, _, _, _, -, -, -, heq⟩ := hend
    . cases heq
      exact unescaped_of_parseStringLiteral hkey
    . cases heq
      exact unescaped_of_parseStringLiteral hkey
  refine ⟨hkey, ?_⟩
  obtain ⟨-, w, u, _, hw, -, ⟨-, -, heq⟩ | ⟨-, _, _, _, -, -, -, heq⟩⟩ := (objectParsesTo_key hkey ws between).mp h
  . cases heq
    exact ⟨u, hw⟩
  . cases heq
    exact ⟨u, hw⟩

/--
What follows the whitespace in front of the first key of an object.
-/
def membersBehind : Members → List (BitVec 8)
  | .last _ key between gap value behind =>
    printString key ++ (blanks between ++ 0x3a :: (blanks gap ++ (value.print ++ (blanks behind ++ [0x7d]))))
  | .more _ key between gap value behind rest =>
    printString key ++ (blanks between ++ 0x3a :: (blanks gap ++ (value.print ++ (blanks behind
      ++ 0x2c :: rest.print))))

theorem members_print_eq (ms : Members) : ms.print = blanks ms.before ++ membersBehind ms := by
  cases ms <;> rfl

/--
The same for the members of an object.
-/
structure ReadsMembers (after : List (BitVec 8)) (ms : Members) : Prop where
  parsable : MembersParsable ms → ∀ ws tail o s',
    ObjectParsesTo ⟨blanks ws ++ (membersBehind ms ++ tail), after⟩ o s'
      ↔ tail ≠ [] ∧ o = objectOf ms ∧ s' = ⟨tail, after⟩
  unparsable : ¬ MembersParsable ms → ∀ ws tail s',
    ¬ ObjectParsesTo ⟨blanks ws ++ (membersBehind ms ++ tail), after⟩ (objectOf ms) s'

theorem readsMembers_last {before between gap behind : List Blank} {key : List Piece}
    (h : Reads after t t.print) : ReadsMembers after (.last before key between gap t behind) where
  parsable := by
    rintro ⟨hkey, ht⟩ ws tail o s'
    simp only [membersBehind, List.append_assoc, List.cons_append, List.nil_append]
    rw [← List.append_assoc (blanks gap),
      (h.blanks gap).objectParsesTo_iff hkey ht ws between behind rfl rfl]
    constructor
    . rintro (⟨-, htail, rfl, rfl⟩ | ⟨hcomma, -⟩)
      . exact ⟨htail, rfl, rfl⟩
      . exact absurd hcomma (by decide)
    . rintro ⟨htail, rfl, rfl⟩
      exact .inl ⟨rfl, htail, rfl, rfl⟩
  unparsable := by
    intro hnot ws tail s' hobject
    simp only [membersBehind, List.append_assoc, List.cons_append, List.nil_append] at hobject
    obtain ⟨hkey, u, hu⟩ := exists_parsesTo_of_object hobject
    rw [← List.append_assoc] at hu
    exact (h.blanks gap).unparsable (fun ht => hnot ⟨hkey, ht⟩) _ u hu

/--
If there is no whitespace after the comma, the quote of the next key is left out.
-/
theorem not_objectParsesTo_dropped {rest : Members} (h : rest.before = [])
    (hprint : rest.print ++ tail = x :: text) : ¬ ObjectParsesTo ⟨text, after⟩ (objectOf rest) s' := by
  obtain ⟨key, between, behind, hkey, hbehind⟩ : ∃ key between behind,
      (∃ v n, objectOf rest = .elem (stringValue key) v n)
        ∧ membersBehind rest = printString key ++ (blanks between ++ 0x3a :: behind) := by
    cases rest <;> exact ⟨_, _, _, ⟨_, _, rfl⟩, rfl⟩
  have htext : text = key.flatMap Piece.print ++ 0x22 :: (blanks between ++ 0x3a :: (behind ++ tail)) := by
    rw [members_print_eq, h, hbehind] at hprint
    obtain ⟨-, heq⟩ := List.cons.inj hprint
    rw [← heq]
    simp
  obtain ⟨v, n, hn⟩ := hkey
  rw [htext, hn]
  intro hobject
  obtain ⟨s₁, key', s₂, s₃, s₄, w, s₆, s₇, h₁, hkey', -, -, -, -, -, hend⟩ := objectParsesTo_iff.1 hobject
  have heq : key' = stringValue key := by
    obtain ⟨-, -, heq⟩ | ⟨-, _, _, _, -, -, -, heq⟩ := hend
    . exact (JsonObjectElem.elem.inj heq).1.symm
    . exact (JsonObjectElem.elem.inj heq).1.symm
  rw [heq] at hkey'
  exact not_parseStringLiteral_dropped (by decide) (by decide) h₁ hkey'

theorem readsMembers_more {before between gap behind : List Blank} {key : List Piece} {rest : Members}
    (h : Reads after t t.print) (hrest : ReadsMembers after rest)
    : ReadsMembers after (.more before key between gap t behind rest) where
  parsable := by
    rintro ⟨hkey, ht, hbefore, hparsable⟩ ws tail o s'
    obtain ⟨w, ws', hws⟩ := List.exists_cons_of_ne_nil hbefore
    have hround (n : JsonObjectElem) := hrest.parsable hparsable ws' tail n s'
    have hprint : rest.print ++ tail = w.byte :: (blanks ws' ++ (membersBehind rest ++ tail)) := by
      rw [members_print_eq, hws, List.append_assoc]
      rfl
    simp only [membersBehind, List.append_assoc, List.cons_append]
    rw [hprint, ← List.append_assoc (blanks gap),
      (h.blanks gap).objectParsesTo_iff hkey ht ws between behind rfl rfl]
    constructor
    . rintro (⟨hbrace, -⟩ | ⟨-, x, text, n, heq, -, hn, rfl⟩)
      . exact absurd hbrace (by decide)
      . obtain ⟨-, rfl⟩ := List.cons.inj heq
        obtain ⟨htail, rfl, rfl⟩ := (hround n).mp hn
        exact ⟨htail, rfl, rfl⟩
    . rintro ⟨htail, rfl, rfl⟩
      refine .inr ⟨rfl, w.byte, _, _, rfl, ?_, (hround _).mpr ⟨htail, rfl, rfl⟩, rfl⟩
      simp [htail]
  unparsable := by
    intro hnot ws tail s' hobject
    simp only [membersBehind, List.append_assoc, List.cons_append] at hobject
    obtain ⟨hkey, u, hu⟩ := exists_parsesTo_of_object hobject
    rw [← List.append_assoc] at hu
    by_cases ht : Parsable t
    . rw [← List.append_assoc (blanks gap),
        (h.blanks gap).objectParsesTo_iff hkey ht ws between behind rfl rfl] at hobject
      obtain ⟨hbrace, -⟩ | ⟨-, x, text, n, hprint, -, hn, heq⟩ := hobject
      . exact absurd hbrace (by decide)
      . obtain ⟨-, -, rfl⟩ := JsonObjectElem.elem.inj heq
        cases hbefore : rest.before with
        | nil => exact not_objectParsesTo_dropped hbefore hprint hn
        | cons w ws' =>
          rw [members_print_eq, hbefore, List.append_assoc] at hprint
          obtain ⟨-, rfl⟩ := List.cons.inj hprint
          refine hrest.unparsable (fun hparsable => hnot ⟨hkey, ht, ?_, hparsable⟩) ws' tail s' hn
          rw [hbefore]
          exact List.cons_ne_nil w ws'
    . exact (h.blanks gap).unparsable ht _ u hu

theorem reads_object (h : ReadsMembers after ms) : Reads after (.object ms) (Text.object ms).print where
  parsable := by
    intro hparsable tail v s' _
    have hround (o : JsonObjectElem) := h.parsable hparsable ms.before tail o s'
    change ParsesTo ⟨0x7b :: (ms.print ++ tail), after⟩ v s' ↔ tail ≠ [] ∧ v = .object (objectOf ms) ∧ _
    rw [parsesTo_brace, members_print_eq, List.append_assoc]
    constructor
    . rintro ⟨-, o, ho, rfl⟩
      obtain ⟨htail, rfl, rfl⟩ := (hround o).mp ho
      exact ⟨htail, rfl, rfl⟩
    . rintro ⟨htail, rfl, rfl⟩
      exact ⟨by simp [htail], _, (hround _).mpr ⟨htail, rfl, rfl⟩, rfl⟩
  unparsable := by
    intro hparsable tail s' hobject
    change ParsesTo ⟨0x7b :: (ms.print ++ tail), after⟩ (.object (objectOf ms)) s' at hobject
    rw [parsesTo_brace, members_print_eq, List.append_assoc] at hobject
    obtain ⟨-, o, ho, heq⟩ := hobject
    cases heq
    exact h.unparsable hparsable ms.before tail s' ho

mutual

theorem reads_text : (t : Text) → Reads after t t.print := by
  intro t
  match t with
  | .null => exact reads_literal .null trivial
  | .boolean true => exact reads_literal .true trivial
  | .boolean false => exact reads_literal .false trivial
  | .number n => exact reads_number n
  | .string l => exact reads_string l
  | .emptyArray ws => exact reads_emptyArray ws
  | .array es => exact reads_array fun i => reads_elements es i _ ((reads_first es).blanks es.before)
  | .emptyObject ws => exact reads_emptyObject ws
  | .object ms => exact reads_object (reads_members ms)

theorem reads_first : (es : Elements) → Reads after es.first es.first.print := by
  intro es
  match es with
  | .last _ t _ => exact reads_text t
  | .more _ t _ _ => exact reads_text t

theorem reads_elements
    : (es : Elements) → ∀ i text, Reads after es.first text → ReadsElements after i es text := by
  intro es i text h
  match es with
  | .last _ _ _ => exact readsElements_last h
  | .more _ _ _ rest => exact readsElements_more h (reads_first rest) (reads_elements rest)

theorem reads_members : (ms : Members) → ReadsMembers after ms := by
  intro ms
  match ms with
  | .last _ _ _ _ t _ => exact readsMembers_last (reads_text t)
  | .more _ _ _ _ t _ rest => exact readsMembers_more (reads_text t) (reads_members rest)

end

theorem jsonParse_eq_ok_iff {str : List (BitVec 8)} {len : Nat}
    : (∃ n, ∀ fuel ≥ n, jsonParse fuel str len = .ok v) ↔ ∃ s', ParsesTo ⟨str.take len, str.drop len⟩ v s' := by
  constructor
  . rintro ⟨n, hn⟩
    have h := hn n (Nat.le_refl n)
    simp only [jsonParse, bind_eq_ok] at h
    obtain ⟨⟨w, s'⟩, hw, heq⟩ := h
    cases heq
    exact ⟨s', n, hw⟩
  . rintro ⟨s', n, hn⟩
    refine ⟨n, fun fuel hfuel => ?_⟩
    simp only [jsonParse, bind_eq_ok]
    exact ⟨(v, s'), parseValue_of_le hn hfuel, rfl⟩

/--
Whatever follows the text in memory, its value is returned if and only if it is parsable and whitespace
follows it.
-/
theorem json_parse_complete_iff (t : Text) (ws₁ ws₂ : List Blank)
    : (∀ rest, ∃ n, ∀ fuel ≥ n,
          jsonParse fuel (blanks ws₁ ++ (t.print ++ blanks ws₂) ++ rest) (blanks ws₁ ++ (t.print ++ blanks ws₂)).length
            = .ok (jsonOf t))
        ↔ Parsable t ∧ ws₂ ≠ [] := by
  simp only [jsonParse_eq_ok_iff, List.take_left, List.drop_left, parsesTo_blanks]
  have hblanks : blanks ws₂ ≠ [] ↔ ws₂ ≠ [] := by simp [blanks]
  have hfollows (rest : List (BitVec 8)) (h : ws₂ ≠ [] ∨ rest = []) : Follows rest (blanks ws₂) := by
    cases ws₂ with
    | nil => exact h.resolve_left (fun hne => hne rfl)
    | cons w ws => cases w <;> rfl
  constructor
  . intro h
    obtain ⟨s', hs'⟩ := h []
    by_cases ht : Parsable t
    . obtain ⟨hne, -⟩ := ((reads_text t).parsable ht _ _ _ (hfollows [] (.inr rfl))).mp hs'
      exact ⟨ht, hblanks.mp hne⟩
    . exact absurd hs' ((reads_text t).unparsable ht _ _)
  . rintro ⟨ht, hne⟩ rest
    exact ⟨_, ((reads_text t).parsable ht _ _ _ (hfollows rest (.inl hne))).mpr ⟨hblanks.mpr hne, rfl, rfl⟩⟩

/--
`[true,null]` and a space: the first letter behind the comma is left out.
-/
theorem json_parse_incomplete
    : ∃ t : Text, t.print ++ blanks [.space] = [0x5b, 0x74, 0x72, 0x75, 0x65, 0x2c, 0x6e, 0x75, 0x6c, 0x6c, 0x5d, 0x20]
        ∧ ∀ fuel ≥ 4, jsonParse fuel (t.print ++ blanks [.space]) (t.print ++ blanks [.space]).length
            = .error .syntaxErr := by
  refine ⟨.array (.more [] (.boolean true) [] (.last [] .null [])), rfl, ?_⟩
  intro fuel hfuel
  obtain ⟨n, rfl⟩ := Nat.exists_eq_add_of_le' hfuel
  rfl

end Emos.Boot
