import Emos.Boot.Json.Lemmas.Token

/-!
This module contains the values that texts stand for, and what is read from them when their first character
is left out.
-/

open Lib Lib.Decimal Lib.Json

namespace Emos.Boot

mutual

/--
The value that a text stands for.
-/
def jsonOf : Text → JsonValue
  | .null => .null
  | .boolean b => .boolean b
  | .number n => .number (BitVec.ofInt 64 n.value)
  | .string s => .string (stringValue s)
  | .emptyArray _ => .array .null
  | .array elems => .array (arrayOf 0 elems)
  | .emptyObject _ => .object .null
  | .object members => .object (objectOf members)

def arrayOf (i : BitVec 32) : Elements → JsonArrayElem
  | .last _ value _ => .elem i (jsonOf value) .null
  | .more _ value _ rest => .elem i (jsonOf value) (arrayOf (i + 1) rest)

def objectOf : Members → JsonObjectElem
  | .last _ key _ _ value _ => .elem (stringValue key) (jsonOf value) .null
  | .more _ key _ _ value _ rest => .elem (stringValue key) (jsonOf value) (objectOf rest)

end

/--
A number that is the same without its minus sign.
-/
def SignOnly : Text → Prop
  | .number n => n.negative = true ∧ (n.magnitude = 0 ∨ n.magnitude = 2 ^ 63)
  | _ => False

def Unescaped (s : List Piece) : Prop := ∀ p ∈ s, ¬ p.IsEscape

mutual

/--
There are no empty containers and no escape sequences in the text, and whitespace or a minus sign that
does not matter follows each comma.
-/
def Parsable : Text → Prop
  | .string s => Unescaped s
  | .emptyArray _ | .emptyObject _ => False
  | .array elems => ElementsParsable elems
  | .object members => MembersParsable members
  | .null | .boolean _ | .number _ => True

def ElementsParsable : Elements → Prop
  | .last _ value _ => Parsable value
  | .more _ value _ rest =>
    Parsable value ∧ (rest.before ≠ [] ∨ SignOnly rest.first) ∧ ElementsParsable rest

def MembersParsable : Members → Prop
  | .last _ key _ _ value _ => Unescaped key ∧ Parsable value
  | .more _ key _ _ value _ rest => Unescaped key ∧ Parsable value ∧ rest.before ≠ [] ∧ MembersParsable rest

end

variable {s s' : JsonState} {c x : BitVec 8} {i : BitVec 32} {text text' tail after : List (BitVec 8)}
  {v : JsonValue} {t : Text}

/--
A character that no value starts with.
-/
theorem not_parsesTo_of_start (hc : isspace c = .ok false)
    (hstart : c ≠ 0x7b ∧ c ≠ 0x5b ∧ c ≠ 0x22 ∧ ¬ ((0x30 ≤ c ∧ c ≤ 0x39) ∨ c = 0x2d)
      ∧ ¬ (c = 0x74 ∨ c = 0x66 ∨ c = 0x6e))
    : ¬ ParsesTo ⟨c :: text, after⟩ v s' := by
  rw [parsesTo_cons hc]
  rintro (⟨h, -⟩ | ⟨h, -⟩ | ⟨h, -⟩ | ⟨h, -⟩ | ⟨h, -⟩)
  . exact hstart.1 h
  . exact hstart.2.1 h
  . exact hstart.2.2.1 h
  . exact hstart.2.2.2.1 h
  . exact hstart.2.2.2.2 h

theorem parsesTo_bracket
    : ParsesTo ⟨0x5b :: text, after⟩ v s' ↔ text ≠ [] ∧ ∃ e, ArrayParsesTo 0 ⟨text, after⟩ e s' ∧ v = .array e := by
  rw [parsesTo_cons rfl]
  constructor
  . rintro (⟨h, -⟩ | ⟨-, h⟩ | ⟨h, -⟩ | ⟨h, -⟩ | ⟨h, -⟩)
    . exact absurd h (by decide)
    . exact h
    . exact absurd h (by decide)
    . exact absurd h (by decide)
    . exact absurd h (by decide)
  . intro h
    exact .inr (.inl ⟨rfl, h⟩)

theorem parsesTo_brace
    : ParsesTo ⟨0x7b :: text, after⟩ v s' ↔ text ≠ [] ∧ ∃ o, ObjectParsesTo ⟨text, after⟩ o s' ∧ v = .object o := by
  rw [parsesTo_cons rfl]
  constructor
  . rintro (⟨-, h⟩ | ⟨h, -⟩ | ⟨h, -⟩ | ⟨h, -⟩ | ⟨h, -⟩)
    . exact h
    . exact absurd h (by decide)
    . exact absurd h (by decide)
    . exact absurd h (by decide)
    . exact absurd h (by decide)
  . intro h
    exact .inl ⟨rfl, h⟩

theorem exists_parsesTo_of_array {j : BitVec 32} {n : JsonArrayElem} (h : ArrayParsesTo i s (.elem j v n) s')
    : ∃ u, ParsesTo s v u := by
  obtain ⟨w, u, _, hw, _, ⟨_, _, heq⟩ | ⟨_, _, _, _, _, _, _, heq⟩⟩ := arrayParsesTo_iff.mp h
  . cases heq
    exact ⟨u, hw⟩
  . cases heq
    exact ⟨u, hw⟩

mutual

/--
How many arrays a value starts with.
-/
def jsonDepth : JsonValue → Nat
  | .array e => arrayDepth e
  | _ => 0

def arrayDepth : JsonArrayElem → Nat
  | .null => 1
  | .elem _ v _ => jsonDepth v + 1

end

/--
How many opening brackets a text starts with.
-/
def textDepth : List (BitVec 8) → Nat
  | [] => 0
  | c :: text =>
    if isspace c = .ok true then
      textDepth text
    else if c = 0x5b then
      textDepth text + 1
    else
      0

theorem textDepth_skip {t : JsonState} (h : skipText after text = .ok t) : textDepth t.text = textDepth text := by
  induction text with
  | nil =>
    cases h
    rfl
  | cons c text ih =>
    cases hc : isspace c with
    | error e =>
      rw [skipText, hc] at h
      cases h
    | ok blank =>
      cases blank with
      | true =>
        rw [skipText_of_blank hc] at h
        rw [textDepth, if_pos hc]
        exact ih h
      | false =>
        rw [skipText_of_token hc] at h
        cases h
        rfl

theorem textDepth_of_token (hc : isspace c = .ok false)
    : textDepth (c :: text) = if c = 0x5b then textDepth text + 1 else 0 := by
  rw [textDepth, hc, if_neg (by simp)]

theorem textDepth_blanks (ws : List Blank) : textDepth (blanks ws ++ text) = textDepth text := by
  induction ws with
  | nil => rfl
  | cons w ws ih =>
    have hw : isspace w.byte = .ok true := by cases w <;> rfl
    change textDepth (w.byte :: (blanks ws ++ text)) = _
    rw [textDepth, if_pos hw, ih]

mutual

/--
The value starts with as many arrays as there are opening brackets.
-/
theorem jsonDepth_of_parsesTo : (v : JsonValue) → ∀ s s', ParsesTo s v s' → jsonDepth v = textDepth s.text := by
  intro v s s' h
  obtain ⟨t, ht⟩ := exists_skip_of_parsesTo h
  rw [parsesTo_of_skip ht] at h
  have hdepth : textDepth t.text = textDepth s.text := textDepth_skip ht
  obtain rfl | ⟨c, rest, rfl, hc⟩ := skipText_eq_ok ht
  . exact absurd h not_parsesTo_nil
  . rw [← hdepth]
    dsimp only
    rw [textDepth_of_token hc]
    match v with
    | .array e =>
      obtain ⟨_, _, _, _, heq⟩ | ⟨hbracket, _, e', he, heq⟩ | ⟨_, _, _, _, _, heq, _⟩ | ⟨_, _, _, _, heq⟩
        | ⟨_, _, hliteral, _⟩ := (parsesTo_cons hc).mp h
      . contradiction
      . cases heq
        rw [if_pos hbracket]
        exact arrayDepth_of_parsesTo e 0 _ s' he
      . contradiction
      . contradiction
      . contradiction
    | .null | .string _ | .number _ | .boolean _ | .object _ =>
      rw [if_neg]
      . rfl
      . rintro rfl
        obtain ⟨_, e, _, heq⟩ := parsesTo_bracket.1 h
        contradiction

theorem arrayDepth_of_parsesTo
    : (e : JsonArrayElem) → ∀ i s s', ArrayParsesTo i s e s' → arrayDepth e = textDepth s.text + 1 := by
  intro e i s s' h
  match e with
  | .null =>
    obtain ⟨_, _, _, _, _, ⟨_, _, heq⟩ | ⟨_, _, _, _, _, _, _, heq⟩⟩ := arrayParsesTo_iff.mp h
    . contradiction
    . contradiction
  | .elem _ v _ =>
    obtain ⟨u, hu⟩ := exists_parsesTo_of_array h
    exact congrArg (· + 1) (jsonDepth_of_parsesTo v s u hu)

end

theorem textDepth_number (n : Number) (tail : List (BitVec 8)) : textDepth (n.print ++ tail) = 0 := by
  unfold Number.print
  cases n.negative with
  | true => rfl
  | false =>
    obtain ⟨c, l, hl⟩ := List.exists_cons_of_ne_nil (numeral_ne_nil n.magnitude)
    have hc : IsDigit c := isDigit_numeral n.magnitude c (hl ▸ List.mem_cons_self)
    have hne : c ≠ 0x5b := by
      rintro rfl
      exact absurd hc (by decide)
    rw [if_neg (by decide), hl, List.cons_append, textDepth_of_token (isspace_of_isDigit hc), if_neg hne]

mutual

/--
The value of a text starts with as many arrays as there are opening brackets, too.
-/
theorem jsonDepth_jsonOf : (t : Text) → ∀ tail, jsonDepth (jsonOf t) = textDepth (t.print ++ tail) := by
  intro t tail
  match t with
  | .null => rfl
  | .boolean true => rfl
  | .boolean false => rfl
  | .number n => exact (textDepth_number n tail).symm
  | .string l => rfl
  | .emptyArray ws =>
    change 1 = textDepth (0x5b :: (blanks ws ++ [0x5d] ++ tail))
    rw [textDepth_of_token rfl, if_pos rfl, List.append_assoc, textDepth_blanks]
    rfl
  | .array es =>
    change arrayDepth (arrayOf 0 es) = textDepth (0x5b :: (es.print ++ tail))
    rw [textDepth_of_token rfl, if_pos rfl]
    exact arrayDepth_arrayOf es 0 tail
  | .emptyObject _ => rfl
  | .object _ => rfl

theorem arrayDepth_arrayOf
    : (es : Elements) → ∀ i tail, arrayDepth (arrayOf i es) = textDepth (es.print ++ tail) + 1 := by
  intro es i tail
  match es with
  | .last before t behind =>
    change jsonDepth (jsonOf t) + 1 = textDepth ((blanks before ++ (t.print ++ _)) ++ tail) + 1
    rw [List.append_assoc, textDepth_blanks, List.append_assoc, jsonDepth_jsonOf t]
  | .more before t behind rest =>
    change jsonDepth (jsonOf t) + 1 = textDepth ((blanks before ++ (t.print ++ _)) ++ tail) + 1
    rw [List.append_assoc, textDepth_blanks, List.append_assoc, jsonDepth_jsonOf t]

end

theorem prefix_of_copyChars {room : Nat} {buf str rest : List (BitVec 8)}
    (h : copyChars room buf text = .ok (str, rest)) : buf <+: str := by
  fun_induction copyChars room buf text with
  | case1 => contradiction
  | case2 => contradiction
  | case3 buf _ text ih => exact ih h
  | case4 => contradiction
  | case5 buf text =>
    cases h
    exact List.prefix_rfl
  | case6 => contradiction
  | case7 buf c text _ _ _ ih => exact (List.prefix_append buf [c]).trans (ih h)

theorem isCopied_blank (w : Blank) : IsCopied w.byte := by cases w <;> decide

/--
A string that is read from behind the last quote has a character which is no space.
-/
theorem not_spaces_of_copyChars {room : Nat} {str rest : List (BitVec 8)} {ws : List Blank}
    (hc : IsCopied c) (hspace : c ≠ 0x20)
    (h : copyChars room [] (blanks ws ++ c :: tail) = .ok (str, rest)) : ¬ ∀ b ∈ str, b = 0x20 := by
  intro hstr
  have hcopied : ∀ b ∈ blanks ws ++ [c], IsCopied b := by
    intro b hb
    obtain hb | hb := List.mem_append.mp hb
    . obtain ⟨w, -, rfl⟩ := List.mem_map.mp hb
      exact isCopied_blank w
    . rw [List.mem_singleton.mp hb]
      exact hc
  rw [List.append_cons] at h
  have hstart := prefix_of_copyChars (copyChars_eq_of_ok hcopied h)
  exact hspace (hstr c (hstart.subset (by simp)))

theorem byte_eq_space {b : BitVec 8} (hplain : IsPlain b) (h : isspace b = .ok true) : b = 0x20 := by
  unfold isspace at h
  split at h
  . contradiction
  . simp only [Except.ok.injEq, decide_eq_true_eq] at h
    obtain ⟨-, hhigh⟩ | h := h
    . obtain ⟨hlow, -⟩ := hplain
      rw [BitVec.le_def] at hlow hhigh
      have := Nat.le_trans hlow hhigh
      contradiction
    . exact h

/--
Without its quote, a string only goes on with one if it has nothing but spaces.
-/
theorem skipText_pieces {u : JsonState} (l : List Piece)
    (h : skipText after (l.flatMap Piece.print ++ 0x22 :: tail) = .ok u)
    : (u = ⟨0x22 :: tail, after⟩ ∧ ∀ b ∈ stringValue l, b = 0x20)
        ∨ ∃ c rest, u = ⟨c :: rest, after⟩ ∧ isspace c = .ok false ∧ c ≠ 0x22 := by
  induction l with
  | nil =>
    cases h
    exact .inl ⟨rfl, by simp [stringValue]⟩
  | cons p l ih =>
    cases p with
    | plain b hb =>
      change skipText after (b :: (l.flatMap Piece.print ++ 0x22 :: tail)) = .ok u at h
      cases hspace : isspace b with
      | error e =>
        rw [skipText, hspace] at h
        contradiction
      | ok blank =>
        cases blank with
        | true =>
          rw [skipText_of_blank hspace] at h
          refine (ih h).imp_left (And.imp_right ?_)
          intro hl
          exact List.forall_mem_cons.mpr ⟨byte_eq_space hb hspace, hl⟩
        | false =>
          rw [skipText_of_token hspace] at h
          cases h
          exact .inr ⟨b, _, rfl, hspace, hb.2.1⟩
    | short e =>
      cases h
      exact .inr ⟨0x5c, _, rfl, rfl, by decide⟩
    | unicode v =>
      cases h
      exact .inr ⟨0x5c, _, rfl, rfl, by decide⟩
    | surrogates high low =>
      cases h
      exact .inr ⟨0x5c, _, rfl, rfl, by decide⟩

/--
A key without its quote.
-/
theorem not_parseStringLiteral_dropped {l : List Piece} {ws : List Blank} {u : JsonState}
    (hc : IsCopied c) (hspace : c ≠ 0x20)
    (hskip : skipWhitespace ⟨l.flatMap Piece.print ++ 0x22 :: (blanks ws ++ c :: tail), after⟩ = .ok s)
    : parseStringLiteral s ≠ .ok (stringValue l, u) := by
  intro h
  obtain ⟨rfl, hspaces⟩ | ⟨d, rest, rfl, hd, hquote⟩ := skipText_pieces l hskip
  . obtain ⟨-, str, rest, hcopy, heq⟩ := parseStringLiteral_quote.mp h
    cases heq
    exact not_spaces_of_copyChars hc hspace hcopy hspaces
  . exact parseStringLiteral_of_ne hd hquote h

theorem eq_zero_or_of_ofNat_eq_neg {m : Nat} (hm : m ≤ 2 ^ 63) (h : BitVec.ofNat 64 m = BitVec.ofInt 64 (-m))
    : m = 0 ∨ m = 2 ^ 63 := by
  rw [BitVec.ofInt_neg, BitVec.ofInt_natCast] at h
  have htoNat := congrArg BitVec.toNat h
  rw [BitVec.toNat_neg, BitVec.toNat_ofNat, Nat.mod_eq_of_lt (by omega)] at htoNat
  lia

/--
A number without its first character is a smaller one, except for the minus signs that do not matter.
-/
theorem not_parsesTo_dropped_number {n : Number} {ws : List Blank} (hsign : ¬ SignOnly (.number n))
    (hc : c = 0x2c ∨ c = 0x5d ∨ c = 0x7d)
    : ¬ ParsesTo ⟨n.print.tail ++ (blanks ws ++ c :: tail), after⟩ (jsonOf (.number n)) s' := by
  have hdigit : isdigit c = .ok false := by obtain rfl | rfl | rfl := hc <;> rfl
  have hfollows : Follows after (blanks ws ++ c :: tail) := follows_blanks ws hdigit
  have hdigits := isDigit_numeral n.magnitude
  have hrange := n.inRange
  intro h
  unfold Number.print at h
  cases hn : n.negative with
  | true =>
    rw [hn, if_pos rfl, List.tail_cons] at h
    obtain ⟨-, heq, -⟩ := (parsesTo_digits (numeral_ne_nil _) hdigits hfollows).mp h
    rw [value_numeral] at heq
    injection heq with heq
    unfold Number.value at heq
    rw [hn, if_pos rfl] at heq hrange
    exact hsign ⟨hn, eq_zero_or_of_ofNat_eq_neg hrange heq.symm⟩
  | false =>
    rw [hn, if_neg (by decide)] at h
    by_cases hne : (numeral n.magnitude).tail = []
    . rw [hne, List.nil_append, parsesTo_blanks] at h
      obtain rfl | rfl | rfl := hc
      . exact not_parsesTo_of_start rfl (by decide) h
      . exact not_parsesTo_of_start rfl (by decide) h
      . exact not_parsesTo_of_start rfl (by decide) h
    . obtain ⟨-, heq, -⟩ := (parsesTo_digits hne (fun b hb => hdigits b (List.mem_of_mem_tail hb)) hfollows).mp h
      injection heq with heq
      unfold Number.value at heq
      rw [hn, if_neg (by decide), BitVec.ofInt_natCast] at heq
      rw [hn, if_neg (by decide)] at hrange
      have hzero : n.magnitude ≠ 0 := by
        intro hzero
        rw [hzero] at hne
        exact hne rfl
      have hlt := value_tail_numeral_lt hzero
      have htoNat := congrArg BitVec.toNat heq
      rw [BitVec.toNat_ofNat, BitVec.toNat_ofNat, Nat.mod_eq_of_lt (by omega), Nat.mod_eq_of_lt (by omega)] at htoNat
      omega

theorem print_ne_nil (t : Text) : t.print ≠ [] := by
  cases t with
  | boolean b => cases b <;> exact List.cons_ne_nil _ _
  | number n =>
    change n.print ≠ []
    unfold Number.print
    split
    . exact List.cons_ne_nil _ _
    . exact numeral_ne_nil n.magnitude
  | _ => exact List.cons_ne_nil _ _

theorem members_print (ms : Members) : ∃ behind, ms.print = blanks ms.before ++ 0x22 :: behind := by
  cases ms <;> exact ⟨_, rfl⟩

/--
An element without its first character is another value or none.
-/
theorem not_parsesTo_dropped {ws : List Blank} (hsign : ¬ SignOnly t) (hc : c = 0x2c ∨ c = 0x5d ∨ c = 0x7d)
    : ¬ ParsesTo ⟨t.print.tail ++ (blanks ws ++ c :: tail), after⟩ (jsonOf t) s' := by
  intro h
  cases t with
  | null => exact not_parsesTo_of_start rfl (by decide) h
  | boolean b => cases b <;> exact not_parsesTo_of_start rfl (by decide) h
  | number n => exact not_parsesTo_dropped_number hsign hc h
  | string l =>
    change ParsesTo ⟨(l.flatMap Piece.print ++ [0x22]) ++ (blanks ws ++ c :: tail), after⟩ _ s' at h
    rw [List.append_assoc, List.singleton_append] at h
    obtain ⟨u, hu⟩ := exists_skip_of_parsesTo h
    rw [parsesTo_of_skip hu] at h
    obtain ⟨rfl, hspaces⟩ | ⟨d, rest, rfl, hd, hquote⟩ := skipText_pieces l hu
    . obtain ⟨-, rest, hcopy⟩ := exists_copyChars_of_parsesTo rfl h
      refine not_spaces_of_copyChars ?_ ?_ hcopy hspaces
      . obtain rfl | rfl | rfl := hc <;> decide
      . obtain rfl | rfl | rfl := hc <;> decide
    . exact hquote (exists_copyChars_of_parsesTo hd h).1
  | emptyArray inside =>
    change ParsesTo ⟨(blanks inside ++ [0x5d]) ++ _, after⟩ _ s' at h
    rw [List.append_assoc, parsesTo_blanks] at h
    exact not_parsesTo_of_start rfl (by decide) h
  | emptyObject inside =>
    change ParsesTo ⟨(blanks inside ++ [0x7d]) ++ _, after⟩ _ s' at h
    rw [List.append_assoc, parsesTo_blanks] at h
    exact not_parsesTo_of_start rfl (by decide) h
  | array es =>
    have hdepth := jsonDepth_of_parsesTo _ _ _ h
    change arrayDepth (arrayOf 0 es) = textDepth (es.print ++ _) at hdepth
    rw [arrayDepth_arrayOf] at hdepth
    exact absurd hdepth (Nat.succ_ne_self _)
  | object ms =>
    obtain ⟨behind, hprint⟩ := members_print ms
    change ParsesTo ⟨ms.print ++ _, after⟩ (.object (objectOf ms)) s' at h
    rw [hprint, List.append_assoc, List.cons_append, parsesTo_blanks] at h
    obtain ⟨hbrace, -⟩ | ⟨_, _, _, _, heq⟩ | ⟨_, _, _, _, _, heq, _⟩ | ⟨_, _, _, _, heq⟩ | ⟨hliteral, -⟩ :=
      (parsesTo_cons rfl).mp h
    . exact absurd hbrace (by decide)
    . contradiction
    . contradiction
    . contradiction
    . exact absurd hliteral (by decide)

end Emos.Boot
