import Emos.Boot.Json.Lemmas.Value

/-!
This module contains the texts that the parser accepts and the ones that it returns an error for.
-/

open Lib Lib.Decimal Lib.Json

namespace Emos.Boot

/--
Behind whitespace, `text` goes on with `c` and `rest`.
-/
def Skips (text : List (BitVec 8)) (c : BitVec 8) (rest : List (BitVec 8)) : Prop :=
  ∃ ws, (∀ w ∈ ws, isspace w = .ok true) ∧ isspace c = .ok false ∧ text = ws ++ c :: rest

/--
There is a closing quote, and `rest` behind it.
-/
inductive Closes : List (BitVec 8) → List (BitVec 8) → Prop where
  | quote {rest} (h : rest ≠ []) : Closes (0x22 :: rest) rest
  | copied {c text rest} (hc : IsCopied c) (h : Closes text rest) : Closes (c :: text) rest
  | escape {c text rest} (h : Closes text rest) : Closes (0x5c :: c :: text) rest

mutual

/--
A value is read, and `tail` is left of the text. Of what follows a comma, the first character may be any.
-/
inductive Accepts : List (BitVec 8) → List (BitVec 8) → Prop where
  | literal {text c rest str v tail} (hskip : Skips text c rest) (h : JsonLiteral str v)
    (heq : c :: rest = str ++ tail) (htail : tail ≠ []) : Accepts text tail
  | string {text rest tail} (hskip : Skips text 0x22 rest) (h : Closes rest tail) : Accepts text tail
  | digits {text c rest digits d tail} (hskip : Skips text c rest) (hc : IsDigit c ∨ c = 0x2d)
    (heq : rest = digits ++ d :: tail) (hdigits : ∀ b ∈ digits, IsDigit b) (hd : isdigit d = .ok false)
    : Accepts text (d :: tail)
  | array {text rest tail} (hskip : Skips text 0x5b rest) (h : AcceptsElems rest tail) : Accepts text tail
  | object {text rest tail} (hskip : Skips text 0x7b rest) (h : AcceptsMembers rest tail) : Accepts text tail

inductive AcceptsElems : List (BitVec 8) → List (BitVec 8) → Prop where
  | last {text rest tail} (h : Accepts text rest) (hskip : Skips rest 0x5d tail) (htail : tail ≠ [])
    : AcceptsElems text tail
  | more {text rest x rest' tail} (h : Accepts text rest) (hskip : Skips rest 0x2c (x :: rest'))
    (hrest : AcceptsElems rest' tail) : AcceptsElems text tail

inductive AcceptsMembers : List (BitVec 8) → List (BitVec 8) → Prop where
  | last {text key rest gap behind tail} (hquote : Skips text 0x22 key) (hkey : Closes key rest)
    (hcolon : Skips rest 0x3a gap) (h : Accepts gap behind) (hskip : Skips behind 0x7d tail) (htail : tail ≠ [])
    : AcceptsMembers text tail
  | more {text key rest gap behind x rest' tail} (hquote : Skips text 0x22 key) (hkey : Closes key rest)
    (hcolon : Skips rest 0x3a gap) (h : Accepts gap behind) (hskip : Skips behind 0x2c (x :: rest'))
    (hrest : AcceptsMembers rest' tail) : AcceptsMembers text tail

end

/--
A character that a value may start with.
-/
def IsStart (c : BitVec 8) : Prop :=
  c = 0x7b ∨ c = 0x5b ∨ c = 0x22 ∨ ((0x30 ≤ c ∧ c ≤ 0x39) ∨ c = 0x2d) ∨ c = 0x74 ∨ c = 0x66 ∨ c = 0x6e

mutual

/--
An error is returned: it is found before the text ends, and not inside of an object.
-/
inductive Rejects : List (BitVec 8) → Prop where
  | start {text c rest} (hskip : Skips text c rest) (h : ¬ IsStart c) : Rejects text
  | literal {text c rest} (hskip : Skips text c rest) (hc : c = 0x74 ∨ c = 0x66 ∨ c = 0x6e)
    (h : ¬ ∃ str v tail, JsonLiteral str v ∧ tail ≠ [] ∧ c :: rest = str ++ tail) : Rejects text
  | string {text rest} (hskip : Skips text 0x22 rest) (h : ¬ ∃ tail, Closes rest tail) : Rejects text
  | digit {text c} (hskip : Skips text c []) (hc : IsDigit c ∨ c = 0x2d) : Rejects text
  | bracket {text} (hskip : Skips text 0x5b []) : Rejects text
  | array {text rest} (hskip : Skips text 0x5b rest) (h : RejectsElems rest) : Rejects text
  | brace {text} (hskip : Skips text 0x7b []) : Rejects text

inductive RejectsElems : List (BitVec 8) → Prop where
  | value {text} (h : Rejects text) : RejectsElems text
  | separator {text rest c tail} (h : Accepts text rest) (hskip : Skips rest c tail) (hc : c ≠ 0x5d ∧ c ≠ 0x2c)
    : RejectsElems text
  | bracket {text rest} (h : Accepts text rest) (hskip : Skips rest 0x5d []) : RejectsElems text
  | comma {text rest tail} (h : Accepts text rest) (hskip : Skips rest 0x2c tail) (htail : tail.length ≤ 1)
    : RejectsElems text
  | more {text rest x rest'} (h : Accepts text rest) (hskip : Skips rest 0x2c (x :: rest'))
    (hrest : RejectsElems rest') : RejectsElems text

end

variable {s s' : JsonState} {c d : BitVec 8} {text rest tail after : List (BitVec 8)} {v : JsonValue}
  {e : JsonArrayElem} {o : JsonObjectElem} {i : BitVec 32} {fuel : Nat}

theorem isspace_eq_error {e : JsonStop} (h : isspace c = .error e) : e = .fault .access := by
  unfold isspace at h
  split at h
  . cases h
    rfl
  . contradiction

theorem isdigit_eq_error {e : JsonStop} (h : isdigit c = .error e) : e = .fault .access := by
  unfold isdigit at h
  split at h
  . cases h
    rfl
  . contradiction

theorem isDigit_of_isdigit (h : isdigit c = .ok true) : IsDigit c := by
  unfold isdigit at h
  split at h
  . contradiction
  . exact of_decide_eq_true (Except.ok.inj h)

theorem skips_of_token (h : isspace c = .ok false) : Skips (c :: text) c text :=
  ⟨[], by simp, h, rfl⟩

theorem skips_of_blank (h : isspace d = .ok true) : Skips (d :: text) c rest ↔ Skips text c rest := by
  constructor
  . rintro ⟨ws, hws, hc, heq⟩
    cases ws with
    | nil =>
      obtain ⟨rfl, -⟩ := List.cons.inj heq
      rw [h] at hc
      contradiction
    | cons w ws =>
      obtain ⟨-, rfl⟩ := List.cons.inj heq
      exact ⟨ws, (List.forall_mem_cons.mp hws).2, hc, rfl⟩
  . rintro ⟨ws, hws, hc, rfl⟩
    exact ⟨d :: ws, List.forall_mem_cons.mpr ⟨h, hws⟩, hc, rfl⟩

theorem skipText_eq_ok_iff : skipText after text = .ok ⟨c :: rest, after⟩ ↔ Skips text c rest := by
  induction text with
  | nil => simp [skipText, Skips]
  | cons d text ih =>
    cases hd : isspace d with
    | error e =>
      rw [skipText, hd]
      constructor
      . intro h
        contradiction
      . rintro ⟨_ | ⟨w, ws⟩, hws, hc, heq⟩
        . obtain ⟨rfl, -⟩ := List.cons.inj heq
          rw [hd] at hc
          contradiction
        . obtain ⟨rfl, -⟩ := List.cons.inj heq
          rw [hws d List.mem_cons_self] at hd
          contradiction
    | ok blank =>
      cases blank with
      | true => rw [skipText_of_blank hd, skips_of_blank hd, ih]
      | false =>
        rw [skipText_of_token hd]
        constructor
        . intro h
          cases h
          exact skips_of_token hd
        . rintro ⟨_ | ⟨w, ws⟩, hws, hc, heq⟩
          . cases heq
            rfl
          . obtain ⟨rfl, -⟩ := List.cons.inj heq
            rw [hws d List.mem_cons_self] at hd
            contradiction

theorem skipWhitespace_of_skips (h : Skips text c rest)
    : skipWhitespace ⟨text, after⟩ = .ok ⟨c :: rest, after⟩ := skipText_eq_ok_iff.2 h

theorem Skips.token (h : Skips text c rest) : isspace c = .ok false := by
  obtain ⟨-, -, hc, -⟩ := h
  exact hc

/--
Whitespace ends with a token or with the text, unless a character is not ASCII.
-/
theorem skipWhitespace_cases (text after : List (BitVec 8))
    : (∃ c rest, Skips text c rest) ∨ skipWhitespace ⟨text, after⟩ = .ok ⟨[], after⟩
        ∨ ∃ f, skipWhitespace ⟨text, after⟩ = .error (.fault f) := by
  cases h : skipWhitespace ⟨text, after⟩ with
  | ok t =>
    obtain rfl | ⟨c, rest, rfl, -⟩ := skipText_eq_ok h
    . exact .inr (.inl rfl)
    . exact .inl ⟨c, rest, skipText_eq_ok_iff.1 h⟩
  | error e =>
    refine .inr (.inr ?_)
    change skipText after text = .error e at h
    induction text with
    | nil => contradiction
    | cons d text ih =>
      rw [skipText] at h
      cases hd : isspace d with
      | error e' =>
        rw [hd] at h
        obtain rfl := isspace_eq_error hd
        exact ⟨.access, h.symm⟩
      | ok blank =>
        rw [hd] at h
        cases blank with
        | true => exact ih h
        | false => contradiction

theorem countEscapedStringLen_of_isCopied (h : IsCopied c)
    : countEscapedStringLen (c :: text) = countEscapedStringLen text + 1 := by
  cases text with
  | nil => exact if_neg h.1
  | cons d text => rw [countEscapedStringLen, if_neg h.2, if_neg h.1]

/--
The characters of a string fit into the memory of the length that is counted.
-/
theorem copyChars_cases {room : Nat} (text buf : List (BitVec 8))
    (hroom : buf.length + countEscapedStringLen text ≤ room)
    : (∃ str rest, copyChars room buf text = .ok (str, rest) ∧ Closes text rest)
        ∨ (copyChars room buf text = .error .syntaxErr ∧ ∀ rest, ¬ Closes text rest) := by
  fun_induction copyChars room buf text with
  | case1 =>
    refine .inr ⟨rfl, ?_⟩
    intro rest h
    cases h
  | case2 buf =>
    refine .inr ⟨rfl, ?_⟩
    intro rest h
    cases h with
    | copied hc => exact hc.2 rfl
  | case3 buf d text ih =>
    rw [countEscapedStringLen, if_pos rfl] at hroom
    obtain ⟨str, rest, hcopy, h⟩ | ⟨herror, hnot⟩ := ih (by omega)
    . exact .inl ⟨str, rest, hcopy, .escape h⟩
    . refine .inr ⟨herror, ?_⟩
      intro rest h
      cases h with
      | copied hc => exact hc.2 rfl
      | escape h => exact hnot rest h
  | case4 buf =>
    refine .inr ⟨rfl, ?_⟩
    intro rest h
    cases h with
    | quote hne => exact hne rfl
    | copied hc => exact hc.1 rfl
  | case5 buf text hne => exact .inl ⟨buf, text, rfl, .quote hne⟩
  | case6 buf c text hescape hquote hfull =>
    rw [countEscapedStringLen_of_isCopied ⟨hquote, hescape⟩] at hroom
    omega
  | case7 buf c text hescape hquote hfull ih =>
    rw [countEscapedStringLen_of_isCopied ⟨hquote, hescape⟩] at hroom
    obtain ⟨str, rest, hcopy, h⟩ | ⟨herror, hnot⟩ := ih (by rw [List.length_append, List.length_singleton]; omega)
    . exact .inl ⟨str, rest, hcopy, .copied ⟨hquote, hescape⟩ h⟩
    . refine .inr ⟨herror, ?_⟩
      intro rest h
      cases h with
      | quote => exact hquote rfl
      | copied _ h => exact hnot rest h
      | escape => exact hescape rfl

/--
The digits end in front of another character of the text, unless they are read beyond it.
-/
theorem readNumber_cases (num : BitVec 64) (text : List (BitVec 8))
    : (∃ num' digits d tail, text = digits ++ d :: tail ∧ (∀ b ∈ digits, IsDigit b) ∧ isdigit d = .ok false
          ∧ readNumber num text [] = .ok (num', ⟨d :: tail, []⟩))
        ∨ ∃ f, readNumber num text [] = .error (.fault f) := by
  induction text generalizing num with
  | nil => exact .inr ⟨.access, by rw [readNumber]⟩
  | cons c text ih =>
    rw [readNumber]
    cases hc : isdigit c with
    | error e =>
      obtain rfl := isdigit_eq_error hc
      exact .inr ⟨.access, rfl⟩
    | ok digit =>
      cases digit with
      | true =>
        obtain ⟨num', digits, d, tail, rfl, hdigits, hd, hread⟩ | ⟨f, hfault⟩ := ih (num * 10 + c.signExtend 64 - 0x30)
        . refine .inl ⟨num', c :: digits, d, tail, rfl, ?_, hd, hread⟩
          exact List.forall_mem_cons.mpr ⟨isDigit_of_isdigit hc, hdigits⟩
        . exact .inr ⟨f, hfault⟩
      | false => exact .inl ⟨num, [], c, text, rfl, by simp, hc, rfl⟩

theorem Closes.ne_nil (h : Closes text tail) : text ≠ [] ∧ tail ≠ [] := by
  induction h with
  | quote h => exact ⟨by simp, h⟩
  | copied _ _ ih => exact ⟨by simp, ih.2⟩
  | escape _ ih => exact ⟨by simp, ih.2⟩

theorem Closes.unique (h : Closes text tail) (h' : Closes text rest) : tail = rest := by
  induction h with
  | quote _ =>
    cases h' with
    | quote _ => rfl
    | copied hc _ => exact absurd rfl hc.1
  | copied hc _ ih =>
    cases h' with
    | quote _ => exact absurd rfl hc.1
    | copied _ h' => exact ih h'
    | escape _ => exact absurd rfl hc.2
  | escape _ ih =>
    cases h' with
    | copied hc _ => exact absurd rfl hc.2
    | escape h' => exact ih h'

theorem Skips.ne_nil (h : Skips text c rest) : text ≠ [] := by
  obtain ⟨ws, -, -, rfl⟩ := h
  simp

theorem closes_iff
    : Closes text tail ↔ ∃ str, copyChars (countEscapedStringLen text) [] text = .ok (str, tail) := by
  have hroom : ([] : List (BitVec 8)).length + countEscapedStringLen text ≤ countEscapedStringLen text := by
    rw [List.length_nil, Nat.zero_add]
  constructor
  . intro h
    obtain ⟨str, rest, hcopy, hcloses⟩ | ⟨-, hnot⟩ := copyChars_cases _ _ hroom
    . obtain rfl := h.unique hcloses
      exact ⟨str, hcopy⟩
    . exact absurd h (hnot tail)
  . rintro ⟨str, h⟩
    obtain ⟨str', rest, hcopy, hcloses⟩ | ⟨herror, -⟩ := copyChars_cases _ _ hroom
    . rw [hcopy] at h
      cases h
      exact hcloses
    . rw [herror] at h
      contradiction

theorem Accepts.ne_nil (h : Accepts text tail) : text ≠ [] := by
  cases h with
  | literal hskip => exact hskip.ne_nil
  | string hskip => exact hskip.ne_nil
  | digits hskip => exact hskip.ne_nil
  | array hskip => exact hskip.ne_nil
  | object hskip => exact hskip.ne_nil

theorem AcceptsElems.ne_nil (h : AcceptsElems text tail) : text ≠ [] := by
  cases h with
  | last h => exact h.ne_nil
  | more h => exact h.ne_nil

theorem AcceptsMembers.ne_nil (h : AcceptsMembers text tail) : text ≠ [] := by
  cases h with
  | last h => exact h.ne_nil
  | more h => exact h.ne_nil

theorem parseStringLiteral_of_closes (hskip : Skips text 0x22 rest) (h : Closes rest tail)
    : ∃ t key, skipWhitespace ⟨text, []⟩ = .ok t ∧ parseStringLiteral t = .ok (key, ⟨tail, []⟩) := by
  obtain ⟨str, hcopy⟩ := closes_iff.1 h
  exact ⟨_, str, skipWhitespace_of_skips hskip,
    parseStringLiteral_quote.mpr ⟨h.ne_nil.1, str, tail, hcopy, rfl⟩⟩

theorem readNumber_of_digits {digits : List (BitVec 8)} (hdigits : ∀ b ∈ digits, IsDigit b)
    (hd : isdigit d = .ok false)
    : ∃ num, readNumber 0 (digits ++ d :: tail) [] = .ok (num, ⟨d :: tail, []⟩) := by
  have hfollows : Follows [] (d :: tail) := hd
  have hread : readNumber 0 (digits ++ d :: tail) [] = readNumber (BitVec.ofNat 64 (valueFrom 0 digits)) (d :: tail) [] :=
    readNumber_digits hdigits
  rw [hread]
  exact ⟨_, (readNumber_eq_ok hfollows).mpr ⟨by simp, rfl, rfl⟩⟩

theorem exists_parsesTo_of_digits {digits : List (BitVec 8)} (hskip : Skips text c rest)
    (hc : IsDigit c ∨ c = 0x2d) (heq : rest = digits ++ d :: tail) (hdigits : ∀ b ∈ digits, IsDigit b)
    (hd : isdigit d = .ok false)
    : ∃ v, ParsesTo ⟨text, []⟩ v ⟨d :: tail, []⟩ := by
  obtain ⟨num, hnum⟩ : ∃ num, readNumber 0 (if c = 0x2d then rest else c :: rest) [] = .ok (num, ⟨d :: tail, []⟩) := by
    by_cases hminus : c = 0x2d
    . rw [if_pos hminus, heq]
      exact readNumber_of_digits hdigits hd
    . rw [if_neg hminus, heq, ← List.cons_append]
      exact readNumber_of_digits (List.forall_mem_cons.mpr ⟨hc.resolve_right hminus, hdigits⟩) hd
  refine ⟨.number (if c = 0x2d then -num else num), ?_⟩
  rw [parsesTo_of_skip (skipWhitespace_of_skips hskip), parsesTo_cons hskip.token]
  exact .inr (.inr (.inr (.inl ⟨hc, by rw [heq]; simp, num, hnum, rfl⟩)))

mutual

theorem parsesTo_of_accepts {text tail : List (BitVec 8)}
    : Accepts text tail → ∃ v, ParsesTo ⟨text, []⟩ v ⟨tail, []⟩ := by
  intro h
  match h with
  | .literal (v := v) hskip hliteral heq htail =>
    refine ⟨v, ?_⟩
    rw [parsesTo_of_skip (skipWhitespace_of_skips hskip), heq, parsesTo_literal hliteral]
    exact ⟨htail, rfl, rfl⟩
  | .string hskip h =>
    obtain ⟨str, hcopy⟩ := closes_iff.1 h
    refine ⟨.string str, ?_⟩
    rw [parsesTo_of_skip (skipWhitespace_of_skips hskip), parsesTo_cons hskip.token]
    exact .inr (.inr (.inl ⟨rfl, h.ne_nil.1, str, tail, hcopy, rfl, rfl⟩))
  | .digits hskip hc heq hdigits hd => exact exists_parsesTo_of_digits hskip hc heq hdigits hd
  | .array hskip h =>
    obtain ⟨e, he⟩ := arrayParsesTo_of_accepts h 0
    refine ⟨.array e, ?_⟩
    rw [parsesTo_of_skip (skipWhitespace_of_skips hskip), parsesTo_bracket]
    exact ⟨h.ne_nil, e, he, rfl⟩
  | .object hskip h =>
    obtain ⟨o, ho⟩ := objectParsesTo_of_accepts h
    refine ⟨.object o, ?_⟩
    rw [parsesTo_of_skip (skipWhitespace_of_skips hskip), parsesTo_brace]
    exact ⟨h.ne_nil, o, ho, rfl⟩

theorem arrayParsesTo_of_accepts {text tail : List (BitVec 8)}
    : AcceptsElems text tail → ∀ i, ∃ e, ArrayParsesTo i ⟨text, []⟩ e ⟨tail, []⟩ := by
  intro h i
  match h with
  | .last h hskip htail =>
    obtain ⟨v, hv⟩ := parsesTo_of_accepts h
    exact ⟨_, arrayParsesTo_iff.mpr ⟨v, _, _, hv, skipWhitespace_of_skips hskip, .inl ⟨rfl,
      advance_eq_ok.mpr ⟨htail, rfl⟩, rfl⟩⟩⟩
  | .more h hskip hrest =>
    obtain ⟨v, hv⟩ := parsesTo_of_accepts h
    obtain ⟨n, hn⟩ := arrayParsesTo_of_accepts hrest (i + 1)
    exact ⟨_, arrayParsesTo_iff.mpr ⟨v, _, _, hv, skipWhitespace_of_skips hskip, .inr ⟨rfl, _, _, n,
      advance_eq_ok.mpr ⟨by simp, rfl⟩, advance_eq_ok.mpr ⟨hrest.ne_nil, rfl⟩, hn, rfl⟩⟩⟩

theorem objectParsesTo_of_accepts {text tail : List (BitVec 8)}
    : AcceptsMembers text tail → ∃ o, ObjectParsesTo ⟨text, []⟩ o ⟨tail, []⟩ := by
  intro h
  match h with
  | .last hquote hkey hcolon h hskip htail =>
    obtain ⟨t, key, ht, hkey⟩ := parseStringLiteral_of_closes hquote hkey
    obtain ⟨v, hv⟩ := parsesTo_of_accepts h
    exact ⟨_, objectParsesTo_iff.mpr ⟨t, key, _, _, _, v, _, _, ht, hkey, skipWhitespace_of_skips hcolon, rfl,
      advance_eq_ok.mpr ⟨h.ne_nil, rfl⟩, hv, skipWhitespace_of_skips hskip, .inl ⟨rfl,
      advance_eq_ok.mpr ⟨htail, rfl⟩, rfl⟩⟩⟩
  | .more hquote hkey hcolon h hskip hrest =>
    obtain ⟨t, key, ht, hkey⟩ := parseStringLiteral_of_closes hquote hkey
    obtain ⟨v, hv⟩ := parsesTo_of_accepts h
    obtain ⟨n, hn⟩ := objectParsesTo_of_accepts hrest
    exact ⟨_, objectParsesTo_iff.mpr ⟨t, key, _, _, _, v, _, _, ht, hkey, skipWhitespace_of_skips hcolon, rfl,
      advance_eq_ok.mpr ⟨h.ne_nil, rfl⟩, hv, skipWhitespace_of_skips hskip, .inr ⟨rfl, _, _, n,
      advance_eq_ok.mpr ⟨by simp, rfl⟩, advance_eq_ok.mpr ⟨hrest.ne_nil, rfl⟩, hn, rfl⟩⟩⟩

end

theorem exists_skips_of_parsesTo (h : ParsesTo ⟨text, []⟩ v s')
    : ∃ c rest, Skips text c rest ∧ ParsesTo ⟨c :: rest, []⟩ v s' := by
  obtain ⟨t, ht⟩ := exists_skip_of_parsesTo h
  rw [parsesTo_of_skip ht] at h
  obtain rfl | ⟨c, rest, rfl, -⟩ := skipText_eq_ok ht
  . exact absurd h not_parsesTo_nil
  . exact ⟨c, rest, skipText_eq_ok_iff.1 ht, h⟩

theorem skips_of_peek {u : JsonState} (h : skipWhitespace ⟨text, []⟩ = .ok u) (hpeek : u.peek = .ok c)
    : ∃ rest, u = ⟨c :: rest, []⟩ ∧ Skips text c rest := by
  obtain rfl | ⟨d, rest, rfl, -⟩ := skipText_eq_ok h
  . contradiction
  . cases hpeek
    exact ⟨rest, rfl, skipText_eq_ok_iff.1 h⟩

/--
A number that is read to its end.
-/
theorem accepts_of_readNumber {num : BitVec 64} (hskip : Skips text c rest) (hc : IsDigit c ∨ c = 0x2d)
    (h : readNumber 0 (if c = 0x2d then rest else c :: rest) [] = .ok (num, s'))
    : ∃ tail, s' = ⟨tail, []⟩ ∧ Accepts text tail := by
  obtain ⟨num', digits, d, tail, heq, hdigits, hd, hread⟩ | ⟨f, hfault⟩ := readNumber_cases 0 _
  . rw [hread] at h
    cases h
    refine ⟨d :: tail, rfl, ?_⟩
    by_cases hminus : c = 0x2d
    . rw [if_pos hminus] at heq
      exact .digits hskip hc heq hdigits hd
    . rw [if_neg hminus] at heq
      have hdigit := hc.resolve_right hminus
      cases digits with
      | nil =>
        obtain ⟨rfl, -⟩ := List.cons.inj heq
        rw [isdigit_of_isDigit hdigit] at hd
        contradiction
      | cons b digits =>
        obtain ⟨-, heq⟩ := List.cons.inj heq
        exact .digits hskip hc heq (List.forall_mem_cons.mp hdigits).2 hd
  . rw [hfault] at h
    contradiction

theorem closes_of_parseStringLiteral {u : JsonState} {r : List (BitVec 8) × JsonState}
    (hskip : skipWhitespace ⟨text, []⟩ = .ok u) (h : parseStringLiteral u = .ok r)
    : ∃ key tail, Skips text 0x22 key ∧ r.2 = ⟨tail, []⟩ ∧ Closes key tail := by
  obtain rfl | ⟨c, key, rfl, hc⟩ := skipText_eq_ok hskip
  . contradiction
  . by_cases hquote : c = 0x22
    . subst hquote
      obtain ⟨-, str, tail, hcopy, rfl⟩ := parseStringLiteral_quote.mp h
      exact ⟨key, tail, skipText_eq_ok_iff.1 hskip, rfl, closes_iff.2 ⟨str, hcopy⟩⟩
    . exact absurd h (parseStringLiteral_of_ne hc hquote)

mutual

theorem accepts_of_parsesTo
    : (v : JsonValue) → ∀ text s', ParsesTo ⟨text, []⟩ v s' → ∃ tail, s' = ⟨tail, []⟩ ∧ Accepts text tail := by
  intro v text s' h
  obtain ⟨c, rest, hskip, h⟩ := exists_skips_of_parsesTo h
  obtain ⟨rfl, -, o, ho, heq⟩ | ⟨rfl, -, e, he, heq⟩ | ⟨rfl, -, str, tail, hcopy, -, rfl⟩ | ⟨hc, -, num, hnum, -⟩
    | ⟨-, str, hliteral, hlength, hprefix, rfl⟩ := (parsesTo_cons hskip.token).mp h
  . match v, heq with
    | .object o', rfl =>
      obtain ⟨tail, rfl, hmembers⟩ := acceptsMembers_of_parsesTo o' _ _ ho
      exact ⟨tail, rfl, .object hskip hmembers⟩
  . match v, heq with
    | .array e', rfl =>
      obtain ⟨tail, rfl, helems⟩ := acceptsElems_of_parsesTo e' _ _ _ he
      exact ⟨tail, rfl, .array hskip helems⟩
  . exact ⟨tail, rfl, .string hskip (closes_iff.2 ⟨str, hcopy⟩)⟩
  . exact accepts_of_readNumber hskip hc hnum
  . obtain ⟨tail, htail⟩ := hprefix
    refine ⟨_, rfl, ?_⟩
    rw [← htail, List.drop_left]
    refine .literal hskip hliteral htail.symm ?_
    rintro rfl
    rw [← htail, List.append_nil] at hlength
    exact Nat.lt_irrefl _ hlength

theorem acceptsElems_of_parsesTo
    : (e : JsonArrayElem) → ∀ i text s', ArrayParsesTo i ⟨text, []⟩ e s'
      → ∃ tail, s' = ⟨tail, []⟩ ∧ AcceptsElems text tail := by
  intro e i text s' h
  obtain ⟨v, u, w, hv, hw, hend⟩ := arrayParsesTo_iff.mp h
  match e, hend with
  | .elem _ v' n', hend =>
    have hsame : v = v' := by
      obtain ⟨-, -, heq⟩ | ⟨-, _, _, _, -, -, -, heq⟩ := hend
      . exact (JsonArrayElem.elem.inj heq).2.1.symm
      . exact (JsonArrayElem.elem.inj heq).2.1.symm
    subst hsame
    obtain ⟨rest, rfl, haccepts⟩ := accepts_of_parsesTo v _ _ hv
    obtain ⟨hpeek, hadvance, -⟩ | ⟨hpeek, a, b, n, ha, hb, hn, heq⟩ := hend
    . obtain ⟨tail, rfl, hskip⟩ := skips_of_peek hw hpeek
      obtain ⟨htail, rfl⟩ := advance_eq_ok.mp hadvance
      exact ⟨tail, rfl, .last haccepts hskip htail⟩
    . obtain ⟨tail, rfl, hskip⟩ := skips_of_peek hw hpeek
      obtain ⟨htail, rfl⟩ := advance_eq_ok.mp ha
      obtain ⟨x, rest', rfl⟩ := List.exists_cons_of_ne_nil htail
      obtain ⟨-, rfl⟩ := advance_eq_ok.mp hb
      obtain ⟨-, -, rfl⟩ := JsonArrayElem.elem.inj heq
      obtain ⟨tail, rfl, hrest⟩ := acceptsElems_of_parsesTo n' _ _ _ hn
      exact ⟨tail, rfl, .more haccepts hskip hrest⟩
  | .null, hend =>
    obtain ⟨-, -, heq⟩ | ⟨-, _, _, _, -, -, -, heq⟩ := hend
    . contradiction
    . contradiction

theorem acceptsMembers_of_parsesTo
    : (o : JsonObjectElem) → ∀ text s', ObjectParsesTo ⟨text, []⟩ o s'
      → ∃ tail, s' = ⟨tail, []⟩ ∧ AcceptsMembers text tail := by
  intro o text s' h
  obtain ⟨s₁, key, s₂, s₃, s₄, v, s₆, s₇, h₁, hkey, h₃, hcolon, h₄, hv, h₇, hend⟩ := objectParsesTo_iff.mp h
  obtain ⟨quoted, rest, hquote, rfl, hcloses⟩ := closes_of_parseStringLiteral h₁ hkey
  obtain ⟨gap, rfl, hgap⟩ := skips_of_peek h₃ hcolon
  obtain ⟨-, rfl⟩ := advance_eq_ok.mp h₄
  match o, hend with
  | .elem _ v' n', hend =>
    have hsame : v = v' := by
      obtain ⟨-, -, heq⟩ | ⟨-, _, _, _, -, -, -, heq⟩ := hend
      . exact (JsonObjectElem.elem.inj heq).2.1.symm
      . exact (JsonObjectElem.elem.inj heq).2.1.symm
    subst hsame
    obtain ⟨behind, rfl, haccepts⟩ := accepts_of_parsesTo v _ _ hv
    obtain ⟨hpeek, hadvance, -⟩ | ⟨hpeek, a, b, n, ha, hb, hn, heq⟩ := hend
    . obtain ⟨tail, rfl, hskip⟩ := skips_of_peek h₇ hpeek
      obtain ⟨htail, rfl⟩ := advance_eq_ok.mp hadvance
      exact ⟨tail, rfl, .last hquote hcloses hgap haccepts hskip htail⟩
    . obtain ⟨tail, rfl, hskip⟩ := skips_of_peek h₇ hpeek
      obtain ⟨htail, rfl⟩ := advance_eq_ok.mp ha
      obtain ⟨x, rest', rfl⟩ := List.exists_cons_of_ne_nil htail
      obtain ⟨-, rfl⟩ := advance_eq_ok.mp hb
      obtain ⟨-, -, rfl⟩ := JsonObjectElem.elem.inj heq
      obtain ⟨tail, rfl, hrest⟩ := acceptsMembers_of_parsesTo n' _ _ hn
      exact ⟨tail, rfl, .more hquote hcloses hgap haccepts hskip hrest⟩
  | .null, hend =>
    obtain ⟨-, -, heq⟩ | ⟨-, _, _, _, -, -, -, heq⟩ := hend
    . contradiction
    . contradiction

end

end Emos.Boot
