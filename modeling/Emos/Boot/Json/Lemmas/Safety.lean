import Emos.Boot.Json.Lemmas.Grammar

/-!
This module contains for which texts the parser stays inside of the text and returns an error or a value.
-/

open Lib Lib.Decimal Lib.Json

namespace Emos.Boot

variable {s s' : JsonState} {c : BitVec 8} {text rest tail after : List (BitVec 8)} {v : JsonValue}
  {i : BitVec 32} {fuel : Nat}

theorem bind_eq_error {α β : Type} {x : Parse α} {k : α → Parse β} {f : JsonStop}
    : x >>= k = .error f ↔ x = .error f ∨ ∃ a, x = .ok a ∧ k a = .error f := by
  cases x with
  | error f' =>
    change Except.error f' = .error f ↔ _
    simp
  | ok a =>
    change k a = .error f ↔ _
    simp

theorem parseValue_of_skip {u : JsonState} (h : skipWhitespace s = .ok u)
    : parseValue fuel u = parseValue fuel s := by
  cases fuel with
  | zero => rw [parseValue, parseValue]
  | succ fuel => rw [parseValue, parseValue, h, skipWhitespace_idem h]

theorem parseValue_bracket
    : parseValue (fuel + 1) ⟨0x5b :: rest, after⟩
        = if rest = [] then .error .syntaxErr else
            parseArrayElems fuel 0 ⟨rest, after⟩ >>= fun r => .ok (.array r.1, r.2) := by
  cases rest <;> rfl

theorem parseValue_quote
    : parseValue (fuel + 1) ⟨0x22 :: rest, after⟩
        = if rest = [] then .error .syntaxErr else
            copyChars (countEscapedStringLen rest) [] rest >>= fun r => .ok (.string r.1, ⟨r.2, after⟩) := by
  cases rest with
  | nil => rfl
  | cons c rest =>
    rw [if_neg (List.cons_ne_nil c rest)]
    change ((copyChars (countEscapedStringLen (c :: rest)) [] (c :: rest)
      >>= fun r => .ok (r.1, (⟨r.2, after⟩ : JsonState))) >>= fun r => .ok (JsonValue.string r.1, r.2)) = _
    cases copyChars (countEscapedStringLen (c :: rest)) [] (c :: rest) <;> rfl

theorem parseValue_token (hc : isspace c = .ok false)
    : parseValue (fuel + 1) ⟨c :: rest, after⟩
        = if c = 0x7b then
            parseObject (parseObjectElems fuel) ⟨c :: rest, after⟩
          else if c = 0x5b then
            parseArray (parseArrayElems fuel 0) ⟨c :: rest, after⟩
          else if c = 0x22 then
            parseString ⟨c :: rest, after⟩
          else if (0x30 ≤ c ∧ c ≤ 0x39) ∨ c = 0x2d then
            parseNumber ⟨c :: rest, after⟩
          else if c = 0x74 ∨ c = 0x66 ∨ c = 0x6e then
            parseOther ⟨c :: rest, after⟩
          else
            .error .syntaxErr := by
  rw [parseValue, skipWhitespace_of_token hc]
  rfl

theorem parseNumber_eq_error (hc : isspace c = .ok false) (hnumber : IsDigit c ∨ c = 0x2d)
    : parseNumber ⟨c :: rest, []⟩ = .error .syntaxErr ↔ rest = [] := by
  have hdigit : isdigit c = .ok (decide (IsDigit c)) := by
    obtain hdigit | rfl := hnumber
    . rw [isdigit_of_isDigit hdigit, decide_eq_true hdigit]
    . rfl
  have hstart : ¬ ((!decide (IsDigit c)) && decide (c ≠ 0x2d)) = true := by
    obtain hdigit | rfl := hnumber
    . rw [decide_eq_true hdigit]
      exact Bool.false_ne_true
    . decide
  rw [parseNumber, skipWhitespace_of_token hc]
  change (isdigit c >>= _) = _ ↔ _
  rw [hdigit]
  change (if _ then _ else _) = _ ↔ _
  rw [if_neg hstart]
  cases rest with
  | nil => simp
  | cons d rest =>
    rw [if_neg (by simp)]
    refine iff_of_false ?_ (List.cons_ne_nil d rest)
    rw [bind_eq_error]
    have hread (u : JsonState) (hu : u.after = []) : readNumber 0 u.text u.after ≠ .error .syntaxErr := by
      obtain ⟨num', digits, d, tail, -, -, -, hread⟩ | ⟨f, hfault⟩ := readNumber_cases 0 u.text
      . rw [hu, hread]
        simp
      . rw [hu, hfault]
        simp
    rintro (h | ⟨r, -, h⟩)
    . refine hread _ ?_ h
      split <;> rfl
    . contradiction

theorem parseLiteral_cases {str : List (BitVec 8)}
    : (∃ r, parseLiteral s str v = .ok r) ∨ parseLiteral s str v = .error .syntaxErr := by
  unfold parseLiteral
  split
  . exact .inr rfl
  . split
    . exact .inr rfl
    . exact .inl ⟨_, rfl⟩

theorem parseOther_cases (rest after : List (BitVec 8)) (hc : isspace c = .ok false)
    : (∃ r, parseOther ⟨c :: rest, after⟩ = .ok r) ∨ parseOther ⟨c :: rest, after⟩ = .error .syntaxErr := by
  simp only [parseOther, skipWhitespace_of_token hc, peek_cons, ok_bind]
  split
  . exact parseLiteral_cases
  . split
    . exact parseLiteral_cases
    . split
      . exact parseLiteral_cases
      . exact .inr rfl

theorem parseOther_eq_error (hc : isspace c = .ok false)
    : parseOther ⟨c :: rest, after⟩ = .error .syntaxErr
        ↔ ¬ ∃ str v tail, JsonLiteral str v ∧ tail ≠ [] ∧ c :: rest = str ++ tail := by
  have hok : (∃ r, parseOther ⟨c :: rest, after⟩ = .ok r)
      ↔ ∃ str v tail, JsonLiteral str v ∧ tail ≠ [] ∧ c :: rest = str ++ tail := by
    constructor
    . rintro ⟨⟨v, s'⟩, h⟩
      obtain ⟨str, hliteral, hlength, ⟨tail, htail⟩, -⟩ := (parseOther_eq_ok hc).mp h
      refine ⟨str, v, tail, hliteral, ?_, htail.symm⟩
      rintro rfl
      rw [← htail, List.append_nil] at hlength
      exact Nat.lt_irrefl _ hlength
    . rintro ⟨str, v, tail, hliteral, htail, heq⟩
      refine ⟨_, (parseOther_eq_ok hc).mpr ⟨str, hliteral, ?_, heq ▸ List.prefix_append str tail, rfl⟩⟩
      rw [heq, List.length_append]
      have := List.length_pos_iff.mpr htail
      omega
  rw [← hok]
  obtain ⟨r, hr⟩ | herror := parseOther_cases rest after hc
  . rw [hr]
    simp
  . rw [herror]
    simp

theorem peek_ne_syntaxErr : s.peek ≠ .error .syntaxErr := by
  unfold JsonState.peek
  split <;> simp

theorem skipWhitespace_ne_syntaxErr : skipWhitespace s ≠ .error .syntaxErr := by
  obtain ⟨c, rest, hskip⟩ | hend | ⟨f, hfault⟩ := skipWhitespace_cases s.text s.after
  . rw [skipWhitespace_of_skips hskip]
    simp
  . rw [hend]
    simp
  . rw [hfault]
    simp

theorem parseArrayElems_eq_error
    : parseArrayElems (fuel + 1) i s = .error .syntaxErr
        ↔ ∃ u, skipWhitespace s = .ok u ∧ (parseValue fuel s = .error .syntaxErr
          ∨ ∃ v t w c, parseValue fuel s = .ok (v, t) ∧ skipWhitespace t = .ok w ∧ w.peek = .ok c
            ∧ ((c ≠ 0x5d ∧ c ≠ 0x2c) ∨ ((c = 0x5d ∨ c = 0x2c) ∧ w.advance = .error .syntaxErr)
              ∨ (c = 0x2c ∧ ∃ a, w.advance = .ok a ∧ (a.advance = .error .syntaxErr
                ∨ ∃ b, a.advance = .ok b ∧ parseArrayElems fuel (i + 1) b = .error .syntaxErr)))) := by
  rw [parseArrayElems, bind_eq_error, or_iff_right skipWhitespace_ne_syntaxErr]
  apply exists_congr
  intro u
  apply and_congr_right
  intro hu
  rw [parseValue_of_skip hu, bind_eq_error]
  apply or_congr_right
  constructor
  . rintro ⟨⟨v, t⟩, hv, h⟩
    simp only [bind_eq_error, skipWhitespace_ne_syntaxErr, peek_ne_syntaxErr, false_or] at h
    obtain ⟨w, hw, c, hc, h⟩ := h
    refine ⟨v, t, w, c, hv, hw, hc, ?_⟩
    split at h
    . next hbracket =>
      rw [bind_eq_error] at h
      obtain h | ⟨_, -, h⟩ := h
      . exact .inr (.inl ⟨.inl hbracket, h⟩)
      . contradiction
    . next hbracket =>
      split at h
      . next hcomma =>
        rw [bind_eq_error] at h
        obtain h | ⟨a, ha, h⟩ := h
        . exact .inr (.inl ⟨.inr hcomma, h⟩)
        . refine .inr (.inr ⟨hcomma, a, ha, ?_⟩)
          rw [bind_eq_error] at h
          refine h.imp_right ?_
          rintro ⟨b, hb, h⟩
          rw [bind_eq_error] at h
          obtain h | ⟨_, -, h⟩ := h
          . exact ⟨b, hb, h⟩
          . contradiction
      . next hcomma => exact .inl ⟨hbracket, hcomma⟩
  . rintro ⟨v, t, w, c, hv, hw, hc, h⟩
    refine ⟨(v, t), hv, ?_⟩
    simp only [hw, hc, ok_bind]
    obtain ⟨hbracket, hcomma⟩ | ⟨hc, hadvance⟩ | ⟨rfl, a, ha, h⟩ := h
    . rw [if_neg hbracket, if_neg hcomma]
    . obtain rfl | rfl := hc
      . rw [if_pos rfl, hadvance]
        rfl
      . rw [if_neg (by decide), if_pos rfl, hadvance]
        rfl
    . rw [if_neg (by decide), if_pos rfl, ha, ok_bind]
      obtain h | ⟨b, hb, h⟩ := h
      . rw [h]
        rfl
      . rw [hb, ok_bind, h]
        rfl

theorem advance_eq_error : (⟨c :: text, after⟩ : JsonState).advance = .error .syntaxErr ↔ text = [] := by
  unfold JsonState.advance JsonState.next
  split
  . next h => simp_all
  . next h => simp_all

theorem parseArrayElems_of_separator {n : Nat} (h : Accepts text rest) (hskip : Skips rest c tail)
    (hend : ∀ fuel ≥ n, (c ≠ 0x5d ∧ c ≠ 0x2c) ∨ ((c = 0x5d ∨ c = 0x2c) ∧ tail = [])
      ∨ (c = 0x2c ∧ ∃ x rest', tail = x :: rest'
        ∧ (rest' = [] ∨ parseArrayElems fuel (i + 1) ⟨rest', []⟩ = .error .syntaxErr)))
    : ∃ n, ∀ fuel ≥ n, parseArrayElems fuel i ⟨text, []⟩ = .error .syntaxErr := by
  obtain ⟨v, m, hv⟩ := parsesTo_of_accepts h
  refine ⟨max n m + 1, ?_⟩
  intro fuel hfuel
  obtain ⟨fuel, rfl⟩ := Nat.exists_eq_add_of_le' hfuel
  rw [← Nat.add_assoc]
  have hvalue := parseValue_of_le hv (show m ≤ fuel + max n m by omega)
  obtain ⟨u, hu⟩ := exists_skip_of_parsesTo ⟨m, hv⟩
  refine parseArrayElems_eq_error.2 ⟨u, hu, .inr ⟨v, _, _, c, hvalue, skipWhitespace_of_skips hskip, rfl, ?_⟩⟩
  obtain hc | ⟨hc, rfl⟩ | ⟨hc, x, rest', rfl, hrest⟩ := hend (fuel + max n m) (by omega)
  . exact .inl hc
  . exact .inr (.inl ⟨hc, advance_eq_error.2 rfl⟩)
  . refine .inr (.inr ⟨hc, _, advance_eq_ok.mpr ⟨by simp, rfl⟩, ?_⟩)
    by_cases hnil : rest' = []
    . exact .inl (advance_eq_error.2 hnil)
    . exact .inr ⟨_, advance_eq_ok.mpr ⟨hnil, rfl⟩, hrest.resolve_left hnil⟩

theorem length_le_one (h : tail.length ≤ 1) : tail = [] ∨ ∃ x, tail = [x] := by
  match tail, h with
  | [], _ => exact .inl rfl
  | [x], _ => exact .inr ⟨x, rfl⟩

theorem exists_skips_of_rejects (h : Rejects text) : ∃ c rest, Skips text c rest := by
  cases h with
  | start hskip => exact ⟨_, _, hskip⟩
  | literal hskip => exact ⟨_, _, hskip⟩
  | string hskip => exact ⟨_, _, hskip⟩
  | digit hskip => exact ⟨_, _, hskip⟩
  | bracket hskip => exact ⟨_, _, hskip⟩
  | array hskip => exact ⟨_, _, hskip⟩
  | brace hskip => exact ⟨_, _, hskip⟩

theorem exists_parseValue_eq_error {n : Nat} (hskip : Skips text c rest)
    (h : ∀ fuel ≥ n, parseValue (fuel + 1) ⟨c :: rest, []⟩ = .error .syntaxErr)
    : ∃ n, ∀ fuel ≥ n, parseValue fuel ⟨text, []⟩ = .error .syntaxErr := by
  refine ⟨n + 1, ?_⟩
  intro fuel hfuel
  obtain ⟨fuel, rfl⟩ := Nat.exists_eq_add_of_le' hfuel
  rw [← parseValue_of_skip (skipWhitespace_of_skips hskip)]
  exact h (fuel + n) (Nat.le_add_left n fuel)

theorem parseValue_of_not_isStart (hc : isspace c = .ok false) (h : ¬ IsStart c)
    : parseValue (fuel + 1) ⟨c :: rest, []⟩ = .error .syntaxErr := by
  unfold IsStart at h
  simp only [not_or] at h
  obtain ⟨hbrace, hbracket, hquote, hnumber, hliteral⟩ := h
  rw [parseValue_token hc, if_neg hbrace, if_neg hbracket, if_neg hquote, if_neg (not_or.mpr hnumber),
    if_neg (by simpa only [not_or] using hliteral)]

theorem parseValue_of_number (hc : isspace c = .ok false) (hnumber : IsDigit c ∨ c = 0x2d)
    : parseValue (fuel + 1) ⟨[c], []⟩ = .error .syntaxErr := by
  have hne (x : BitVec 8) (hx : ¬ (IsDigit x ∨ x = 0x2d)) : c ≠ x := by
    rintro rfl
    exact hx hnumber
  rw [parseValue_token hc, if_neg (hne 0x7b (by decide)), if_neg (hne 0x5b (by decide)),
    if_neg (hne 0x22 (by decide))]
  change (if IsDigit c ∨ c = 0x2d then _ else _) = _
  rw [if_pos hnumber, parseNumber_eq_error hc hnumber]

theorem parseValue_of_literal (hc : c = 0x74 ∨ c = 0x66 ∨ c = 0x6e)
    (h : ¬ ∃ str v tail, JsonLiteral str v ∧ tail ≠ [] ∧ c :: rest = str ++ tail)
    : parseValue (fuel + 1) ⟨c :: rest, []⟩ = .error .syntaxErr := by
  have hspace : isspace c = .ok false := by
    obtain rfl | rfl | rfl := hc <;> rfl
  have hne (x : BitVec 8) (hx : ¬ (x = 0x74 ∨ x = 0x66 ∨ x = 0x6e)) : c ≠ x := by
    rintro rfl
    exact hx hc
  have hnumber : ¬ ((0x30 ≤ c ∧ c ≤ 0x39) ∨ c = 0x2d) := by
    obtain rfl | rfl | rfl := hc <;> decide
  rw [parseValue_token hspace, if_neg (hne 0x7b (by decide)), if_neg (hne 0x5b (by decide)),
    if_neg (hne 0x22 (by decide)), if_neg hnumber, if_pos hc, parseOther_eq_error hspace]
  exact h

theorem parseValue_of_not_closes (h : ¬ ∃ tail, Closes rest tail)
    : parseValue (fuel + 1) ⟨0x22 :: rest, []⟩ = .error .syntaxErr := by
  rw [parseValue_quote]
  split
  . rfl
  . obtain ⟨str, tail, -, hcloses⟩ | ⟨herror, -⟩ := copyChars_cases rest []
      (Nat.le_of_eq (Nat.zero_add (countEscapedStringLen rest)))
    . exact absurd ⟨tail, hcloses⟩ h
    . rw [herror]
      rfl

mutual

theorem parseValue_of_rejects {text : List (BitVec 8)}
    : Rejects text → ∃ n, ∀ fuel ≥ n, parseValue fuel ⟨text, []⟩ = .error .syntaxErr := by
  intro h
  match h with
  | .start hskip h =>
    exact exists_parseValue_eq_error (n := 0) hskip fun _ _ => parseValue_of_not_isStart hskip.token h
  | .literal hskip hc h => exact exists_parseValue_eq_error (n := 0) hskip fun _ _ => parseValue_of_literal hc h
  | .string hskip h => exact exists_parseValue_eq_error (n := 0) hskip fun _ _ => parseValue_of_not_closes h
  | .digit hskip hc => exact exists_parseValue_eq_error (n := 0) hskip fun _ _ => parseValue_of_number hskip.token hc
  | .bracket hskip => exact exists_parseValue_eq_error (n := 0) hskip fun _ _ => rfl
  | .array hskip h =>
    obtain ⟨n, hn⟩ := parseArrayElems_of_rejectsElems h 0
    refine exists_parseValue_eq_error (n := n) hskip fun fuel hfuel => ?_
    rw [parseValue_bracket, hn fuel hfuel]
    split <;> rfl
  | .brace hskip => exact exists_parseValue_eq_error (n := 0) hskip fun _ _ => rfl

theorem parseArrayElems_of_rejectsElems {text : List (BitVec 8)}
    : RejectsElems text → ∀ i, ∃ n, ∀ fuel ≥ n, parseArrayElems fuel i ⟨text, []⟩ = .error .syntaxErr := by
  intro h i
  match h with
  | .value h =>
    obtain ⟨n, hn⟩ := parseValue_of_rejects h
    refine ⟨n + 1, ?_⟩
    intro fuel hfuel
    obtain ⟨fuel, rfl⟩ := Nat.exists_eq_add_of_le' hfuel
    rw [← Nat.add_assoc]
    have hvalue := hn (fuel + n) (Nat.le_add_left n fuel)
    obtain ⟨c, rest, hskip⟩ := exists_skips_of_rejects h
    exact parseArrayElems_eq_error.2 ⟨_, skipWhitespace_of_skips hskip, .inl hvalue⟩
  | .separator h hskip hc => exact parseArrayElems_of_separator (n := 0) h hskip fun _ _ => .inl hc
  | .bracket h hskip => exact parseArrayElems_of_separator (n := 0) h hskip fun _ _ => .inr (.inl ⟨.inl rfl, rfl⟩)
  | .comma h hskip htail =>
    refine parseArrayElems_of_separator (n := 0) h hskip fun _ _ => ?_
    obtain hnil | ⟨x, hx⟩ := length_le_one htail
    . exact .inr (.inl ⟨.inr rfl, hnil⟩)
    . exact .inr (.inr ⟨rfl, x, [], hx, .inl rfl⟩)
  | .more h hskip hrest =>
    obtain ⟨n, hn⟩ := parseArrayElems_of_rejectsElems hrest (i + 1)
    exact parseArrayElems_of_separator h hskip fun fuel hfuel =>
      .inr (.inr ⟨rfl, _, _, rfl, .inr (hn fuel hfuel)⟩)

end

/--
The number of characters that the loop of `parse_string_literal` stores.
-/
def storedChars : List (BitVec 8) → Nat
  | [] => 0
  | c :: text =>
    if c = 0x5c then
      match text with
      | [] => 0
      | _ :: text => storedChars text
    else if c = 0x22 then
      0
    else
      storedChars text + 1

theorem storedChars_of_isCopied (h : IsCopied c) : storedChars (c :: text) = storedChars text + 1 := by
  rw [storedChars.eq_def]
  dsimp only
  rw [if_neg h.2, if_neg h.1]

theorem storedChars_quote : storedChars (0x22 :: text) = 0 := by
  rw [storedChars.eq_def]
  rfl

/--
The character behind a backslash is counted and not stored, and so is a backslash at the end.
-/
theorem storedChars_le (text : List (BitVec 8)) : storedChars text ≤ countEscapedStringLen text := by
  fun_induction storedChars text with
  | case1 => exact Nat.le_refl 0
  | case2 => exact Nat.zero_le _
  | case3 d text ih =>
    rw [countEscapedStringLen, if_pos rfl]
    omega
  | case4 => exact Nat.zero_le _
  | case5 c text hescape hquote ih =>
    rw [countEscapedStringLen_of_isCopied ⟨hquote, hescape⟩]
    omega

theorem copyChars_stored {room : Nat} {buf : List (BitVec 8)} (hroom : buf.length ≤ room)
    : (copyChars room buf text = .error (.fault .access) ↔ room < buf.length + storedChars text)
        ∧ ∀ str rest, copyChars room buf text = .ok (str, rest) → str.length = buf.length + storedChars text := by
  fun_induction copyChars room buf text with
  | case1 buf =>
    refine ⟨iff_of_false (fun h => by contradiction) (Nat.not_lt_of_le hroom), ?_⟩
    intro str rest h
    contradiction
  | case2 buf =>
    refine ⟨iff_of_false (fun h => by contradiction) (Nat.not_lt_of_le hroom), ?_⟩
    intro str rest h
    contradiction
  | case3 buf d text ih => exact ih hroom
  | case4 buf =>
    rw [storedChars_quote]
    refine ⟨iff_of_false (fun h => by contradiction) (Nat.not_lt_of_le hroom), ?_⟩
    intro str rest h
    contradiction
  | case5 buf text hne =>
    rw [storedChars_quote]
    refine ⟨iff_of_false (fun h => by contradiction) (Nat.not_lt_of_le hroom), ?_⟩
    intro str rest h
    cases h
    rfl
  | case6 buf c text hescape hquote hfull =>
    rw [storedChars_of_isCopied ⟨hquote, hescape⟩]
    refine ⟨iff_of_true rfl (by omega), ?_⟩
    intro str rest h
    contradiction
  | case7 buf c text hescape hquote hfull ih =>
    rw [List.length_append, List.length_singleton] at ih
    rw [storedChars_of_isCopied ⟨hquote, hescape⟩]
    rw [show buf.length + (storedChars text + 1) = buf.length + 1 + storedChars text by omega]
    exact ih (by omega)

/--
The characters that the loop stores and the terminator behind them fit into the memory that is allocated. With less
room than for these characters the loop would store one of them outside.
-/
theorem string_literal_fits (text : List (BitVec 8))
    : storedChars text + 1 ≤ countEscapedStringLen text + 1
        ∧ (∀ room, copyChars room [] text = .error (.fault .access) ↔ room < storedChars text)
        ∧ ∀ room str rest, copyChars room [] text = .ok (str, rest) → str.length = storedChars text := by
  have hstored {room : Nat} := @copyChars_stored text room [] (Nat.zero_le room)
  rw [List.length_nil, Nat.zero_add] at hstored
  exact ⟨Nat.succ_le_succ (storedChars_le text), fun room => hstored.1, fun room => hstored.2⟩

end Emos.Boot
