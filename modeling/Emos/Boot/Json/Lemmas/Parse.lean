import Emos.Lib.Loop
import Emos.Boot.Json.Impl.Json

/-!
This module contains when the parser returns a value, whatever the bound of the depth is.
-/

open Lib

namespace Emos.Boot

variable {s s' t u : JsonState} {c : BitVec 8} {text after : List (BitVec 8)} {v v' : JsonValue} {i : BitVec 32}
  {e e' : JsonArrayElem} {o o' : JsonObjectElem} {fuel : Nat}

theorem ite_error_eq_ok {α : Type} {p : Prop} [Decidable p] {e : JsonStop} {x : Parse α} {r : α}
    : (if p then .error e else x) = .ok r ↔ ¬ p ∧ x = .ok r := by
  split
  . next hp => simp [hp]
  . next hp => simp [hp]

theorem skipText_of_token (h : isspace c = .ok false)
    : skipText after (c :: text) = .ok ⟨c :: text, after⟩ := by
  unfold skipText
  rw [h]
  rfl

theorem skipText_of_blank (h : isspace c = .ok true) : skipText after (c :: text) = skipText after text := by
  rw [skipText, h]
  rfl

/--
Nothing is left, or what is left starts with a character that is no whitespace.
-/
theorem skipText_eq_ok (h : skipText after text = .ok t)
    : t = ⟨[], after⟩ ∨ ∃ c rest, t = ⟨c :: rest, after⟩ ∧ isspace c = .ok false := by
  induction text with
  | nil =>
    cases h
    exact .inl rfl
  | cons c text ih =>
    cases hc : isspace c with
    | error e =>
      rw [skipText, hc] at h
      cases h
    | ok blank =>
      cases blank with
      | true =>
        rw [skipText_of_blank hc] at h
        exact ih h
      | false =>
        rw [skipText_of_token hc] at h
        cases h
        exact .inr ⟨c, text, rfl, hc⟩

theorem skipWhitespace_idem (h : skipWhitespace s = .ok t) : skipWhitespace t = .ok t := by
  obtain rfl | ⟨c, rest, rfl, hc⟩ := skipText_eq_ok h
  . rfl
  . exact skipText_of_token hc

theorem skipWhitespace_of_token (h : isspace c = .ok false)
    : skipWhitespace ⟨c :: text, after⟩ = .ok ⟨c :: text, after⟩ := skipText_of_token h

@[simp]
theorem peek_cons : (⟨c :: text, after⟩ : JsonState).peek = .ok c := rfl

theorem advance_eq_ok : (⟨c :: text, after⟩ : JsonState).advance = .ok t ↔ text ≠ [] ∧ t = ⟨text, after⟩ := by
  unfold JsonState.advance JsonState.next
  rw [ite_error_eq_ok]
  simp [eq_comm]

theorem advance_nil : (⟨[], after⟩ : JsonState).advance = .error .syntaxErr := rfl

theorem parseObject_eq_ok {elems : JsonState → Parse (JsonObjectElem × JsonState)}
    : parseObject elems s = .ok (v, s')
        ↔ ∃ t, skipWhitespace s = .ok t ∧ t.peek = .ok 0x7b ∧ ∃ u, t.advance = .ok u
          ∧ ∃ o, elems u = .ok (o, s') ∧ v = .object o := by
  simp only [parseObject, bind_eq_ok, ite_error_eq_ok]
  constructor
  . rintro ⟨t, ht, c, hc, hbrace, u, hu, helems⟩
    rw [not_not] at hbrace
    subst hbrace
    refine ⟨t, ht, hc, u, hu, ?_⟩
    split at helems
    . contradiction
    . contradiction
    . next o w ho =>
      cases helems
      exact ⟨o, ho, rfl⟩
  . rintro ⟨t, ht, hc, u, hu, o, ho, rfl⟩
    exact ⟨t, ht, _, hc, by decide, u, hu, by rw [ho]⟩

theorem parseArray_eq_ok {elems : JsonState → Parse (JsonArrayElem × JsonState)}
    : parseArray elems s = .ok (v, s')
        ↔ ∃ t, skipWhitespace s = .ok t ∧ t.peek = .ok 0x5b ∧ ∃ u, t.advance = .ok u
          ∧ ∃ e, elems u = .ok (e, s') ∧ v = .array e := by
  simp only [parseArray, bind_eq_ok, ite_error_eq_ok]
  constructor
  . rintro ⟨t, ht, c, hc, hbracket, u, hu, ⟨e, w⟩, he, heq⟩
    rw [not_not] at hbracket
    subst hbracket
    cases heq
    exact ⟨t, ht, hc, u, hu, e, he, rfl⟩
  . rintro ⟨t, ht, hc, u, hu, e, he, rfl⟩
    exact ⟨t, ht, _, hc, by decide, u, hu, (e, s'), he, rfl⟩

/--
What a value starts with decides how it is parsed.
-/
theorem parseValue_eq_ok {r : JsonValue × JsonState}
    : parseValue (fuel + 1) s = .ok r
        ↔ ∃ t, skipWhitespace s = .ok t ∧ ∃ c, t.peek = .ok c
          ∧ ((c = 0x7b ∧ parseObject (parseObjectElems fuel) t = .ok r)
            ∨ (c = 0x5b ∧ parseArray (parseArrayElems fuel 0) t = .ok r)
            ∨ (c = 0x22 ∧ parseString t = .ok r)
            ∨ (((0x30 ≤ c ∧ c ≤ 0x39) ∨ c = 0x2d) ∧ parseNumber t = .ok r)
            ∨ ((c = 0x74 ∨ c = 0x66 ∨ c = 0x6e) ∧ parseOther t = .ok r)) := by
  simp only [parseValue, bind_eq_ok]
  apply exists_congr
  intro t
  apply and_congr_right
  intro _
  apply exists_congr
  intro c
  apply and_congr_right
  intro _
  constructor
  . intro h
    split at h
    . next hc => exact .inl ⟨hc, h⟩
    . split at h
      . next hc => exact .inr (.inl ⟨hc, h⟩)
      . split at h
        . next hc => exact .inr (.inr (.inl ⟨hc, h⟩))
        . split at h
          . next hc => exact .inr (.inr (.inr (.inl ⟨hc, h⟩)))
          . split at h
            . next hc => exact .inr (.inr (.inr (.inr ⟨hc, h⟩)))
            . contradiction
  . rintro (⟨rfl, h⟩ | ⟨rfl, h⟩ | ⟨rfl, h⟩ | ⟨hc, h⟩ | ⟨hc, h⟩)
    . exact h
    . exact h
    . exact h
    . have hne : c ≠ 0x7b ∧ c ≠ 0x5b ∧ c ≠ 0x22 := by
        refine ⟨?_, ?_, ?_⟩ <;> rintro rfl <;> revert hc <;> decide
      rw [if_neg hne.1, if_neg hne.2.1, if_neg hne.2.2, if_pos hc]
      exact h
    . obtain rfl | rfl | rfl := hc <;> exact h

theorem parseObjectElems_eq_ok
    : parseObjectElems (fuel + 1) s = .ok (o, s')
        ↔ ∃ s₁ key s₂ s₃ s₄ s₅ v s₆ s₇, skipWhitespace s = .ok s₁ ∧ parseStringLiteral s₁ = .ok (key, s₂)
          ∧ skipWhitespace s₂ = .ok s₃ ∧ s₃.peek = .ok 0x3a ∧ s₃.advance = .ok s₄
          ∧ skipWhitespace s₄ = .ok s₅ ∧ parseValue fuel s₅ = .ok (v, s₆) ∧ skipWhitespace s₆ = .ok s₇
          ∧ ((s₇.peek = .ok 0x7d ∧ s₇.advance = .ok s' ∧ o = .elem key v .null)
            ∨ (s₇.peek = .ok 0x2c ∧ ∃ a b n, s₇.advance = .ok a ∧ a.advance = .ok b
              ∧ parseObjectElems fuel b = .ok (n, s') ∧ o = .elem key v n)) := by
  simp only [parseObjectElems, bind_eq_ok, ite_error_eq_ok, not_not]
  constructor
  . rintro ⟨s₁, h₁, ⟨key, s₂⟩, hkey, s₃, h₃, c, hc, rfl, s₄, h₄, s₅, h₅, ⟨v, s₆⟩, hv, s₇, h₇, d, hd, hend⟩
    refine ⟨s₁, key, s₂, s₃, s₄, s₅, v, s₆, s₇, h₁, hkey, h₃, hc, h₄, h₅, hv, h₇, ?_⟩
    split at hend
    . next heq =>
      subst heq
      rw [bind_eq_ok] at hend
      obtain ⟨a, ha, heq⟩ := hend
      cases heq
      exact .inl ⟨hd, ha, rfl⟩
    . split at hend
      . next heq =>
        subst heq
        simp only [bind_eq_ok] at hend
        obtain ⟨a, ha, b, hb, ⟨n, w⟩, hn, heq⟩ := hend
        cases heq
        exact .inr ⟨hd, a, b, n, ha, hb, hn, rfl⟩
      . contradiction
  . rintro ⟨s₁, key, s₂, s₃, s₄, s₅, v, s₆, s₇, h₁, hkey, h₃, hc, h₄, h₅, hv, h₇, hend⟩
    refine ⟨s₁, h₁, (key, s₂), hkey, s₃, h₃, _, hc, rfl, s₄, h₄, s₅, h₅, (v, s₆), hv, s₇, h₇, ?_⟩
    obtain ⟨hd, ha, rfl⟩ | ⟨hd, a, b, n, ha, hb, hn, rfl⟩ := hend
    . refine ⟨_, hd, ?_⟩
      rw [if_pos rfl, bind_eq_ok]
      exact ⟨s', ha, rfl⟩
    . refine ⟨_, hd, ?_⟩
      rw [if_neg (by decide), if_pos rfl]
      simp only [bind_eq_ok]
      exact ⟨a, ha, b, hb, (n, s'), hn, rfl⟩

theorem parseArrayElems_eq_ok
    : parseArrayElems (fuel + 1) i s = .ok (e, s')
        ↔ ∃ s₁ v s₂ s₃, skipWhitespace s = .ok s₁ ∧ parseValue fuel s₁ = .ok (v, s₂)
          ∧ skipWhitespace s₂ = .ok s₃
          ∧ ((s₃.peek = .ok 0x5d ∧ s₃.advance = .ok s' ∧ e = .elem i v .null)
            ∨ (s₃.peek = .ok 0x2c ∧ ∃ a b n, s₃.advance = .ok a ∧ a.advance = .ok b
              ∧ parseArrayElems fuel (i + 1) b = .ok (n, s') ∧ e = .elem i v n)) := by
  simp only [parseArrayElems, bind_eq_ok]
  constructor
  . rintro ⟨s₁, h₁, ⟨v, s₂⟩, hv, s₃, h₃, d, hd, hend⟩
    refine ⟨s₁, v, s₂, s₃, h₁, hv, h₃, ?_⟩
    split at hend
    . next heq =>
      subst heq
      rw [bind_eq_ok] at hend
      obtain ⟨a, ha, heq⟩ := hend
      cases heq
      exact .inl ⟨hd, ha, rfl⟩
    . split at hend
      . next heq =>
        subst heq
        simp only [bind_eq_ok] at hend
        obtain ⟨a, ha, b, hb, ⟨n, w⟩, hn, heq⟩ := hend
        cases heq
        exact .inr ⟨hd, a, b, n, ha, hb, hn, rfl⟩
      . contradiction
  . rintro ⟨s₁, v, s₂, s₃, h₁, hv, h₃, hend⟩
    refine ⟨s₁, h₁, (v, s₂), hv, s₃, h₃, ?_⟩
    obtain ⟨hd, ha, rfl⟩ | ⟨hd, a, b, n, ha, hb, hn, rfl⟩ := hend
    . refine ⟨_, hd, ?_⟩
      rw [if_pos rfl, bind_eq_ok]
      exact ⟨s', ha, rfl⟩
    . refine ⟨_, hd, ?_⟩
      rw [if_neg (by decide), if_pos rfl]
      simp only [bind_eq_ok]
      exact ⟨a, ha, b, hb, (n, s'), hn, rfl⟩

/--
A greater bound of the depth gives the same result.
-/
theorem parse_succ (fuel : Nat)
    : (∀ s v s', parseValue fuel s = .ok (v, s') → parseValue (fuel + 1) s = .ok (v, s'))
        ∧ (∀ s o s', parseObjectElems fuel s = .ok (o, s') → parseObjectElems (fuel + 1) s = .ok (o, s'))
        ∧ ∀ i s e s', parseArrayElems fuel i s = .ok (e, s')
          → parseArrayElems (fuel + 1) i s = .ok (e, s') := by
  induction fuel with
  | zero =>
    refine ⟨?_, ?_, ?_⟩
    . intro s v s' h
      cases h
    . intro s o s' h
      cases h
    . intro i s e s' h
      cases h
  | succ fuel ih =>
    obtain ⟨ihvalue, ihobject, iharray⟩ := ih
    refine ⟨?_, ?_, ?_⟩
    . intro s v s' h
      rw [parseValue_eq_ok] at h ⊢
      obtain ⟨t, ht, c, hc, hcases⟩ := h
      refine ⟨t, ht, c, hc, ?_⟩
      obtain ⟨rfl, h⟩ | ⟨rfl, h⟩ | hrest := hcases
      . rw [parseObject_eq_ok] at h
        obtain ⟨a, ha, hbrace, u, hu, o, ho, rfl⟩ := h
        exact .inl ⟨rfl, parseObject_eq_ok.2 ⟨a, ha, hbrace, u, hu, o, ihobject u o s' ho, rfl⟩⟩
      . rw [parseArray_eq_ok] at h
        obtain ⟨a, ha, hbracket, u, hu, e, he, rfl⟩ := h
        exact .inr (.inl ⟨rfl, parseArray_eq_ok.2 ⟨a, ha, hbracket, u, hu, e, iharray 0 u e s' he, rfl⟩⟩)
      . exact .inr (.inr hrest)
    . intro s o s' h
      rw [parseObjectElems_eq_ok] at h ⊢
      obtain ⟨s₁, key, s₂, s₃, s₄, s₅, v, s₆, s₇, h₁, hkey, h₃, hc, h₄, h₅, hv, h₇, hend⟩ := h
      refine ⟨s₁, key, s₂, s₃, s₄, s₅, v, s₆, s₇, h₁, hkey, h₃, hc, h₄, h₅, ihvalue _ _ _ hv, h₇, ?_⟩
      obtain hend | ⟨hd, a, b, n, ha, hb, hn, rfl⟩ := hend
      . exact .inl hend
      . exact .inr ⟨hd, a, b, n, ha, hb, ihobject _ _ _ hn, rfl⟩
    . intro i s e s' h
      rw [parseArrayElems_eq_ok] at h ⊢
      obtain ⟨s₁, v, s₂, s₃, h₁, hv, h₃, hend⟩ := h
      refine ⟨s₁, v, s₂, s₃, h₁, ihvalue _ _ _ hv, h₃, ?_⟩
      obtain hend | ⟨hd, a, b, n, ha, hb, hn, rfl⟩ := hend
      . exact .inl hend
      . exact .inr ⟨hd, a, b, n, ha, hb, iharray _ _ _ _ hn, rfl⟩

theorem parseValue_of_le {fuel' : Nat} (h : parseValue fuel s = .ok (v, s')) (hle : fuel ≤ fuel')
    : parseValue fuel' s = .ok (v, s') := by
  induction hle with
  | refl => exact h
  | step _ ih => exact (parse_succ _).1 _ _ _ ih

theorem parseObjectElems_of_le {fuel' : Nat} (h : parseObjectElems fuel s = .ok (o, s')) (hle : fuel ≤ fuel')
    : parseObjectElems fuel' s = .ok (o, s') := by
  induction hle with
  | refl => exact h
  | step _ ih => exact (parse_succ _).2.1 _ _ _ ih

theorem parseArrayElems_of_le {fuel' : Nat} (h : parseArrayElems fuel i s = .ok (e, s')) (hle : fuel ≤ fuel')
    : parseArrayElems fuel' i s = .ok (e, s') := by
  induction hle with
  | refl => exact h
  | step _ ih => exact (parse_succ _).2.2 _ _ _ _ ih

/--
With some bound of the depth, the value is returned, and `s'` is left.
-/
def ParsesTo (s : JsonState) (v : JsonValue) (s' : JsonState) : Prop :=
  ∃ fuel, parseValue fuel s = .ok (v, s')

def ObjectParsesTo (s : JsonState) (o : JsonObjectElem) (s' : JsonState) : Prop :=
  ∃ fuel, parseObjectElems fuel s = .ok (o, s')

def ArrayParsesTo (i : BitVec 32) (s : JsonState) (e : JsonArrayElem) (s' : JsonState) : Prop :=
  ∃ fuel, parseArrayElems fuel i s = .ok (e, s')

theorem exists_succ_parseValue
    : ParsesTo s v s' ↔ ∃ fuel, parseValue (fuel + 1) s = .ok (v, s') := by
  constructor
  . rintro ⟨fuel, h⟩
    exact ⟨fuel, (parse_succ fuel).1 _ _ _ h⟩
  . rintro ⟨fuel, h⟩
    exact ⟨fuel + 1, h⟩

theorem parsesTo_of_skip (h : skipWhitespace s = .ok t) : ParsesTo s v s' ↔ ParsesTo t v s' := by
  rw [exists_succ_parseValue, exists_succ_parseValue]
  apply exists_congr
  intro fuel
  rw [parseValue_eq_ok, parseValue_eq_ok, h, skipWhitespace_idem h]

theorem exists_skip_of_parsesTo (h : ParsesTo s v s') : ∃ t, skipWhitespace s = .ok t := by
  rw [exists_succ_parseValue] at h
  obtain ⟨fuel, h⟩ := h
  rw [parseValue_eq_ok] at h
  obtain ⟨t, ht, -⟩ := h
  exact ⟨t, ht⟩

/--
One round of the loop of `parse_array`.
-/
theorem arrayParsesTo_iff
    : ArrayParsesTo i s e s'
        ↔ ∃ v t u, ParsesTo s v t ∧ skipWhitespace t = .ok u
          ∧ ((u.peek = .ok 0x5d ∧ u.advance = .ok s' ∧ e = .elem i v .null)
            ∨ (u.peek = .ok 0x2c ∧ ∃ a b n, u.advance = .ok a ∧ a.advance = .ok b
              ∧ ArrayParsesTo (i + 1) b n s' ∧ e = .elem i v n)) := by
  constructor
  . rintro ⟨fuel, h⟩
    have h' := (parse_succ fuel).2.2 _ _ _ _ h
    rw [parseArrayElems_eq_ok] at h'
    obtain ⟨s₁, v, s₂, s₃, h₁, hv, h₃, hend⟩ := h'
    refine ⟨v, s₂, s₃, (parsesTo_of_skip h₁).mpr ⟨fuel, hv⟩, h₃, ?_⟩
    obtain hend | ⟨hd, a, b, n, ha, hb, hn, rfl⟩ := hend
    . exact .inl hend
    . exact .inr ⟨hd, a, b, n, ha, hb, ⟨fuel, hn⟩, rfl⟩
  . rintro ⟨v, t, u, hv, ht, hend⟩
    obtain ⟨s₁, h₁⟩ := exists_skip_of_parsesTo hv
    rw [parsesTo_of_skip h₁] at hv
    obtain ⟨fuel, hv⟩ := hv
    obtain hend | ⟨hd, a, b, n, ha, hb, ⟨fuel', hn⟩, rfl⟩ := hend
    . exact ⟨fuel + 1, parseArrayElems_eq_ok.2 ⟨s₁, v, t, u, h₁, hv, ht, .inl hend⟩⟩
    . refine ⟨max fuel fuel' + 1, parseArrayElems_eq_ok.2 ⟨s₁, v, t, u, h₁, ?_, ht, ?_⟩⟩
      . exact parseValue_of_le hv (Nat.le_max_left _ _)
      . exact .inr ⟨hd, a, b, n, ha, hb, parseArrayElems_of_le hn (Nat.le_max_right _ _), rfl⟩

/--
One round of the loop of `parse_object`.
-/
theorem objectParsesTo_iff
    : ObjectParsesTo s o s'
        ↔ ∃ s₁ key s₂ s₃ s₄ v s₆ s₇, skipWhitespace s = .ok s₁ ∧ parseStringLiteral s₁ = .ok (key, s₂)
          ∧ skipWhitespace s₂ = .ok s₃ ∧ s₃.peek = .ok 0x3a ∧ s₃.advance = .ok s₄ ∧ ParsesTo s₄ v s₆
          ∧ skipWhitespace s₆ = .ok s₇
          ∧ ((s₇.peek = .ok 0x7d ∧ s₇.advance = .ok s' ∧ o = .elem key v .null)
            ∨ (s₇.peek = .ok 0x2c ∧ ∃ a b n, s₇.advance = .ok a ∧ a.advance = .ok b
              ∧ ObjectParsesTo b n s' ∧ o = .elem key v n)) := by
  constructor
  . rintro ⟨fuel, h⟩
    have h' := (parse_succ fuel).2.1 _ _ _ h
    rw [parseObjectElems_eq_ok] at h'
    obtain ⟨s₁, key, s₂, s₃, s₄, s₅, v, s₆, s₇, h₁, hkey, h₃, hc, h₄, h₅, hv, h₇, hend⟩ := h'
    refine ⟨s₁, key, s₂, s₃, s₄, v, s₆, s₇, h₁, hkey, h₃, hc, h₄,
      (parsesTo_of_skip h₅).mpr ⟨fuel, hv⟩, h₇, ?_⟩
    obtain hend | ⟨hd, a, b, n, ha, hb, hn, rfl⟩ := hend
    . exact .inl hend
    . exact .inr ⟨hd, a, b, n, ha, hb, ⟨fuel, hn⟩, rfl⟩
  . rintro ⟨s₁, key, s₂, s₃, s₄, v, s₆, s₇, h₁, hkey, h₃, hc, h₄, hv, h₇, hend⟩
    obtain ⟨s₅, h₅⟩ := exists_skip_of_parsesTo hv
    rw [parsesTo_of_skip h₅] at hv
    obtain ⟨fuel, hv⟩ := hv
    obtain hend | ⟨hd, a, b, n, ha, hb, ⟨fuel', hn⟩, rfl⟩ := hend
    . exact ⟨fuel + 1, parseObjectElems_eq_ok.2
        ⟨s₁, key, s₂, s₃, s₄, s₅, v, s₆, s₇, h₁, hkey, h₃, hc, h₄, h₅, hv, h₇, .inl hend⟩⟩
    . refine ⟨max fuel fuel' + 1, parseObjectElems_eq_ok.2
        ⟨s₁, key, s₂, s₃, s₄, s₅, v, s₆, s₇, h₁, hkey, h₃, hc, h₄, h₅, ?_, h₇, ?_⟩⟩
      . exact parseValue_of_le hv (Nat.le_max_left _ _)
      . exact .inr ⟨hd, a, b, n, ha, hb, parseObjectElems_of_le hn (Nat.le_max_right _ _), rfl⟩

theorem ParsesTo.unique (h : ParsesTo s v s') (h' : ParsesTo s v' t) : v = v' ∧ s' = t := by
  obtain ⟨fuel, h⟩ := h
  obtain ⟨fuel', h'⟩ := h'
  have hmax := parseValue_of_le h (Nat.le_max_left fuel fuel')
  rw [parseValue_of_le h' (Nat.le_max_right fuel fuel')] at hmax
  cases hmax
  exact ⟨rfl, rfl⟩

/--
The words that values are written as.
-/
inductive JsonLiteral : List (BitVec 8) → JsonValue → Prop where
  | true : JsonLiteral [0x74, 0x72, 0x75, 0x65] (.boolean true)
  | false : JsonLiteral [0x66, 0x61, 0x6c, 0x73, 0x65] (.boolean false)
  | null : JsonLiteral [0x6e, 0x75, 0x6c, 0x6c] .null

theorem parseLiteral_eq_ok {str : List (BitVec 8)}
    : parseLiteral s str v = .ok (v', s')
        ↔ str.length < s.text.length ∧ str <+: s.text ∧ v' = v ∧ s' = ⟨s.text.drop str.length, s.after⟩ := by
  unfold parseLiteral
  rw [ite_error_eq_ok, ite_error_eq_ok, not_le, not_not, List.prefix_iff_eq_take, eq_comm (b := str)]
  simp [eq_comm]

theorem parseOther_eq_ok (hc : isspace c = .ok false)
    : parseOther ⟨c :: text, after⟩ = .ok (v, s')
        ↔ ∃ str, JsonLiteral str v ∧ str.length < (c :: text).length ∧ str <+: c :: text
          ∧ s' = ⟨(c :: text).drop str.length, after⟩ := by
  have hunfold : parseOther ⟨c :: text, after⟩ =
      (if c = 0x74 then
        parseLiteral ⟨c :: text, after⟩ [0x74, 0x72, 0x75, 0x65] (.boolean true)
      else if c = 0x66 then
        parseLiteral ⟨c :: text, after⟩ [0x66, 0x61, 0x6c, 0x73, 0x65] (.boolean false)
      else if c = 0x6e then
        parseLiteral ⟨c :: text, after⟩ [0x6e, 0x75, 0x6c, 0x6c] .null
      else
        .error .syntaxErr) := by
    unfold parseOther
    rw [skipWhitespace_of_token hc]
    rfl
  rw [hunfold]
  constructor
  . intro h
    split at h
    . obtain ⟨hlength, hprefix, rfl, rfl⟩ := parseLiteral_eq_ok.1 h
      exact ⟨_, .true, hlength, hprefix, rfl⟩
    . split at h
      . obtain ⟨hlength, hprefix, rfl, rfl⟩ := parseLiteral_eq_ok.1 h
        exact ⟨_, .false, hlength, hprefix, rfl⟩
      . split at h
        . obtain ⟨hlength, hprefix, rfl, rfl⟩ := parseLiteral_eq_ok.1 h
          exact ⟨_, .null, hlength, hprefix, rfl⟩
        . contradiction
  . rintro ⟨str, hliteral, hlength, hprefix, rfl⟩
    cases hliteral <;> obtain ⟨rfl, -⟩ := List.cons_prefix_cons.mp hprefix <;>
      exact parseLiteral_eq_ok.2 ⟨hlength, hprefix, rfl, rfl⟩

theorem parseStringLiteral_quote {r : List (BitVec 8) × JsonState}
    : parseStringLiteral ⟨0x22 :: text, after⟩ = .ok r
        ↔ text ≠ [] ∧ ∃ str rest, copyChars (countEscapedStringLen text) [] text = .ok (str, rest)
          ∧ r = (str, ⟨rest, after⟩) := by
  simp only [parseStringLiteral, bind_eq_ok, ite_error_eq_ok, not_not]
  constructor
  . rintro ⟨t, ht, c, hc, rfl, u, hu, ⟨str, rest⟩, hcopy, heq⟩
    rw [skipWhitespace_of_token rfl] at ht
    cases ht
    obtain ⟨hne, rfl⟩ := advance_eq_ok.mp hu
    cases heq
    exact ⟨hne, str, rest, hcopy, rfl⟩
  . rintro ⟨hne, str, rest, hcopy, rfl⟩
    exact ⟨_, skipWhitespace_of_token rfl, _, rfl, rfl, _, advance_eq_ok.mpr ⟨hne, rfl⟩, (str, rest), hcopy, rfl⟩

theorem parseStringLiteral_of_ne (hc : isspace c = .ok false) (hne : c ≠ 0x22)
    {r : List (BitVec 8) × JsonState}
    : parseStringLiteral ⟨c :: text, after⟩ ≠ .ok r := by
  intro h
  simp only [parseStringLiteral, bind_eq_ok, ite_error_eq_ok, not_not] at h
  obtain ⟨t, ht, d, hd, rfl, -⟩ := h
  rw [skipWhitespace_of_token hc] at ht
  cases ht
  cases hd
  exact hne rfl

theorem parseNumber_eq_ok (hc : isspace c = .ok false) (hnumber : (0x30 ≤ c ∧ c ≤ 0x39) ∨ c = 0x2d)
    : parseNumber ⟨c :: text, after⟩ = .ok (v, s')
        ↔ text ≠ [] ∧ ∃ num, readNumber 0 (if c = 0x2d then text else c :: text) after = .ok (num, s')
          ∧ v = .number (if c = 0x2d then -num else num) := by
  have hdigit : isdigit c = .ok (decide (0x30 ≤ c ∧ c ≤ 0x39)) := by
    have hlt : ¬ 0x80 ≤ c := by
      intro hle
      rw [BitVec.le_def] at hle
      obtain ⟨-, hhigh⟩ | rfl := hnumber
      . rw [BitVec.le_def] at hhigh
        have := Nat.le_trans hle hhigh
        contradiction
      . contradiction
    exact if_neg hlt
  have hlength : ¬ (c :: text).length ≤ 1 ↔ text ≠ [] := by
    cases text <;> simp
  simp only [parseNumber, bind_eq_ok, ite_error_eq_ok, skipWhitespace_of_token hc, peek_cons, hdigit,
    Except.ok.injEq, exists_eq_left', hlength]
  constructor
  . rintro ⟨-, hne, ⟨num, w⟩, hread, heq⟩
    refine ⟨hne, num, ?_⟩
    by_cases hminus : c = 0x2d
    . subst hminus
      cases heq
      exact ⟨hread, rfl⟩
    . rw [decide_eq_false hminus] at hread heq
      rw [if_neg hminus, if_neg hminus]
      cases heq
      exact ⟨hread, rfl⟩
  . rintro ⟨hne, num, hread, rfl⟩
    refine ⟨?_, hne, (num, s'), ?_⟩
    . obtain hrange | rfl := hnumber
      . rw [decide_eq_true hrange]
        simp
      . decide
    . by_cases hminus : c = 0x2d
      . subst hminus
        exact ⟨hread, rfl⟩
      . rw [decide_eq_false hminus]
        rw [if_neg hminus] at hread
        rw [if_neg hminus]
        exact ⟨hread, rfl⟩

theorem parseString_quote
    : parseString ⟨0x22 :: text, after⟩ = .ok (v, s')
        ↔ text ≠ [] ∧ ∃ str rest, copyChars (countEscapedStringLen text) [] text = .ok (str, rest)
          ∧ v = .string str ∧ s' = ⟨rest, after⟩ := by
  simp only [parseString, bind_eq_ok, ite_error_eq_ok, not_not, peek_cons, Except.ok.injEq, exists_eq_left']
  constructor
  . rintro ⟨-, r, hr, heq⟩
    obtain ⟨hne, str, rest, hcopy, rfl⟩ := parseStringLiteral_quote.1 hr
    cases heq
    exact ⟨hne, str, rest, hcopy, rfl, rfl⟩
  . rintro ⟨hne, str, rest, hcopy, rfl, rfl⟩
    exact ⟨trivial, _, parseStringLiteral_quote.2 ⟨hne, str, rest, hcopy, rfl⟩, rfl⟩

/--
What a value starts with decides how it is parsed.
-/
theorem parsesTo_cons (hc : isspace c = .ok false)
    : ParsesTo ⟨c :: text, after⟩ v s'
        ↔ (c = 0x7b ∧ text ≠ [] ∧ ∃ o, ObjectParsesTo ⟨text, after⟩ o s' ∧ v = .object o)
          ∨ (c = 0x5b ∧ text ≠ [] ∧ ∃ e, ArrayParsesTo 0 ⟨text, after⟩ e s' ∧ v = .array e)
          ∨ (c = 0x22 ∧ text ≠ [] ∧ ∃ str rest,
            copyChars (countEscapedStringLen text) [] text = .ok (str, rest) ∧ v = .string str ∧ s' = ⟨rest, after⟩)
          ∨ (((0x30 ≤ c ∧ c ≤ 0x39) ∨ c = 0x2d) ∧ text ≠ []
            ∧ ∃ num, readNumber 0 (if c = 0x2d then text else c :: text) after = .ok (num, s')
              ∧ v = .number (if c = 0x2d then -num else num))
          ∨ ((c = 0x74 ∨ c = 0x66 ∨ c = 0x6e) ∧ ∃ str, JsonLiteral str v ∧ str.length < (c :: text).length
            ∧ str <+: c :: text ∧ s' = ⟨(c :: text).drop str.length, after⟩) := by
  have hobject : ∀ fuel, c = 0x7b → (parseObject (parseObjectElems fuel) ⟨c :: text, after⟩ = .ok (v, s')
      ↔ text ≠ [] ∧ ∃ o, parseObjectElems fuel ⟨text, after⟩ = .ok (o, s') ∧ v = .object o) := by
    rintro fuel rfl
    rw [parseObject_eq_ok]
    constructor
    . rintro ⟨t, ht, -, u, hu, hrest⟩
      rw [skipWhitespace_of_token hc] at ht
      cases ht
      obtain ⟨hne, rfl⟩ := advance_eq_ok.mp hu
      exact ⟨hne, hrest⟩
    . rintro ⟨hne, hrest⟩
      exact ⟨_, skipWhitespace_of_token hc, rfl, _, advance_eq_ok.mpr ⟨hne, rfl⟩, hrest⟩
  have harray : ∀ fuel, c = 0x5b → (parseArray (parseArrayElems fuel 0) ⟨c :: text, after⟩ = .ok (v, s')
      ↔ text ≠ [] ∧ ∃ e, parseArrayElems fuel 0 ⟨text, after⟩ = .ok (e, s') ∧ v = .array e) := by
    rintro fuel rfl
    rw [parseArray_eq_ok]
    constructor
    . rintro ⟨t, ht, -, u, hu, hrest⟩
      rw [skipWhitespace_of_token hc] at ht
      cases ht
      obtain ⟨hne, rfl⟩ := advance_eq_ok.mp hu
      exact ⟨hne, hrest⟩
    . rintro ⟨hne, hrest⟩
      exact ⟨_, skipWhitespace_of_token hc, rfl, _, advance_eq_ok.mpr ⟨hne, rfl⟩, hrest⟩
  rw [exists_succ_parseValue]
  simp only [parseValue_eq_ok, skipWhitespace_of_token hc, Except.ok.injEq, exists_eq_left', peek_cons]
  constructor
  . rintro ⟨fuel, ⟨rfl, h⟩ | ⟨rfl, h⟩ | ⟨rfl, h⟩ | ⟨hnumber, h⟩ | ⟨hother, h⟩⟩
    . obtain ⟨hne, o, ho, rfl⟩ := (hobject fuel rfl).mp h
      exact .inl ⟨rfl, hne, o, ⟨fuel, ho⟩, rfl⟩
    . obtain ⟨hne, e, he, rfl⟩ := (harray fuel rfl).mp h
      exact .inr (.inl ⟨rfl, hne, e, ⟨fuel, he⟩, rfl⟩)
    . exact .inr (.inr (.inl ⟨rfl, parseString_quote.1 h⟩))
    . exact .inr (.inr (.inr (.inl ⟨hnumber, (parseNumber_eq_ok hc hnumber).mp h⟩)))
    . exact .inr (.inr (.inr (.inr ⟨hother, (parseOther_eq_ok hc).mp h⟩)))
  . rintro (⟨rfl, hne, o, ⟨fuel, ho⟩, rfl⟩ | ⟨rfl, hne, e, ⟨fuel, he⟩, rfl⟩ | ⟨rfl, h⟩ | ⟨hnumber, h⟩ | ⟨hother, h⟩)
    . exact ⟨fuel, .inl ⟨rfl, (hobject fuel rfl).mpr ⟨hne, o, ho, rfl⟩⟩⟩
    . exact ⟨fuel, .inr (.inl ⟨rfl, (harray fuel rfl).mpr ⟨hne, e, he, rfl⟩⟩)⟩
    . exact ⟨0, .inr (.inr (.inl ⟨rfl, parseString_quote.2 h⟩))⟩
    . exact ⟨0, .inr (.inr (.inr (.inl ⟨hnumber, (parseNumber_eq_ok hc hnumber).mpr h⟩)))⟩
    . exact ⟨0, .inr (.inr (.inr (.inr ⟨hother, (parseOther_eq_ok hc).mpr h⟩)))⟩

/--
Nothing is parsed behind the text.
-/
theorem not_parsesTo_nil : ¬ ParsesTo ⟨[], after⟩ v s' := by
  rw [exists_succ_parseValue]
  rintro ⟨fuel, h⟩
  obtain ⟨t, ht, c, hc, hcases⟩ := parseValue_eq_ok.mp h
  obtain rfl : ⟨[], after⟩ = t := Except.ok.inj ht
  obtain ⟨-, h⟩ | ⟨-, h⟩ | ⟨-, h⟩ | ⟨-, h⟩ | ⟨-, h⟩ := hcases
  . obtain ⟨t, ht, -, u, hu, -⟩ := parseObject_eq_ok.mp h
    cases ht
    cases hu
  . obtain ⟨t, ht, -, u, hu, -⟩ := parseArray_eq_ok.mp h
    cases ht
    cases hu
  . simp only [parseString, parseStringLiteral, bind_eq_ok, ite_error_eq_ok] at h
    obtain ⟨_, _, _, _, ⟨t, ht, _, _, _, u, hu, _⟩, _⟩ := h
    cases ht
    cases hu
  . simp only [parseNumber, bind_eq_ok, ite_error_eq_ok] at h
    obtain ⟨t, ht, _, _, _, _, _, hlength, _⟩ := h
    cases ht
    exact hlength (Nat.zero_le 1)
  . simp only [parseOther, bind_eq_ok] at h
    obtain ⟨t, ht, d, hd, h⟩ := h
    cases ht
    split at h
    . exact absurd (parseLiteral_eq_ok.1 h).1 (by simp)
    . split at h
      . exact absurd (parseLiteral_eq_ok.1 h).1 (by simp)
      . split at h
        . exact absurd (parseLiteral_eq_ok.1 h).1 (by simp)
        . contradiction

end Emos.Boot
