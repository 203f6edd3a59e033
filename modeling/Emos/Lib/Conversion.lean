import Emos.Lib.Numeral

/-!
This module contains which start of a string the C standard takes for a number, and the value that it
gives it: `Subject` says what a number looks like and `IsConversion` that the longest one is taken.
`conversion` computes it.
-/

namespace Lib

namespace Conversion

open Numeral

def IsSpace (c : BitVec 8) : Prop := c = 0x20 ∨ 0x09 ≤ c ∧ c ≤ 0x0d

instance (c : BitVec 8) : Decidable (IsSpace c) := inferInstanceAs (Decidable (_ ∨ _))

def IsNumeral (base : Nat) (s : List (BitVec 8)) : Prop := s ≠ [] ∧ ∀ c ∈ s, IsDigit base c

def IsX (c : BitVec 8) : Prop := c = 0x78 ∨ c = 0x58

instance (c : BitVec 8) : Decidable (IsX c) := inferInstanceAs (Decidable (_ ∨ _))

/--
What a number without its sign looks like. Base 0 stands for the base that its first characters tell.
-/
inductive Constant : Nat → List (BitVec 8) → Nat → Prop where
  | digits {base s} (hbase : base ≠ 0) (h : IsNumeral base s) : Constant base s (value base s)
  | hexadecimal {base x s} (hbase : base = 0 ∨ base = 16) (hx : IsX x) (h : IsNumeral 16 s)
      : Constant base (0x30 :: x :: s) (value 16 s)
  | octal {s} (h : IsNumeral 8 (0x30 :: s)) : Constant 0 (0x30 :: s) (value 8 (0x30 :: s))
  | decimal {c s} (hc : c ≠ 0x30) (h : IsNumeral 10 (c :: s)) : Constant 0 (c :: s) (value 10 (c :: s))

inductive Subject (base : Nat) : List (BitVec 8) → Int → Prop where
  | unsigned {s n} (h : Constant base s n) : Subject base s n
  | plus {s n} (h : Constant base s n) : Subject base (0x2b :: s) n
  | minus {s n} (h : Constant base s n) : Subject base (0x2d :: s) (-n)

/--
There is a number behind white space.
-/
def StartsWith (base : Nat) (str : List (BitVec 8)) (v : Int) (rest : List (BitVec 8)) : Prop :=
  ∃ spaces subject, str = spaces ++ subject ++ rest ∧ (∀ c ∈ spaces, IsSpace c) ∧ Subject base subject v

/--
The longest number that there is.
-/
def IsConversion (base : Nat) (str : List (BitVec 8)) (v : Int) (rest : List (BitVec 8)) : Prop :=
  StartsWith base str v rest ∧ ∀ v' rest', StartsWith base str v' rest' → rest.length ≤ rest'.length

/--
The base of a number, and its digits with what follows them.
-/
def radix (base : Nat) (s : List (BitVec 8)) : Nat × List (BitVec 8) :=
  if s.headD 0 = 0x30 ∧ IsX (s.tail.headD 0) ∧ IsDigit 16 (s.tail.tail.headD 0) ∧ (base = 0 ∨ base = 16) then
    (16, s.tail.tail)
  else if base = 0 then
    (if s.headD 0 = 0x30 then 8 else 10, s)
  else
    (base, s)

def skipSpaces (str : List (BitVec 8)) : List (BitVec 8) := str.dropWhile (IsSpace ·)

/--
Whether a minus sign comes first, and what follows the sign.
-/
def splitSign (s : List (BitVec 8)) : Bool × List (BitVec 8) :=
  if s.headD 0 = 0x2b then
    (false, s.tail)
  else if s.headD 0 = 0x2d then
    (true, s.tail)
  else
    (false, s)

def isNegative (str : List (BitVec 8)) : Bool := (splitSign (skipSpaces str)).1

/--
What follows the white space and the sign.
-/
def unsigned (str : List (BitVec 8)) : List (BitVec 8) := (splitSign (skipSpaces str)).2

/--
The digits that are converted.
-/
def numeral (base : Nat) (str : List (BitVec 8)) : List (BitVec 8) :=
  leading (radix base (unsigned str)).1 (radix base (unsigned str)).2

/--
What the digits stand for.
-/
def magnitude (base : Nat) (str : List (BitVec 8)) : Nat := value (radix base (unsigned str)).1 (numeral base str)

/--
What follows the digits.
-/
def remainder (base : Nat) (str : List (BitVec 8)) : List (BitVec 8) :=
  behind (radix base (unsigned str)).1 (radix base (unsigned str)).2

def signed (negative : Bool) (n : Nat) : Int := if negative then -n else n

def conversion (base : Nat) (str : List (BitVec 8)) : Option (Int × List (BitVec 8)) :=
  if numeral base str = [] then
    none
  else
    some (signed (isNegative str) (magnitude base str), remainder base str)

variable {base b n : Nat} {c x : BitVec 8} {s t rest str : List (BitVec 8)} {v : Int}

theorem isDigit_char {x : BitVec 8} (h : x.toNat < 0x30 ∨ 0x39 < x.toNat ∧ x.toNat < 0x41
    ∨ 0x5a < x.toNat ∧ x.toNat < 0x61 ∨ 0x7a < x.toNat) : ¬ IsDigit base x := by
  rintro ⟨d, hd, _⟩
  unfold digit at hd
  rw [if_neg (by bv_omega), if_neg (by bv_omega), if_neg (by bv_omega)] at hd
  contradiction

theorem isDigit_zero (h : 0 < base) : IsDigit base 0x30 := ⟨0, rfl, h⟩

theorem not_isDigit_nul : ¬ IsDigit base 0 := isDigit_char (by decide)

theorem not_isDigit_of_isSpace (h : IsSpace c) : ¬ IsDigit base c := by
  apply isDigit_char
  obtain rfl | ⟨hlow, hhigh⟩ := h
  . decide
  . rw [BitVec.le_def] at hlow hhigh
    simp at hlow hhigh
    omega

theorem not_isDigit_of_isX (h : IsX x) (hle : base ≤ 33) : ¬ IsDigit base x := by
  rintro ⟨d, hd, hlt⟩
  obtain rfl | rfl := h
  . have h33 : digit 0x78 = some 33 := by decide
    rw [h33] at hd
    cases hd
    omega
  . have h33 : digit 0x58 = some 33 := by decide
    rw [h33] at hd
    cases hd
    omega

theorem isDigit_of_isX (h : IsX x) (hlt : 33 < base) : IsDigit base x := by
  obtain rfl | rfl := h
  . exact ⟨33, by decide, hlt⟩
  . exact ⟨33, by decide, hlt⟩

/--
A number starts with a digit.
-/
theorem Constant.head (h : Constant base s n) : ∃ c t b, s = c :: t ∧ IsDigit b c := by
  cases h with
  | digits hbase h =>
    obtain ⟨c, t, rfl⟩ := List.exists_cons_of_ne_nil h.1
    exact ⟨c, t, base, rfl, h.2 c List.mem_cons_self⟩
  | hexadecimal hbase hx h => exact ⟨0x30, _, 16, rfl, by decide⟩
  | octal h => exact ⟨0x30, _, 8, rfl, by decide⟩
  | decimal hc h => exact ⟨_, _, 10, rfl, h.2 _ List.mem_cons_self⟩

/--
Whether a number in base 16 follows a `0x`.
-/
def HasHex (s : List (BitVec 8)) : Prop :=
  s.headD 0 = 0x30 ∧ IsX (s.tail.headD 0) ∧ IsDigit 16 (s.tail.tail.headD 0)

instance (s : List (BitVec 8)) : Decidable (HasHex s) := inferInstanceAs (Decidable (_ ∧ _))

theorem HasHex.exists_eq (h : HasHex s) : ∃ x t, s = 0x30 :: x :: t ∧ IsX x ∧ leading 16 t ≠ [] := by
  obtain ⟨hzero, hx, hdigit⟩ := h
  match s with
  | [] => contradiction
  | [c] =>
    have hnot : ¬ IsX 0 := by decide
    exact absurd hx hnot
  | [_, _] => exact absurd hdigit not_isDigit_nul
  | c :: x :: d :: t =>
    have hc : c = 0x30 := hzero
    have hd : IsDigit 16 d := hdigit
    refine ⟨x, d :: t, by rw [hc], hx, ?_⟩
    rw [leading_cons_of_pos hd]
    exact List.cons_ne_nil _ _

theorem hasHex_cons (hx : IsX x) (h : IsNumeral 16 t) : HasHex (0x30 :: x :: (t ++ rest)) := by
  obtain ⟨hne, hdigits⟩ := h
  obtain ⟨c, t, rfl⟩ := List.exists_cons_of_ne_nil hne
  exact ⟨rfl, hx, hdigits c List.mem_cons_self⟩

theorem radix_of_hasHex (h : HasHex s) (hbase : base = 0 ∨ base = 16) : radix base s = (16, s.tail.tail) :=
  if_pos ⟨h.1, h.2.1, h.2.2, hbase⟩

theorem radix_of_not_hasHex (h : ¬ (HasHex s ∧ (base = 0 ∨ base = 16)))
    : radix base s = if base = 0 then (if s.headD 0 = 0x30 then 8 else 10, s) else (base, s) := by
  apply if_neg
  rintro ⟨hzero, hx, hdigit, hbase⟩
  exact h ⟨⟨hzero, hx, hdigit⟩, hbase⟩

theorem radix_of_ne_zero (h : ¬ (HasHex s ∧ (base = 0 ∨ base = 16))) (hbase : base ≠ 0)
    : radix base s = (base, s) := by
  rw [radix_of_not_hasHex h, if_neg hbase]

theorem radix_octal (h : ¬ HasHex (0x30 :: s)) : radix 0 (0x30 :: s) = (8, 0x30 :: s) := by
  rw [radix_of_not_hasHex (fun hhex => h hhex.1), if_pos rfl]
  rfl

theorem radix_decimal (h : s.headD 0 ≠ 0x30) : radix 0 s = (10, s) := by
  rw [radix_of_not_hasHex (fun hhex => h hhex.1.1), if_pos rfl, if_neg h]

/--
The digits that are found are a number.
-/
theorem constant_radix (h : leading (radix base s).1 (radix base s).2 ≠ [])
    : ∃ u, s = u ++ behind (radix base s).1 (radix base s).2
        ∧ Constant base u (value (radix base s).1 (leading (radix base s).1 (radix base s).2)) := by
  by_cases hhex : HasHex s ∧ (base = 0 ∨ base = 16)
  . obtain ⟨x, t, rfl, hx, _⟩ := hhex.1.exists_eq
    rw [radix_of_hasHex hhex.1 hhex.2] at h ⊢
    dsimp only [List.tail_cons] at h ⊢
    refine ⟨0x30 :: x :: leading 16 t, ?_, ?_⟩
    . rw [List.cons_append, List.cons_append, leading_append_behind]
    . exact .hexadecimal hhex.2 hx ⟨h, fun c hc => isDigit_of_mem_leading hc⟩
  . by_cases hbase : base = 0
    . subst hbase
      have hnot : ¬ HasHex s := fun hyes => hhex ⟨hyes, .inl rfl⟩
      cases s with
      | nil =>
        rw [radix_decimal (by decide)] at h
        contradiction
      | cons c s =>
        by_cases hc : c = 0x30
        . subst hc
          rw [radix_octal hnot] at h ⊢
          refine ⟨_, (leading_append_behind _ _).symm, ?_⟩
          have hfirst := leading_cons_of_pos (l := s) (show IsDigit 8 0x30 by decide)
          dsimp only
          rw [hfirst]
          refine .octal ⟨List.cons_ne_nil _ _, ?_⟩
          rw [← hfirst]
          exact fun c hc => isDigit_of_mem_leading hc
        . have hhead : (c :: s).headD 0 ≠ 0x30 := hc
          rw [radix_decimal hhead] at h ⊢
          refine ⟨_, (leading_append_behind _ _).symm, ?_⟩
          have hdigit : IsDigit 10 c := by
            by_contra hno
            exact h (leading_cons_of_neg hno)
          have hfirst := leading_cons_of_pos (l := s) hdigit
          dsimp only
          rw [hfirst]
          refine .decimal hc ⟨List.cons_ne_nil _ _, ?_⟩
          rw [← hfirst]
          exact fun c hc => isDigit_of_mem_leading hc
    . rw [radix_of_ne_zero hhex hbase] at h ⊢
      exact ⟨_, (leading_append_behind _ s).symm, .digits hbase ⟨h, fun c hc => isDigit_of_mem_leading hc⟩⟩

/--
Digits that end in front of the `x` are not longer than the ones behind it.
-/
theorem length_behind_hex_le (h : HasHex (t ++ rest)) (hdigits : ∀ c ∈ t, IsDigit b c) (hb : b ≤ 33)
    : (behind 16 (t ++ rest).tail.tail).length ≤ rest.length := by
  obtain ⟨x, u, heq, hx, _⟩ := h.exists_eq
  have hle : (behind 16 u).length ≤ u.length := List.length_dropWhile_le _ _
  rw [heq]
  dsimp only [List.tail_cons]
  match t with
  | [] =>
    rw [List.nil_append] at heq
    rw [heq, List.length_cons, List.length_cons]
    omega
  | [_] =>
    rw [List.singleton_append, List.cons.injEq] at heq
    rw [heq.2, List.length_cons]
    omega
  | _ :: y :: t =>
    simp only [List.cons_append, List.cons.injEq] at heq
    have hy : IsDigit b y := hdigits y (by simp)
    rw [heq.2.1] at hy
    exact absurd hy (not_isDigit_of_isX hx hb)

/--
The digits that are found are the longest number.
-/
theorem Constant.le_radix (h : Constant base t n)
    : leading (radix base (t ++ rest)).1 (radix base (t ++ rest)).2 ≠ []
        ∧ (behind (radix base (t ++ rest)).1 (radix base (t ++ rest)).2).length ≤ rest.length := by
  have hfound {b : Nat} (hb : b ≤ 33) (hdigits : ∀ c ∈ t, IsDigit b c) (hhex : HasHex (t ++ rest))
      (hbase : base = 0 ∨ base = 16)
      : leading (radix base (t ++ rest)).1 (radix base (t ++ rest)).2 ≠ []
        ∧ (behind (radix base (t ++ rest)).1 (radix base (t ++ rest)).2).length ≤ rest.length := by
    rw [radix_of_hasHex hhex hbase]
    refine ⟨?_, length_behind_hex_le hhex hdigits hb⟩
    obtain ⟨x, u, heq, _, hne⟩ := hhex.exists_eq
    rw [heq]
    exact hne
  cases h with
  | digits hbase h =>
    by_cases hhex : HasHex (t ++ rest) ∧ (base = 0 ∨ base = 16)
    . have hle : base ≤ 33 := by omega
      exact hfound hle h.2 hhex.1 hhex.2
    . rw [radix_of_ne_zero hhex hbase]
      exact ⟨leading_ne_nil h.2 h.1, length_behind_le h.2⟩
  | hexadecimal hbase hx h =>
    have hhex : HasHex (0x30 :: _ :: (_ ++ rest)) := hasHex_cons hx h
    simp only [List.cons_append]
    rw [radix_of_hasHex hhex hbase]
    exact ⟨leading_ne_nil h.2 h.1, length_behind_le h.2⟩
  | @octal s h =>
    by_cases hhex : HasHex (0x30 :: s ++ rest)
    . exact hfound (by decide) h.2 hhex (.inl rfl)
    . rw [List.cons_append] at hhex ⊢
      rw [radix_octal hhex, ← List.cons_append]
      exact ⟨leading_ne_nil h.2 h.1, length_behind_le h.2⟩
  | @decimal c s hc h =>
    have hhead : (c :: s ++ rest).headD 0 ≠ 0x30 := hc
    rw [radix_decimal hhead]
    exact ⟨leading_ne_nil h.2 h.1, length_behind_le h.2⟩

theorem Constant.unique {m : Nat} (hn : Constant base s n) (hm : Constant base s m) : n = m := by
  have hnot {b : Nat} {x : BitVec 8} {t : List (BitVec 8)} (hx : IsX x) (hb : b ≤ 33)
      (h : IsNumeral b (0x30 :: x :: t)) : False :=
    not_isDigit_of_isX hx hb (h.2 x (by simp))
  cases hn with
  | digits hbase h =>
    cases hm with
    | digits _ _ => rfl
    | hexadecimal hsixteen hx _ => exact (hnot hx (by omega) h).elim
    | octal _ => contradiction
    | decimal _ _ => contradiction
  | hexadecimal hsixteen hx h =>
    cases hm with
    | digits _ h => exact (hnot hx (by omega) h).elim
    | hexadecimal _ _ _ => rfl
    | octal h => exact (hnot hx (by decide) h).elim
    | decimal hc _ => contradiction
  | octal h =>
    cases hm with
    | digits hbase _ => contradiction
    | hexadecimal _ hx _ => exact (hnot hx (by decide) h).elim
    | octal _ => rfl
    | decimal hc _ => contradiction
  | decimal hc h =>
    cases hm with
    | digits hbase _ => contradiction
    | hexadecimal _ _ _ => contradiction
    | octal _ => contradiction
    | decimal _ _ => rfl

theorem skipSpaces_append {spaces : List (BitVec 8)} (h : ∀ c ∈ spaces, IsSpace c) (hc : ¬ IsSpace c)
    : skipSpaces (spaces ++ c :: s) = c :: s := by
  unfold skipSpaces
  induction spaces with
  | nil => rw [List.nil_append, List.dropWhile_cons_of_neg (by simpa using hc)]
  | cons d spaces ih =>
    rw [List.forall_mem_cons] at h
    rw [List.cons_append, List.dropWhile_cons_of_pos (by simpa using h.1)]
    exact ih h.2

theorem exists_spaces (str : List (BitVec 8))
    : ∃ spaces, str = spaces ++ skipSpaces str ∧ ∀ c ∈ spaces, IsSpace c := by
  refine ⟨str.takeWhile (IsSpace ·), List.takeWhile_append_dropWhile.symm, ?_⟩
  intro c hc
  simpa using List.mem_takeWhile_imp hc

/--
The number behind the white space and the sign is what decides.
-/
theorem startsWith_iff : StartsWith base str v rest
    ↔ ∃ u n, Constant base u n ∧ unsigned str = u ++ rest ∧ v = signed (isNegative str) n := by
  unfold unsigned isNegative
  constructor
  . rintro ⟨spaces, subject, rfl, hspaces, hsubject⟩
    rw [List.append_assoc]
    cases hsubject with
    | unsigned h =>
      obtain ⟨c, t, b, rfl, hc⟩ := h.head
      have hspace : ¬ IsSpace c := fun hspace => not_isDigit_of_isSpace hspace hc
      have hplus : c ≠ 0x2b := by
        rintro rfl
        exact isDigit_char (by decide) hc
      have hminus : c ≠ 0x2d := by
        rintro rfl
        exact isDigit_char (by decide) hc
      rw [List.cons_append, skipSpaces_append hspaces hspace]
      refine ⟨_, _, h, ?_, ?_⟩
      . unfold splitSign
        rw [List.headD_cons, if_neg hplus, if_neg hminus]
        rfl
      . unfold splitSign
        rw [List.headD_cons, if_neg hplus, if_neg hminus]
        rfl
    | plus h =>
      rw [List.cons_append, skipSpaces_append hspaces (by decide)]
      exact ⟨_, _, h, rfl, rfl⟩
    | minus h =>
      rw [List.cons_append, skipSpaces_append hspaces (by decide)]
      exact ⟨_, _, h, rfl, rfl⟩
  . rintro ⟨u, n, h, hrest, rfl⟩
    obtain ⟨spaces, hstr, hspaces⟩ := exists_spaces str
    generalize skipSpaces str = s at hrest hstr ⊢
    unfold splitSign at hrest ⊢
    split at hrest
    . next hplus =>
      rw [if_pos hplus]
      cases s with
      | nil => contradiction
      | cons c t =>
        have hc : c = 0x2b := hplus
        have ht : t = u ++ rest := hrest
        subst hc ht hstr
        refine ⟨spaces, 0x2b :: u, ?_, hspaces, .plus h⟩
        rw [List.append_assoc, List.cons_append]
    . next hplus =>
      rw [if_neg hplus]
      split at hrest
      . next hminus =>
        rw [if_pos hminus]
        cases s with
        | nil => contradiction
        | cons c t =>
          have hc : c = 0x2d := hminus
          have ht : t = u ++ rest := hrest
          subst hc ht hstr
          refine ⟨spaces, 0x2d :: u, ?_, hspaces, .minus h⟩
          rw [List.append_assoc, List.cons_append]
      . next hminus =>
        rw [if_neg hminus]
        have hs : s = u ++ rest := hrest
        subst hs hstr
        exact ⟨spaces, u, (List.append_assoc _ _ _).symm, hspaces, .unsigned h⟩

theorem startsWith_remainder (h : numeral base str ≠ [])
    : ∃ u, Constant base u (magnitude base str) ∧ unsigned str = u ++ remainder base str := by
  obtain ⟨u, hu, hconstant⟩ := constant_radix h
  exact ⟨u, hconstant, hu⟩

/--
What is computed is the conversion of the C standard.
-/
theorem conversion_eq_some_iff : conversion base str = some (v, rest) ↔ IsConversion base str v rest := by
  constructor
  . intro h
    unfold conversion at h
    split at h
    . contradiction
    . next hne =>
      cases h
      obtain ⟨u, hconstant, hu⟩ := startsWith_remainder hne
      refine ⟨startsWith_iff.2 ⟨u, _, hconstant, hu, rfl⟩, ?_⟩
      intro v' rest' hstart
      obtain ⟨u', n', hconstant', hu', _⟩ := startsWith_iff.1 hstart
      unfold remainder
      rw [hu']
      exact hconstant'.le_radix.2
  . rintro ⟨hstart, hlongest⟩
    obtain ⟨u, n, hconstant, hu, rfl⟩ := startsWith_iff.1 hstart
    have hradix := @Constant.le_radix base n u rest hconstant
    obtain ⟨hne, hle⟩ := hradix
    rw [← hu] at hne hle
    obtain ⟨u', hconstant', hu'⟩ := startsWith_remainder hne
    have hge := hlongest _ _ (startsWith_iff.2 ⟨u', _, hconstant', hu', rfl⟩)
    have hlength : rest.length = (remainder base str).length := Nat.le_antisymm hge hle
    rw [hu] at hu'
    obtain ⟨rfl, hrest⟩ := List.append_inj' hu' hlength
    have hnumeral : numeral base str ≠ [] := hne
    unfold conversion
    rw [if_neg hnumeral, hconstant.unique hconstant', ← hrest]

theorem conversion_eq_none_iff : conversion base str = none ↔ ∀ v rest, ¬ StartsWith base str v rest := by
  constructor
  . intro h v rest hstart
    obtain ⟨u, n, hconstant, hu, rfl⟩ := startsWith_iff.1 hstart
    have hne := (@Constant.le_radix base n u rest hconstant).1
    rw [← hu] at hne
    change numeral base str ≠ [] at hne
    unfold conversion at h
    rw [if_neg hne] at h
    contradiction
  . intro h
    unfold conversion
    by_contra hnone
    rw [ite_eq_left_iff, Classical.not_imp] at hnone
    obtain ⟨u, hconstant, hu⟩ := startsWith_remainder hnone.1
    exact h _ _ (startsWith_iff.2 ⟨u, _, hconstant, hu, rfl⟩)

end Conversion

end Lib
