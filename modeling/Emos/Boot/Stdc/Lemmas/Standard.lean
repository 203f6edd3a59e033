import Emos.Boot.Stdc.Impl.String
import Emos.Lib.Conversion

/-!
This module contains for which strings and bases `strtol` does what the C standard says.
-/

open Lib Lib.Numeral Lib.Conversion

namespace Emos.Boot

/--
The `long` that the C standard has for a number.
-/
def saturate (v : Int) : BitVec 32 :=
  if 2 ^ 31 - 1 < v then
    BitVec.intMax 32
  else if v < -2 ^ 31 then
    BitVec.intMin 32
  else
    BitVec.ofInt 32 v

structure Conforms (base : Nat) (str : List (BitVec 8)) (result : BitVec 32 × Option (List (BitVec 8)))
    : Prop where
  converted : ∀ v rest, IsConversion base str v rest → result = (saturate v, some rest)
  unconverted : (∀ v rest, ¬ StartsWith base str v rest) → result = (0, some str)

/--
None of the numbers that digits behind `n` give one after the other is negative with 32 bits.
-/
def StaysPositive (base n : Nat) (digits : List (BitVec 8)) : Prop :=
  ∀ first ∈ digits.inits, valueFrom base n first % 2 ^ 32 < 2 ^ 31

instance (base n : Nat) (digits : List (BitVec 8)) : Decidable (StaysPositive base n digits) :=
  inferInstanceAs (Decidable (∀ first ∈ _, _))

/--
The digits that are read, and what follows them.
-/
def digitsRead (base : Nat) (s : List (BitVec 8)) : List (BitVec 8) :=
  leading (skipPrefix s base).2 (skipPrefix s base).1

def valueRead (base : Nat) (s : List (BitVec 8)) : Nat := value (skipPrefix s base).2 (digitsRead base s)

def behindRead (base : Nat) (s : List (BitVec 8)) : List (BitVec 8) :=
  behind (skipPrefix s base).2 (skipPrefix s base).1

/--
The digits of a number that is too great happen to end in `LONG_MAX`.
-/
def EndsInMax (base : Nat) (s : List (BitVec 8)) : Prop :=
  StaysPositive (skipPrefix s base).2 0 (digitsRead base s) ∧ valueRead base s % 2 ^ 32 = 2 ^ 31 - 1

instance (base : Nat) (s : List (BitVec 8)) : Decidable (EndsInMax base s) := inferInstanceAs (Decidable (_ ∧ _))

def HasX (s : List (BitVec 8)) : Prop := charAt s = 0x30 ∧ IsX (charAt s.tail)

instance (s : List (BitVec 8)) : Decidable (HasX s) := inferInstanceAs (Decidable (_ ∧ _))

/--
What `strtol` converts as the C standard says: without a number, a string that starts with neither a blank
nor a sign. With one, only blanks come in front of it, it starts with a zero for base 0, it has no `0x`
that does not belong to it, and it has at most 31 bits.
-/
def IsConverted (base : Nat) (str : List (BitVec 8)) : Prop :=
  if numeral base str = [] then
    charAt str ≠ 0x20 ∧ charAt str ≠ 0x2b ∧ charAt str ≠ 0x2d
  else
    skipBlanks str = skipSpaces str ∧ (base = 0 → charAt (unsigned str) = 0x30)
      ∧ (magnitude base str < 2 ^ 31 ∧ (HasX (unsigned str) → HasHex (unsigned str) ∧ (base = 0 ∨ base = 16))
        ∨ 2 ^ 31 ≤ magnitude base str ∧ isNegative str = false ∧ EndsInMax base (unsigned str))

instance (base : Nat) (str : List (BitVec 8)) : Decidable (IsConverted base str) := by
  unfold IsConverted
  infer_instance

variable {base n : Nat} {c : BitVec 8} {s str : List (BitVec 8)} {ret : BitVec 32}

theorem StaysPositive.start {digits : List (BitVec 8)} (h : StaysPositive base n digits) : n % 2 ^ 32 < 2 ^ 31 :=
  h [] (by simp)

theorem StaysPositive.last {digits : List (BitVec 8)} (h : StaysPositive base n digits)
    : valueFrom base n digits % 2 ^ 32 < 2 ^ 31 :=
  h digits (by simp)

theorem staysPositive_nil : StaysPositive base n [] ↔ n % 2 ^ 32 < 2 ^ 31 := by
  simp [StaysPositive]

theorem staysPositive_cons {digits : List (BitVec 8)} : StaysPositive base n (c :: digits)
    ↔ n % 2 ^ 32 < 2 ^ 31 ∧ StaysPositive base (n * base + (digit c).getD 0) digits := by
  unfold StaysPositive
  rw [List.inits_cons, List.forall_mem_cons, List.forall_mem_map]
  rfl

theorem staysPositive_of_lt {digits : List (BitVec 8)} (hbase : 0 < base) (h : value base digits < 2 ^ 31)
    : StaysPositive base 0 digits := by
  intro first hfirst
  obtain ⟨rest, rfl⟩ := (List.mem_inits _ _).mp hfirst
  unfold value at h
  rw [valueFrom_append] at h
  have hle := le_valueFrom (n := valueFrom base 0 first) (l := rest) hbase
  omega

theorem digitOf_eq (c : BitVec 8) : digitOf c = digit c := rfl

/--
All digits are read unless a number is negative with 32 bits on the way.
-/
theorem readDigits_eq (hret : ret.toNat = n % 2 ^ 32) (hn : n % 2 ^ 32 < 2 ^ 31)
    : readDigits base ret str = if StaysPositive base n (leading base str) then
        some (BitVec.ofNat 32 (valueFrom base n (leading base str)), behind base str) else none := by
  have hofNat : ret = BitVec.ofNat 32 n := by
    apply BitVec.eq_of_toNat_eq
    rw [hret, BitVec.toNat_ofNat]
  induction str generalizing n ret with
  | nil =>
    have hpositive : StaysPositive base n (leading base []) := staysPositive_nil.2 hn
    rw [if_pos hpositive, hofNat]
    rfl
  | cons c str ih =>
    by_cases hc : IsDigit base c
    . obtain ⟨d, hd, hlt⟩ := hc
      have hdigit : digit c = some d := hd
      rw [leading_cons_of_pos ⟨d, hd, hlt⟩, behind_cons_of_pos ⟨d, hd, hlt⟩, valueFrom_cons, hdigit,
        Option.getD_some]
      have hvalue : (ret * BitVec.ofNat 32 base + BitVec.ofNat 32 d).toNat = (n * base + d) % 2 ^ 32 := by
        rw [BitVec.toNat_add, BitVec.toNat_mul, BitVec.toNat_ofNat, BitVec.toNat_ofNat, hret, ← Nat.mul_mod,
          ← Nat.add_mod]
      have hmsb : (ret * BitVec.ofNat 32 base + BitVec.ofNat 32 d).msb
          = decide (2 ^ 31 ≤ (n * base + d) % 2 ^ 32) := by
        rw [BitVec.msb_eq_decide, hvalue]
      simp only [readDigits, digitOf_eq, hdigit, hmsb, decide_eq_true_eq]
      rw [if_neg (Nat.not_le.mpr hlt)]
      split
      . next hnegative =>
        rw [if_neg]
        intro hpositive
        rw [staysPositive_cons, hdigit] at hpositive
        exact absurd hpositive.2.start (Nat.not_lt.mpr hnegative)
      . next hpositive =>
        rw [Nat.not_le] at hpositive
        rw [ih hvalue hpositive (BitVec.eq_of_toNat_eq (by rw [hvalue, BitVec.toNat_ofNat]))]
        have hiff : StaysPositive base n (c :: leading base str)
            ↔ StaysPositive base (n * base + d) (leading base str) := by
          rw [staysPositive_cons, hdigit]
          exact and_iff_right hn
        simp only [hiff]
    . have hread : readDigits base ret (c :: str) = some (ret, c :: str) := by
        unfold readDigits
        rw [digitOf_eq]
        cases hdigit : digit c with
        | none => rfl
        | some d =>
          apply if_pos
          apply Nat.le_of_not_lt
          exact fun hlt => hc ⟨d, hdigit, hlt⟩
      rw [hread, leading_cons_of_neg hc, behind_cons_of_neg hc, if_pos (staysPositive_nil.2 hn), hofNat]
      rfl

theorem strtol_eq (h : base = 0 ∨ 2 ≤ base ∧ base ≤ 36)
    : strtol str base
      = if StaysPositive (skipPrefix (skipSign (skipBlanks str)).2 base).2 0
            (digitsRead base (skipSign (skipBlanks str)).2) then
          (BitVec.ofInt 32 (signed (skipSign (skipBlanks str)).1 (valueRead base (skipSign (skipBlanks str)).2)),
            some (behindRead base (skipSign (skipBlanks str)).2))
        else
          (if (skipSign (skipBlanks str)).1 then BitVec.intMin 32 else BitVec.intMax 32, none) := by
  have hbase : ¬ ((base : Int) < 0 ∨ (base : Int) = 1 ∨ (base : Int) > 36) := by omega
  unfold strtol
  rw [if_neg hbase, Int.toNat_natCast]
  dsimp only
  rw [readDigits_eq (n := 0) rfl (by decide)]
  generalize skipSign (skipBlanks str) = s
  unfold valueRead digitsRead behindRead
  by_cases hpositive : StaysPositive (skipPrefix s.2 base).2 0
      (leading (skipPrefix s.2 base).2 (skipPrefix s.2 base).1)
  . simp only [if_pos hpositive]
    unfold signed
    cases s.1 with
    | false => simp [value]
    | true => simp [value, BitVec.ofInt_neg]
  . simp only [if_neg hpositive]

theorem skipSign_eq (s : List (BitVec 8)) : skipSign s = splitSign s := rfl

theorem length_skipSign_le (s : List (BitVec 8)) : (skipSign s).2.length ≤ s.length := by
  unfold skipSign
  split
  . simp
  . split
    . simp
    . exact Nat.le_refl _

/--
Only a string that starts with neither a blank nor a sign is left as it is.
-/
theorem skip_eq_self_iff
    : (skipSign (skipBlanks str)).2 = str ↔ charAt str ≠ 0x20 ∧ charAt str ≠ 0x2b ∧ charAt str ≠ 0x2d := by
  cases str with
  | nil => decide
  | cons c str =>
    by_cases hblank : c = 0x20
    . refine iff_of_false ?_ (fun h => h.1 hblank)
      intro heq
      have hlength := length_skipSign_le (skipBlanks (c :: str))
      have hle : (skipBlanks (c :: str)).length ≤ str.length := by
        unfold skipBlanks
        rw [List.dropWhile_cons_of_pos (by simpa using hblank)]
        exact List.length_dropWhile_le _ _
      rw [heq, List.length_cons] at hlength
      omega
    . have hskip : skipBlanks (c :: str) = c :: str := by
        unfold skipBlanks
        rw [List.dropWhile_cons_of_neg (by simpa using hblank)]
      rw [hskip]
      by_cases hplus : c = 0x2b
      . subst hplus
        refine iff_of_false ?_ (fun h => h.2.1 rfl)
        exact (List.cons_ne_self _ _).symm
      . by_cases hminus : c = 0x2d
        . subst hminus
          refine iff_of_false ?_ (fun h => h.2.2 rfl)
          exact (List.cons_ne_self _ _).symm
        . refine iff_of_true ?_ ⟨hblank, hplus, hminus⟩
          unfold skipSign charAt
          rw [List.headD_cons, if_neg hplus, if_neg hminus]

theorem skipBlanks_cases (str : List (BitVec 8)) : skipBlanks str = skipSpaces str
    ∨ ∃ c s, skipBlanks str = c :: s ∧ IsSpace c ∧ skipSpaces str = skipSpaces s := by
  induction str with
  | nil => exact .inl rfl
  | cons c str ih =>
    by_cases hblank : c = 0x20
    . have hspace : IsSpace c := .inl hblank
      have hblanks : skipBlanks (c :: str) = skipBlanks str := by
        unfold skipBlanks
        rw [List.dropWhile_cons_of_pos (by simpa using hblank)]
      have hspaces : skipSpaces (c :: str) = skipSpaces str := by
        unfold skipSpaces
        rw [List.dropWhile_cons_of_pos (by simpa using hspace)]
      rw [hblanks, hspaces]
      exact ih
    . have hblanks : skipBlanks (c :: str) = c :: str := by
        unfold skipBlanks
        rw [List.dropWhile_cons_of_neg (by simpa using hblank)]
      rw [hblanks]
      by_cases hspace : IsSpace c
      . refine .inr ⟨c, str, rfl, hspace, ?_⟩
        unfold skipSpaces
        rw [List.dropWhile_cons_of_pos (by simpa using hspace)]
      . refine .inl ?_
        unfold skipSpaces
        rw [List.dropWhile_cons_of_neg (by simpa using hspace)]

/--
Nothing is read where no digit follows the blanks and the sign.
-/
theorem strtol_of_stuck (h : base = 0 ∨ 2 ≤ base ∧ base ≤ 36)
    (hzero : charAt (skipSign (skipBlanks str)).2 ≠ 0x30) (hdigits : leading base (skipSign (skipBlanks str)).2 = [])
    : strtol str base = (0, some (skipSign (skipBlanks str)).2) := by
  rw [strtol_eq h]
  have hskip : skipPrefix (skipSign (skipBlanks str)).2 base = ((skipSign (skipBlanks str)).2, base) :=
    if_neg hzero
  unfold valueRead behindRead digitsRead
  rw [hskip]
  dsimp only
  rw [hdigits, if_pos (staysPositive_nil.2 (by decide)), behind_eq_self hdigits]
  unfold signed
  split <;> rfl

/--
White space that is no blank stops everything.
-/
theorem strtol_of_space (h : base = 0 ∨ 2 ≤ base ∧ base ≤ 36) (hs : skipBlanks str = c :: s) (hc : IsSpace c)
    : strtol str base = (0, some (c :: s)) := by
  have hsign : skipSign (skipBlanks str) = (false, c :: s) := by
    have hplus : c ≠ 0x2b := by
      rintro rfl
      exact absurd hc (by decide)
    have hminus : c ≠ 0x2d := by
      rintro rfl
      exact absurd hc (by decide)
    rw [hs]
    unfold skipSign charAt
    rw [List.headD_cons, if_neg hplus, if_neg hminus]
  have hstuck := @strtol_of_stuck base str h
  rw [hsign] at hstuck
  apply hstuck
  . have hzero : c ≠ 0x30 := by
      rintro rfl
      exact absurd hc (by decide)
    exact hzero
  . exact leading_cons_of_neg (not_isDigit_of_isSpace hc)

/--
A number starts with no zero if nothing of it is converted.
-/
theorem leading_radix_ne_nil (h : base = 0 ∨ 2 ≤ base) (hzero : charAt s = 0x30)
    : leading (radix base s).1 (radix base s).2 ≠ [] := by
  by_cases hhex : HasHex s ∧ (base = 0 ∨ base = 16)
  . obtain ⟨x, t, rfl, _, hne⟩ := hhex.1.exists_eq
    rw [radix_of_hasHex hhex.1 hhex.2]
    exact hne
  . cases s with
    | nil => contradiction
    | cons c s =>
      have hc : c = 0x30 := hzero
      subst hc
      by_cases hbase : base = 0
      . subst hbase
        rw [radix_octal (fun hyes => hhex ⟨hyes, .inl rfl⟩)]
        dsimp only
        rw [leading_cons_of_pos (by decide)]
        exact List.cons_ne_nil _ _
      . rw [radix_of_ne_zero hhex hbase]
        dsimp only
        rw [leading_cons_of_pos (isDigit_zero (by omega))]
        exact List.cons_ne_nil _ _

theorem leading_eq_nil_of_radix (h : leading (radix base s).1 (radix base s).2 = []) : leading base s = [] := by
  by_cases hbase : base = 0
  . subst hbase
    cases s with
    | nil => rfl
    | cons c s => exact leading_cons_of_neg not_isDigit_zero
  . by_cases hhex : HasHex s ∧ (base = 0 ∨ base = 16)
    . obtain ⟨x, t, rfl, _, hne⟩ := hhex.1.exists_eq
      rw [radix_of_hasHex hhex.1 hhex.2] at h
      exact absurd h hne
    . rwa [radix_of_ne_zero hhex hbase] at h

/--
Where there is no number, what follows the blanks and the sign is not converted.
-/
theorem strtol_of_numeral_eq_nil (h : base = 0 ∨ 2 ≤ base ∧ base ≤ 36) (hnil : numeral base str = [])
    : strtol str base = (0, some (skipSign (skipBlanks str)).2) := by
  obtain heq | ⟨c, s, hs, hc, _⟩ := skipBlanks_cases str
  . have hunsigned : (skipSign (skipBlanks str)).2 = unsigned str := by
      rw [heq]
      rfl
    apply strtol_of_stuck h
    . rw [hunsigned]
      intro hzero
      exact leading_radix_ne_nil (by omega) hzero hnil
    . rw [hunsigned]
      exact leading_eq_nil_of_radix hnil
  . rw [strtol_of_space h hs hc, hs]
    have hplus : ¬ c = 0x2b := by
      rintro rfl
      exact absurd hc (by decide)
    have hminus : ¬ c = 0x2d := by
      rintro rfl
      exact absurd hc (by decide)
    unfold skipSign charAt
    rw [List.headD_cons, if_neg hplus, if_neg hminus]

theorem length_remainder_lt (hne : numeral base str ≠ []) : (remainder base str).length < (unsigned str).length := by
  obtain ⟨u, hconstant, hu⟩ := startsWith_remainder hne
  obtain ⟨c, t, b, rfl, _⟩ := hconstant.head
  rw [hu]
  simp

theorem length_unsigned_le (str : List (BitVec 8)) : (unsigned str).length ≤ (skipSpaces str).length :=
  length_skipSign_le (skipSpaces str)

theorem skipPrefix_of_hasX (x : BitVec 8) (hx : IsX x)
    : skipPrefix (0x30 :: x :: s) base = (s, if base = 0 then 16 else base) := by
  have hhead : charAt (0x30 :: x :: s) = 0x30 := rfl
  have hnot : ¬ (charAt (x :: s) ≠ 0x78 ∧ charAt (x :: s) ≠ 0x58) := by
    rintro ⟨hlower, hupper⟩
    obtain hx | hx := hx
    . exact hlower hx
    . exact hupper hx
  unfold skipPrefix
  rw [if_pos hhead, List.tail_cons, if_neg hnot]
  rfl

theorem skipPrefix_of_zero (hx : ¬ IsX (charAt s))
    : skipPrefix (0x30 :: s) base = (s, if base = 0 then 8 else base) := by
  have hhead : charAt (0x30 :: s) = 0x30 := rfl
  have hyes : charAt s ≠ 0x78 ∧ charAt s ≠ 0x58 := not_or.mp hx
  unfold skipPrefix
  rw [if_pos hhead, List.tail_cons, if_pos hyes]

theorem valueFrom_zero_digit : valueFrom base 0 (0x30 :: s) = valueFrom base 0 s := by
  rw [valueFrom_cons, Nat.zero_mul]
  rfl

/--
The base that a number without an `x` is in.
-/
theorem radix_zero (hhex : ¬ (HasHex (0x30 :: s) ∧ (base = 0 ∨ base = 16)))
    : radix base (0x30 :: s) = (if base = 0 then 8 else base, 0x30 :: s) := by
  by_cases hbase : base = 0
  . subst hbase
    exact radix_octal (fun hyes => hhex ⟨hyes, .inl rfl⟩)
  . rw [radix_of_ne_zero hhex hbase, if_neg hbase]

/--
What is read is the number without leading zeros, the number without a `0x` in a base that has the digit `x`, or
what follows a `0x` of which only the zero is a number.
-/
theorem read_cases (h : base = 0 ∨ 2 ≤ base) (hzero : base = 0 → charAt s = 0x30)
    : (HasX s → HasHex s ∧ (base = 0 ∨ base = 16)) ∧ 0 < (skipPrefix s base).2
          ∧ valueRead base s = value (radix base s).1 (leading (radix base s).1 (radix base s).2)
          ∧ behindRead base s = behind (radix base s).1 (radix base s).2
      ∨ ¬ (HasX s → HasHex s ∧ (base = 0 ∨ base = 16)) ∧ 0 < (skipPrefix s base).2
          ∧ valueRead base s < value (radix base s).1 (leading (radix base s).1 (radix base s).2)
          ∧ behindRead base s = behind (radix base s).1 (radix base s).2
      ∨ ¬ (HasX s → HasHex s ∧ (base = 0 ∨ base = 16))
          ∧ value (radix base s).1 (leading (radix base s).1 (radix base s).2) = 0
          ∧ (behindRead base s).length < (behind (radix base s).1 (radix base s).2).length := by
  have hpositive : 0 < if base = 0 then 8 else base := by split <;> omega
  unfold valueRead behindRead digitsRead
  by_cases hx : HasX s
  . obtain ⟨x, t, rfl⟩ : ∃ x t, s = 0x30 :: x :: t := by
      match s with
      | [] => exact absurd hx (by decide)
      | [c] =>
        have hno : ¬ IsX 0 := by decide
        exact absurd hx.2 hno
      | c :: x :: t =>
        have hc : c = 0x30 := hx.1
        exact ⟨x, t, by rw [hc]⟩
    have hisX : IsX x := hx.2
    rw [skipPrefix_of_hasX x hisX]
    dsimp only
    by_cases hhex : HasHex (0x30 :: x :: t) ∧ (base = 0 ∨ base = 16)
    . have hsixteen : (if base = 0 then 16 else base) = 16 := by
        split <;> lia
      rw [radix_of_hasHex hhex.1 hhex.2, hsixteen]
      exact .inl ⟨fun _ => hhex, by decide, rfl, rfl⟩
    . rw [radix_zero hhex]
      dsimp only
      have hnot : ¬ (HasX (0x30 :: x :: t) → HasHex (0x30 :: x :: t) ∧ (base = 0 ∨ base = 16)) :=
        fun hyes => hhex (hyes hx)
      rw [leading_cons_of_pos (isDigit_zero hpositive), behind_cons_of_pos (isDigit_zero hpositive)]
      by_cases hle : (if base = 0 then 8 else base) ≤ 33
      . refine .inr (.inr ⟨hnot, ?_, ?_⟩)
        . rw [leading_cons_of_neg (not_isDigit_of_isX hisX hle)]
          exact valueFrom_zero_digit
        . rw [behind_cons_of_neg (not_isDigit_of_isX hisX hle), List.length_cons]
          exact Nat.lt_succ_of_le (List.length_dropWhile_le _ _)
      . have hbase : base ≠ 0 := by
          rintro rfl
          exact hle (by decide)
        simp only [if_neg hbase] at hle ⊢
        have hdigit : IsDigit base x := isDigit_of_isX hisX (Nat.lt_of_not_le hle)
        have hthirty : digit x = some 33 := by
          obtain rfl | rfl := hisX <;> decide
        rw [leading_cons_of_pos hdigit, behind_cons_of_pos hdigit]
        refine .inr (.inl ⟨hnot, by omega, ?_, rfl⟩)
        unfold value
        rw [valueFrom_zero_digit, valueFrom_cons, hthirty]
        apply value_lt_valueFrom
        . omega
        . simp
  . refine .inl ⟨fun hyes => absurd hyes hx, ?_⟩
    have hhex : ¬ (HasHex s ∧ (base = 0 ∨ base = 16)) := by
      rintro ⟨⟨hhead, hsecond, _⟩, _⟩
      exact hx ⟨hhead, hsecond⟩
    by_cases hhead : charAt s = 0x30
    . cases s with
      | nil => contradiction
      | cons c s =>
        have hc : c = 0x30 := hhead
        subst hc
        have hisX : ¬ IsX (charAt s) := fun hyes => hx ⟨rfl, hyes⟩
        rw [skipPrefix_of_zero hisX, radix_zero hhex]
        dsimp only
        rw [leading_cons_of_pos (isDigit_zero hpositive), behind_cons_of_pos (isDigit_zero hpositive)]
        unfold value
        rw [valueFrom_zero_digit]
        exact ⟨hpositive, rfl, rfl⟩
    . have hbase : base ≠ 0 := fun hbase => hhead (hzero hbase)
      have hskip : skipPrefix s base = (s, base) := if_neg hhead
      rw [hskip, radix_of_ne_zero hhex hbase]
      exact ⟨by omega, rfl, rfl⟩

theorem toInt_saturate_of_lt {v : Int} (hlow : -2 ^ 31 ≤ v) (hhigh : v < 2 ^ 31) : (saturate v).toInt = v := by
  unfold saturate
  rw [if_neg (by omega), if_neg (by omega), BitVec.toInt_ofInt]
  exact Int.bmod_eq_of_le_mul_two (by omega) (by omega)

theorem toNat_ofInt_natCast (n : Nat) : (BitVec.ofInt 32 (n : Int)).toNat = n % 2 ^ 32 := by
  rw [BitVec.ofInt_natCast, BitVec.toNat_ofNat]

/--
A number of at most 31 bits is right if and only if all of it is read, and a greater one only if it is positive
and happens to end in `LONG_MAX`.
-/
theorem ofInt_signed_eq_saturate_iff {negative : Bool} {r v : Nat} (hr : r % 2 ^ 32 < 2 ^ 31) (hle : r ≤ v)
    : BitVec.ofInt 32 (signed negative r) = saturate (signed negative v)
        ↔ v < 2 ^ 31 ∧ r = v ∨ 2 ^ 31 ≤ v ∧ negative = false ∧ r % 2 ^ 32 = 2 ^ 31 - 1 := by
  by_cases hv : v < 2 ^ 31
  . have hsmall : BitVec.ofInt 32 (signed negative r) = saturate (signed negative r) := by
      unfold saturate
      rw [if_neg, if_neg]
      . unfold signed
        split <;> omega
      . unfold signed
        split <;> omega
    rw [hsmall]
    constructor
    . intro heq
      have htoInt := congrArg BitVec.toInt heq
      rw [toInt_saturate_of_lt, toInt_saturate_of_lt] at htoInt
      . refine .inl ⟨hv, ?_⟩
        unfold signed at htoInt
        split at htoInt <;> omega
      all_goals
        unfold signed
        split <;> omega
    . rintro (⟨_, rfl⟩ | ⟨hnot, _⟩)
      . rfl
      . exact absurd hv (Nat.not_lt.mpr hnot)
  . have hge : 2 ^ 31 ≤ v := Nat.le_of_not_lt hv
    rw [or_iff_right (fun h => hv h.1), and_iff_right hge]
    cases negative with
    | false =>
      have hmax : saturate (signed false v) = BitVec.intMax 32 := by
        have hsigned : signed false v = (v : Int) := rfl
        rw [hsigned]
        exact if_pos (by omega)
      have hsigned : signed false r = (r : Int) := rfl
      rw [hmax, BitVec.toNat_eq, hsigned, toNat_ofInt_natCast]
      simp
    | true =>
      refine iff_of_false ?_ (by simp)
      have hmin : saturate (signed true v) = BitVec.intMin 32 := by
        have hsigned : signed true v = -(v : Int) := rfl
        unfold saturate
        rw [hsigned, if_neg (by omega)]
        split
        . rfl
        . next hno =>
          have heq : -(v : Int) = -2 ^ 31 := by lia
          rw [heq]
          decide
      have hsigned : signed true r = -(r : Int) := rfl
      rw [hmin, hsigned, BitVec.ofInt_neg, ← BitVec.toNat_inj, BitVec.toNat_neg, toNat_ofInt_natCast]
      have hconst : (BitVec.intMin 32).toNat = 2 ^ 31 := by decide
      rw [hconst]
      lia

theorem conforms_of_numeral_eq_nil (hnil : numeral base str = []) (result : BitVec 32 × Option (List (BitVec 8)))
    : Conforms base str result ↔ result = (0, some str) := by
  have hnone : conversion base str = none := if_pos hnil
  have hno := conversion_eq_none_iff.mp hnone
  constructor
  . exact fun h => h.unconverted hno
  . intro h
    exact ⟨fun v rest hstart => absurd hstart.1 (hno v rest), fun _ => h⟩

theorem conforms_of_numeral_ne_nil (hne : numeral base str ≠ []) (result : BitVec 32 × Option (List (BitVec 8)))
    : Conforms base str result
        ↔ result = (saturate (signed (isNegative str) (magnitude base str)), some (remainder base str)) := by
  have hsome : conversion base str = some (signed (isNegative str) (magnitude base str), remainder base str) :=
    if_neg hne
  have hconversion := conversion_eq_some_iff.mp hsome
  constructor
  . exact fun h => h.converted _ _ hconversion
  . intro h
    refine ⟨?_, fun hno => absurd hconversion.1 (hno _ _)⟩
    intro v rest hrest
    have heq := conversion_eq_some_iff.mpr hrest
    rw [hsome] at heq
    cases heq
    exact h

/--
The same for what is read with a prefix that is skipped.
-/
theorem outcome_iff {negative : Bool} {max : BitVec 32} {v : Nat} {rest : List (BitVec 8)}
    (hbase : 0 < (skipPrefix s base).2) (hle : valueRead base s ≤ v) (hrest : behindRead base s = rest)
    : (if StaysPositive (skipPrefix s base).2 0 (digitsRead base s) then
          (BitVec.ofInt 32 (signed negative (valueRead base s)), some (behindRead base s))
        else (max, none)) = (saturate (signed negative v), some rest)
      ↔ v < 2 ^ 31 ∧ valueRead base s = v ∨ 2 ^ 31 ≤ v ∧ negative = false ∧ EndsInMax base s := by
  unfold EndsInMax
  by_cases hpositive : StaysPositive (skipPrefix s base).2 0 (digitsRead base s)
  . rw [if_pos hpositive, hrest, Prod.mk.injEq, and_iff_left rfl, and_iff_right hpositive]
    exact ofInt_signed_eq_saturate_iff hpositive.last hle
  . rw [if_neg hpositive]
    refine iff_of_false (by simp) ?_
    rintro (⟨hlt, heq⟩ | ⟨_, _, hyes, _⟩)
    . apply hpositive
      apply staysPositive_of_lt hbase
      rw [← heq] at hlt
      exact hlt
    . exact hpositive hyes

/--
`strtol` does what the C standard says if and only if it converts the string.
-/
theorem strtol_conforms_iff (base : Nat) (str : List (BitVec 8)) (h : base = 0 ∨ 2 ≤ base ∧ base ≤ 36)
    : Conforms base str (strtol str base) ↔ IsConverted base str := by
  unfold IsConverted
  by_cases hnil : numeral base str = []
  . rw [if_pos hnil, conforms_of_numeral_eq_nil hnil, strtol_of_numeral_eq_nil h hnil, ← skip_eq_self_iff]
    simp
  . rw [if_neg hnil, conforms_of_numeral_ne_nil hnil]
    have hlength := length_remainder_lt hnil
    -- the string stays where it is
    have hstuck {s : List (BitVec 8)} (hs : (remainder base str).length < s.length) (v : BitVec 32)
        : ¬ (0, some s) = (v, some (remainder base str)) := by
      intro heq
      have hs' : s = remainder base str := by simpa using congrArg Prod.snd heq
      rw [hs'] at hs
      exact Nat.lt_irrefl _ hs
    obtain heq | ⟨c, s, hs, hc, hspaces⟩ := skipBlanks_cases str
    . rw [and_iff_right heq]
      have hsign : skipSign (skipBlanks str) = (isNegative str, unsigned str) := by
        rw [heq]
        rfl
      by_cases hzero : base = 0 → charAt (unsigned str) = 0x30
      . rw [and_iff_right hzero, strtol_eq h, hsign]
        dsimp only
        have hcases := read_cases (by lia) hzero
        change _ ∧ _ ∧ _ = magnitude base str ∧ _ = remainder base str
          ∨ _ ∧ _ ∧ _ < magnitude base str ∧ _ = remainder base str
          ∨ _ ∧ magnitude base str = 0 ∧ _ < (remainder base str).length at hcases
        obtain ⟨hx, hbase, hvalue, hrest⟩ | ⟨hx, hbase, hvalue, hrest⟩ | ⟨hx, hvalue, hrest⟩ := hcases
        . rw [outcome_iff hbase (Nat.le_of_eq hvalue) hrest, and_iff_left hx, and_iff_left hvalue]
        . rw [outcome_iff hbase (Nat.le_of_lt hvalue) hrest]
          have hne : valueRead base (unsigned str) ≠ magnitude base str := Nat.ne_of_lt hvalue
          rw [or_iff_right (fun hsmall => hne hsmall.2), or_iff_right (fun hsmall => hx hsmall.2)]
        . refine iff_of_false ?_ ?_
          . split
            . intro heq
              have hbehind : behindRead base (unsigned str) = remainder base str := by
                simpa using congrArg Prod.snd heq
              rw [hbehind] at hrest
              exact Nat.lt_irrefl _ hrest
            . simp
          . rintro (⟨_, hyes⟩ | ⟨hge, _⟩)
            . exact hx hyes
            . rw [hvalue] at hge
              contradiction
      . rw [Classical.not_imp] at hzero
        obtain ⟨rfl, hzero⟩ := hzero
        refine iff_of_false ?_ (fun hright => hzero (hright.1 rfl))
        have hleading : leading 0 (unsigned str) = [] := by
          cases unsigned str with
          | nil => rfl
          | cons c s => exact leading_cons_of_neg not_isDigit_zero
        have hresult := @strtol_of_stuck 0 str (.inl rfl)
        rw [hsign] at hresult
        rw [hresult hzero hleading]
        exact hstuck hlength _
    . refine iff_of_false ?_ ?_
      . rw [strtol_of_space h hs hc]
        apply hstuck
        have hunsigned := length_unsigned_le str
        have hle : (skipSpaces s).length ≤ s.length := List.length_dropWhile_le _ _
        rw [hspaces] at hunsigned
        rw [List.length_cons]
        omega
      . rintro ⟨heq, _⟩
        have hle : (skipSpaces s).length ≤ s.length := List.length_dropWhile_le _ _
        rw [hs, hspaces] at heq
        rw [← heq, List.length_cons] at hle
        omega

theorem strtol_conforms_fortyTwo
    : (10 = 0 ∨ 2 ≤ 10 ∧ 10 ≤ 36)
        ∧ Conforms 10 [0x20, 0x2d, 0x34, 0x32, 0x6b] (strtol [0x20, 0x2d, 0x34, 0x32, 0x6b] 10) :=
  ⟨by decide, (strtol_conforms_iff 10 [0x20, 0x2d, 0x34, 0x32, 0x6b] (by decide)).mpr (by decide)⟩

/--
In base 10, the number in `0x1` is the zero, and `x1` is not converted.
-/
theorem strtol_nonconforming
    : ¬ ∀ (base : Nat) (str : List (BitVec 8)), base = 0 ∨ 2 ≤ base ∧ base ≤ 36
        → Conforms base str (strtol str base) := by
  intro h
  have hconforms := h 10 [0x30, 0x78, 0x31] (by decide)
  have hresult := hconforms.converted 0 [0x78, 0x31] (conversion_eq_some_iff.mp (by decide))
  exact absurd hresult (by decide)

end Emos.Boot
