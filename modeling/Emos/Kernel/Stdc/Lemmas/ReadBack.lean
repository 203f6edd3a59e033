import Emos.Boot.Stdc.Lemmas.Standard
import Emos.Kernel.Stdc.Lemmas.Single

/-!
This module contains that `strtol` reads the numbers that `vsnprintf` prints. The file with `strtol` is the
same in the kernel as in the boot loader.
-/

open Lib Lib.Numeral

namespace Emos.Kernel

def strtol : List (BitVec 8) → Int → BitVec 32 × Option (List (BitVec 8)) := Boot.strtol

/--
The conversions of a `long` without flags, width and precision, of which the `l` may be left out.
-/
def plainFormats : Nat → List (List (BitVec 8))
  | 8 => [[0x25, 0x6f], [0x25, 0x6c, 0x6f]]
  | 10 => [[0x25, 0x64], [0x25, 0x69], [0x25, 0x6c, 0x64], [0x25, 0x6c, 0x69]]
  | 16 => [[0x25, 0x78], [0x25, 0x58], [0x25, 0x6c, 0x78], [0x25, 0x6c, 0x58]]
  | _ => []

/--
The number is printed with a terminating zero, and read again to that zero.
-/
def ReadsBack (len : Nat) (fmt : CString) (args : VaList) (base : Nat) (n : BitVec 32) : Prop :=
  ∃ out, vsnprintf len fmt args = .ok ⟨out ++ [0], BitVec.ofNat 32 out.length⟩ ∧ 0 ∉ out
    ∧ strtol out base = (n, some [])

variable {spec : FmtSpec} {args : VaList} {base len d : Nat} {c : BitVec 8} {str : List (BitVec 8)} {n : BitVec 32}
  {num : BitVec 64} {isSigned : Bool}

theorem digit_hexTable (spec : FmtSpec) (hd : d < 16) : digit (hexTable spec d) = some d := by
  unfold hexTable
  cases spec.has sfLower <;> interval_cases d <;> rfl

theorem isDigit_hexTable (hbase : base ≤ 16) (hd : d < base) : IsDigit base (hexTable spec d) :=
  ⟨d, digit_hexTable spec (Nat.lt_of_lt_of_le hd hbase), hd⟩

/--
Digits that are stored in reverse have the value of the number.
-/
theorem value_reverse_hexTable {digits : List Nat} (h : ∀ d ∈ digits, d < 16)
    : value base (digits.map (hexTable spec)).reverse = Nat.ofDigits base digits := by
  induction digits with
  | nil => rfl
  | cons d digits ih =>
    rw [List.forall_mem_cons] at h
    rw [List.map_cons, List.reverse_cons, value_concat, ih h.2, digit_hexTable spec h.1, Nat.ofDigits_cons,
      Option.getD_some, Nat.mul_comm, Nat.add_comm]

theorem isDigit_of_mem_intDigits (hbase : 2 ≤ spec.base) (hle : spec.base ≤ 16) (hc : c ∈ intDigits spec num)
    : IsDigit spec.base c := by
  unfold intDigits at hc
  split at hc
  . rw [List.mem_singleton] at hc
    subst hc
    exact ⟨0, rfl, by omega⟩
  . obtain ⟨d, hd, rfl⟩ := List.mem_map.mp hc
    exact isDigit_hexTable hle (Nat.digits_lt_base hbase hd)

theorem value_intDigits (hbase : 2 ≤ spec.base) (hle : spec.base ≤ 16)
    : value spec.base (intDigits spec num).reverse = num.toNat := by
  unfold intDigits
  split
  . next hzero =>
    have hdigit : (digit 0x30).getD 0 = 0 := rfl
    rw [hzero, List.reverse_singleton, value, valueFrom_cons, hdigit, Nat.zero_mul, valueFrom_nil]
    rfl
  . rw [value_reverse_hexTable, Nat.ofDigits_digits]
    intro d hd
    exact Nat.lt_of_lt_of_le (Nat.digits_lt_base hbase hd) hle

theorem intDigits_ne_nil (spec : FmtSpec) (num : BitVec 64) : intDigits spec num ≠ [] := by
  unfold intDigits
  split
  . exact List.cons_ne_nil _ _
  . next hne =>
    rw [ne_eq, List.map_eq_nil_iff, Nat.digits_eq_nil_iff_eq_zero]
    intro hzero
    exact hne (BitVec.eq_of_toNat_eq hzero)

theorem not_isX_of_isDigit (hle : base ≤ 16) (h : IsDigit base c) : ¬ Conversion.IsX c := by
  intro hx
  obtain ⟨d, hd, hlt⟩ := h
  have hx : digit c = some 33 := by
    obtain rfl | rfl := hx <;> rfl
  rw [hx] at hd
  cases hd
  omega

/--
Neither a leading zero nor a missing one changes what is read.
-/
theorem skipPrefix_digits (hbase : 2 ≤ base) (hle : base ≤ 16) (hdigits : ∀ c ∈ str, IsDigit base c)
    : ∃ digits, Boot.skipPrefix str base = (digits, base) ∧ (∀ c ∈ digits, IsDigit base c)
        ∧ value base digits = value base str := by
  have hbase0 : base ≠ 0 := by omega
  by_cases hzero : Boot.charAt str = 0x30
  . cases str with
    | nil => exact absurd hzero (by decide)
    | cons c str =>
      have hc : c = 0x30 := hzero
      subst hc
      rw [List.forall_mem_cons] at hdigits
      have hx : ¬ Conversion.IsX (Boot.charAt str) := by
        cases str with
        | nil => decide
        | cons d str => exact not_isX_of_isDigit hle (hdigits.2 d (List.mem_cons_self ..))
      refine ⟨str, ?_, hdigits.2, ?_⟩
      . rw [Boot.skipPrefix_of_zero hx, if_neg hbase0]
      . exact Boot.valueFrom_zero_digit.symm
  . refine ⟨str, ?_, hdigits, rfl⟩
    unfold Boot.skipPrefix
    rw [if_neg hzero]

theorem readDigits_digits (hbase : 0 < base) (hdigits : ∀ c ∈ str, IsDigit base c) (hvalue : value base str < 2 ^ 31)
    : Boot.readDigits base 0 str = some (BitVec.ofNat 32 (value base str), []) := by
  rw [Boot.readDigits_eq (n := 0) rfl (by decide), leading_of_forall hdigits, behind_of_forall hdigits,
    if_pos (Boot.staysPositive_of_lt hbase hvalue)]
  rfl

theorem ne_of_isDigit {b : BitVec 8} (h : IsDigit base c) (hb : digit b = none) : c ≠ b := by
  rintro rfl
  obtain ⟨d, hd, _⟩ := h
  rw [hb] at hd
  contradiction

/--
Digits with or without a minus sign are read to their end.
-/
theorem strtol_digits (negative : Bool) (hbase : 2 ≤ base) (hle : base ≤ 16) (hne : str ≠ [])
    (hdigits : ∀ c ∈ str, IsDigit base c) (hvalue : value base str < 2 ^ 31)
    : strtol ((if negative then [0x2d] else []) ++ str) base
        = (if negative then -BitVec.ofNat 32 (value base str) else BitVec.ofNat 32 (value base str), some []) := by
  have hsign : Boot.skipSign (Boot.skipBlanks ((if negative then [0x2d] else []) ++ str)) = (negative, str) := by
    cases negative with
    | true => rfl
    | false =>
      obtain ⟨c, str, rfl⟩ := List.exists_cons_of_ne_nil hne
      have hc := hdigits c (List.mem_cons_self ..)
      have hblank : Boot.skipBlanks (c :: str) = c :: str := by
        unfold Boot.skipBlanks
        rw [List.dropWhile_cons_of_neg]
        simpa using ne_of_isDigit hc rfl
      change Boot.skipSign (Boot.skipBlanks (c :: str)) = _
      rw [hblank]
      unfold Boot.skipSign Boot.charAt
      rw [List.headD_cons, if_neg (ne_of_isDigit hc rfl), if_neg (ne_of_isDigit hc rfl)]
  obtain ⟨digits, hpfx, hall, hsame⟩ := skipPrefix_digits hbase hle hdigits
  unfold strtol Boot.strtol
  rw [if_neg (by omega), hsign, Int.toNat_natCast]
  dsimp only
  rw [hpfx]
  dsimp only
  rw [readDigits_digits (by omega) hall (by rw [hsame]; exact hvalue), hsame]

/--
Nothing but a minus sign is printed around the digits of a number without flags, width and precision.
-/
theorem intText_plain (num : BitVec 64) (isSigned : Bool) (hwidth : spec.width = 0) (hprecision : spec.precision = 0)
    (hflags : spec.flags = 0 ∨ spec.flags = sfLower)
    : intText spec num isSigned
        = (if isNegative spec num isSigned then [0x2d] else [])
          ++ (intDigits spec (magnitude spec num isSigned)).reverse := by
  have hnone (flags : BitVec 8) (h : sfLower &&& flags = 0) : spec.has flags = false := by
    unfold FmtSpec.has
    obtain hzero | hlower := hflags
    . simp [hzero]
    . simp [hlower, h]
  have hpfx : intPrefix spec = ([], 0) := by
    unfold intPrefix
    simp [hwidth]
  have hsame : { spec with width := 0 } = spec := by rw [← hwidth]
  have hsign (negative : Bool) : intSign spec negative = if negative then [0x2d] else [] := by
    unfold intSign
    rw [hnone (sfSpace ||| sfPlus) (by decide), Bool.or_false]
    split <;> rfl
  have hpad (negative : Bool) (count : Nat) : (intPad spec negative count).toNat = 0 := by
    unfold intPad
    rw [hnone sfZero (by decide), if_neg Bool.false_ne_true, hwidth, hprecision]
    simp
  have hzeroes (count : Nat) : (intPrecision spec - count).toNat = 0 := by
    unfold intPrecision
    rw [hnone sfZero (by decide), if_neg Bool.false_ne_true, hprecision]
    simp
  unfold intText intLayout
  rw [hpfx, hsame, hpad, hzeroes, hsign, hnone sfLeft (by decide)]
  simp

/--
A number without flags, width and precision is stored as it is.
-/
theorem vsnprintf_plain {fmt : CString} {body : List (BitVec 8)} (hfmt : fmt.bytes = 0x25 :: body)
    (hspec : decodeSpec body = (spec, [])) (htype : spec.type ∈ [.int, .long, .uint, .ulong]) (hwidth : spec.width = 0)
    (hprecision : spec.precision = 0) (hflags : spec.flags = 0 ∨ spec.flags = sfLower) (hbase : spec.base ≠ 0)
    (hlen : 24 ≤ len) (hmax : len ≤ intMax)
    : vsnprintf len fmt args
        = (let text := intText spec (fetchNumber spec.type args).1 (fetchNumber spec.type args).2
          .ok ⟨text ++ [0], BitVec.ofNat 32 text.length⟩) := by
  have hIsBase : IsBase spec.base := by
    have h := isBase_decodeSpec body
    rwa [hspec] at h
  have hfield : { intSpec spec args with width := storedWidth len (intSpec spec args).width } = spec := by
    obtain ⟨type, width, flags, base, precision⟩ := spec
    change width = 0 at hwidth
    change precision = 0 at hprecision
    subst hwidth hprecision
    have hstored : storedWidth len 0 = 0 := if_neg (Nat.not_lt_zero len)
    change FmtSpec.mk type (storedWidth len 0) flags base 0 = _
    rw [hstored]
  have hprint : vsnprintf.printSpec len spec args = vsnprintf.printInt len spec args := by
    simp only [List.mem_cons, List.not_mem_nil, or_false] at htype
    unfold vsnprintf.printSpec
    obtain h | h | h | h := htype <;> rw [h]
  have hshort := length_intDigits_le hIsBase
    (magnitude spec (fetchNumber spec.type args).1 (fetchNumber spec.type args).2)
  have hlength : (intText spec (fetchNumber spec.type args).1 (fetchNumber spec.type args).2).length < len := by
    rw [intText_plain _ _ hwidth hprecision hflags, List.length_append, List.length_reverse]
    split
    . rw [List.length_singleton]
      omega
    . rw [List.length_nil]
      omega
  rw [vsnprintf_single body hfmt (by rw [hspec]) (by omega) hmax, hspec, hprint, vsnprintf_printInt, hfield,
    intChars_eq hIsBase, if_neg (fun h => hbase h.1)]
  change Except.ok _ = Except.ok _
  dsimp only
  rw [List.take_of_length_le (Nat.le_of_lt hlength), if_pos hlength]

/--
What is printed for a number is read again.
-/
theorem readsBack_of_magnitude {fmt : CString} {body : List (BitVec 8)} {negative : Bool}
    (hfmt : fmt.bytes = 0x25 :: body) (hspec : decodeSpec body = (spec, []))
    (htype : spec.type ∈ [.int, .long, .uint, .ulong]) (hwidth : spec.width = 0) (hprecision : spec.precision = 0)
    (hflags : spec.flags = 0 ∨ spec.flags = sfLower) (hbase : 2 ≤ spec.base) (hle : spec.base ≤ 16) (hlen : 24 ≤ len)
    (hmax : len ≤ intMax) (hnumber : fetchNumber spec.type args = (num, isSigned))
    (hnegative : isNegative spec num isSigned = negative) (hlt : (magnitude spec num isSigned).toNat < 2 ^ 31)
    (hn : (if negative then -BitVec.ofNat 32 (magnitude spec num isSigned).toNat
      else BitVec.ofNat 32 (magnitude spec num isSigned).toNat) = n)
    : ReadsBack len fmt args spec.base n := by
  have hvalue : value spec.base (intDigits spec (magnitude spec num isSigned)).reverse
      = (magnitude spec num isSigned).toNat := value_intDigits hbase hle
  have hdigits : ∀ c ∈ (intDigits spec (magnitude spec num isSigned)).reverse, IsDigit spec.base c := by
    intro c hc
    exact isDigit_of_mem_intDigits hbase hle (List.mem_reverse.mp hc)
  have hne : (intDigits spec (magnitude spec num isSigned)).reverse ≠ [] := by
    rw [ne_eq, List.reverse_eq_nil_iff]
    exact intDigits_ne_nil _ _
  have hprinted : vsnprintf len fmt args = _ :=
    vsnprintf_plain hfmt hspec htype hwidth hprecision hflags (by omega) hlen hmax
  rw [hnumber] at hprinted
  dsimp only at hprinted
  rw [intText_plain _ _ hwidth hprecision hflags, hnegative] at hprinted
  refine ⟨_, hprinted, ?_, ?_⟩
  . intro hzero
    obtain hsign | hdigit := List.mem_append.mp hzero
    . cases negative with
      | true => exact absurd hsign (by decide)
      | false => exact List.not_mem_nil hsign
    . exact Conversion.not_isDigit_nul (hdigits 0 hdigit)
  . rw [strtol_digits negative hbase hle hne hdigits (by rw [hvalue]; exact hlt), hvalue, hn]

/--
The magnitude that is printed for a `long`.
-/
theorem magnitude_signExtend (n : BitVec 32) (hbase : spec.base = 10)
    : isNegative spec (n.signExtend 64) true = n.msb
        ∧ (magnitude spec (n.signExtend 64) true).toNat = if n.msb then 2 ^ 32 - n.toNat else n.toNat := by
  have hnegative : isNegative spec (n.signExtend 64) true = n.msb := by
    unfold isNegative
    rw [hbase, BitVec.msb_signExtend]
    simp
  refine ⟨hnegative, ?_⟩
  have hextended := BitVec.toNat_signExtend (x := n) (v := 64)
  rw [BitVec.toNat_setWidth] at hextended
  have hlt := n.isLt
  have hmsb := BitVec.msb_eq_decide n
  unfold magnitude
  rw [hnegative]
  cases hsign : n.msb with
  | false =>
    rw [hsign] at hextended
    simp only [Bool.false_eq_true, if_false] at hextended ⊢
    lia
  | true =>
    rw [hsign] at hextended hmsb
    simp only [if_true] at hextended ⊢
    rw [BitVec.toNat_neg, hextended]
    have hge : 2 ^ 31 ≤ n.toNat := by simpa using hmsb.symm
    lia

theorem readsBack_signed {fmt : CString} {body : List (BitVec 8)} (hfmt : fmt.bytes = 0x25 :: body)
    (hspec : decodeSpec body = (spec, [])) (htype : spec.type = .int ∨ spec.type = .long) (hwidth : spec.width = 0)
    (hprecision : spec.precision = 0) (hflags : spec.flags = 0) (hbase : spec.base = 10) (hlen : 24 ≤ len)
    (hmax : len ≤ intMax) (hmin : (args 0).word.setWidth 32 ≠ BitVec.intMin 32)
    : ReadsBack len fmt args 10 ((args 0).word.setWidth 32) := by
  have hnumber : fetchNumber spec.type args = (((args 0).word.setWidth 32).signExtend 64, true) := by
    unfold fetchNumber
    obtain h | h := htype <;> rw [h]
  have htype : spec.type ∈ [.int, .long, .uint, .ulong] := by
    simp only [List.mem_cons, List.not_mem_nil, or_false]
    exact htype.elim .inl fun h => .inr (.inl h)
  generalize (args 0).word.setWidth 32 = n at hmin hnumber
  obtain ⟨hnegative, hmagnitude⟩ := magnitude_signExtend n hbase
  have hmsb := BitVec.msb_eq_decide n
  have hlt := n.isLt
  have hne : n.toNat ≠ 2 ^ 31 := by
    intro h
    exact hmin (BitVec.eq_of_toNat_eq h)
  rw [← hbase]
  refine readsBack_of_magnitude hfmt hspec htype hwidth hprecision (.inl hflags) (by omega) (by omega) hlen hmax
    hnumber hnegative ?_ ?_
  . rw [hmagnitude]
    split
    . next hsign =>
      rw [hsign] at hmsb
      have hge : 2 ^ 31 ≤ n.toNat := by simpa using hmsb.symm
      lia
    . next hsign =>
      have hlow : n.toNat < 2 ^ 31 := by simpa [hsign] using hmsb
      omega
  . rw [hmagnitude]
    apply BitVec.eq_of_toNat_eq
    split
    . rw [BitVec.toNat_neg, BitVec.toNat_ofNat]
      lia
    . rw [BitVec.toNat_ofNat]
      lia

theorem readsBack_unsigned {fmt : CString} {body : List (BitVec 8)} (hfmt : fmt.bytes = 0x25 :: body)
    (hspec : decodeSpec body = (spec, [])) (htype : spec.type = .uint ∨ spec.type = .ulong) (hwidth : spec.width = 0)
    (hprecision : spec.precision = 0) (hflags : spec.flags = 0 ∨ spec.flags = sfLower) (hbase : 2 ≤ spec.base)
    (hle : spec.base ≤ 16) (hlen : 24 ≤ len) (hmax : len ≤ intMax)
    (hnonneg : 0 ≤ ((args 0).word.setWidth 32).toInt)
    : ReadsBack len fmt args spec.base ((args 0).word.setWidth 32) := by
  have hnumber : fetchNumber spec.type args = (((args 0).word.setWidth 32).setWidth 64, false) := by
    unfold fetchNumber
    obtain h | h := htype <;> rw [h]
  have hmagnitude : (magnitude spec (((args 0).word.setWidth 32).setWidth 64) false).toNat
      = ((args 0).word.setWidth 32).toNat := by
    change (((args 0).word.setWidth 32).setWidth 64).toNat = _
    generalize (args 0).word.setWidth 32 = n
    rw [BitVec.toNat_setWidth]
    omega
  have hnegative : isNegative spec (((args 0).word.setWidth 32).setWidth 64) false = false := rfl
  refine readsBack_of_magnitude hfmt hspec ?_ hwidth hprecision hflags hbase hle hlen hmax hnumber hnegative ?_ ?_
  . simp only [List.mem_cons, List.not_mem_nil, or_false]
    exact htype.elim (fun h => .inr (.inr (.inl h))) fun h => .inr (.inr (.inr h))
  . rw [hmagnitude]
    rw [BitVec.toInt_eq_toNat_cond] at hnonneg
    split at hnonneg <;> omega
  . rw [hmagnitude, if_neg Bool.false_ne_true, BitVec.ofNat_toNat, BitVec.setWidth_eq]

theorem vsnprintf_reads_back (base len : Nat) (fmt : CString) (args : VaList) (hfmt : fmt.bytes ∈ plainFormats base)
    (hmin : (args 0).word.setWidth 32 ≠ BitVec.intMin 32)
    (hnonneg : base ≠ 10 → 0 ≤ ((args 0).word.setWidth 32).toInt) (hlen : 24 ≤ len) (hmax : len ≤ intMax)
    : ReadsBack len fmt args base ((args 0).word.setWidth 32) := by
  unfold plainFormats at hfmt
  split at hfmt
  . simp only [List.mem_cons, List.not_mem_nil, or_false] at hfmt
    have hnonneg := hnonneg (by decide)
    obtain h | h := hfmt
    . exact readsBack_unsigned h rfl (.inl rfl) rfl rfl (.inr rfl) (by decide) (by decide) hlen hmax hnonneg
    . exact readsBack_unsigned h rfl (.inr rfl) rfl rfl (.inr rfl) (by decide) (by decide) hlen hmax hnonneg
  . simp only [List.mem_cons, List.not_mem_nil, or_false] at hfmt
    obtain h | h | h | h := hfmt
    . exact readsBack_signed h rfl (.inl rfl) rfl rfl rfl rfl hlen hmax hmin
    . exact readsBack_signed h rfl (.inl rfl) rfl rfl rfl rfl hlen hmax hmin
    . exact readsBack_signed h rfl (.inr rfl) rfl rfl rfl rfl hlen hmax hmin
    . exact readsBack_signed h rfl (.inr rfl) rfl rfl rfl rfl hlen hmax hmin
  . simp only [List.mem_cons, List.not_mem_nil, or_false] at hfmt
    have hnonneg := hnonneg (by decide)
    obtain h | h | h | h := hfmt
    . exact readsBack_unsigned h rfl (.inl rfl) rfl rfl (.inr rfl) (by decide) (by decide) hlen hmax hnonneg
    . exact readsBack_unsigned h rfl (.inl rfl) rfl rfl (.inl rfl) (by decide) (by decide) hlen hmax hnonneg
    . exact readsBack_unsigned h rfl (.inr rfl) rfl rfl (.inr rfl) (by decide) (by decide) hlen hmax hnonneg
    . exact readsBack_unsigned h rfl (.inr rfl) rfl rfl (.inl rfl) (by decide) (by decide) hlen hmax hnonneg
  . contradiction

def minusArgs : VaList := fun _ => ⟨-42, none⟩

/--
`%ld` of -42
-/
theorem vsnprintf_reads_back_minus
    : ReadsBack 24 ⟨[0x25, 0x6c, 0x64], by decide⟩ minusArgs 10 (-42) :=
  vsnprintf_reads_back 10 24 ⟨[0x25, 0x6c, 0x64], by decide⟩ minusArgs (by decide) (by decide) (by decide) (by decide)
    (by decide)

/--
Nothing is stored in a buffer that is longer than `INT_MAX`.
-/
theorem vsnprintf_huge_buffer
    : vsnprintf (2 ^ 31) ⟨[0x25, 0x6c, 0x64], by decide⟩ minusArgs = .ok ⟨[], 0⟩
        ∧ ¬ ReadsBack (2 ^ 31) ⟨[0x25, 0x6c, 0x64], by decide⟩ minusArgs 10 (-42) := by
  have hempty : vsnprintf (2 ^ 31) ⟨[0x25, 0x6c, 0x64], by decide⟩ minusArgs = .ok ⟨[], 0⟩ := if_pos (by decide)
  refine ⟨hempty, ?_⟩
  intro ⟨out, hout, _, _⟩
  rw [hempty] at hout
  have hwritten := congrArg PrintfResult.written (Except.ok.inj hout)
  exact List.append_ne_nil_of_right_ne_nil out (List.cons_ne_nil 0 []) hwritten.symm

end Emos.Kernel
