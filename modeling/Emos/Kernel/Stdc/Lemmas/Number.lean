import Emos.Kernel.Stdc.Impl.Spec
import Emos.Kernel.Stdc.Impl.Vsnprintf
import Mathlib.Data.Nat.Digits.Lemmas

/-!
This module contains what a conversion leaves of the format and of the arguments, and how both functions print a
number: what is stored in a buffer is the first part of what is emitted.
-/

open Lib

namespace Emos.Kernel

variable {spec : FmtSpec} {args : VaList} {c : BitVec 8} {fmt : List (BitVec 8)}

theorem length_decodeFlags_le (flags : BitVec 8) (fmt : List (BitVec 8))
    : (decodeFlags flags fmt).2.length ≤ fmt.length := by
  fun_induction decodeFlags flags fmt <;> grind

theorem length_decodeNumber_le {w : Nat} (n : BitVec w) (fmt : List (BitVec 8))
    : (decodeNumber n fmt).2.length ≤ fmt.length := by
  fun_induction decodeNumber n fmt <;> grind

theorem length_decodeWidth_le (fmt : List (BitVec 8)) : (decodeWidth fmt).2.length ≤ fmt.length := by
  fun_cases decodeWidth fmt with
  | case1 => exact Nat.le_refl _
  | case2 => exact Nat.le_succ _
  | case3 => exact length_decodeNumber_le _ _

theorem length_decodePrecision_le (fmt : List (BitVec 8)) : (decodePrecision fmt).2.length ≤ fmt.length := by
  fun_cases decodePrecision fmt with
  | case1 => exact Nat.le_refl _
  | case2 => exact Nat.zero_le _
  | case3 rest =>
    change rest.length ≤ rest.length + 2
    omega
  | case4 d rest => exact Nat.le_succ_of_le (length_decodeNumber_le (0 : BitVec 16) (d :: rest))
  | case5 => exact Nat.le_refl _

theorem length_decodeLength_le (fmt : List (BitVec 8)) : (decodeLength fmt).2.length ≤ fmt.length := by
  fun_cases decodeLength fmt <;> grind

theorem length_decodeSpec_le (fmt : List (BitVec 8)) : (decodeSpec fmt).2.length ≤ fmt.length := by
  have h₁ := length_decodeFlags_le 0 fmt
  have h₂ := length_decodeWidth_le (decodeFlags 0 fmt).2
  have h₃ := length_decodePrecision_le (decodeWidth (decodeFlags 0 fmt).2).2
  have h₄ := length_decodeLength_le (decodePrecision (decodeWidth (decodeFlags 0 fmt).2).2).2
  have hle := Nat.le_trans h₄ (Nat.le_trans h₃ (Nat.le_trans h₂ h₁))
  unfold decodeSpec
  dsimp only
  split
  . exact Nat.zero_le _
  . next d rest heq =>
    rw [heq, List.length_cons] at hle
    split
    . exact hle
    . exact Nat.le_of_succ_le hle

/--
A base that is not set is zero.
-/
def IsBase (base : Nat) : Prop := base = 0 ∨ base = 8 ∨ base = 10 ∨ base = 16

theorem forall_mem_ite {α : Type} {p : Prop} [Decidable p] {P : α → Prop} {x y : Option α} (hx : ∀ a ∈ x, P a)
    (hy : ∀ a ∈ y, P a)
    : ∀ a ∈ (if p then x else y), P a := by
  split
  . exact hx
  . exact hy

theorem isBase_decodeSpecifier (hbase : spec.base = 0)
    : ∀ spec' ∈ decodeSpecifier spec c, IsBase spec'.base := by
  unfold decodeSpecifier
  repeat' apply forall_mem_ite
  all_goals simp [IsBase, hbase]

theorem isBase_decodeSpec (fmt : List (BitVec 8)) : IsBase (decodeSpec fmt).1.base := by
  unfold decodeSpec
  dsimp only
  split
  . exact .inl rfl
  . split
    . exact .inl rfl
    . next spec hspec => exact isBase_decodeSpecifier rfl spec hspec

/--
The buffer has room for the digits of a number that is less than a power of the base.
-/
theorem storeDigits_eq {room num : Nat} (hbase : 2 ≤ spec.base) (h : num < spec.base ^ room)
    : storeDigits spec room num = .ok ((Nat.digits spec.base num).map (hexTable spec)) := by
  induction room generalizing num with
  | zero =>
    obtain rfl : num = 0 := by
      rw [Nat.pow_zero] at h
      omega
    rw [storeDigits, if_pos rfl, Nat.digits_zero]
    rfl
  | succ room ih =>
    by_cases hzero : num = 0
    . subst hzero
      rw [storeDigits, if_pos rfl, Nat.digits_zero]
      rfl
    . have hlt : num / spec.base < spec.base ^ room := by
        apply Nat.div_lt_of_lt_mul
        rwa [Nat.pow_succ, Nat.mul_comm] at h
      have hdigits : Nat.digits spec.base num = num % spec.base :: Nat.digits spec.base (num / spec.base) :=
        Nat.digits_def' hbase (Nat.pos_of_ne_zero hzero)
      rw [storeDigits, if_neg hzero, if_neg (by omega), ih hlt, hdigits, List.map_cons]
      rfl

theorem storeDigits_zero {room : Nat} : storeDigits spec room 0 = .ok [] := by
  cases room <;> exact if_pos rfl

theorem storeDigits_divide {room num : Nat} (hbase : spec.base = 0) (h : num ≠ 0)
    : storeDigits spec room num = .error .divide := by
  cases room <;> rw [storeDigits, if_neg h, if_pos hbase]

/--
No base that is set needs more than 22 digits.
-/
theorem storeDigits_of_isBase (num : BitVec 64) (hbase : IsBase spec.base)
    : storeDigits spec 22 num.toNat
        = if spec.base = 0 ∧ num ≠ 0 then .error .divide else
            .ok ((Nat.digits spec.base num.toNat).map (hexTable spec)) := by
  have hlt := num.isLt
  by_cases hzero : spec.base = 0
  . by_cases hnum : num = 0
    . subst hnum
      rw [if_neg (fun h => h.2 rfl), BitVec.ofNat_eq_ofNat, BitVec.toNat_ofNat, Nat.zero_mod, storeDigits_zero,
        Nat.digits_zero]
      rfl
    . rw [if_pos ⟨hzero, hnum⟩]
      apply storeDigits_divide hzero
      intro h
      exact hnum (BitVec.eq_of_toNat_eq h)
  . rw [if_neg (fun h => hzero h.1)]
    have height : 8 ≤ spec.base := by
      unfold IsBase at hbase
      lia
    apply storeDigits_eq (by omega)
    calc num.toNat < 2 ^ 64 := hlt
      _ ≤ 8 ^ 22 := by decide
      _ ≤ spec.base ^ 22 := Nat.pow_le_pow_left height 22

/--
The arguments that are left after a conversion which fetches one.
-/
def restArgs (spec : FmtSpec) (args : VaList) : VaList := (printNothing spec args).2

def widthArgs (spec : FmtSpec) (args : VaList) : VaList := if spec.width = widthArg then args.next else args

def precArgs (spec : FmtSpec) (args : VaList) : VaList := if spec.precision = precArg then args.next else args

theorem next_precArgs_widthArgs : (precArgs spec (widthArgs spec args)).next = restArgs spec args := by
  unfold restArgs printNothing precArgs widthArgs
  split <;> split <;> rfl

theorem precArgs_widthArgs_next : precArgs spec (widthArgs spec args.next) = restArgs spec args := rfl

/--
The width and the precision of a conversion, of which the first argument is the one of `args`.
-/
def fieldWidth (spec : FmtSpec) (args : VaList) : BitVec 24 :=
  if spec.width = widthArg then args.int.setWidth 24 else spec.width

def fieldPrecision (spec : FmtSpec) (args : VaList) : BitVec 16 :=
  if spec.precision = precArg then (widthArgs spec args).int.setWidth 16 else spec.precision

end Emos.Kernel

namespace Emos.Kernel

variable {spec : FmtSpec} {args : VaList} {len : Nat} {num : BitVec 64} {isSigned negative : Bool}
  {rbuf l l' : List (BitVec 8)}

def isNegative (spec : FmtSpec) (num : BitVec 64) (isSigned : Bool) : Bool :=
  isSigned && spec.base = 10 && num.msb

def magnitude (spec : FmtSpec) (num : BitVec 64) (isSigned : Bool) : BitVec 64 :=
  if isNegative spec num isSigned then -num else num

def intSign (spec : FmtSpec) (negative : Bool) : List (BitVec 8) :=
  if negative || spec.has (sfSpace ||| sfPlus) then
    [if negative then 0x2d else if spec.has sfSpace then 0x20 else 0x2b]
  else
    []

/--
The precision of a number, which is the width if the number is padded with zeroes.
-/
def intPrecision (spec : FmtSpec) : Int :=
  if spec.has sfZero then (BitVec.ofInt 16 (max spec.width.toInt spec.precision.toInt)).toInt else spec.precision.toInt

def intPad (spec : FmtSpec) (negative : Bool) (count : Nat) : Int :=
  (if spec.has sfZero then 0 else spec.width.toInt - max spec.precision.toInt count) - (intSign spec negative).length

/--
The characters around the digits of a number, of which the last one comes first in `rbuf`.
-/
def intLayout (spec : FmtSpec) (negative : Bool) (rbuf : List (BitVec 8)) : List (BitVec 8) :=
  let pad := List.replicate (intPad spec negative rbuf.length).toNat 0x20
  let zeroes := List.replicate (intPrecision spec - rbuf.length).toNat 0x30
  intSign spec negative ++ (if spec.has sfLeft then [] else pad) ++ zeroes ++ rbuf.reverse
    ++ (if spec.has sfLeft then pad else [])

theorem vcprintf_doPrintInt
    : vcprintf.doPrintInt num spec isSigned
        = storeDigits spec 22 (magnitude spec num isSigned).toNat >>= fun digits =>
            .ok (intLayout spec (isNegative spec num isSigned) (if digits = [] then [0x30] else digits)) := by
  unfold vcprintf.doPrintInt intLayout intPrecision intPad
  simp only [apply_ite BitVec.toInt]
  rfl

theorem take_append_sub : (l ++ l').take len = l.take len ++ l'.take (len - (l.take len).length) := by
  rw [List.take_append, List.length_take]
  congr 2
  lia

theorem fill_eq (count : Int) (len : Nat) (ch : BitVec 8)
    : vsnprintf.fill count len ch = (List.replicate count.toNat ch).take len := by
  unfold vsnprintf.fill
  rw [List.take_replicate, Nat.min_comm]

/--
The stores of `do_print_int`, of which each one is left out when there is no room.
-/
theorem take_intLayout (hlen : 0 < len)
    : (intLayout spec negative rbuf).take len
        = (let padLen := intPad spec negative rbuf.length
          let sign := intSign spec negative
          let len := len - sign.length
          let padLeft := if spec.has sfLeft then [] else vsnprintf.fill padLen len 0x20
          let len := len - padLeft.length
          let zeroes := vsnprintf.fill (intPrecision spec - rbuf.length) len 0x30
          let len := len - zeroes.length
          let body := rbuf.reverse.take len
          let len := len - body.length
          let padRight := if spec.has sfLeft then vsnprintf.fill padLen len 0x20 else []
          sign ++ padLeft ++ zeroes ++ body ++ padRight) := by
  have hsign : (intSign spec negative).take len = intSign spec negative := by
    apply List.take_of_length_le
    unfold intSign
    split
    . exact hlen
    . exact Nat.zero_le _
  unfold intLayout
  cases spec.has sfLeft with
  | true =>
    simp only [if_true, List.append_nil, fill_eq, List.append_assoc, List.length_nil, Nat.sub_zero]
    rw [take_append_sub, hsign, take_append_sub, take_append_sub]
  | false =>
    simp only [Bool.false_eq_true, if_false, List.append_nil, fill_eq, List.append_assoc]
    rw [take_append_sub, hsign, take_append_sub, take_append_sub]

theorem vsnprintf_doPrintInt
    : vsnprintf.doPrintInt len num spec isSigned
        = storeDigits spec 22 (magnitude spec num isSigned).toNat >>= fun digits =>
            .ok ((intLayout spec (isNegative spec num isSigned) (if digits = [] then [0x30] else digits)).take len) := by
  unfold vsnprintf.doPrintInt
  change storeDigits spec 22 (magnitude spec num isSigned).toNat >>= _ = _
  congr 1
  funext digits
  generalize (if digits = [] then [0x30] else digits) = rbuf
  by_cases hlen : 0 < len
  . rw [take_intLayout hlen]
    simp only [hlen, decide_true, Bool.and_true, apply_ite BitVec.toInt]
    rfl
  . obtain rfl : len = 0 := by omega
    simp [fill_eq]

theorem length_intSign_le (spec : FmtSpec) (negative : Bool) : (intSign spec negative).length ≤ 1 := by
  unfold intSign
  split <;> simp

/--
How many characters are printed around so many digits.
-/
theorem length_intLayout (spec : FmtSpec) (negative : Bool) (rbuf : List (BitVec 8))
    : ((intLayout spec negative rbuf).length : Int)
        = if spec.has sfZero then
            (intSign spec negative).length + max (intPrecision spec) rbuf.length
          else
            max spec.width.toInt ((intSign spec negative).length + max (intPrecision spec) rbuf.length) := by
  have hlength : (intLayout spec negative rbuf).length = (intSign spec negative).length
      + (intPad spec negative rbuf.length).toNat + (intPrecision spec - rbuf.length).toNat + rbuf.length := by
    unfold intLayout
    cases spec.has sfLeft <;> simp <;> omega
  rw [hlength]
  unfold intPad
  split
  . lia
  . next hzero =>
    have hprecision : intPrecision spec = spec.precision.toInt := by
      unfold intPrecision
      rw [if_neg hzero]
    rw [hprecision]
    lia

theorem toInt_sub_one {w : BitVec 24} (h : 0 < w.toInt) : (w - 1).toInt = w.toInt - 1 := by
  have hlt := w.isLt
  rw [BitVec.toInt_eq_toNat_cond] at h ⊢
  rw [BitVec.toInt_eq_toNat_cond, BitVec.toNat_sub]
  have hone : (1 : BitVec 24).toNat = 1 := rfl
  rw [hone]
  split at h <;> split <;> lia

/--
What `print_int` prints in front of a number, and the width that is left.
-/
def intPrefix (spec : FmtSpec) : List (BitVec 8) × BitVec 24 :=
  let hasPrefix := spec.has sfPrefix && spec.base ≠ 10
  let ⟨zero, width⟩ : List (BitVec 8) × BitVec 24 :=
    if hasPrefix && 0 < spec.width.toInt then ([0x30], spec.width - 1) else ([], spec.width)
  let ⟨x, width⟩ : List (BitVec 8) × BitVec 24 :=
    if hasPrefix && 0 < width.toInt && spec.base = 16 then
      ([if spec.has sfLower then 0x78 else 0x58], width - 1)
    else
      ([], width)
  (zero ++ x, width)

theorem intPrefix_spec (spec : FmtSpec)
    : (intPrefix spec).2.toInt = spec.width.toInt - (intPrefix spec).1.length
        ∧ ((intPrefix spec).1.length = 0 ∨ ((intPrefix spec).1.length : Int) ≤ spec.width.toInt)
        ∧ (intPrefix spec).1.length ≤ 2 := by
  unfold intPrefix
  generalize (spec.has sfPrefix && decide (spec.base ≠ 10)) = hasPrefix
  cases hasPrefix with
  | false => simp
  | true =>
    by_cases h : 0 < spec.width.toInt
    . have hone := toInt_sub_one h
      have hzero : (true && decide (0 < spec.width.toInt)) = true := decide_eq_true h
      simp only [hzero, if_true]
      by_cases h' : 0 < (spec.width - 1).toInt ∧ spec.base = 16
      . have htwo := toInt_sub_one h'.1
        have hx : (true && decide (0 < (spec.width - 1).toInt) && decide (spec.base = 16)) = true := by
          rw [decide_eq_true h'.1, decide_eq_true h'.2]
          rfl
        simp only [hx, if_true, List.length_append, List.length_singleton]
        lia
      . have hx : (true && decide (0 < (spec.width - 1).toInt) && decide (spec.base = 16)) = false := by
          rw [Bool.true_and, ← Bool.decide_and, decide_eq_false h']
        simp only [hx, Bool.false_eq_true, if_false, List.length_append, List.length_singleton, List.length_nil]
        omega
    . have hzero : (true && decide (0 < spec.width.toInt)) = false := decide_eq_false h
      simp [hzero]

def intChars (spec : FmtSpec) (num : BitVec 64) (isSigned : Bool) : Run (List (BitVec 8)) :=
  vcprintf.doPrintInt num { spec with width := (intPrefix spec).2 } isSigned >>= fun chars =>
    .ok ((intPrefix spec).1 ++ chars)

theorem bind_ok_bind {α β γ : Type} {x : Run α} {f : α → β} {g : β → γ}
    : (x >>= fun a => .ok (f a)) >>= (fun b => (.ok (g b) : Run γ)) = x >>= fun a => .ok (g (f a)) := by
  cases x <;> rfl

/--
A conversion of a number with the width and the precision that are fetched for it.
-/
def intSpec (spec : FmtSpec) (args : VaList) : FmtSpec :=
  { spec with width := fieldWidth spec args.next, precision := fieldPrecision spec args.next }

theorem vcprintf_printInt
    : vcprintf.printInt spec args
        = intChars (intSpec spec args) (fetchNumber spec.type args).1 (fetchNumber spec.type args).2 >>= fun chars =>
            .ok (chars, restArgs spec args) := by
  unfold vcprintf.printInt intChars
  rw [bind_ok_bind]
  by_cases hw : spec.width = widthArg
  . by_cases hp : spec.precision = precArg
    . simp only [intSpec, fieldWidth, fieldPrecision, restArgs, printNothing, widthArgs, hw, hp, if_true]
      rfl
    . simp only [intSpec, fieldWidth, fieldPrecision, restArgs, printNothing, widthArgs, hw, hp, if_true, if_false]
      rfl
  . by_cases hp : spec.precision = precArg
    . simp only [intSpec, fieldWidth, fieldPrecision, restArgs, printNothing, widthArgs, hw, hp, if_true, if_false]
      rfl
    . simp only [intSpec, fieldWidth, fieldPrecision, restArgs, printNothing, hw, hp, if_false]
      rfl

/--
The width that `vsnprintf` takes when so many bytes of the buffer are left.
-/
def storedWidth (len : Nat) (width : BitVec 24) : BitVec 24 :=
  if len < (width.signExtend 32).toNat then BitVec.ofNat 24 len else width

theorem toNat_signExtend (w : BitVec 24)
    : ((w.signExtend 32).toNat : Int) = if 0 ≤ w.toInt then w.toInt else 2 ^ 32 + w.toInt := by
  have hint : (w.signExtend 32).toInt = w.toInt := BitVec.toInt_signExtend_of_le (by decide)
  have hlow := BitVec.le_toInt w
  have hhigh := BitVec.toInt_lt (x := w)
  have hlt := (w.signExtend 32).isLt
  rw [BitVec.toInt_eq_toNat_cond] at hint
  split at hint
  . split <;> omega
  . split <;> omega

theorem storedWidth_le {width : BitVec 24} : (storedWidth len width).toInt ≤ len := by
  unfold storedWidth
  split
  . rw [BitVec.toInt_eq_toNat_cond, BitVec.toNat_ofNat]
    split <;> omega
  . have := toNat_signExtend width
    split at this <;> omega

theorem length_intPrefix_le (spec : FmtSpec) (h : spec.width.toInt ≤ len) : (intPrefix spec).1.length ≤ len := by
  obtain ⟨-, hle, -⟩ := intPrefix_spec spec
  omega

theorem vsnprintf_printInt_eq
    : vsnprintf.printInt len spec args
        = (let stored : FmtSpec := { intSpec spec args with width := storedWidth len (intSpec spec args).width }
          if len < (intPrefix stored).1.length then
            .error .access
          else
            vsnprintf.doPrintInt (len - (intPrefix stored).1.length) (fetchNumber spec.type args).1
                { stored with width := (intPrefix stored).2 } (fetchNumber spec.type args).2 >>= fun chars =>
              .ok ((intPrefix stored).1 ++ chars, restArgs spec args)) := by
  unfold vsnprintf.printInt
  by_cases hw : spec.width = widthArg
  . by_cases hp : spec.precision = precArg
    . simp only [intSpec, fieldWidth, fieldPrecision, restArgs, printNothing, widthArgs, hw, hp, if_true]
      rfl
    . simp only [intSpec, fieldWidth, fieldPrecision, restArgs, printNothing, widthArgs, hw, hp, if_true, if_false]
      rfl
  . by_cases hp : spec.precision = precArg
    . simp only [intSpec, fieldWidth, fieldPrecision, restArgs, printNothing, widthArgs, hw, hp, if_true, if_false]
      rfl
    . simp only [intSpec, fieldWidth, fieldPrecision, restArgs, printNothing, hw, hp, if_false]
      rfl

theorem vsnprintf_printInt
    : vsnprintf.printInt len spec args
        = intChars { intSpec spec args with width := storedWidth len (intSpec spec args).width }
            (fetchNumber spec.type args).1 (fetchNumber spec.type args).2 >>= fun chars =>
            .ok (chars.take len, restArgs spec args) := by
  rw [vsnprintf_printInt_eq]
  unfold intChars
  have hle := length_intPrefix_le { intSpec spec args with width := storedWidth len (intSpec spec args).width }
    storedWidth_le
  dsimp only
  rw [if_neg (Nat.not_lt.mpr hle), bind_ok_bind, vsnprintf_doPrintInt, vcprintf_doPrintInt, bind_ok_bind, bind_ok_bind]
  congr 1
  funext digits
  rw [List.take_append, List.take_of_length_le hle]

/--
The digits of a number, the last one first.
-/
def intDigits (spec : FmtSpec) (num : BitVec 64) : List (BitVec 8) :=
  if num = 0 then [0x30] else (Nat.digits spec.base num.toNat).map (hexTable spec)

theorem magnitude_eq_zero : magnitude spec num isSigned = 0 ↔ num = 0 := by
  unfold magnitude
  split
  . exact BitVec.neg_eq_zero_iff
  . rfl

theorem storeDigits_magnitude (spec : FmtSpec) (num : BitVec 64) (isSigned : Bool) (hbase : IsBase spec.base)
    : (storeDigits spec 22 (magnitude spec num isSigned).toNat >>= fun digits =>
          (.ok (if digits = [] then [0x30] else digits) : Run (List (BitVec 8))))
        = if spec.base = 0 ∧ num ≠ 0 then .error .divide else .ok (intDigits spec (magnitude spec num isSigned)) := by
  rw [storeDigits_of_isBase _ hbase]
  simp only [ne_eq, magnitude_eq_zero]
  split
  . rfl
  . change Except.ok _ = Except.ok _
    unfold intDigits
    congr 1
    by_cases hzero : magnitude spec num isSigned = 0
    . rw [hzero]
      simp
    . rw [if_neg hzero, if_neg]
      simpa [Nat.digits_eq_nil_iff_eq_zero, BitVec.toNat_eq] using hzero

theorem length_intDigits_le (hbase : IsBase spec.base) (num : BitVec 64) : (intDigits spec num).length ≤ 22 := by
  unfold intDigits
  split
  . decide
  . rw [List.length_map]
    by_cases hzero : spec.base = 0
    . rw [hzero]
      cases num.toNat <;> simp
    . have height : 8 ≤ spec.base := by
        unfold IsBase at hbase
        omega
      rw [Nat.digits_length_le_iff (by omega)]
      calc num.toNat < 2 ^ 64 := num.isLt
        _ ≤ 8 ^ 22 := by decide
        _ ≤ spec.base ^ 22 := Nat.pow_le_pow_left height 22

/--
All characters of a number.
-/
def intText (spec : FmtSpec) (num : BitVec 64) (isSigned : Bool) : List (BitVec 8) :=
  (intPrefix spec).1 ++ intLayout { spec with width := (intPrefix spec).2 } (isNegative spec num isSigned)
    (intDigits spec (magnitude spec num isSigned))

theorem intChars_eq (hbase : IsBase spec.base)
    : intChars spec num isSigned
        = if spec.base = 0 ∧ num ≠ 0 then .error .divide else .ok (intText spec num isSigned) := by
  have hstore := storeDigits_magnitude { spec with width := (intPrefix spec).2 } num isSigned hbase
  have hlayout := bind_ok_bind (x := storeDigits { spec with width := (intPrefix spec).2 } 22
    (magnitude { spec with width := (intPrefix spec).2 } num isSigned).toNat)
    (f := fun digits => if digits = [] then [0x30] else digits)
    (g := intLayout { spec with width := (intPrefix spec).2 } (isNegative spec num isSigned))
  rw [hstore] at hlayout
  unfold intChars
  rw [vcprintf_doPrintInt]
  change (storeDigits _ 22 _ >>= fun digits => .ok (intLayout _ (isNegative spec num isSigned)
    (if digits = [] then [0x30] else digits))) >>= _ = _
  rw [← hlayout]
  dsimp only
  split
  . rfl
  . rfl

theorem length_intText (spec : FmtSpec) (num : BitVec 64) (isSigned : Bool)
    : ((intText spec num isSigned).length : Int)
        = if spec.has sfZero then
            (intPrefix spec).1.length + (intSign spec (isNegative spec num isSigned)).length
              + max (intPrecision { spec with width := (intPrefix spec).2 })
                (intDigits spec (magnitude spec num isSigned)).length
          else
            max spec.width.toInt ((intPrefix spec).1.length + (intSign spec (isNegative spec num isSigned)).length
              + max spec.precision.toInt (intDigits spec (magnitude spec num isSigned)).length) := by
  obtain ⟨hwidth, -, -⟩ := intPrefix_spec spec
  have hlength := length_intLayout { spec with width := (intPrefix spec).2 } (isNegative spec num isSigned)
    (intDigits spec (magnitude spec num isSigned))
  unfold intText
  rw [List.length_append, Int.natCast_add, hlength]
  change _ + (if spec.has sfZero then _ else max (intPrefix spec).2.toInt
    ((intSign spec (isNegative spec num isSigned)).length + _)) = _
  split
  . rw [← Int.add_assoc]
    rfl
  . next hzero =>
    have hprecision : intPrecision { spec with width := (intPrefix spec).2 } = spec.precision.toInt :=
      if_neg hzero
    rw [hprecision, hwidth]
    lia

end Emos.Kernel
