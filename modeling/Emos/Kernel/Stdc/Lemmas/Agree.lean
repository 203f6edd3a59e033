import Emos.Kernel.Stdc.Lemmas.Number
import Emos.Lib.Loop

/-!
This module contains for which conversions `vsnprintf` stores the characters that `vcprintf` emits.
-/

open Lib

namespace Emos.Kernel

variable {spec : FmtSpec} {args args' : VaList} {len : Nat} {fmt chars out out' : List (BitVec 8)} {fuel : Nat}

/--
The width of a character as `vcprintf` takes it.
-/
def charWidth (spec : FmtSpec) (args : VaList) : BitVec 32 :=
  if spec.width = 0 then 1 else if spec.width = widthArg then args.int else spec.width.signExtend 32

def charArg (spec : FmtSpec) (args : VaList) : BitVec 8 := (precArgs spec (widthArgs spec args)).int.setWidth 8

def strArg (spec : FmtSpec) (args : VaList) : CString :=
  ((precArgs spec (widthArgs spec args)) 0).str.getD nullFallback

/--
The width and the precision of a string as `vcprintf` takes them, only from arguments.
-/
def strWidth (spec : FmtSpec) (args : VaList) : Int := if spec.width = widthArg then max args.int.toInt 0 else 0

def strPrecision (spec : FmtSpec) (args : VaList) : Int :=
  if spec.precision = precArg then (widthArgs spec args).int.toInt else 2 ^ 31 - 1

/--
How many characters of a string `vsnprintf` keeps, where a width takes the part of a precision.
-/
def strKept (spec : FmtSpec) (args : VaList) : Nat :=
  if 0 < (fieldWidth spec args).toInt then
    min (fieldWidth spec args).toInt.toNat (strArg spec args).strlen
  else
    (strArg spec args).strlen

/--
A string is cut off by both at the same place, and not padded.
-/
def StrAgrees (spec : FmtSpec) (args : VaList) : Prop :=
  if strPrecision spec args < (strArg spec args).strlen then
    strKept spec args = (strPrecision spec args).toNat
  else
    strWidth spec args ≤ (strArg spec args).strlen ∧ strKept spec args = (strArg spec args).strlen

/--
A character has a positive width that fits in the bit field, and a number has no negative width.
-/
def SpecAgrees (spec : FmtSpec) (args : VaList) : Prop :=
  match spec.type with
  | .char => 1 ≤ (charWidth spec args).toInt ∧ (charWidth spec args).toInt < 2 ^ 23
  | .str => StrAgrees spec args
  | .percent | .invalid | .wchar | .wstr | .double | .longDouble => True
  | _ => 0 ≤ (fieldWidth spec args.next).toInt

/--
The width that a conversion is stored with.
-/
def specWidth (spec : FmtSpec) (args : VaList) : Nat :=
  match spec.type with
  | .char | .str => (fieldWidth spec args).toInt.toNat
  | .percent | .invalid | .wchar | .wstr | .double | .longDouble => 0
  | _ => (fieldWidth spec args.next).toInt.toNat

theorem vcprintf_printChar
    : vcprintf.printChar spec args
        = (let pad := List.replicate (charWidth spec args - 1).toNat 0x20
          (if spec.has sfLeft then charArg spec args :: pad else pad ++ [charArg spec args], restArgs spec args)) := by
  rw [← next_precArgs_widthArgs]
  unfold vcprintf.printChar charWidth charArg widthArgs
  by_cases hzero : spec.width = 0
  . rw [if_pos hzero, if_pos hzero, if_neg (by rw [hzero]; decide)]
    rfl
  . rw [if_neg hzero, if_neg hzero]
    by_cases hw : spec.width = widthArg
    . rw [if_pos hw, if_pos hw, if_pos hw]
      rfl
    . rw [if_neg hw, if_neg hw, if_neg hw]
      rfl

/--
What `print_str` of `vcprintf` emits once the arguments are fetched.
-/
def emitStr (left : Bool) (width prec : Int) (str : CString) : List (BitVec 8) :=
  let slen : Int := str.strlen
  let width := if width < slen then slen else width
  let width := if prec < slen then prec else width
  let padLen := if slen < width then width - slen else 0
  let pad := List.replicate padLen.toNat 0x20
  if left then str.bytes.take width.toNat ++ pad else pad ++ str.bytes.take (width - padLen).toNat

theorem vcprintf_printStr
    : vcprintf.printStr spec args
        = (emitStr (spec.has sfLeft) (strWidth spec args) (strPrecision spec args) (strArg spec args),
          restArgs spec args) := by
  rw [← next_precArgs_widthArgs]
  unfold vcprintf.printStr strWidth strPrecision strArg precArgs widthArgs
  by_cases hw : spec.width = widthArg
  . by_cases hp : spec.precision = precArg
    . simp only [if_pos hw, if_pos hp]
      rfl
    . simp only [if_pos hw, if_neg hp]
      rfl
  . by_cases hp : spec.precision = precArg
    . simp only [if_neg hw, if_pos hp]
      rfl
    . simp only [if_neg hw, if_neg hp]
      rfl

theorem emitStr_of_lt {left : Bool} {width prec : Int} {str : CString} (h : prec < str.strlen)
    : emitStr left width prec str = str.bytes.take prec.toNat := by
  have hpad : ¬ (str.strlen : Int) < prec := by omega
  unfold emitStr
  simp [h, hpad]

theorem emitStr_of_le {left : Bool} {width prec : Int} {str : CString} (h : str.strlen ≤ prec)
    : emitStr left width prec str
        = if left then
            str.bytes ++ List.replicate (width - str.strlen).toNat 0x20
          else
            List.replicate (width - str.strlen).toNat 0x20 ++ str.bytes := by
  have hlength : str.bytes.length = str.strlen := rfl
  unfold emitStr
  dsimp only
  rw [if_neg (Int.not_lt.mpr h)]
  by_cases hwidth : width < str.strlen
  . rw [if_pos hwidth, if_neg (Int.lt_irrefl _), show (width - (str.strlen : Int)).toNat = 0 by lia, Int.sub_zero,
      Int.toNat_natCast, List.take_of_length_le (Nat.le_of_eq hlength)]
    rfl
  . rw [if_neg hwidth]
    have hpad : (if (str.strlen : Int) < width then width - str.strlen else 0) = width - str.strlen := by
      split <;> lia
    rw [hpad, List.take_of_length_le (by lia), List.take_of_length_le (by lia)]

theorem length_emitStr (left : Bool) (width prec : Int) (str : CString)
    : ((emitStr left width prec str).length : Int)
        = if prec < str.strlen then (prec.toNat : Int) else max width str.strlen := by
  split
  . next h =>
    rw [emitStr_of_lt h, List.length_take]
    change ((min prec.toNat str.strlen : Nat) : Int) = _
    lia
  . next h =>
    have hlength : str.bytes.length = str.strlen := rfl
    rw [emitStr_of_le (Int.not_lt.mp h)]
    split <;> rw [List.length_append, List.length_replicate] <;> lia

/--
What `print_str` of `vsnprintf` stores once the arguments are fetched.
-/
def storeStr (len : Nat) (left : Bool) (width : BitVec 24) (str : CString) : List (BitVec 8) :=
  let slen : Int := if 0 < width.toInt then width.toInt else strnlen str len
  let padLen := width.toInt - slen
  let padLeft := if left then [] else vsnprintf.fill padLen len 0x20
  let len := len - padLeft.length
  let body := str.bytes.take (min slen.toNat len)
  let len := len - body.length
  let padRight := if left then vsnprintf.fill padLen len 0x20 else []
  padLeft ++ body ++ padRight

/--
There is never any padding: a width is taken for the length.
-/
theorem storeStr_eq {left : Bool} {width : BitVec 24} {str : CString}
    : storeStr len left width str
        = (str.bytes.take (if 0 < width.toInt then min width.toInt.toNat str.strlen else str.strlen)).take len := by
  have hlength : str.bytes.length = str.strlen := rfl
  have hfill (count : Int) (len : Nat) (h : count ≤ 0) : vsnprintf.fill count len 0x20 = [] := by
    unfold vsnprintf.fill
    rw [Int.toNat_of_nonpos h, Nat.zero_min]
    rfl
  have hpad : width.toInt - (if 0 < width.toInt then width.toInt else (strnlen str len : Int)) ≤ 0 := by
    split <;> omega
  have hkept : storeStr len left width str
      = str.bytes.take (min (if 0 < width.toInt then width.toInt else (strnlen str len : Int)).toNat len) := by
    unfold storeStr
    simp only [hfill _ _ hpad, ite_self, List.length_nil, Nat.sub_zero, List.nil_append, List.append_nil]
  rw [hkept, List.take_take]
  apply List.take_eq_take_iff.mpr
  unfold strnlen
  split <;> lia

theorem vsnprintf_printStr
    : vsnprintf.printStr len spec args
        = (((strArg spec args).bytes.take (strKept spec args)).take len, restArgs spec args) := by
  have hstore : vsnprintf.printStr len spec args
      = (storeStr len (spec.has sfLeft) (fieldWidth spec args) (strArg spec args), restArgs spec args) := by
    rw [← next_precArgs_widthArgs]
    unfold vsnprintf.printStr strArg fieldWidth precArgs widthArgs
    by_cases hw : spec.width = widthArg
    . by_cases hp : spec.precision = precArg
      . simp only [if_pos hw, if_pos hp]
        rfl
      . simp only [if_pos hw, if_neg hp]
        rfl
    . by_cases hp : spec.precision = precArg
      . simp only [if_neg hw, if_pos hp]
        rfl
      . simp only [if_neg hw, if_neg hp]
        rfl
  rw [hstore, storeStr_eq]
  rfl

/--
The width of a character as `vsnprintf` takes it.
-/
def storedCharWidth (spec : FmtSpec) (args : VaList) : BitVec 24 :=
  if spec.width = 0 then 1 else fieldWidth spec args

theorem vsnprintf_printChar
    : vsnprintf.printChar len spec args
        = (let width := ((storedCharWidth spec args).signExtend 32).toNat
          let count := if width < len then width else len
          let chars :=
            if spec.has sfLeft then
              if count = 0 then [] else charArg spec args :: List.replicate (count - 1) 0x20
            else
              List.replicate (sub32 count 1) 0x20 ++ [charArg spec args]
          if len < chars.length then .error .access else .ok (chars, restArgs spec args)) := by
  rw [← next_precArgs_widthArgs]
  unfold vsnprintf.printChar storedCharWidth charArg fieldWidth widthArgs
  by_cases hzero : spec.width = 0
  . have hne : spec.width ≠ widthArg := by
      rw [hzero]
      decide
    have hone : (1 : BitVec 24) ≠ widthArg := by decide
    simp only [if_pos hzero, if_neg hne, if_neg hone]
    rfl
  . by_cases hw : spec.width = widthArg
    . simp only [if_neg hzero, if_pos hw]
      rfl
    . simp only [if_neg hzero, if_neg hw]
      rfl

theorem storedWidth_of_le {width : BitVec 24} (h : 0 ≤ width.toInt) (hle : width.toInt ≤ len)
    : storedWidth len width = width := by
  have := toNat_signExtend width
  unfold storedWidth
  rw [if_neg (by rw [if_pos h] at this; omega)]

theorem printInt_agrees (h : 0 ≤ (fieldWidth spec args.next).toInt)
    (hvc : vcprintf.printInt spec args = .ok (chars, args')) (hlen : chars.length ≤ len)
    (hwidth : (fieldWidth spec args.next).toInt ≤ len)
    : vsnprintf.printInt len spec args = .ok (chars, args') := by
  rw [vcprintf_printInt] at hvc
  rw [vsnprintf_printInt, show storedWidth len (intSpec spec args).width = (intSpec spec args).width from
    storedWidth_of_le h hwidth]
  obtain ⟨chars', hchars, heq⟩ := (bind_eq_ok _ _ _).mp hvc
  cases heq
  exact (bind_eq_ok _ _ _).mpr ⟨chars, hchars, by rw [List.take_of_length_le hlen]⟩

theorem toNat_of_nonneg {w : BitVec 32} (h : 0 ≤ w.toInt) : (w.toNat : Int) = w.toInt := by
  have hlt := w.isLt
  rw [BitVec.toInt_eq_toNat_cond] at h ⊢
  split at h
  . next hcond => rw [if_pos hcond]
  . omega

theorem charWidth_eq (h : 1 ≤ (charWidth spec args).toInt ∧ (charWidth spec args).toInt < 2 ^ 23)
    : (storedCharWidth spec args).signExtend 32 = charWidth spec args := by
  unfold charWidth at h
  unfold storedCharWidth charWidth fieldWidth
  split at h
  . next hzero =>
    rw [if_pos hzero, if_pos hzero]
    decide
  . next hzero =>
    rw [if_neg hzero, if_neg hzero]
    split at h
    . next hw =>
      rw [if_pos hw, if_pos hw]
      apply BitVec.eq_of_toInt_eq
      rw [BitVec.toInt_signExtend_of_le (by decide), BitVec.toInt_setWidth, toNat_of_nonneg (by omega)]
      exact Int.bmod_eq_of_le (by omega) (by omega)
    . next hw => rw [if_neg hw, if_neg hw]

theorem length_vcprintf_printChar (spec : FmtSpec) (args : VaList)
    : (vcprintf.printChar spec args).1.length = (charWidth spec args - 1).toNat + 1 := by
  rw [vcprintf_printChar]
  dsimp only
  split <;> simp

theorem printChar_agrees (h : 1 ≤ (charWidth spec args).toInt ∧ (charWidth spec args).toInt < 2 ^ 23)
    (hlen : (vcprintf.printChar spec args).1.length ≤ len)
    : vsnprintf.printChar len spec args = .ok (vcprintf.printChar spec args) := by
  rw [length_vcprintf_printChar] at hlen
  have hwidth := toNat_of_nonneg (w := charWidth spec args) (by omega)
  have hone : (charWidth spec args - 1).toNat = (charWidth spec args).toNat - 1 := by
    have hlt := (charWidth spec args).isLt
    rw [BitVec.toNat_sub]
    change (2 ^ 32 - 1 + (charWidth spec args).toNat) % 2 ^ 32 = _
    lia
  have hsub : sub32 (charWidth spec args).toNat 1 = (charWidth spec args).toNat - 1 :=
    sub32_of_le (by omega) (charWidth spec args).isLt
  have hcount : (if (charWidth spec args).toNat < len then (charWidth spec args).toNat else len)
      = (charWidth spec args).toNat := by
    split <;> lia
  rw [vsnprintf_printChar, vcprintf_printChar, charWidth_eq h]
  dsimp only
  rw [hcount, hsub, hone, if_neg (show ¬ (charWidth spec args).toNat = 0 by omega), if_neg]
  split <;> simp <;> omega

theorem length_strArg : (strArg spec args).bytes.length = (strArg spec args).strlen := rfl

theorem printStr_agrees (h : StrAgrees spec args) (hlen : (vcprintf.printStr spec args).1.length ≤ len)
    : vsnprintf.printStr len spec args = vcprintf.printStr spec args := by
  rw [vcprintf_printStr] at hlen ⊢
  rw [vsnprintf_printStr]
  unfold StrAgrees at h
  congr 1
  split at h
  . next hprec =>
    rw [emitStr_of_lt hprec] at hlen ⊢
    rw [h, List.take_of_length_le hlen]
  . next hprec =>
    obtain ⟨hwidth, hkept⟩ := h
    rw [emitStr_of_le (Int.not_lt.mp hprec), Int.toNat_of_nonpos (by omega)] at hlen ⊢
    rw [hkept, List.take_of_length_le (Nat.le_of_eq length_strArg)]
    cases spec.has sfLeft with
    | true => simpa using hlen
    | false => simpa using hlen

/--
If there is more room than what is emitted and the width, `vsnprintf` stores the same.
-/
theorem printSpec_agrees (len : Nat) (h : SpecAgrees spec args) (hvc : vcprintf.printSpec spec args = .ok (chars, args'))
    (hlen : chars.length + specWidth spec args ≤ len)
    : vsnprintf.printSpec len spec args = .ok (chars, args') := by
  unfold SpecAgrees at h
  unfold specWidth at hlen
  unfold vcprintf.printSpec at hvc
  unfold vsnprintf.printSpec
  cases htype : spec.type <;> rw [htype] at h hlen hvc <;> dsimp only at h hlen hvc ⊢
  case percent | invalid | wchar | wstr | double | longDouble => exact hvc
  case char =>
    obtain heq := Except.ok.inj hvc
    rw [← heq]
    refine printChar_agrees h ?_
    rw [heq]
    exact Nat.le_of_add_right_le hlen
  case str =>
    obtain heq := Except.ok.inj hvc
    rw [← heq]
    refine congrArg Except.ok (printStr_agrees h ?_)
    rw [heq]
    exact Nat.le_of_add_right_le hlen
  all_goals exact printInt_agrees h hvc (by omega) (by omega)

/--
The arguments that are left after a conversion.
-/
def argsBehind (spec : FmtSpec) (args : VaList) : VaList :=
  match spec.type with
  | .percent | .invalid => args
  | _ => restArgs spec args

/--
The conversions of a format with the arguments that are left in front of each.
-/
def conversionsFrom : Nat → List (BitVec 8) → VaList → List (FmtSpec × VaList)
  | _, [], _ => []
  | 0, _, _ => []
  | fuel + 1, c :: fmt, args =>
    if c ≠ 0x25 then
      conversionsFrom fuel fmt args
    else
      let ⟨spec, fmt⟩ := decodeSpec fmt
      (spec, args) :: conversionsFrom fuel fmt (argsBehind spec args)

def conversions (fmt : CString) (args : VaList) : List (FmtSpec × VaList) :=
  conversionsFrom fmt.bytes.length fmt.bytes args

theorem vcprintf_printSpec_args (h : vcprintf.printSpec spec args = .ok (chars, args')) : args' = argsBehind spec args := by
  unfold vcprintf.printSpec at h
  unfold argsBehind
  cases htype : spec.type <;> rw [htype] at h <;> dsimp only at h ⊢
  case percent | invalid | wchar | wstr | double | longDouble =>
    cases h
    rfl
  case char =>
    rw [vcprintf_printChar] at h
    cases h
    rfl
  case str =>
    rw [vcprintf_printStr] at h
    cases h
    rfl
  all_goals
    rw [vcprintf_printInt] at h
    obtain ⟨_, -, heq⟩ := (bind_eq_ok _ _ _).mp h
    cases heq
    rfl

theorem prefix_of_go (h : vcprintf.go fuel fmt args out = .ok out') : out <+: out' := by
  induction fuel generalizing fmt args out with
  | zero =>
    cases fmt with
    | nil =>
      cases h
      exact List.prefix_rfl
    | cons c fmt => contradiction
  | succ fuel ih =>
    cases fmt with
    | nil =>
      cases h
      exact List.prefix_rfl
    | cons c fmt =>
      rw [vcprintf.go] at h
      split at h
      . exact (List.prefix_append out [c]).trans (ih h)
      . obtain ⟨⟨chars, args₁⟩, -, hrest⟩ := (bind_eq_ok _ _ _).mp h
        exact (List.prefix_append out chars).trans (ih hrest)

/--
While the conversions agree and there is room for what is emitted and for the widths, the same is stored.
-/
theorem go_agrees (len : Nat) (h : vcprintf.go fuel fmt args out = .ok out')
    (hagrees : ∀ p ∈ conversionsFrom fuel fmt args, SpecAgrees p.1 p.2)
    (hroom : out'.length + ((conversionsFrom fuel fmt args).map fun p => specWidth p.1 p.2).sum < len + out.length)
    : vsnprintf.go fuel len fmt args out = .ok (out', len - (out'.length - out.length)) := by
  induction fuel generalizing fmt args out len with
  | zero =>
    cases fmt with
    | nil =>
      cases h
      rw [vsnprintf.go, Nat.sub_self]
      rfl
    | cons c fmt => contradiction
  | succ fuel ih =>
    cases fmt with
    | nil =>
      cases h
      rw [vsnprintf.go, Nat.sub_self]
      rfl
    | cons c fmt =>
      have hpos : out.length ≤ out'.length := (prefix_of_go h).length_le
      obtain ⟨len, rfl⟩ : ∃ m, len = m + 1 := ⟨len - 1, by lia⟩
      rw [vcprintf.go] at h
      rw [vsnprintf.go]
      rw [conversionsFrom] at hagrees hroom
      split at h
      . next hc =>
        have hle := (prefix_of_go h).length_le
        rw [List.length_append, List.length_singleton] at hle
        rw [if_pos hc] at hagrees hroom ⊢
        rw [ih len h hagrees (by rw [List.length_append, List.length_singleton]; omega), List.length_append,
          List.length_singleton]
        congr 2
        lia
      . next hc =>
        rw [if_neg hc] at hagrees hroom ⊢
        generalize decodeSpec fmt = decoded at h hagrees hroom ⊢
        obtain ⟨spec, next⟩ := decoded
        obtain ⟨⟨chars, args₁⟩, hchars, hrest⟩ := (bind_eq_ok _ _ _).mp h
        have hle := (prefix_of_go hrest).length_le
        rw [List.length_append] at hle
        obtain rfl := vcprintf_printSpec_args hchars
        rw [List.forall_mem_cons] at hagrees
        rw [List.map_cons, List.sum_cons] at hroom
        have hstored := printSpec_agrees (len + 1) hagrees.1 hchars (by omega)
        have hih := ih (len + 1 - chars.length) hrest hagrees.2 (by rw [List.length_append]; lia)
        refine (bind_eq_ok _ _ _).mpr ⟨_, hstored, hih.trans ?_⟩
        rw [List.length_append]
        congr 2
        lia

/--
More than what is emitted and the widths of the conversions.
-/
def sufficientLength (fmt : CString) (args : VaList) (r : PrintfResult) : Nat :=
  r.written.length + ((conversions fmt args).map fun p => specWidth p.1 p.2).sum

theorem vsnprintf_eq_vcprintf {fmt : CString} {r : PrintfResult} (h : vcprintf fmt args = .ok r)
    (hagrees : ∀ p ∈ conversions fmt args, SpecAgrees p.1 p.2) (hlen : sufficientLength fmt args r ≤ len)
    (hmax : len ≤ intMax)
    : vsnprintf len fmt args = .ok r := by
  obtain ⟨out, hout, heq⟩ := (bind_eq_ok _ _ _).mp h
  cases heq
  unfold sufficientLength at hlen
  rw [List.length_append, List.length_singleton] at hlen
  have hgo := go_agrees len hout hagrees (by rw [List.length_nil]; unfold conversions at hlen; omega)
  unfold vsnprintf
  rw [if_neg (Nat.not_lt.mpr hmax)]
  refine (bind_eq_ok _ _ _).mpr ⟨_, hgo, ?_⟩
  dsimp only
  rw [List.length_nil, if_pos (by lia)]

end Emos.Kernel
