import Emos.Kernel.Stdc.Lemmas.Single

/-!
This module contains for which formats `vsnprintf` leaves a terminating zero in the buffer and fails on
nothing.
-/

open Lib

namespace Emos.Kernel

variable {spec : FmtSpec} {args args' : VaList} {len left fuel : Nat} {fmt chars out out' : List (BitVec 8)}

/--
How many characters a number has.
-/
def numberCount (spec : FmtSpec) (num : BitVec 64) (isSigned : Bool) : Nat :=
  let before := (intPrefix spec).1.length + (intSign spec (isNegative spec num isSigned)).length
  let digits := (intDigits spec (magnitude spec num isSigned)).length
  if spec.has sfZero then
    before + (max (intPrecision { spec with width := (intPrefix spec).2 }) digits).toNat
  else
    max spec.width.toInt.toNat (before + (max spec.precision.toInt digits).toNat)

/--
How many bytes a conversion stores when so many are left.
-/
def storedCount (len : Nat) (spec : FmtSpec) (args : VaList) : Nat :=
  match spec.type with
  | .percent => 1
  | .char => min ((storedCharWidth spec args).signExtend 32).toNat len
  | .str => min (strKept spec args) len
  | .invalid | .wchar | .wstr | .double | .longDouble => 0
  | _ =>
    min (numberCount { intSpec spec args with width := storedWidth len (intSpec spec args).width }
      (fetchNumber spec.type args).1 (fetchNumber spec.type args).2) len

/--
A number has a base or is zero, and a character that is aligned to the right has a width.
-/
def Printable (spec : FmtSpec) (args : VaList) : Prop :=
  match spec.type with
  | .char => spec.has sfLeft = true ∨ storedCharWidth spec args ≠ 0
  | .percent | .invalid | .str | .wchar | .wstr | .double | .longDouble => True
  | _ => spec.base ≠ 0 ∨ (fetchNumber spec.type args).1 = 0

/--
A format is printed into a buffer of this length such that there is room for the terminating zero.
-/
inductive Fits : Nat → List (BitVec 8) → VaList → Prop
  | nil {len : Nat} {args : VaList} (h : 0 < len) : Fits len [] args
  | char {len : Nat} {c : BitVec 8} {fmt : List (BitVec 8)} {args : VaList} (hc : c ≠ 0x25) (h : Fits len fmt args)
    : Fits (len + 1) (c :: fmt) args
  | conversion {len : Nat} {fmt : List (BitVec 8)} {args : VaList} (hprintable : Printable (decodeSpec fmt).1 args)
    (h : Fits (len - storedCount len (decodeSpec fmt).1 args) (decodeSpec fmt).2 (argsBehind (decodeSpec fmt).1 args))
    : Fits len (0x25 :: fmt) args

theorem Fits.pos (h : Fits len fmt args) : 0 < len := by
  induction h with
  | nil h => exact h
  | char => exact Nat.zero_lt_succ _
  | conversion _ _ ih => exact Nat.lt_of_lt_of_le ih (Nat.sub_le _ _)

theorem length_intText_eq (spec : FmtSpec) (num : BitVec 64) (isSigned : Bool)
    : (intText spec num isSigned).length = numberCount spec num isSigned := by
  have hlength := length_intText spec num isSigned
  unfold numberCount
  dsimp only
  split at hlength
  . next hzero =>
    rw [if_pos hzero]
    lia
  . next hzero =>
    rw [if_neg hzero]
    lia

theorem toNat_signExtend_eq_zero {w : BitVec 24} : (w.signExtend 32).toNat = 0 ↔ w = 0 := by
  have := toNat_signExtend w
  have hlow := BitVec.le_toInt w
  constructor
  . intro h
    apply BitVec.eq_of_toInt_eq
    change w.toInt = 0
    split at this <;> omega
  . intro h
    rw [h]
    decide

/--
A character that is aligned to the right and has no width makes the room wrap around.
-/
theorem vsnprintf_printChar_of_not (h : ¬(spec.has sfLeft = true ∨ storedCharWidth spec args ≠ 0)) (hpos : 0 < len)
    (hmax : len ≤ intMax)
    : vsnprintf.printChar len spec args = .error .access := by
  rw [not_or, Classical.not_not] at h
  have hwrap : sub32 0 1 = 2 ^ 32 - 1 := by decide
  rw [vsnprintf_printChar, toNat_signExtend_eq_zero.2 h.2]
  dsimp only
  rw [if_pos hpos, if_neg h.1, hwrap, if_pos]
  rw [List.length_append, List.length_replicate]
  unfold intMax at hmax
  omega

theorem exists_printChar (h : spec.has sfLeft = true ∨ storedCharWidth spec args ≠ 0) (hpos : 0 < len)
    (hmax : len ≤ intMax)
    : ∃ chars, vsnprintf.printChar len spec args = .ok (chars, restArgs spec args) := by
  rw [vsnprintf_printChar]
  dsimp only
  generalize hcount : (if _ < len then _ else len) = count
  have hle : count ≤ len := by
    rw [← hcount]
    split <;> omega
  have hpos : spec.has sfLeft = true ∨ 0 < count := by
    refine h.imp_right ?_
    intro hne
    have := mt toNat_signExtend_eq_zero.1 hne
    rw [← hcount]
    split <;> omega
  refine ⟨_, if_neg ?_⟩
  unfold intMax at hmax
  split
  . split
    . exact Nat.not_lt_zero _
    . rw [List.length_cons, List.length_replicate]
      omega
  . next hleft =>
    have := hpos.resolve_left hleft
    rw [List.length_append, List.length_replicate, List.length_singleton, sub32_of_le (by omega) (by omega)]
    omega

theorem vsnprintf_printInt_of_not (hbase : IsBase spec.base)
    (h : ¬(spec.base ≠ 0 ∨ (fetchNumber spec.type args).1 = 0))
    : vsnprintf.printInt len spec args = .error .divide := by
  rw [not_or, Classical.not_not] at h
  rw [vsnprintf_printInt, intChars_eq (by exact hbase), if_pos (by exact h)]
  rfl

theorem exists_printInt (hbase : IsBase spec.base) (h : spec.base ≠ 0 ∨ (fetchNumber spec.type args).1 = 0)
    : ∃ chars, vsnprintf.printInt len spec args = .ok (chars, restArgs spec args)
        ∧ chars.length = min (numberCount { intSpec spec args with width := storedWidth len (intSpec spec args).width }
            (fetchNumber spec.type args).1 (fetchNumber spec.type args).2) len := by
  have hdivide : ¬(spec.base = 0 ∧ (fetchNumber spec.type args).1 ≠ 0) := by
    intro ⟨hzero, hne⟩
    exact h.elim (fun h => h hzero) hne
  rw [vsnprintf_printInt, intChars_eq (by exact hbase), if_neg (by exact hdivide)]
  refine ⟨_, rfl, ?_⟩
  rw [List.length_take, length_intText_eq, Nat.min_comm]

/--
A conversion stores as many bytes as are counted, and never more than are left, or fails.
-/
theorem vsnprintf_printSpec (args : VaList) (hbase : IsBase spec.base) (hpos : 0 < len) (hmax : len ≤ intMax)
    : (Printable spec args → ∃ chars, vsnprintf.printSpec len spec args = .ok (chars, argsBehind spec args)
          ∧ chars.length = storedCount len spec args)
        ∧ (¬ Printable spec args → ∃ f, vsnprintf.printSpec len spec args = .error f) := by
  unfold Printable vsnprintf.printSpec storedCount argsBehind
  cases htype : spec.type <;> dsimp only
  case percent => exact ⟨fun _ => ⟨_, rfl, rfl⟩, fun h => absurd trivial h⟩
  case invalid | wchar | wstr | double | longDouble => exact ⟨fun _ => ⟨_, rfl, rfl⟩, fun h => absurd trivial h⟩
  case char =>
    refine ⟨fun h => ?_, fun h => ⟨_, vsnprintf_printChar_of_not h hpos hmax⟩⟩
    obtain ⟨chars, hchars⟩ := exists_printChar h hpos hmax
    refine ⟨chars, hchars, length_of_vsnprintf_printChar ?_ hchars⟩
    unfold intMax at hmax
    omega
  case str =>
    refine ⟨fun _ => ⟨_, ?_, length_vsnprintf_printStr len spec args⟩, fun h => absurd trivial h⟩
    rw [vsnprintf_printStr]
  all_goals
    rw [← htype]
    exact ⟨fun h => exists_printInt hbase h, fun h => ⟨_, vsnprintf_printInt_of_not hbase h⟩⟩

theorem storedCount_le (spec : FmtSpec) (args : VaList) (hpos : 0 < len) : storedCount len spec args ≤ len := by
  unfold storedCount
  split
  . exact hpos
  . exact Nat.min_le_right _ _
  . exact Nat.min_le_right _ _
  . exact Nat.zero_le _
  . exact Nat.zero_le _
  . exact Nat.zero_le _
  . exact Nat.zero_le _
  . exact Nat.zero_le _
  . exact Nat.min_le_right _ _

/--
A conversion that succeeds is one that can be printed.
-/
theorem printable_of_ok (hbase : IsBase spec.base) (hpos : 0 < len) (hmax : len ≤ intMax)
    (h : vsnprintf.printSpec len spec args = .ok (chars, args'))
    : Printable spec args ∧ args' = argsBehind spec args ∧ chars.length = storedCount len spec args := by
  obtain ⟨hok, hfail⟩ := vsnprintf_printSpec args hbase hpos hmax
  by_cases hprintable : Printable spec args
  . obtain ⟨chars', hchars, hlength⟩ := hok hprintable
    rw [hchars] at h
    cases h
    exact ⟨hprintable, rfl, hlength⟩
  . obtain ⟨f, hf⟩ := hfail hprintable
    rw [hf] at h
    contradiction

/--
What is stored and what is left is always the whole buffer, and a zero can be stored if the format fits.
-/
theorem fits_of_go (hmax : len ≤ intMax) (h : vsnprintf.go fuel len fmt args out = .ok (out', left))
    : out'.length + left = out.length + len ∧ (0 < left → Fits len fmt args) := by
  induction fuel generalizing len fmt args out with
  | zero =>
    obtain _ | ⟨c, fmt⟩ := fmt
    . cases h
      exact ⟨rfl, .nil⟩
    . obtain _ | len := len
      . cases h
        exact ⟨rfl, fun h => absurd h (Nat.lt_irrefl 0)⟩
      . contradiction
  | succ fuel ih =>
    obtain _ | ⟨c, fmt⟩ := fmt
    . cases h
      exact ⟨rfl, .nil⟩
    . obtain _ | len := len
      . cases h
        exact ⟨rfl, fun h => absurd h (Nat.lt_irrefl 0)⟩
      . rw [vsnprintf.go] at h
        split at h
        . next hc =>
          obtain ⟨hlength, hfits⟩ := ih (Nat.le_of_succ_le hmax) h
          rw [List.length_append, List.length_singleton] at hlength
          exact ⟨by omega, fun hleft => .char hc (hfits hleft)⟩
        . next hc =>
          obtain rfl := Classical.not_not.mp hc
          have hbase := isBase_decodeSpec fmt
          have hconversion := @Fits.conversion (len + 1) fmt args
          generalize decodeSpec fmt = decoded at h hbase hconversion
          obtain ⟨spec, next⟩ := decoded
          obtain ⟨⟨chars, args₁⟩, hchars, hrest⟩ := (bind_eq_ok _ _ _).mp h
          dsimp only at hbase hconversion hrest
          have hpos : 0 < len + 1 := Nat.zero_lt_succ len
          obtain ⟨hprintable, rfl, hcount⟩ := printable_of_ok hbase hpos hmax hchars
          have hle := storedCount_le spec args hpos
          obtain ⟨hlength, hfits⟩ := ih (Nat.le_trans (Nat.sub_le _ _) hmax) hrest
          rw [List.length_append] at hlength
          rw [hcount] at hfits
          exact ⟨by lia, fun hleft => hconversion hprintable (hfits hleft)⟩

theorem go_of_fits (fuel : Nat) (out : List (BitVec 8)) (h : Fits len fmt args) (hmax : len ≤ intMax)
    (hfuel : fmt.length ≤ fuel)
    : ∃ p, vsnprintf.go fuel len fmt args out = .ok p ∧ 0 < p.2 := by
  induction h generalizing fuel out with
  | @nil len args h => exact ⟨(out, len), by rw [vsnprintf.go], h⟩
  | @char len c fmt args hc h ih =>
    obtain ⟨fuel, rfl⟩ := Nat.exists_eq_add_one_of_ne_zero (Nat.ne_zero_of_lt hfuel)
    obtain ⟨p, hp, hpos⟩ := ih fuel (out ++ [c]) (Nat.le_of_succ_le hmax) (Nat.le_of_succ_le_succ hfuel)
    refine ⟨p, ?_, hpos⟩
    rw [vsnprintf.go, if_pos hc, hp]
  | @conversion len fmt args hprintable h ih =>
    obtain ⟨fuel, rfl⟩ := Nat.exists_eq_add_one_of_ne_zero (Nat.ne_zero_of_lt hfuel)
    have hpos := (Fits.conversion hprintable h).pos
    obtain ⟨len, rfl⟩ := Nat.exists_eq_add_one_of_ne_zero (Nat.ne_zero_of_lt hpos)
    have hnext := Nat.le_trans (length_decodeSpec_le fmt) (Nat.le_of_succ_le_succ hfuel)
    obtain ⟨chars, hchars, hcount⟩ := (vsnprintf_printSpec args (isBase_decodeSpec fmt) hpos hmax).1 hprintable
    obtain ⟨p, hp, hleft⟩ := ih fuel (out ++ chars) (Nat.le_trans (Nat.sub_le _ _) hmax) hnext
    rw [← hcount] at hp
    refine ⟨p, ?_, hleft⟩
    rw [vsnprintf.go, if_neg (fun h => h rfl)]
    exact (bind_eq_ok _ _ _).mpr ⟨_, hchars, hp⟩

/--
The buffer has what is printed and a terminating zero, where nothing fails, loops or is stored elsewhere.
-/
def Terminated (len : Nat) (fmt : CString) (args : VaList) : Prop :=
  ∃ out, vsnprintf len fmt args = .ok ⟨out ++ [0], BitVec.ofNat 32 out.length⟩ ∧ out.length < len

theorem vsnprintf_eq_ok_iff {fmt : CString} {r : PrintfResult} (hmax : len ≤ intMax)
    : vsnprintf len fmt args = .ok r
        ↔ ∃ out left, vsnprintf.go fmt.bytes.length len fmt.bytes args [] = .ok (out, left)
          ∧ r = ⟨if 0 < left then out ++ [0] else out, BitVec.ofNat 32 out.length⟩ := by
  unfold vsnprintf
  rw [if_neg (Nat.not_lt.mpr hmax), bind_eq_ok]
  constructor
  . intro ⟨⟨out, left⟩, hgo, heq⟩
    exact ⟨out, left, hgo, (Except.ok.inj heq).symm⟩
  . intro ⟨out, left, hgo, heq⟩
    exact ⟨(out, left), hgo, congrArg Except.ok heq.symm⟩

theorem terminated_of_fits {fmt : CString} (hmax : len ≤ intMax) (h : Fits len fmt.bytes args)
    : Terminated len fmt args := by
  obtain ⟨⟨out, left⟩, hgo, hleft⟩ := go_of_fits _ [] h hmax (Nat.le_refl _)
  obtain ⟨hlength, -⟩ := fits_of_go hmax hgo
  rw [List.length_nil] at hlength
  refine ⟨out, (vsnprintf_eq_ok_iff hmax).mpr ⟨out, left, hgo, ?_⟩, by omega⟩
  rw [if_pos hleft]

/--
Without room for the zero, the value that is returned counts all bytes that are stored.
-/
theorem fits_of_terminated {fmt : CString} (hmax : len ≤ intMax) (h : Terminated len fmt args)
    : Fits len fmt.bytes args := by
  obtain ⟨out, hout, hlt⟩ := h
  obtain ⟨out', left, hgo, heq⟩ := (vsnprintf_eq_ok_iff hmax).mp hout
  obtain ⟨hlength, hfits⟩ := fits_of_go hmax hgo
  rw [List.length_nil] at hlength
  injection heq with hwritten hcount
  split at hwritten
  . next hleft => exact hfits hleft
  . exfalso
    have hcount := congrArg BitVec.toNat hcount
    rw [← hwritten, List.length_append, List.length_singleton, BitVec.toNat_ofNat, BitVec.toNat_ofNat] at hcount
    unfold intMax at hmax
    omega

/--
What is printed is shorter than the buffer if and only if the format fits.
-/
theorem vsnprintf_terminated_iff
    : ∀ (len : Nat) (fmt : CString) (args : VaList), 1 ≤ len → len ≤ intMax
        → (Terminated len fmt args ↔ Fits len fmt.bytes args) := by
  intro len fmt args _ hmax
  exact ⟨fits_of_terminated hmax, terminated_of_fits hmax⟩

/--
`%d` of 5 fits in two bytes.
-/
theorem vsnprintf_terminated_five
    : Terminated 2 ⟨[0x25, 0x64], by decide⟩ fiveArgs := by
  have hfits : Fits 2 [0x25, 0x64] fiveArgs := by
    refine .conversion (.inl (by decide)) ?_
    exact .nil (by decide)
  exact (vsnprintf_terminated_iff 2 ⟨[0x25, 0x64], by decide⟩ fiveArgs (by decide) (by decide)).mpr hfits

def oneArgs : VaList := fun _ => ⟨1, none⟩

def zeroArgs : VaList := fun _ => ⟨0, none⟩

theorem vsnprintf_star : vsnprintf 8 ⟨[0x25, 0x2a, 0x63], by decide⟩ zeroArgs = .error .access := by
  have hchar : vsnprintf.printChar 8 (decodeSpec [0x2a, 0x63]).1 zeroArgs = .error .access :=
    vsnprintf_printChar_of_not (by decide) (by decide) (by decide)
  rw [vsnprintf_single [0x2a, 0x63] rfl (by decide) (by decide) (by decide)]
  change vsnprintf.printChar 8 (decodeSpec [0x2a, 0x63]).1 zeroArgs >>= _ = _
  rw [hchar]
  rfl

/--
`%y` of 1 divides by a base of zero, `%*c` with a width of zero stores behind the end of the buffer, and
`ab` leaves no room for the terminating zero in two bytes.
-/
theorem vsnprintf_unterminated
    : (vsnprintf 8 ⟨[0x25, 0x79], by decide⟩ oneArgs = .error .divide
          ∧ ¬Terminated 8 ⟨[0x25, 0x79], by decide⟩ oneArgs)
        ∧ (vsnprintf 8 ⟨[0x25, 0x2a, 0x63], by decide⟩ zeroArgs = .error .access
          ∧ ¬Terminated 8 ⟨[0x25, 0x2a, 0x63], by decide⟩ zeroArgs)
        ∧ (vsnprintf 2 ⟨[0x61, 0x62], by decide⟩ zeroArgs = .ok ⟨[0x61, 0x62], 2⟩
          ∧ ¬Terminated 2 ⟨[0x61, 0x62], by decide⟩ zeroArgs) := by
  refine ⟨⟨by decide, ?_⟩, ⟨?_, ?_⟩, ⟨by decide, ?_⟩⟩
  . intro ⟨out, hout, _⟩
    have hdivide : vsnprintf 8 ⟨[0x25, 0x79], by decide⟩ oneArgs = .error .divide := by decide
    rw [hdivide] at hout
    cases hout
  . exact vsnprintf_star
  . intro ⟨out, hout, _⟩
    rw [vsnprintf_star] at hout
    cases hout
  . intro ⟨out, hout, _⟩
    have hfull : vsnprintf 2 ⟨[0x61, 0x62], by decide⟩ zeroArgs = .ok ⟨[0x61, 0x62], 2⟩ := by decide
    rw [hfull] at hout
    have heq := congrArg PrintfResult.written (Except.ok.inj hout)
    have hzero : (0 : BitVec 8) ∈ [(0x61 : BitVec 8), 0x62] := by
      change 0 ∈ (⟨[0x61, 0x62], 2⟩ : PrintfResult).written
      rw [heq]
      exact List.mem_append_right _ (List.mem_singleton_self _)
    exact absurd hzero (by decide)

end Emos.Kernel