import Emos.Kernel.Stdc.Lemmas.Agree

/-!
This module contains that a single conversion stores what it emits only if it agrees.
-/

open Lib

namespace Emos.Kernel

variable {spec : FmtSpec} {args args' : VaList} {len : Nat} {chars : List (BitVec 8)}

theorem toInt_ofNat_add {x : Nat} (h : x < 2 ^ 23) : (BitVec.ofNat 24 (2 ^ 24 + x)).toInt = x := by
  rw [BitVec.toInt_eq_toNat_cond, BitVec.toNat_ofNat]
  split <;> lia

theorem storedWidth_of_neg {width : BitVec 24} (h : width.toInt < 0) (hlen : len ≤ intMax)
    : storedWidth len width = BitVec.ofNat 24 len := by
  have hlow := BitVec.le_toInt width
  have := toNat_signExtend width
  rw [if_neg (Int.not_le.mpr h)] at this
  unfold intMax at hlen
  unfold storedWidth
  rw [if_pos (by omega)]

theorem intPrecision_cases (spec : FmtSpec) (width : BitVec 24) (h : spec.has sfZero = true)
    : intPrecision { spec with width := width } = (max width.toInt spec.precision.toInt).bmod (2 ^ 16) := by
  unfold intPrecision
  change (if spec.has sfZero then (BitVec.ofInt 16 (max width.toInt spec.precision.toInt)).toInt else _) = _
  rw [if_pos h, BitVec.toInt_ofInt]

/--
A negative width does not count.
-/
theorem length_intText_of_neg (num : BitVec 64) (isSigned : Bool) (h : spec.width.toInt < 0)
    : ((intText spec num isSigned).length : Int)
        = (intSign spec (isNegative spec num isSigned)).length
          + max spec.precision.toInt (intDigits spec (magnitude spec num isSigned)).length := by
  obtain ⟨hwidth, hprefix, -⟩ := intPrefix_spec spec
  have hlow := BitVec.le_toInt spec.precision
  have hhigh := BitVec.toInt_lt (x := spec.precision)
  have hzero : (intPrefix spec).1.length = 0 := by omega
  rw [hzero] at hwidth
  rw [length_intText, hzero]
  split
  . next hflag =>
    rw [intPrecision_cases spec _ hflag, hwidth, Int.bmod_eq_of_le (by lia) (by lia)]
    lia
  . lia

/--
There is a length for which a negative width changes what is stored.
-/
theorem exists_length_ne (num : BitVec 64) (isSigned : Bool) (h : spec.width.toInt < 0) (hbase : IsBase spec.base)
    : ∃ x : Nat, x < 2 ^ 23 ∧ ∀ width : BitVec 24, width.toInt = (x : Int)
        → min (intText { spec with width := width } num isSigned).length (2 ^ 24 + x)
          ≠ (intText spec num isSigned).length := by
  have hdigits := length_intDigits_le hbase (magnitude spec num isSigned)
  have hsign := length_intSign_le spec (isNegative spec num isSigned)
  have hneg := length_intText_of_neg num isSigned h
  have hlow := BitVec.le_toInt spec.precision
  have hhigh := BitVec.toInt_lt (x := spec.precision)
  have hlength (width : BitVec 24) := length_intText { spec with width := width } num isSigned
  cases hflag : spec.has sfZero with
  | false =>
    refine ⟨2 ^ 23 - 1, by decide, ?_⟩
    intro width hwidth
    have hx := hlength width
    change _ = if spec.has sfZero then _ else max width.toInt _ at hx
    rw [hflag, if_neg (by decide)] at hx
    lia
  | true =>
    have htrue (width : BitVec 24) : ((intText { spec with width := width } num isSigned).length : Int)
        = (intPrefix { spec with width := width }).1.length
          + (intSign spec (isNegative spec num isSigned)).length
          + max ((max (width.toInt - (intPrefix { spec with width := width }).1.length) spec.precision.toInt).bmod
              (2 ^ 16))
            (intDigits spec (magnitude spec num isSigned)).length := by
      obtain ⟨hwidth, -, -⟩ := intPrefix_spec { spec with width := width }
      have hx := hlength width
      change _ = if spec.has sfZero then _ else max width.toInt _ at hx
      have hprecision := intPrecision_cases spec (intPrefix { spec with width := width }).2 hflag
      rw [hwidth] at hprecision
      rw [hflag, if_pos rfl] at hx
      rw [← hprecision]
      exact hx
    by_cases hprec : spec.precision.toInt = 32767
    . refine ⟨40000, by decide, ?_⟩
      intro width hwidth
      obtain ⟨-, hpfx, htwo⟩ := intPrefix_spec { spec with width := width }
      have hx := htrue width
      have hwrap (count : Int) (hle : count ≤ 2) (hnat : 0 ≤ count)
          : (max (40000 - count) 32767).bmod (2 ^ 16) = 40000 - count - 2 ^ 16 := by
        rw [Int.max_eq_left (by omega), ← Int.sub_bmod_right]
        exact Int.bmod_eq_of_le (by omega) (by omega)
      rw [hwidth, hprec] at hx
      rw [show ((40000 : Nat) : Int) = 40000 from rfl, hwrap _ (by omega) (by omega)] at hx
      lia
    . refine ⟨32767, by decide, ?_⟩
      intro width hwidth
      obtain ⟨-, hpfx, htwo⟩ := intPrefix_spec { spec with width := width }
      have hx := htrue width
      rw [hwidth, Int.bmod_eq_of_le (by lia) (by lia)] at hx
      lia

theorem length_of_vsnprintf_printChar (hlen : len < 2 ^ 32) (h : vsnprintf.printChar len spec args = .ok (chars, args'))
    : chars.length = min ((storedCharWidth spec args).signExtend 32).toNat len := by
  rw [vsnprintf_printChar] at h
  dsimp only at h
  generalize hcount : (if _ < len then _ else len) = count at h
  have hmin : count = min ((storedCharWidth spec args).signExtend 32).toNat len := by
    rw [← hcount]
    split <;> lia
  rw [← hmin]
  generalize hstored : (if spec.has sfLeft then _ else _) = stored at h
  split at h
  . contradiction
  . next hroom =>
    cases h
    split at hstored
    . split at hstored
      . next hzero => rw [← hstored, hzero, List.length_nil]
      . rw [← hstored, List.length_cons, List.length_replicate]
        lia
    . have hlength : chars.length = sub32 count 1 + 1 := by
        rw [← hstored, List.length_append, List.length_replicate, List.length_singleton]
      have hone : count ≠ 0 := by
        intro hzero
        have hwrap : sub32 0 1 = 2 ^ 32 - 1 := by decide
        rw [hzero, hwrap] at hlength
        omega
      rw [sub32_of_le (by lia) (by lia)] at hlength
      lia

theorem charWidth_of_printChar (hlen : (vcprintf.printChar spec args).1.length < len) (hmax : len ≤ intMax)
    (h : vsnprintf.printChar len spec args = .ok (vcprintf.printChar spec args))
    : 1 ≤ (charWidth spec args).toInt ∧ (charWidth spec args).toInt < 2 ^ 23 := by
  have hlength := length_vcprintf_printChar spec args
  have hlt := (charWidth spec args).isLt
  have hsub : (charWidth spec args - 1).toNat = (charWidth spec args).toNat - 1 ∧ (charWidth spec args).toNat ≠ 0 := by
    have hwrap : (charWidth spec args - 1).toNat = (2 ^ 32 - 1 + (charWidth spec args).toNat) % 2 ^ 32 := by
      rw [BitVec.toNat_sub]
      rfl
    unfold intMax at hmax
    lia
  have hint := BitVec.toInt_eq_toNat_cond (charWidth spec args)
  rw [if_pos (by unfold intMax at hmax; lia)] at hint
  refine ⟨by lia, ?_⟩
  have hcount : (vcprintf.printChar spec args).1.length = min ((storedCharWidth spec args).signExtend 32).toNat len :=
    length_of_vsnprintf_printChar (by unfold intMax at hmax; omega) h
  by_contra hlarge
  have hu := toNat_signExtend (storedCharWidth spec args)
  have hlow := BitVec.le_toInt (storedCharWidth spec args)
  have hhigh := BitVec.toInt_lt (x := storedCharWidth spec args)
  unfold intMax at hmax
  split at hu <;> lia

theorem strKept_le_strlen (spec : FmtSpec) (args : VaList) : strKept spec args ≤ (strArg spec args).strlen := by
  unfold strKept
  split <;> omega

theorem length_vsnprintf_printStr (len : Nat) (spec : FmtSpec) (args : VaList)
    : (vsnprintf.printStr len spec args).1.length = min (strKept spec args) len := by
  rw [vsnprintf_printStr]
  dsimp only
  rw [List.length_take, List.length_take, length_strArg, Nat.min_eq_left (strKept_le_strlen spec args), Nat.min_comm]

theorem strAgrees_of_printStr (hlen : (vcprintf.printStr spec args).1.length < len)
    (h : vsnprintf.printStr len spec args = vcprintf.printStr spec args)
    : StrAgrees spec args := by
  have hkept := strKept_le_strlen spec args
  have hlength := length_vsnprintf_printStr len spec args
  rw [h] at hlength
  rw [vcprintf_printStr] at hlength hlen
  have hemit := length_emitStr (spec.has sfLeft) (strWidth spec args) (strPrecision spec args) (strArg spec args)
  dsimp only at hlength hlen
  unfold StrAgrees
  split at hemit
  . next hprec =>
    rw [if_pos hprec]
    lia
  . next hprec =>
    rw [if_neg hprec]
    lia

theorem fieldWidth_of_printInt (hbase : IsBase spec.base) (hvc : vcprintf.printInt spec args = .ok (chars, args'))
    (h : ∀ len, chars.length + (fieldWidth spec args.next).toInt.toNat < len → len ≤ intMax
      → vsnprintf.printInt len spec args = .ok (chars, args'))
    : 0 ≤ (fieldWidth spec args.next).toInt := by
  by_contra hneg
  have hneg : (intSpec spec args).width.toInt < 0 := Int.not_le.mp hneg
  have hbase : IsBase (intSpec spec args).base := hbase
  generalize hnumber : fetchNumber spec.type args = number
  obtain ⟨x, hx, hne⟩ := exists_length_ne number.1 number.2 hneg hbase
  have hlength := length_intText_of_neg number.1 number.2 hneg
  have hdigits := length_intDigits_le hbase (magnitude (intSpec spec args) number.1 number.2)
  have hsign := length_intSign_le (intSpec spec args) (isNegative (intSpec spec args) number.1 number.2)
  have hprec := BitVec.toInt_lt (x := (intSpec spec args).precision)
  have hwidth : (fieldWidth spec args.next).toInt.toNat = 0 := Int.toNat_of_nonpos (Int.le_of_lt hneg)
  rw [vcprintf_printInt, hnumber, intChars_eq hbase] at hvc
  obtain ⟨text, htext, heq⟩ := (bind_eq_ok _ _ _).mp hvc
  cases heq
  split at htext
  . contradiction
  . next hdivide =>
    cases htext
    have hmax : 2 ^ 24 + x ≤ intMax := by
      unfold intMax
      omega
    have hstored := h (2 ^ 24 + x) (by lia) hmax
    rw [vsnprintf_printInt, hnumber, storedWidth_of_neg hneg hmax, intChars_eq (by exact hbase)] at hstored
    have hfield := toInt_ofNat_add hx
    generalize BitVec.ofNat 24 (2 ^ 24 + x) = width at hstored hfield
    obtain ⟨text, htext, heq⟩ := (bind_eq_ok _ _ _).mp hstored
    rw [if_neg hdivide] at htext
    cases htext
    have hsame := congrArg (fun p : List (BitVec 8) × VaList => p.1.length) (Except.ok.inj heq)
    dsimp only at hsame
    rw [List.length_take, Nat.min_comm] at hsame
    exact hne width hfield hsame

/--
If a conversion stores what is emitted for all lengths that suffice, it agrees.
-/
theorem specAgrees_of_printSpec (hbase : IsBase spec.base) (hvc : vcprintf.printSpec spec args = .ok (chars, args'))
    (hroom : chars.length + specWidth spec args < intMax)
    (h : ∀ len, chars.length + specWidth spec args < len → len ≤ intMax
      → vsnprintf.printSpec len spec args = .ok (chars, args'))
    : SpecAgrees spec args := by
  have hlast := h intMax hroom (Nat.le_refl _)
  unfold vcprintf.printSpec at hvc
  unfold vsnprintf.printSpec at h hlast
  unfold specWidth at h hroom
  unfold SpecAgrees
  cases htype : spec.type <;> rw [htype] at hvc h hroom hlast <;> dsimp only at hvc h hroom hlast ⊢
  case char =>
    rw [← Except.ok.inj hvc] at hlast
    refine charWidth_of_printChar ?_ (Nat.le_refl _) hlast
    rw [Except.ok.inj hvc]
    exact Nat.lt_of_le_of_lt (Nat.le_add_right _ _) hroom
  case str =>
    refine strAgrees_of_printStr ?_ ((Except.ok.inj hlast).trans (Except.ok.inj hvc).symm)
    rw [Except.ok.inj hvc]
    exact Nat.lt_of_le_of_lt (Nat.le_add_right _ _) hroom
  all_goals exact fieldWidth_of_printInt hbase hvc h

theorem vsnprintf_printSpec_args (h : vsnprintf.printSpec len spec args = .ok (chars, args'))
    : args' = argsBehind spec args := by
  unfold vsnprintf.printSpec at h
  unfold argsBehind
  cases htype : spec.type <;> rw [htype] at h <;> dsimp only at h ⊢
  case percent | invalid | wchar | wstr | double | longDouble =>
    cases h
    rfl
  case char =>
    rw [vsnprintf_printChar] at h
    dsimp only at h
    generalize (if spec.has sfLeft then _ else _) = stored at h
    split at h
    . contradiction
    . cases h
      rfl
  case str =>
    rw [vsnprintf_printStr] at h
    cases h
    rfl
  all_goals
    rw [vsnprintf_printInt] at h
    obtain ⟨_, -, heq⟩ := (bind_eq_ok _ _ _).mp h
    cases heq
    rfl

section Single

variable {fmt : CString} {body : List (BitVec 8)} {r : PrintfResult}

theorem conversions_single (hfmt : fmt.bytes = 0x25 :: body) (hend : (decodeSpec body).2 = [])
    : conversions fmt args = [((decodeSpec body).1, args)] := by
  unfold conversions
  rw [hfmt, List.length_cons, conversionsFrom, if_neg (fun h => h rfl)]
  dsimp only
  rw [hend, conversionsFrom]

theorem vcprintf_single (hfmt : fmt.bytes = 0x25 :: body) (hend : (decodeSpec body).2 = [])
    : vcprintf fmt args
        = vcprintf.printSpec (decodeSpec body).1 args >>= fun p =>
            .ok ⟨p.1 ++ [0], BitVec.ofNat 32 p.1.length⟩ := by
  unfold vcprintf
  rw [hfmt, List.length_cons, vcprintf.go, if_neg (fun h => h rfl)]
  dsimp only
  rw [hend]
  cases vcprintf.printSpec (decodeSpec body).1 args with
  | error e => rfl
  | ok p => cases body <;> rfl

theorem vsnprintf_single (body : List (BitVec 8)) (hfmt : fmt.bytes = 0x25 :: body) (hend : (decodeSpec body).2 = []) (hpos : 0 < len)
    (hmax : len ≤ intMax)
    : vsnprintf len fmt args
        = vsnprintf.printSpec len (decodeSpec body).1 args >>= fun p =>
            .ok ⟨if p.1.length < len then p.1 ++ [0] else p.1, BitVec.ofNat 32 p.1.length⟩ := by
  obtain ⟨len, rfl⟩ : ∃ m, len = m + 1 := ⟨len - 1, by omega⟩
  unfold vsnprintf
  rw [if_neg (Nat.not_lt.mpr hmax), hfmt, List.length_cons, vsnprintf.go, if_neg (fun h => h rfl)]
  dsimp only
  rw [hend]
  cases vsnprintf.printSpec (len + 1) (decodeSpec body).1 args with
  | error e => rfl
  | ok p =>
    have hgo : vsnprintf.go body.length (len + 1 - p.1.length) [] p.2 ([] ++ p.1)
        = .ok (p.1, len + 1 - p.1.length) := by
      cases body <;> rfl
    change (vsnprintf.go body.length (len + 1 - p.1.length) [] p.2 ([] ++ p.1) >>= _) = _
    rw [hgo]
    change Except.ok _ = Except.ok _
    congr 2
    exact if_congr Nat.sub_pos_iff_lt rfl rfl

/--
A conversion that is the whole format agrees if it is stored as it is emitted for all lengths that suffice.
-/
theorem specAgrees_of_vsnprintf (hfmt : fmt.bytes = 0x25 :: body) (hend : (decodeSpec body).2 = [])
    (hvc : vcprintf fmt args = .ok r) (hroom : sufficientLength fmt args r ≤ intMax)
    (h : ∀ len, sufficientLength fmt args r ≤ len → len ≤ intMax → vsnprintf len fmt args = .ok r)
    : SpecAgrees (decodeSpec body).1 args := by
  rw [vcprintf_single hfmt hend] at hvc
  obtain ⟨⟨chars, args'⟩, hchars, heq⟩ := (bind_eq_ok _ _ _).mp hvc
  cases heq
  have hsufficient : sufficientLength fmt args ⟨chars ++ [0], BitVec.ofNat 32 chars.length⟩
      = chars.length + specWidth (decodeSpec body).1 args + 1 := by
    unfold sufficientLength
    rw [conversions_single hfmt hend, List.length_append, List.map_singleton, List.sum_singleton,
      List.length_singleton]
    exact Nat.add_right_comm _ _ _
  rw [hsufficient] at h hroom
  refine specAgrees_of_printSpec (isBase_decodeSpec body) hchars hroom ?_
  intro len hlen hmax
  have hstored := h len hlen hmax
  rw [vsnprintf_single body hfmt hend (Nat.zero_lt_of_lt hlen) hmax] at hstored
  obtain ⟨⟨chars', args''⟩, hchars', heq⟩ := (bind_eq_ok _ _ _).mp hstored
  rw [vcprintf_printSpec_args hchars, hchars', vsnprintf_printSpec_args hchars']
  injection heq with heq
  injection heq with hwritten hcount
  have hsame : chars' = chars := by
    dsimp only at hwritten hcount
    split at hwritten
    . exact List.append_cancel_right hwritten
    . exfalso
      have hcount := congrArg BitVec.toNat hcount
      rw [hwritten, List.length_append, List.length_singleton, BitVec.toNat_ofNat, BitVec.toNat_ofNat] at hcount
      unfold intMax at hmax
      omega
  rw [hsame]

end Single

/--
Every buffer that suffices has the characters that are emitted, and the same value is returned.
-/
def StoresWhatIsEmitted (fmt : CString) (args : VaList) : Prop :=
  ∀ r len, vcprintf fmt args = .ok r → sufficientLength fmt args r ≤ len → len ≤ intMax
    → vsnprintf len fmt args = .ok r

/--
A format stores what it emits if all of its conversions agree, and a single conversion only then.
-/
theorem storesWhatIsEmitted_iff (fmt : CString) (args : VaList)
    : ((∀ p ∈ conversions fmt args, SpecAgrees p.1 p.2) → StoresWhatIsEmitted fmt args)
        ∧
      ∀ (body : List (BitVec 8)) (r : PrintfResult), fmt.bytes = 0x25 :: body
        → (decodeSpec body).2 = [] → vcprintf fmt args = .ok r → sufficientLength fmt args r ≤ intMax
        → (StoresWhatIsEmitted fmt args ↔ SpecAgrees (decodeSpec body).1 args) := by
  refine ⟨?_, ?_⟩
  . intro hagrees r len hvc hlen hmax
    exact vsnprintf_eq_vcprintf hvc hagrees hlen hmax
  . intro body r hfmt hend hvc hroom
    constructor
    . intro h
      exact specAgrees_of_vsnprintf hfmt hend hvc hroom (fun len => h r len hvc)
    . intro hagrees r' len hvc' hlen hmax
      refine vsnprintf_eq_vcprintf hvc' ?_ hlen hmax
      rw [conversions_single hfmt hend]
      exact List.forall_mem_singleton.mpr hagrees

def fiveArgs : VaList := fun _ => ⟨5, none⟩

/--
`%4d` of 5 agrees.
-/
theorem storesWhatIsEmitted_five
    : StoresWhatIsEmitted ⟨[0x25, 0x34, 0x64], by decide⟩ fiveArgs
        ∧
      vcprintf ⟨[0x25, 0x34, 0x64], by decide⟩ fiveArgs = .ok ⟨[0x20, 0x20, 0x20, 0x35, 0], 4⟩ := by
  have hvc : vcprintf ⟨[0x25, 0x34, 0x64], by decide⟩ fiveArgs = .ok ⟨[0x20, 0x20, 0x20, 0x35, 0], 4⟩ := by decide
  have hagrees : SpecAgrees (decodeSpec [0x34, 0x64]).1 fiveArgs := by
    change 0 ≤ (fieldWidth (decodeSpec [0x34, 0x64]).1 fiveArgs.next).toInt
    decide
  exact ⟨((storesWhatIsEmitted_iff _ fiveArgs).2 [0x34, 0x64] _ rfl (by decide) hvc (by decide)).mpr hagrees, hvc⟩

def strArgs : VaList := fun _ => ⟨0, some ⟨[0x61, 0x62], by decide⟩⟩

/--
`%1s` of `ab` stores one character and emits two.
-/
theorem storesWhatIsEmitted_false
    : vcprintf ⟨[0x25, 0x31, 0x73], by decide⟩ strArgs = .ok ⟨[0x61, 0x62, 0], 2⟩
        ∧
      (∀ len, 2 ≤ len → len ≤ intMax
        → vsnprintf len ⟨[0x25, 0x31, 0x73], by decide⟩ strArgs = .ok ⟨[0x61, 0], 1⟩)
        ∧
      ¬StoresWhatIsEmitted ⟨[0x25, 0x31, 0x73], by decide⟩ strArgs := by
  have hvc : vcprintf ⟨[0x25, 0x31, 0x73], by decide⟩ strArgs = .ok ⟨[0x61, 0x62, 0], 2⟩ := by decide
  have hstored (len : Nat) (hlen : 2 ≤ len) (hmax : len ≤ intMax)
      : vsnprintf len ⟨[0x25, 0x31, 0x73], by decide⟩ strArgs = .ok ⟨[0x61, 0], 1⟩ := by
    rw [vsnprintf_single [0x31, 0x73] rfl (by decide) (by omega) hmax]
    change (Except.ok (vsnprintf.printStr len (decodeSpec [0x31, 0x73]).1 strArgs) >>= _) = _
    rw [vsnprintf_printStr]
    obtain ⟨len, rfl⟩ : ∃ m, len = m + 2 := ⟨len - 2, by omega⟩
    have hbytes : (strArg (decodeSpec [0x31, 0x73]).1 strArgs).bytes.take (strKept (decodeSpec [0x31, 0x73]).1 strArgs)
        = [0x61] := by decide
    rw [hbytes]
    change Except.ok _ = Except.ok _
    rw [List.take_of_length_le (show [(0x61 : BitVec 8)].length ≤ len + 2 by rw [List.length_singleton]; omega)]
    dsimp only
    rw [if_pos (by rw [List.length_singleton]; omega)]
    rfl
  refine ⟨hvc, hstored, ?_⟩
  intro h
  have hlen : sufficientLength ⟨[0x25, 0x31, 0x73], by decide⟩ strArgs ⟨[0x61, 0x62, 0], 2⟩ = 4 := by decide
  have hfalse := h _ 4 hvc (Nat.le_of_eq hlen) (by decide)
  rw [hstored 4 (by decide) (by decide)] at hfalse
  exact absurd (Except.ok.inj hfalse) (by decide)

end Emos.Kernel
