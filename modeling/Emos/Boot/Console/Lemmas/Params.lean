import Emos.Boot.Console.Lemmas.Cursor
import Emos.Boot.Console.Lemmas.Utf8
import Mathlib.Data.Fintype.Basic
import Mathlib.Data.List.DropRight
import Mathlib.Tactic.FinCases

/-!
This module contains which parameters of a control sequence arrive at the handler of its last character. A
parameter that is empty is not counted, and the last element of the array takes one digit only.
-/

open Lib

namespace Emos

/--
The digits of a parameter, which may be empty.
-/
abbrev Param := List (Fin 10)

namespace Param

/--
The value of digits that follow a number `n`.
-/
def valueFrom (n : Nat) (p : Param) : Nat := p.foldl (fun n d => 10 * n + d) n

def value (p : Param) : Nat := valueFrom 0 p

def digits (p : Param) : List Nat := p.map fun d => 0x30 + d

/--
The parameters as they are written, with a semicolon between two of them.
-/
def text (params : List Param) : List Nat := List.intercalate [0x3B] (params.map digits)

variable {n : Nat} {p : Param} {params : List Param}

theorem le_valueFrom : n ≤ valueFrom n p := by
  induction p generalizing n with
  | nil => exact Nat.le_refl n
  | cons d p ih =>
    have hle := ih (n := 10 * n + d)
    have hcons : valueFrom n (d :: p) = valueFrom (10 * n + d) p := rfl
    omega

theorem valueFrom_mono {m : Nat} (h : n ≤ m) : valueFrom n p ≤ valueFrom m p := by
  induction p generalizing n m with
  | nil => exact h
  | cons d p ih =>
    apply ih
    dsimp only
    omega

theorem text_cons_cons {q : Param} : text (p :: q :: params) = digits p ++ 0x3B :: text (q :: params) := by
  unfold text
  rw [List.map_cons, List.map_cons, List.intercalate_cons_cons, List.append_assoc]
  rfl

theorem text_singleton : text [p] = digits p := by
  unfold text
  rw [List.map_singleton, List.intercalate_singleton]

/--
What the array holds of the parameter at index `i`.
-/
def stored (i : Nat) (p : Param) : Nat := if i + 1 < 8 then p.value else value (p.take 1)

/--
The elements of the array in use, after parameters that follow those of `kept`.
-/
def keep (kept : List Nat) : List Param → List Nat
  | [] => kept
  | [] :: params => keep kept params
  | (d :: p) :: params => keep (kept ++ [stored kept.length (d :: p)]) params

theorem keep_append (kept : List Nat) (params rest : List Param)
    : keep kept (params ++ rest) = keep (keep kept params) rest := by
  fun_induction keep kept params with
  | case1 kept => rfl
  | case2 kept params ih =>
    rw [List.cons_append, keep, ih]
  | case3 kept d p params ih =>
    rw [List.cons_append, keep, ih]

/--
Empty parameters behind the others change nothing.
-/
theorem keep_rdropWhile (kept : List Nat) (params : List Param)
    : keep kept (params.rdropWhile (·.isEmpty)) = keep kept params := by
  induction params using List.reverseRecOn with
  | nil => rfl
  | append_singleton params p ih =>
    cases p with
    | nil =>
      rw [List.rdropWhile_concat_pos _ _ _ rfl, ih, keep_append]
      rfl
    | cons d p => rw [List.rdropWhile_concat_neg _ _ _ (by simp)]

theorem length_keep_le (kept : List Nat) (params : List Param)
    : (keep kept params).length ≤ kept.length + params.length := by
  fun_induction keep kept params with
  | case1 kept => simp
  | case2 kept params ih =>
    rw [List.length_cons]
    omega
  | case3 kept d p params ih =>
    rw [List.length_append, List.length_singleton] at ih
    rw [List.length_cons]
    omega

theorem forall_ne_nil_of_length_keep (kept : List Nat)
    (h : (keep kept params).length = kept.length + params.length)
    : ∀ p ∈ params, p ≠ [] := by
  fun_induction keep kept params with
  | case1 kept => simp
  | case2 kept params ih =>
    have hle := length_keep_le kept params
    rw [List.length_cons] at h
    omega
  | case3 kept d p params ih =>
    rw [List.length_append, List.length_singleton, List.length_cons] at *
    rw [List.forall_mem_cons]
    exact ⟨List.cons_ne_nil d p, ih (by omega)⟩

theorem keep_eq {kept : List Nat} (h : ∀ p ∈ params, p ≠ [])
    : keep kept params = kept ++ params.mapIdx fun i p => stored (kept.length + i) p := by
  fun_induction keep kept params with
  | case1 kept => simp
  | case2 kept params ih => simp at h
  | case3 kept d p params ih =>
    rw [ih (fun q hq => h q (List.mem_cons_of_mem _ hq)), List.mapIdx_cons, List.append_assoc]
    simp only [List.length_append, List.length_singleton, Nat.add_assoc, Nat.add_comm 1, Nat.add_zero,
      List.singleton_append]

end Param

namespace Ansiterm

open Param

variable {t : Ansiterm} {kept : List Nat} {input : Bool}

/--
The characters with a handler, after which the sequence is over.
-/
def finals : List Char :=
  ['J', 'K', 'S', 'T', 'm', 'A', 'B', 'C', 'D', 'E', 'F', 'G', 'f', 'H', 'h', 'l', 'n', 's', 'u']

/--
In a control sequence, with `kept` in the array.
-/
def reading (t : Ansiterm) (kept : List Nat) (input : Bool) : Ansiterm := {
  t with
  escapeSeqArgs := fun i => if i < 0 then 0 else (kept.getD i.toNat 0 : Nat)
  escapeSeqArgCount := kept.length
  escapeSeqState := .csi
  escapeSeqNumberInput := input
  utf8Fragment := []
}

theorem putChars_csi {ch : Nat} {chs : List Nat} {c : Char} {kept' : List Nat} {input' : Bool}
    (hc : Char.ofNat (ch % 256) = c)
    (h : (t.reading kept input).handleCsi c = .ok (t.reading kept' input'))
    : (t.reading kept input).putChars (ch :: chs) = (t.reading kept' input').putChars chs := by
  have hput : (t.reading kept input).putChar ch = .ok (t.reading kept' input') := by
    rw [← h, ← hc]
    rfl
  rw [putChars, hput]
  rfl

theorem handleCsi_digit (d : Fin 10) : t.handleCsi (Char.ofNat ((0x30 + d) % 256)) = t.handleDigit d := by
  fin_cases d <;> rfl

theorem reading_arg (t : Ansiterm) (kept : List Nat) (input : Bool) (i : Nat)
    : (t.reading kept input).escapeSeqArgs i = (kept.getD i 0 : Nat) := by
  have hle : ¬ (i : Int) < 0 := by omega
  unfold reading
  dsimp only
  rw [if_neg hle, Int.toNat_natCast]

/--
The array behind the elements in use is zero, so that this is also how an element is added.
-/
theorem setArg_reading {n : Nat} (v : Nat) (hn : kept.length ≤ n + 1) (hle : n ≤ kept.length) (hlt : n < 8)
    : ({ t.reading kept input with escapeSeqArgCount := n + 1, escapeSeqNumberInput := true } : Ansiterm).setArg n v
        = .ok (t.reading (kept.take n ++ [v]) true) := by
  have hindex : (0 : Int) ≤ n ∧ (n : Int) < escapeSeqArgsSize := by
    unfold escapeSeqArgsSize
    omega
  have hlength : (kept.take n ++ [v]).length = n + 1 := by simp [hle]
  have hargs : Function.update (t.reading kept input).escapeSeqArgs n (v : Int)
      = (t.reading (kept.take n ++ [v]) true).escapeSeqArgs := by
    funext i
    by_cases hi : i < 0
    . have hne : i ≠ n := by omega
      rw [Function.update_of_ne hne]
      exact (if_pos hi).trans (if_pos hi).symm
    . obtain ⟨j, rfl⟩ := Int.eq_ofNat_of_zero_le (Int.not_lt.mp hi)
      rw [reading_arg]
      by_cases hj : j = n
      . rw [hj, Function.update_self]
        simp [hle]
      . have hne : (j : Int) ≠ n := by lia
        rw [Function.update_of_ne hne, reading_arg]
        simp only [List.getD_eq_getElem?_getD]
        rcases Nat.lt_or_gt_of_ne hj with hlow | hhigh
        . rw [List.getElem?_append_left (by simp; lia), List.getElem?_take_of_lt hlow]
        . rw [List.getElem?_eq_none (by omega), List.getElem?_eq_none (by omega)]
  rw [setArg, if_pos hindex]
  unfold reading at hargs ⊢
  dsimp only at hargs ⊢
  rw [hargs, hlength]
  rfl

theorem int32_natCast {n : Nat} (h : n < 2 ^ 31) : int32 n = n := by
  unfold int32
  rw [Int.bmod_eq_of_le (by omega) (by omega)]

/--
A digit goes to the element at index `n`.
-/
theorem handleDigit_reading (t : Ansiterm) (kept : List Nat) (input : Bool) {n : Nat} (d : Fin 10)
    (hlt : kept.length < 8)
    (hcount : (if input then (kept.length : Int) else kept.length + 1) = n + 1)
    (hvalue : 10 * kept.getD n 0 + d < 2 ^ 31)
    : (t.reading kept input).handleDigit d = .ok (t.reading (kept.take n ++ [10 * kept.getD n 0 + d]) true) := by
  have hroom : ¬ (t.reading kept input).escapeSeqArgCount ≥ escapeSeqArgsSize := by
    change ¬ (kept.length : Int) ≥ 8
    omega
  have hn : n ≤ kept.length ∧ kept.length ≤ n + 1 := by
    split at hcount <;> omega
  have hnew : int32 (int32 (((kept.getD n 0 : Nat) : Int) * 10) + (d : Nat)) = (10 * kept.getD n 0 + d : Nat) := by
    have hmul : ((kept.getD n 0 : Nat) : Int) * 10 = (10 * kept.getD n 0 : Nat) := by omega
    rw [hmul, int32_natCast (by omega), ← Int.natCast_add, int32_natCast hvalue]
  rw [← setArg_reading _ hn.2 hn.1 (by omega), ← hnew, ← reading_arg t kept input n]
  rw [handleDigit, if_neg hroom]
  have hindex : (n : Int) + 1 - 1 = n := by omega
  change Ansiterm.setArg { t.reading kept input with
    escapeSeqArgCount := if input then (kept.length : Int) else kept.length + 1
    escapeSeqNumberInput := true } ((if input then (kept.length : Int) else kept.length + 1) - 1) (int32 (int32
      ((t.reading kept input).escapeSeqArgs ((if input then (kept.length : Int) else kept.length + 1) - 1) * 10) + d)) = _
  rw [hcount, hindex]

theorem putChars_digit {kept' : List Nat} {input' : Bool} (d : Fin 10) (chs : List Nat)
    (h : (t.reading kept input).handleDigit d = .ok (t.reading kept' input'))
    : (t.reading kept input).putChars ((0x30 + d) :: chs) = (t.reading kept' input').putChars chs := by
  apply putChars_csi rfl
  rw [handleCsi_digit]
  exact h

/--
The digits behind the first one, of which the last element of the array takes none.
-/
theorem putChars_digits (p : Param) (chs : List Nat) {v : Nat} (hvalue : valueFrom v p < 2 ^ 31)
    (hlength : kept.length < 8)
    : (t.reading (kept ++ [v]) true).putChars (digits p ++ chs)
        = (t.reading (kept ++ [if kept.length + 1 < 8 then valueFrom v p else v]) true).putChars chs := by
  induction p generalizing v with
  | nil =>
    have hv : (if kept.length + 1 < 8 then valueFrom v [] else v) = v := ite_self v
    rw [hv]
    rfl
  | cons d p ih =>
    have hcons : valueFrom v (d :: p) = valueFrom (10 * v + d) p := rfl
    have hle := le_valueFrom (n := 10 * v + d) (p := p)
    have hget : (kept ++ [v]).getD kept.length 0 = v := by simp
    rw [hcons] at hvalue ⊢
    by_cases hroom : kept.length + 1 < 8
    . have hdigit : (t.reading (kept ++ [v]) true).handleDigit d
          = .ok (t.reading (kept ++ [10 * v + (d : Nat)]) true) := by
        have hcount : ((kept ++ [v]).length : Int) = kept.length + 1 := by simp
        have hrun := handleDigit_reading t (kept ++ [v]) true d (by simp; lia) hcount (by rw [hget]; lia)
        rw [hget, List.take_left] at hrun
        exact hrun
      have hrest := ih hvalue
      rw [if_pos hroom] at hrest ⊢
      exact (putChars_digit d (digits p ++ chs) hdigit).trans hrest
    . have hdigit : (t.reading (kept ++ [v]) true).handleDigit d = .ok (t.reading (kept ++ [v]) true) := by
        apply if_pos
        change (((kept ++ [v]).length : Nat) : Int) ≥ 8
        simp
        omega
      have hrest := ih (v := v) (Nat.lt_of_le_of_lt (valueFrom_mono (by omega)) hvalue)
      rw [if_neg hroom] at hrest ⊢
      exact (putChars_digit d (digits p ++ chs) hdigit).trans hrest

theorem putChars_param (p : Param) (chs : List Nat) (hvalue : value p < 2 ^ 31) (hlength : kept.length < 8)
    : ∃ input', (t.reading kept false).putChars (digits p ++ chs)
        = (t.reading (keep kept [p]) input').putChars chs := by
  cases p with
  | nil => exact ⟨false, rfl⟩
  | cons d p =>
    have hcons : value (d :: p) = valueFrom d p := by
      change valueFrom (10 * 0 + d) p = valueFrom d p
      rw [Nat.mul_zero, Nat.zero_add]
    have hfirst : (t.reading kept false).handleDigit d = .ok (t.reading (kept ++ [(d : Nat)]) true) := by
      have hrun := handleDigit_reading t kept false d hlength rfl (by simp; omega)
      rw [List.take_length] at hrun
      simpa using hrun
    have hstored : stored kept.length (d :: p) = if kept.length + 1 < 8 then valueFrom d p else d := by
      unfold stored
      rw [hcons]
      simp [value, valueFrom]
    refine ⟨true, ?_⟩
    rw [keep, keep, hstored, ← putChars_digits p chs (hcons ▸ hvalue) hlength]
    exact putChars_digit d (digits p ++ chs) hfirst

/--
The state in front of the last character, by induction on the parameters.
-/
theorem putChars_text {params : List Param} (hvalue : ∀ p ∈ params, value p < 2 ^ 31)
    (hlength : kept.length + params.length ≤ 8)
    : ∃ input', (t.reading kept false).putChars (text params) = .ok (t.reading (keep kept params) input') := by
  induction params generalizing kept with
  | nil => exact ⟨false, rfl⟩
  | cons p params ih =>
    rw [List.forall_mem_cons] at hvalue
    rw [List.length_cons] at hlength
    cases params with
    | nil =>
      obtain ⟨input', hrun⟩ := putChars_param (t := t) p [] hvalue.1 (by omega : kept.length < 8)
      rw [List.append_nil] at hrun
      exact ⟨input', (congrArg _ text_singleton).trans hrun⟩
    | cons q params =>
      have hle := length_keep_le kept [p]
      rw [List.length_singleton] at hle
      obtain ⟨input1, hparam⟩ := putChars_param (t := t) p (0x3B :: text (q :: params)) hvalue.1
        (by omega : kept.length < 8)
      obtain ⟨input', hrest⟩ := ih hvalue.2 (by omega : (keep kept [p]).length + _ ≤ 8)
      refine ⟨input', ?_⟩
      have hkeep : keep kept (p :: q :: params) = keep (keep kept [p]) (q :: params) :=
        keep_append kept [p] (q :: params)
      rw [text_cons_cons, hparam, hkeep, ← hrest]
      apply putChars_csi (c := ';') rfl
      rfl

theorem putChars_csi_text (hstate : t.escapeSeqState = .default) {params : List Param}
    (hvalue : ∀ p ∈ params, value p < 2 ^ 31) (hlength : params.length ≤ 8)
    : ∃ con input, t.putChars (0x1B :: 0x5B :: text params) = .ok ((t.setCon con).reading (keep [] params) input) := by
  have hesc : t.putChar 0x1B = .ok ((t.setState .esc).setCursorPos t.con.cursorCol t.con.cursorRow) := by
    rw [putChar, hstate]
    rfl
  have hnil : ∀ u : Ansiterm, (u.handleEsc '[').setFragment [] = u.reading [] false := by
    intro u
    unfold handleEsc reading
    simp [setState, setFragment]
  have hlength0 : ([] : List Nat).length + params.length ≤ 8 := by simpa using hlength
  obtain ⟨input, hrun⟩ := putChars_text (t := (t.setCursorPos t.con.cursorCol t.con.cursorRow)) hvalue hlength0
  refine ⟨t.con.setCursorPos t.con.cursorCol t.con.cursorRow, input, ?_⟩
  rw [putChars, hesc]
  refine Eq.trans ?_ hrun
  refine congrArg (fun u => Ansiterm.putChars u (text params)) (hnil _)

/--
The elements that are in use are the parameters.
-/
def Sees (t : Ansiterm) (params : List Param) : Prop :=
  t.escapeSeqArgCount = params.length ∧ ∀ i, (h : i < params.length) → t.escapeSeqArgs i = (value params[i] : Nat)

/--
No parameter is empty, and the value of the last element of the array has one digit.
-/
def Complete (params : List Param) : Prop :=
  (∀ p ∈ params, p ≠ []) ∧ ∀ h : 7 < params.length, value params[7] = value (params[7].take 1)

theorem sees_iff {params : List Param} (hlength : params.length ≤ 8)
    : (t.reading (keep [] params) input).Sees params ↔ Complete params := by
  have hget : (∀ p ∈ params, p ≠ []) → ∀ i, (h : i < params.length)
      → (t.reading (keep [] params) input).escapeSeqArgs i = (stored i params[i] : Nat) := by
    intro hfull i hi
    rw [reading_arg, keep_eq hfull]
    simp [hi]
  constructor
  . intro ⟨hcount, hargs⟩
    have hfull : ∀ p ∈ params, p ≠ [] := by
      apply forall_ne_nil_of_length_keep []
      have hnat : ((keep [] params).length : Int) = params.length := hcount
      simp
      omega
    refine ⟨hfull, ?_⟩
    intro hi
    have heq := (hget hfull 7 hi).symm.trans (hargs 7 hi)
    exact (Int.ofNat.inj heq).symm
  . intro ⟨hfull, hlast⟩
    constructor
    . change ((keep [] params).length : Int) = params.length
      rw [keep_eq hfull]
      simp
    . intro i hi
      rw [hget hfull i hi, stored]
      split
      . rfl
      . have hseven : i = 7 := by omega
        cases hseven
        rw [hlast hi]

/--
What the handler of the character needs, so that it stays inside of its arrays.
-/
def HandlerFits (t : Ansiterm) (c : Char) : Prop :=
  match c with
  | 'J' | 'K' => t.OnScreen
  | 'S' => t.ScrollFits (t.arg 0 1)
  | 'T' => t.ScrollFits (-t.arg 0 1)
  | 'm' => t.arg 0 0 = 38 ∨ t.arg 0 0 = 48 → t.TameColor
  | _ => True

theorem bind_setState {r : Run Ansiterm} {t1 : Ansiterm} {state : EscapeState}
    (h : (r >>= fun t => .ok (t.setState state)) = .ok t1)
    : t1.escapeSeqState = state := by
  rw [bind_eq_ok] at h
  obtain ⟨t2, _, heq⟩ := h
  cases heq
  rfl

theorem handleCsi_default {c : Char} {t1 : Ansiterm} (hc : c ∈ finals) (hrun : t.handleCsi c = .ok t1)
    : t1.escapeSeqState = .default := by
  have hed : t.handleEd = .ok t1 → t1.escapeSeqState = .default := bind_setState
  have hel : t.handleEl = .ok t1 → t1.escapeSeqState = .default := bind_setState
  have hsu : t.handleSu = .ok t1 → t1.escapeSeqState = .default := bind_setState
  have hsd : t.handleSd = .ok t1 → t1.escapeSeqState = .default := bind_setState
  have hsgr : t.handleSgr = .ok t1 → t1.escapeSeqState = .default := by
    intro h
    rw [handleSgr, bind_eq_ok] at h
    obtain ⟨attr, _, heq⟩ := h
    cases heq
    rfl
  unfold finals at hc
  fin_cases hc
  . exact hed hrun
  . exact hel hrun
  . exact hsu hrun
  . exact hsd hrun
  . exact hsgr hrun
  -- the other handlers do not fail
  all_goals
    cases hrun
    rfl

theorem bind_total {α β : Type} {r : Run α} {k : α → β} {P : α → Prop} (h : ∃ a, r = .ok a ∧ P a)
    : ∃ b, (r >>= fun a => .ok (k a)) = .ok b := by
  obtain ⟨a, hrun, _⟩ := h
  rw [hrun]
  exact ⟨k a, rfl⟩

theorem handleCsi_total {c : Char} (hc : c ∈ finals) (hfits : t.HandlerFits c)
    : ∃ t1, t.handleCsi c = .ok t1 := by
  unfold finals at hc
  fin_cases hc
  . exact bind_total (eraseInDisplay_total hfits _)
  . exact bind_total (eraseInLine_total hfits _)
  . exact bind_total (scrollScreen_total hfits)
  . exact bind_total (scrollScreen_total hfits)
  . obtain ⟨attr, hattr⟩ := selectGraphicRendition_total hfits
    exact bind_total (P := fun _ => True) ⟨attr, hattr, trivial⟩
  all_goals exact ⟨_, rfl⟩

theorem putChar_final {c : Char} (hc : c ∈ finals)
    : (t.reading kept input).putChar c.toNat = (t.reading kept input).handleCsi c := by
  unfold finals at hc
  fin_cases hc <;> rfl

/--
After `ESC [` and the parameters the handler of `c` finds those of `seen`, and the terminal is ready for text
when it has returned.
-/
def Handled (t : Ansiterm) (params seen : List Param) (c : Char) : Prop :=
  ∃ t1, t.putChars (0x1B :: 0x5B :: text params) = .ok t1 ∧ t1.putChar c.toNat = t1.handleCsi c ∧ t1.Sees seen
    ∧ (t1.HandlerFits c → ∃ t2, t1.handleCsi c = .ok t2)
    ∧ ∀ t2, t1.handleCsi c = .ok t2 → t2.escapeSeqState = .default

/--
The parameters up to the last one that is not empty.
-/
def trim (params : List Param) : List Param := params.rdropWhile (·.isEmpty)

theorem handled_iff (hstate : t.escapeSeqState = .default) {params : List Param} {c : Char} (hc : c ∈ finals)
    (hvalue : ∀ p ∈ params, value p < 2 ^ 31) (hlength : params.length ≤ 8)
    : ∃ u input, ∀ seen, t.Handled params seen c ↔ (reading u (keep [] params) input).Sees seen := by
  obtain ⟨con, input, hrun⟩ := putChars_csi_text hstate hvalue hlength
  refine ⟨t.setCon con, input, ?_⟩
  intro seen
  constructor
  . intro ⟨t1, hrun1, _, hsees, _⟩
    have heq : (t.setCon con).reading (keep [] params) input = t1 := Except.ok.inj (hrun.symm.trans hrun1)
    rw [heq]
    exact hsees
  . intro hsees
    exact ⟨_, hrun, putChar_final hc, hsees, handleCsi_total hc, fun _ => handleCsi_default hc⟩

/--
The second part is about parameters that are not counted when they are empty and nothing follows.
-/
theorem csi_parameters_iff (hstate : t.escapeSeqState = .default) {params : List Param} {c : Char} (hc : c ∈ finals)
    (hvalue : ∀ p ∈ params, value p < 2 ^ 31) (hlength : params.length ≤ 8)
    : (t.Handled params params c ↔ Complete params) ∧ (t.Handled params (trim params) c ↔ Complete (trim params)) := by
  have htrim : (trim params).length ≤ 8 := Nat.le_trans (List.rdropWhile_prefix _ _).length_le hlength
  have hkeep : keep [] (trim params) = keep [] params := keep_rdropWhile [] params
  obtain ⟨u, input, hiff⟩ := handled_iff hstate hc hvalue hlength
  constructor
  . rw [hiff, sees_iff hlength]
  . rw [hiff, ← hkeep, sees_iff htrim]

theorem csi_parameters_iff_position
    : (Writing.textTerminal.term.Handled [[5], [1, 0]] [[5], [1, 0]] 'H' ↔ Complete [[5], [1, 0]])
        ∧ (Writing.textTerminal.term.Handled [[5], [1, 0]] (trim [[5], [1, 0]]) 'H'
          ↔ Complete (trim [[5], [1, 0]])) :=
  csi_parameters_iff rfl (by decide) (by decide) (by decide)

/--
`ESC [ ; 5 H` sets the row instead of the column.
-/
theorem empty_parameter_lost : ¬ Writing.textTerminal.term.Handled [[], [5]] [[], [5]] 'H' := by
  have hvalue : ∀ p ∈ ([[], [5]] : List Param), value p < 2 ^ 31 := by decide
  have hstate : Writing.textTerminal.term.escapeSeqState = .default := rfl
  obtain ⟨u, input, hiff⟩ := handled_iff (c := 'H') hstate (by decide) hvalue (by decide)
  rw [hiff, sees_iff (by decide)]
  intro h
  exact h.1 [] (by decide) rfl

end Ansiterm

end Emos
