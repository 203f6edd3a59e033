import Mathlib.Data.Nat.Basic
import Mathlib.Logic.Function.Iterate

/-!
This module contains the Gregorian calendar: which date follows a date, and the number of a day.
-/

namespace Lib

namespace Gregorian

def IsLeap (year : Nat) : Prop := (year % 4 = 0 ∧ year % 100 ≠ 0) ∨ year % 400 = 0

instance (year : Nat) : Decidable (IsLeap year) := inferInstanceAs (Decidable (_ ∨ _))

/--
Months are counted from 0.
-/
def daysInMonth (year month : Nat) : Nat :=
  if month = 1 then
    if IsLeap year then 29 else 28
  else if month = 3 ∨ month = 5 ∨ month = 8 ∨ month = 10 then
    30
  else
    31

theorem one_le_daysInMonth (year month : Nat) : 1 ≤ daysInMonth year month := by
  unfold daysInMonth
  split
  . split
    . decide
    . decide
  . split
    . decide
    . decide

theorem daysInMonth_le (year month : Nat) : daysInMonth year month ≤ 31 := by
  unfold daysInMonth
  split
  . split
    . decide
    . decide
  . split
    . decide
    . decide

@[ext]
structure Date where
  year : Nat
  month : Nat
  day : Nat
  month_lt : month < 12
  one_le_day : 1 ≤ day
  day_le : day ≤ daysInMonth year month
  deriving DecidableEq

namespace Date

def next (d : Date) : Date :=
  if hday : d.day < daysInMonth d.year d.month then
    ⟨d.year, d.month, d.day + 1, d.month_lt, Nat.succ_le_succ (Nat.zero_le _), hday⟩
  else if hmonth : d.month + 1 < 12 then
    ⟨d.year, d.month + 1, 1, hmonth, Nat.le_refl 1, one_le_daysInMonth _ _⟩
  else
    ⟨d.year + 1, 0, 1, Nat.succ_pos 11, Nat.le_refl 1, one_le_daysInMonth _ _⟩

def newYear (year : Nat) : Date := ⟨year, 0, 1, Nat.succ_pos 11, Nat.le_refl 1, one_le_daysInMonth _ _⟩

/--
The year in which the last March began.
-/
def marchYear (d : Date) : Nat := if d.month < 2 then d.year - 1 else d.year

/--
Months are counted from March on.
-/
def marchMonth (d : Date) : Nat := if d.month < 2 then d.month + 10 else d.month - 2

end Date

def daysBeforeYear (year : Nat) : Nat := 365 * year + year / 4 - year / 100 + year / 400

def daysBeforeMonth (month : Nat) : Nat := (153 * month + 2) / 5

/--
The days since 1 March of year 0.
-/
def Date.dayNumber (d : Date) : Nat := daysBeforeYear d.marchYear + daysBeforeMonth d.marchMonth + (d.day - 1)

theorem div_succ (year n : Nat)
    : (year + 1) / n = year / n + if (year + 1) % n = 0 then 1 else 0 := by
  rw [Nat.succ_div]
  simp only [Nat.dvd_iff_mod_eq_zero]

theorem daysBeforeYear_succ (year : Nat)
    : daysBeforeYear (year + 1) = daysBeforeYear year + 365 + if IsLeap (year + 1) then 1 else 0 := by
  have hle : year / 100 ≤ year / 4 := Nat.div_le_div_left (by decide) (by decide)
  have h100 : (year + 1) % 100 = 0 → (year + 1) % 4 = 0 := by lia
  have h400 : (year + 1) % 400 = 0 → (year + 1) % 100 = 0 := by lia
  unfold daysBeforeYear IsLeap
  rw [div_succ year 4, div_succ year 100, div_succ year 400]
  generalize year / 4 = quarters at *
  generalize year / 100 = centuries at *
  generalize year / 400 = eras at *
  by_cases hquarter : (year + 1) % 4 = 0
  . by_cases hcentury : (year + 1) % 100 = 0
    . by_cases hera : (year + 1) % 400 = 0
      . simp [hquarter, hcentury, hera]
        lia
      . simp [hquarter, hcentury, hera]
        lia
    . simp [hquarter, hcentury, mt h400 hcentury]
      lia
  . simp [hquarter, mt h100 hquarter, mt h400 (mt h100 hquarter)]
    lia

theorem daysBeforeMonth_succ {d : Date} (h : d.month ≠ 1)
    : daysBeforeMonth (d.marchMonth + 1) = daysBeforeMonth d.marchMonth + daysInMonth d.year d.month := by
  have hmonths : ∀ m < 12, m ≠ 1 → daysBeforeMonth ((if m < 2 then m + 10 else m - 2) + 1)
      = daysBeforeMonth (if m < 2 then m + 10 else m - 2)
        + if m = 3 ∨ m = 5 ∨ m = 8 ∨ m = 10 then 30 else 31 := by
    decide
  unfold Date.marchMonth daysInMonth
  rw [if_neg h]
  exact hmonths d.month d.month_lt h

namespace Date

theorem next_of_lt {d : Date} (h : d.day < daysInMonth d.year d.month) : d.next.dayNumber = d.dayNumber + 1 := by
  have hone := d.one_le_day
  unfold next
  rw [dif_pos h]
  unfold dayNumber marchYear marchMonth
  dsimp only
  lia

theorem dayNumber_next {d : Date} (hyear : 1 ≤ d.year) : d.next.dayNumber = d.dayNumber + 1 := by
  have hone := d.one_le_day
  have hlast := d.day_le
  have hlt := d.month_lt
  by_cases hday : d.day < daysInMonth d.year d.month
  . exact next_of_lt hday
  . unfold next
    rw [dif_neg hday]
    by_cases hfeb : d.month = 1
    . have hdays : daysInMonth d.year d.month = 28 + if IsLeap d.year then 1 else 0 := by
        unfold daysInMonth
        rw [if_pos hfeb]
        split
        . rfl
        . rfl
      have hyears := daysBeforeYear_succ (d.year - 1)
      rw [show d.year - 1 + 1 = d.year by lia] at hyears
      rw [dif_pos (by omega)]
      unfold dayNumber marchYear marchMonth
      dsimp only
      rw [if_neg (by omega), if_neg (by omega), if_pos (by omega), if_pos (by omega), hfeb, hyears]
      unfold daysBeforeMonth
      lia
    . have hmonths := daysBeforeMonth_succ hfeb
      have hone : d.day = daysInMonth d.year d.month := by omega
      split
      . next hnext =>
        have hmarch : (⟨d.year, d.month + 1, 1, hnext, Nat.le_refl 1, one_le_daysInMonth _ _⟩ : Date).marchYear
            = d.marchYear := by
          unfold marchYear
          dsimp only
          split
          . rw [if_pos (by omega)]
          . rw [if_neg (by lia)]
        have hmarchMonth : (⟨d.year, d.month + 1, 1, hnext, Nat.le_refl 1, one_le_daysInMonth _ _⟩ : Date).marchMonth
            = d.marchMonth + 1 := by
          unfold marchMonth
          dsimp only
          split
          . rw [if_pos (by omega)]
          . rw [if_neg (by lia)]
            lia
        unfold dayNumber
        rw [hmarch, hmarchMonth, hmonths]
        dsimp only
        lia
      . have hmarch : (newYear (d.year + 1)).marchYear = d.marchYear := by
          unfold marchYear newYear
          dsimp only
          rw [if_pos (by decide), if_neg (by omega)]
          lia
        have hmarchMonth : (newYear (d.year + 1)).marchMonth = d.marchMonth + 1 := by
          unfold marchMonth newYear
          dsimp only
          rw [if_pos (by decide), if_neg (by omega)]
          lia
        change (newYear (d.year + 1)).dayNumber = _
        unfold dayNumber
        rw [hmarch, hmarchMonth, hmonths]
        unfold newYear
        dsimp only
        lia

theorem year_le_next (d : Date) : d.year ≤ d.next.year := by
  unfold next
  split
  . exact Nat.le_refl _
  . split
    . exact Nat.le_refl _
    . exact Nat.le_succ _

theorem one_le_marchYear {d : Date} (hyear : 1 < d.year) : 1 ≤ d.marchYear := by
  unfold marchYear
  split
  . omega
  . omega

/--
The days since the last 1 March.
-/
def marchDay (d : Date) : Nat := daysBeforeMonth d.marchMonth + (d.day - 1)

end Date

/--
The year among 400 years of which `doe` is a day.
-/
def yearOfEra (doe : Nat) : Nat := (doe - doe / 1460 + doe / 36524 - doe / 146096) / 365

def daysOfYears (yoe : Nat) : Nat := 365 * yoe + yoe / 4 - yoe / 100

def monthOfDay (doy : Nat) : Nat := (5 * doy + 2) / 153

theorem yearOfEra_of_parts {c q r doy : Nat} (hc : c < 4) (hq : q < 25) (hr : r < 4) (hdoy : doy ≤ 365)
    (hleap : doy = 365 → r = 3 ∧ (q = 24 → c = 3))
    : yearOfEra (36524 * c + 1461 * q + 365 * r + doy) = 100 * c + 4 * q + r := by
  generalize hdoe : 36524 * c + 1461 * q + 365 * r + doy = doe
  have hera : doe / 146096 = if doe = 146096 then 1 else 0 := by
    split
    . omega
    . lia
  have hcentury : doe / 36524 = c + if doe = 146096 then 1 else 0 := by
    split
    . lia
    . lia
  have hquarter : doe / 1460 = 25 * c + q + if 1460 ≤ 24 * c + q + 365 * r + doy then 1 else 0 := by
    split
    . lia
    . lia
  unfold yearOfEra
  rw [hera, hcentury, hquarter]
  split
  . split
    . lia
    . lia
  . split
    . lia
    . lia

theorem daysOfYears_parts {c q r : Nat} (hc : c < 4) (hq : q < 25) (hr : r < 4)
    : daysOfYears (100 * c + 4 * q + r) = 36524 * c + 1461 * q + 365 * r := by
  have hquarter : (100 * c + 4 * q + r) / 4 = 25 * c + q := by lia
  have hcentury : (100 * c + 4 * q + r) / 100 = c := by lia
  unfold daysOfYears
  rw [hquarter, hcentury]
  lia

theorem yearOfEra_eq {yoe doy : Nat} (hyoe : yoe < 400) (hdoy : doy < 365 + if IsLeap (yoe + 1) then 1 else 0)
    : yearOfEra (daysOfYears yoe + doy) = yoe := by
  obtain ⟨c, q, r, hc, hq, hr, rfl⟩ : ∃ c q r, c < 4 ∧ q < 25 ∧ r < 4 ∧ yoe = 100 * c + 4 * q + r :=
    ⟨yoe / 100, yoe % 100 / 4, yoe % 4, by lia, by lia, by lia, by lia⟩
  rw [daysOfYears_parts hc hq hr]
  split at hdoy
  . next hleap =>
    apply yearOfEra_of_parts hc hq hr (by omega)
    intro _
    unfold IsLeap at hleap
    lia
  . exact yearOfEra_of_parts hc hq hr (by omega) (by omega)

/--
The 400 years of an era have the same number of days in every era.
-/
theorem daysBeforeYear_eq (year : Nat)
    : daysBeforeYear year = 146097 * (year / 400) + daysOfYears (year % 400) := by
  unfold daysBeforeYear daysOfYears
  lia

namespace Date

theorem february_eq {d : Date} (h : d.month = 1) (hyear : 1 ≤ d.year)
    : d.marchMonth = 11 ∧ d.marchYear + 1 = d.year
        ∧ daysInMonth d.year d.month = 28 + if IsLeap (d.marchYear + 1) then 1 else 0 := by
  have hmarch : d.marchYear + 1 = d.year := by
    unfold marchYear
    rw [if_pos (by omega)]
    omega
  refine ⟨?_, hmarch, ?_⟩
  . unfold marchMonth
    rw [if_pos (by omega), h]
  . unfold daysInMonth
    rw [if_pos h, hmarch]
    split
    . rfl
    . rfl

theorem marchMonth_le {d : Date} (h : d.month ≠ 1) : d.marchMonth ≤ 10 := by
  have hlt := d.month_lt
  unfold marchMonth
  split
  . omega
  . omega

theorem marchDay_lt {d : Date} (hyear : 1 ≤ d.year)
    : d.marchDay < 365 + if IsLeap (d.marchYear + 1) then 1 else 0 := by
  have hlast := d.day_le
  have hone := d.one_le_day
  by_cases hfeb : d.month = 1
  . obtain ⟨hmonth, -, hdays⟩ := february_eq hfeb hyear
    unfold marchDay
    rw [hmonth, show daysBeforeMonth 11 = 337 from rfl]
    omega
  . have hmonths := daysBeforeMonth_succ hfeb
    have hle := marchMonth_le hfeb
    unfold daysBeforeMonth at hmonths
    unfold marchDay daysBeforeMonth
    lia

theorem marchDay_lt_next {d : Date} (hyear : 1 ≤ d.year) : d.marchDay < daysBeforeMonth (d.marchMonth + 1) := by
  have hlast := d.day_le
  have hone := d.one_le_day
  by_cases hfeb : d.month = 1
  . have hlt := marchDay_lt hyear
    rw [(february_eq hfeb hyear).1]
    change _ < 367
    split at hlt
    . omega
    . omega
  . rw [daysBeforeMonth_succ hfeb]
    unfold marchDay
    omega

theorem dayNumber_eq (d : Date)
    : d.dayNumber = 146097 * (d.marchYear / 400) + (daysOfYears (d.marchYear % 400) + d.marchDay) := by
  unfold dayNumber marchDay
  rw [daysBeforeYear_eq]
  omega

end Date

theorem isLeap_mod (year : Nat) : IsLeap (year % 400 + 1) ↔ IsLeap (year + 1) := by
  unfold IsLeap
  lia

theorem dayOfEra_lt {yoe doy : Nat} (hyoe : yoe < 400) (hdoy : doy < 365 + if IsLeap (yoe + 1) then 1 else 0)
    : daysOfYears yoe + doy < 146097 := by
  have hleap : yoe < 399 ∨ yoe = 399 := by omega
  unfold daysOfYears
  split at hdoy
  . lia
  . lia

theorem monthOfDay_eq {month doy : Nat} (hle : daysBeforeMonth month ≤ doy) (hlt : doy < daysBeforeMonth (month + 1))
    : monthOfDay doy = month := by
  unfold daysBeforeMonth at *
  unfold monthOfDay
  lia

namespace Date

variable {d d' : Date}

/--
The date that a day number stands for, from the largest unit to the smallest one.
-/
theorem decode (hyear : 1 ≤ d.year)
    : d.dayNumber / 146097 = d.marchYear / 400
        ∧ yearOfEra (d.dayNumber % 146097) = d.marchYear % 400
        ∧ d.dayNumber % 146097 - daysOfYears (d.marchYear % 400) = d.marchDay
        ∧ monthOfDay d.marchDay = d.marchMonth := by
  have hyoe : d.marchYear % 400 < 400 := Nat.mod_lt _ (by decide)
  have hdoy := marchDay_lt hyear
  simp only [← isLeap_mod d.marchYear] at hdoy
  have hlt := dayOfEra_lt hyoe hdoy
  rw [dayNumber_eq, Nat.mul_add_div (by decide), Nat.mul_add_mod, Nat.div_eq_of_lt hlt, Nat.mod_eq_of_lt hlt]
  refine ⟨rfl, yearOfEra_eq hyoe hdoy, Nat.add_sub_cancel_left .., ?_⟩
  exact monthOfDay_eq (Nat.le_add_right ..) (marchDay_lt_next hyear)

theorem month_eq (d : Date) : d.month = if d.marchMonth < 10 then d.marchMonth + 2 else d.marchMonth - 10 := by
  have hlt := d.month_lt
  unfold marchMonth
  by_cases h : d.month < 2
  . rw [if_pos h, if_neg (by omega)]
    lia
  . rw [if_neg h, if_pos (by omega)]
    omega

theorem year_eq (hyear : 1 ≤ d.year)
    : d.year = if d.marchMonth < 10 then d.marchYear else d.marchYear + 1 := by
  have hlt := d.month_lt
  unfold marchMonth marchYear
  by_cases h : d.month < 2
  . rw [if_pos h, if_pos h, if_neg (by omega)]
    omega
  . rw [if_neg h, if_neg h, if_pos (by omega)]

theorem dayNumber_inj (hyear : 1 ≤ d.year) (hyear' : 1 ≤ d'.year) (h : d.dayNumber = d'.dayNumber) : d = d' := by
  obtain ⟨hera, hyoe, hdoy, hmonth⟩ := decode hyear
  obtain ⟨hera', hyoe', hdoy', hmonth'⟩ := decode hyear'
  rw [h] at hera hyoe hdoy
  have hyears : d.marchYear = d'.marchYear := by lia
  have hdays : d.marchDay = d'.marchDay := by
    rw [← hdoy, ← hdoy', hyears]
  have hmonths : d.marchMonth = d'.marchMonth := by
    rw [← hmonth, ← hmonth', hdays]
  have hone := d.one_le_day
  have hone' := d'.one_le_day
  unfold marchDay at hdays
  rw [hmonths] at hdays
  apply Date.ext
  . rw [year_eq hyear, year_eq hyear', hmonths, hyears]
  . rw [month_eq, month_eq, hmonths]
  . lia

theorem dayNumber_newYear (year : Nat) : (newYear year).dayNumber = daysBeforeYear (year - 1) + 306 := by
  unfold dayNumber marchYear marchMonth newYear
  dsimp only
  rw [if_pos Nat.zero_lt_two, if_pos Nat.zero_lt_two]
  unfold daysBeforeMonth
  omega

theorem dayNumber_of_lt (h : d.month < 2)
    : d.dayNumber = (newYear d.year).dayNumber + (31 * d.month + (d.day - 1)) := by
  have hmonths : daysBeforeMonth d.marchMonth = 306 + 31 * d.month := by
    unfold marchMonth
    rw [if_pos h]
    have hcases : d.month = 0 ∨ d.month = 1 := by omega
    cases hcases with
    | inl h0 => rw [h0]; rfl
    | inr h1 => rw [h1]; rfl
  rw [dayNumber_newYear]
  unfold dayNumber marchYear
  rw [if_pos h, hmonths]
  omega

theorem dayNumber_of_le (h : 2 ≤ d.month) (hyear : 1 ≤ d.year)
    : d.dayNumber = (newYear d.year).dayNumber + (d.marchDay + 59 + if IsLeap d.year then 1 else 0) := by
  have hyears := daysBeforeYear_succ (d.year - 1)
  rw [show d.year - 1 + 1 = d.year by lia] at hyears
  rw [dayNumber_newYear]
  unfold dayNumber marchDay marchYear
  rw [if_neg (by omega), hyears]
  lia

theorem year_le_iterate (d : Date) (n : Nat) : d.year ≤ (next^[n] d).year := by
  induction n with
  | zero => exact Nat.le_refl _
  | succ n ih =>
    rw [Function.iterate_succ_apply']
    exact Nat.le_trans ih (year_le_next _)

theorem dayNumber_iterate (hyear : 1 ≤ d.year) (n : Nat) : (next^[n] d).dayNumber = d.dayNumber + n := by
  induction n with
  | zero => rfl
  | succ n ih =>
    rw [Function.iterate_succ_apply', dayNumber_next (Nat.le_trans hyear (year_le_iterate d n)), ih]
    omega

theorem next_year (d : Date) : d.next.year = d.year ∨ d.next = newYear (d.year + 1) := by
  unfold next
  split
  . exact .inl rfl
  . split
    . exact .inl rfl
    . exact .inr rfl

/--
After a 1 January, the 1 January of the same year came before every date.
-/
theorem exists_newYear (year n : Nat)
    : ∃ k ≤ n, next^[k] (newYear year) = newYear (next^[n] (newYear year)).year := by
  induction n with
  | zero => exact ⟨0, Nat.le_refl 0, rfl⟩
  | succ n ih =>
    obtain ⟨k, hk, hnew⟩ := ih
    rw [Function.iterate_succ_apply']
    cases next_year (next^[n] (newYear year)) with
    | inl hsame =>
      rw [hsame]
      exact ⟨k, by omega, hnew⟩
    | inr hnext =>
      refine ⟨n + 1, Nat.le_refl _, ?_⟩
      rw [Function.iterate_succ_apply', hnext]
      rfl

end Date

end Gregorian

end Lib
