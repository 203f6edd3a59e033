import Emos.Boot.Stdc.Impl.Time
import Emos.Lib.Gregorian

/-!
This module contains for which times the calendar conversions of the boot loader's library are those of the
Gregorian calendar.
-/

open Lib Lib.Gregorian

namespace Emos.Boot

/--
The date of a day, counted from 1 January 1970.
-/
def dateOf (n : Nat) : Date := Date.next^[n] (Date.newYear 1970)

theorem year_le_dateOf (n : Nat) : 1970 ≤ (dateOf n).year := Date.year_le_iterate (Date.newYear 1970) n

theorem dayNumber_dateOf (n : Nat) : (dateOf n).dayNumber = n + 719468 := by
  unfold dateOf
  rw [Date.dayNumber_iterate (by decide), Date.dayNumber_newYear]
  unfold daysBeforeYear
  omega

def leapDays (year : Nat) : Nat := if IsLeap year then 1 else 0

/--
The day of the year that `gmtime_r` finds.
-/
def foundYday (d : Date) : Nat :=
  if d.month < 2 then 31 * d.month + (d.day - 1) else d.marchDay + 58 + leapDays d.year

/--
The result of `gmtime_r` if the time is at day `n` and the year fits.
-/
def tmOf (t : Nat) (result : Tm) : Tm :=
  let d := dateOf (t / 86400)
  { result with
    tmSec := (t % 60 : Nat)
    tmMin := (t / 60 % 60 : Nat)
    tmHour := (t / 3600 % 24 : Nat)
    tmMday := d.day
    tmMon := d.month
    tmYear := d.year - 1900
    tmYday := foundYday d }

theorem tdiv_natCast (t : Nat) (n : Int) : (t : Int).tdiv n = t / n :=
  Int.tdiv_eq_ediv_of_nonneg (Int.natCast_nonneg t)

theorem tmod_natCast (t : Nat) (n : Int) : (t : Int).tmod n = t % n :=
  Int.tmod_eq_emod_of_nonneg (Int.natCast_nonneg t)

/--
The leap years of `gmtime_r` are those of the calendar.
-/
theorem isLeap_tmod (year : Nat)
    : (((year : Int).tmod 4 = 0 ∧ (year : Int).tmod 100 ≠ 0) ∨ (year : Int).tmod 400 = 0) ↔ IsLeap year := by
  unfold IsLeap
  rw [tmod_natCast, tmod_natCast, tmod_natCast]
  lia

theorem day_of_marchDay (d : Date) : d.marchDay - (153 * d.marchMonth + 2) / 5 + 1 = d.day := by
  have hone := d.one_le_day
  unfold Date.marchDay daysBeforeMonth
  lia

theorem foundYday_eq (d : Date)
    : (if d.month + 1 ≤ 2 then
        if d.month + 1 = 1 then d.day - 1 else 31 + d.day - 1
      else
        d.marchDay + 58 + leapDays d.year) = foundYday d := by
  have hone := d.one_le_day
  unfold foundYday
  by_cases h : d.month < 2
  . rw [if_pos h, if_pos (by omega)]
    split
    . omega
    . lia
  . rw [if_neg h, if_neg (by omega)]

theorem month_succ_eq (d : Date)
    : (if d.marchMonth < 10 then d.marchMonth + 3 else d.marchMonth - 9) = d.month + 1 := by
  have hlt := d.month_lt
  unfold Date.marchMonth
  split
  . rw [if_neg (by omega)]
    lia
  . rw [if_pos (by omega)]
    lia

theorem year_of_marchYear {d : Date} (hyear : 1 ≤ d.year)
    : (d.marchYear : Int) + (if d.month + 1 ≤ 2 then 1 else 0) = d.year := by
  unfold Date.marchYear
  split
  . rw [if_pos (by omega)]
    omega
  . rw [if_neg (by omega)]
    omega

theorem marchDate_eq {d : Date} (hyear : 1 ≤ d.year)
    : marchDate d.dayNumber = ((d.marchYear : Int), d.marchDay) := by
  obtain ⟨hera, hyoe, hdoy, -⟩ := Date.decode hyear
  unfold yearOfEra at hyoe
  unfold daysOfYears at hdoy
  have hdoe : ((d.dayNumber : Int) - (d.dayNumber / 146097) * 146097).toNat = d.dayNumber % 146097 := by
    lia
  unfold marchDate
  rw [if_pos (by omega), tdiv_natCast]
  dsimp only
  rw [hdoe, hyoe, hdoy]
  congr 1
  lia

theorem gmtimeR_eq (t : Nat) (result : Tm)
    : gmtimeR t result = if (dateOf (t / 86400)).year < 2 ^ 31 then some (tmOf t result) else none := by
  have hlow := year_le_dateOf (t / 86400)
  have hminutes : (t : Int).tdiv 60 = (t / 60 : Nat) := tdiv_natCast t 60
  have hhours : ((t / 60 : Nat) : Int).tdiv 60 = (t / 3600 : Nat) := by
    rw [tdiv_natCast]
    lia
  have hdays : ((t / 3600 : Nat) : Int).tdiv 24 + 719468 = (dateOf (t / 86400)).dayNumber := by
    rw [tdiv_natCast, dayNumber_dateOf]
    lia
  obtain ⟨-, -, -, hmonth⟩ := Date.decode (d := dateOf (t / 86400)) (by omega)
  unfold monthOfDay at hmonth
  unfold gmtimeR tmOf
  dsimp only
  rw [hminutes, hhours, hdays, marchDate_eq (by omega)]
  generalize dateOf (t / 86400) = d at *
  dsimp only
  rw [hmonth, month_succ_eq, year_of_marchYear (by omega), day_of_marchDay]
  by_cases hyear : d.year < 2 ^ 31
  . rw [if_pos hyear, checked32_bind (by omega), checked32_bind (by omega), Int.sub_add_cancel]
    simp only [isLeap_tmod]
    rw [← leapDays, foundYday_eq, tmod_natCast, tmod_natCast, tmod_natCast]
    rw [show ((d.month + 1 : Nat) : Int) - 1 = d.month by omega]
    rfl
  . rw [if_neg hyear, checked32_bind_none (by omega)]

theorem mktime_eq (t : Nat) (result : Tm) (hyear : (dateOf (t / 86400)).year < 2 ^ 31)
    : mktime (tmOf t result) = if (dateOf (t / 86400)).marchYear ≤ 5879489 then some (t : Int) else none := by
  have hlow := year_le_dateOf (t / 86400)
  have hone := (dateOf (t / 86400)).one_le_day
  have hlast := (dateOf (t / 86400)).day_le
  have hmonth := (dateOf (t / 86400)).month_lt
  have hdays := dayNumber_dateOf (t / 86400)
  unfold mktime tmOf
  dsimp only
  generalize dateOf (t / 86400) = d at *
  have hmon : (if (d.month : Int) < 2 then (d.month : Int) + 12 else d.month) = (d.marchMonth + 2 : Nat) := by
    unfold Date.marchMonth
    split
    . rw [if_pos (by omega)]
      omega
    . rw [if_neg (by omega)]
      lia
  have hmarch : (if (d.month : Int) < 2 then (d.year : Int) - 1 else d.year) = d.marchYear := by
    unfold Date.marchYear
    split
    . rw [if_pos (by omega)]
      lia
    . rw [if_neg (by omega)]
  have hmarchMonth : d.marchMonth ≤ 11 := by
    unfold Date.marchMonth
    split
    . omega
    . lia
  rw [Int.sub_add_cancel, checked32_bind (by omega), hmon, checked32_bind (by omega), hmarch,
    checked32_bind (by lia)]
  by_cases hrange : d.marchYear ≤ 5879489
  . have hthirty := daysInMonth_le d.year d.month
    unfold Date.dayNumber daysBeforeYear daysBeforeMonth at hdays
    rw [if_pos hrange, checked32_bind (by lia), tdiv_natCast, checked32_bind (by lia), tdiv_natCast,
      checked32_bind (by lia), tdiv_natCast, checked32_bind (by lia), checked32_bind (by lia),
      checked32_bind (by lia), checked32_bind (by lia)]
    rw [show (153 * ((d.marchMonth + 2 : Nat) - 2) + 2 : Int) = (153 * d.marchMonth + 2 : Nat) by lia]
    rw [tdiv_natCast, checked32_bind (by lia), checked32_bind (by lia), checked32_bind (by lia)]
    congr 1
    lia
  . rw [if_neg hrange]
    by_cases hyears : 365 * d.marchYear < 2 ^ 31
    . rw [checked32_bind (by lia), tdiv_natCast, checked32_bind_none (by lia)]
    . rw [checked32_bind_none (by omega)]

/--
The arithmetic of both conversions stays in its range.
-/
def InRange (t : Nat) (result : Tm) : Prop := ∃ tm, gmtimeR t result = some tm ∧ (mktime tm).isSome

/--
The last year of 365 days for each of which an `int` has room begins in March 5879489.
-/
theorem inRange_iff (t : Nat) (result : Tm) : InRange t result ↔ (dateOf (t / 86400)).marchYear ≤ 5879489 := by
  unfold InRange
  rw [gmtimeR_eq]
  constructor
  . intro ⟨tm, hgmtime, hmktime⟩
    split at hgmtime
    . next hyear =>
      cases hgmtime
      rw [mktime_eq t result hyear] at hmktime
      split at hmktime
      . assumption
      . contradiction
    . contradiction
  . intro hle
    have hyear : (dateOf (t / 86400)).year < 2 ^ 31 := by
      unfold Date.marchYear at hle
      split at hle
      . omega
      . omega
    refine ⟨tmOf t result, if_pos hyear, ?_⟩
    rw [mktime_eq t result hyear, if_pos hle]
    rfl

def Tm.IsDate (tm : Tm) (d : Date) : Prop :=
  tm.tmYear + 1900 = d.year ∧ tm.tmMon = d.month ∧ tm.tmMday = d.day

/--
What the conversion of time `t` should be.
-/
structure IsCalendarTime (t : Nat) (tm : Tm) : Prop where
  sec : tm.tmSec = (t % 60 : Nat)
  min : tm.tmMin = (t / 60 % 60 : Nat)
  hour : tm.tmHour = (t / 3600 % 24 : Nat)
  date : tm.IsDate (dateOf (t / 86400))
  /-- the days since 1 January of that year, which is day `k` -/
  yday : ∃ k, dateOf k = Date.newYear (dateOf (t / 86400)).year ∧ tm.tmYday = (t / 86400 : Nat) - k
  next : ∀ result tm', gmtimeR (t + 86400 : Nat) result = some tm' → tm'.IsDate (dateOf (t / 86400)).next
  mktime : mktime tm = some (t : Int)

theorem isDate_of_gmtimeR {t : Nat} {result tm : Tm} (h : gmtimeR t result = some tm)
    : tm.IsDate (dateOf (t / 86400)) := by
  rw [gmtimeR_eq] at h
  split at h
  . cases h
    refine ⟨?_, rfl, rfl⟩
    unfold tmOf
    dsimp only
    omega
  . contradiction

/--
The number of 1 January, which is no other day.
-/
theorem dayNumber_of_newYear {n k : Nat} (hk : dateOf k = Date.newYear (dateOf n).year)
    : k + 719468 = (Date.newYear (dateOf n).year).dayNumber := by
  rw [← hk, dayNumber_dateOf]

theorem yday_iff {n : Nat}
    : (∃ k, dateOf k = Date.newYear (dateOf n).year ∧ (foundYday (dateOf n) : Int) = n - k)
        ↔
      (dateOf n).month < 2 := by
  have hlow := year_le_dateOf n
  have hdays := dayNumber_dateOf n
  obtain ⟨k, hle, hnew⟩ := Date.exists_newYear 1970 n
  constructor
  . intro ⟨j, hj, hyday⟩
    have hfirst := dayNumber_of_newYear hj
    by_cases hmonth : (dateOf n).month < 2
    . exact hmonth
    . rw [Date.dayNumber_of_le (by omega) (by omega)] at hdays
      unfold foundYday leapDays at hyday
      rw [if_neg hmonth] at hyday
      omega
  . intro hmonth
    refine ⟨k, hnew, ?_⟩
    have hfirst := dayNumber_of_newYear (n := n) hnew
    rw [Date.dayNumber_of_lt hmonth] at hdays
    unfold foundYday
    rw [if_pos hmonth]
    lia

/--
From March on, the day of the year is one too small.
-/
theorem gmtime_iff (t : Nat) (result : Tm) (hrange : InRange t result)
    : (∃ tm, gmtimeR t result = some tm ∧ IsCalendarTime t tm) ↔ (dateOf (t / 86400)).month < 2 := by
  rw [← yday_iff]
  obtain ⟨tm, hgmtime, hmktime⟩ := hrange
  have hdate := isDate_of_gmtimeR hgmtime
  have heq := hgmtime
  rw [gmtimeR_eq] at heq
  split at heq
  . next hyear =>
    cases heq
    constructor
    . intro ⟨tm', htm', htime⟩
      rw [hgmtime] at htm'
      cases htm'
      exact htime.yday
    . intro hyday
      refine ⟨_, hgmtime, rfl, rfl, rfl, hdate, hyday, ?_, ?_⟩
      . intro result' tm' htm'
        have hnext := isDate_of_gmtimeR htm'
        rw [show (t + 86400) / 86400 = t / 86400 + 1 by lia] at hnext
        rwa [dateOf, Function.iterate_succ_apply'] at hnext
      . rw [mktime_eq t result hyear] at hmktime ⊢
        split at hmktime
        . next hle => rw [if_pos hle]
        . contradiction
  . contradiction

def noTime : Tm := ⟨0, 0, 0, 0, 0, 0, 0, 0, 0⟩

theorem gmtime_iff_epoch : ∃ tm, gmtimeR 0 noTime = some tm ∧ IsCalendarTime 0 tm :=
  (gmtime_iff 0 noTime ⟨_, rfl, rfl⟩).mpr (by decide)

set_option maxRecDepth 4000 in
/--
1 March 1970 follows 59 days of its year, and `tm_yday` is 58.
-/
theorem gmtime_first_march
    : (∃ tm, gmtimeR 5097600 noTime = some tm ∧ tm.tmYday = 58 ∧ mktime tm = some 5097600)
        ∧ dateOf 0 = Date.newYear 1970 ∧ (dateOf 59).month = 2 ∧ (dateOf 59).day = 1
        ∧ ¬ ∃ tm, gmtimeR (5097600 : Nat) noTime = some tm ∧ IsCalendarTime 5097600 tm := by
  refine ⟨⟨_, rfl, rfl, rfl⟩, rfl, rfl, rfl, ?_⟩
  intro ⟨tm, hgmtime, htime⟩
  cases hgmtime
  obtain ⟨k, hnew, hyday⟩ := htime.yday
  have hk : k = 1 := by
    change (58 : Int) = 59 - k at hyday
    omega
  subst hk
  exact absurd hnew (by decide)

end Emos.Boot
