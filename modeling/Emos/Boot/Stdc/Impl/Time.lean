import Emos.Basic

/-!
This module contains `gmtime_r` and `mktime` of the boot loader's library. `int` and `long` have 32 bits, `time_t`
has 64. Signed arithmetic that leaves its range has no result.
-/

namespace Emos.Boot

structure Tm where
  tmSec : Int
  tmMin : Int
  tmHour : Int
  tmMday : Int
  tmMon : Int
  tmYear : Int
  tmWday : Int
  tmYday : Int
  tmIsdst : Int
  deriving DecidableEq, Repr

/--
The year, which begins in March, and the day of it, where `days` is counted from 1 March of year 0. The day of
the era is below 146097, so that no unsigned number wraps around.
-/
def marchDate (days : Int) : Int × Nat :=
  let era := (if days ≥ 0 then days else days - 146096).tdiv 146097
  let doe := (days - era * 146097).toNat
  let yoe := (doe - doe / 1460 + doe / 36524 - doe / 146096) / 365
  let y := yoe + era * 400
  let doy := doe - (365 * yoe + yoe / 4 - yoe / 100)
  (y, doy)

/--
`tm_wday` and `tm_isdst` stay as they are.
-/
def gmtimeR (time : Int) (result : Tm) : Option Tm := do
  let tmSec := time.tmod 60
  let time := time.tdiv 60
  let tmMin := time.tmod 60
  let time := time.tdiv 60
  let tmHour := time.tmod 24
  let days := time.tdiv 24 + 719468
  let (y, doy) := marchDate days
  let mp := (5 * doy + 2) / 153
  let d := doy - (153 * mp + 2) / 5 + 1
  let m := if mp < 10 then mp + 3 else mp - 9
  let year ← checked32 (y + if m ≤ 2 then 1 else 0)
  let tmYear ← checked32 (year - 1900)
  let isLeap :=
    if ((tmYear + 1900).tmod 4 = 0 ∧ (tmYear + 1900).tmod 100 ≠ 0) ∨ (tmYear + 1900).tmod 400 = 0 then 1 else 0
  let tmYday := if m ≤ 2 then (if m = 1 then d - 1 else 31 + d - 1) else doy + 58 + isLeap
  some { result with
    tmSec, tmMin, tmHour
    tmMday := d
    tmMon := m - 1
    tmYear
    tmYday }

def mktime (tm : Tm) : Option Int := do
  let year ← checked32 (tm.tmYear + 1900)
  let mon := tm.tmMon
  let mon ← checked32 (if mon < 2 then mon + 12 else mon)
  let year ← checked32 (if tm.tmMon < 2 then year - 1 else year)
  let days ← checked32 (year * 365)
  let days ← checked32 (days + year.tdiv 4)
  let days ← checked32 (days - year.tdiv 100)
  let days ← checked32 (days + year.tdiv 400)
  let month ← checked32 (mon - 2)
  let month ← checked32 (153 * month)
  let month ← checked32 (month + 2)
  let month ← checked32 (month.tdiv 5 + tm.tmMday)
  let month ← checked32 (month - 1)
  let days := days + month - 719468
  let minutes ← checked32 (tm.tmMin * 60)
  some (days * 86400 + tm.tmHour * 3600 + minutes + tm.tmSec)

end Emos.Boot
