import Qore.Date.Duration
import Qore.Lib.Lts
import Qore.Lib.Significand

/-!
# `Qore.Date.Micros`: the microseconds of an absolute time

`qore_absolute_time` keeps `us` unsigned, and every function that changes it normalises on its own.
`Qore.Date.MicrosSpec` says what these functions denote.

* `AbsTime.setDouble`, `AbsTime.setTime`, `AbsTime.setLiteral`, `AbsTime.unaryMinus`: the functions
  that are not in `Qore.Date.Time`.
* `step`: a call of one of them.
-/

set_option autoImplicit false

namespace Qore.Date

open Qore.Lib
open Qore.Lib.Gregorian (Date)

/-! ### The operations -/

/-- A finite `double`: a significand over a power of two. The values from `2 ^ 53` on, which no `int`
holds, are left out. -/
structure Double where
  significand : Int
  scale : Nat
  bounded : significand.natAbs < 2 ^ 53

/-- The conversion to an integer type cuts the fraction off. -/
def Double.trunc (f : Double) : Int := f.significand.tdiv (2 ^ f.scale)

namespace AbsTime

/-- `qore_absolute_time::set(double, zone)`; `none` when a conversion to `int` is undefined. The
difference and the product are rounded to a `double`. -/
def setDouble (zone : Zone) (f : Double) : Option AbsTime := do
  let i ← checkedInt f.trunc
  let fraction := roundSig 53 (f.significand - roundSig 24 i * 2 ^ f.scale)
  let us ← checkedInt ((roundSig 53 (fraction * 1000000)).tdiv (2 ^ f.scale))
  return { epoch := i, us := (us % 4294967296).toNat, zone }

/-- `qore_absolute_time::set(zone, epoch, us)`. -/
def setEpoch (zone : Zone) (n_epoch n_us : Int) : AbsTime :=
  let (epoch, n_us) := normalizeUnits2 .int64 .int n_epoch n_us 1000000
  { epoch, us := n_us.toNat, zone }

/-- `qore_absolute_time::setTime`; `none` when an `int` overflows. -/
def setTime (t : AbsTime) (h m s usecs : Int) : Option AbsTime := do
  let tm := SimpleTm.set (t.epoch + t.zone.off t.epoch) t.us
  let (s, usecs) := normalizeUnits2 .int .int s usecs 1000000
  let s ← checkedInt s
  let (m, s) := normalizeUnits2 .int .int m s 60
  let m ← checkedInt m
  let (h, m) := normalizeUnits2 .int .int h m 60
  let h ← checkedInt h
  let h := if h < 0 then 0 else if h > 23 then 23 else h
  let epoch ← getEpochSecondsTime tm.year tm.month tm.day h m s
  return setLocalIntern { t with epoch } usecs

end AbsTime

/-- `qore_simple_tm2::setLiteral`; `none` when a negative month is looked up. -/
def SimpleTm.setLiteral (date usecs : Int) : Option SimpleTm := do
  let year := truncInt (date.tdiv 10000000000)
  let date := date - year * 10000000000
  let month := truncInt (date.tdiv 100000000)
  let date := date - month * 100000000
  let day := truncInt (date.tdiv 1000000)
  let date := date - day * 1000000
  let hour := truncInt (date.tdiv 10000)
  let date := date - hour * 10000
  let minute := truncInt (date.tdiv 100)
  let second := truncInt (date - minute * 100)
  let (second, us) := normalizeUnits2 .int .int second usecs 1000000
  let (minute, second) := normalizeUnits2 .int .int minute second 60
  let (hour, minute) := normalizeUnits2 .int .int hour minute 60
  let (day, hour) := normalizeUnits2 .int .int day hour 24
  let (year, month) :=
    if month > 12 then
      let (year, month) := normalizeUnits2 .int .int year (month - 1) 12
      (year, month + 1)
    else if month = 0 then (year, 1)
    else (year, month)
  let day := if day = 0 then 1 else day
  if month < 1 then none
  else
    let (year, month, day) := normalizeDay year month day
    return { year, month, day, hour, minute, second, us }

namespace AbsTime

/-- `qore_absolute_time::setLiteral`; `zone` is `currentTZ()`. -/
def setLiteral (zone : Zone) (date usecs : Int) : Option AbsTime := do
  let tm ← SimpleTm.setLiteral date usecs
  let epoch ← getEpochSecondsTime tm.year tm.month tm.day tm.hour tm.minute tm.second
  return setLocalIntern { epoch, us := 0, zone } usecs

/-- `qore_absolute_time::addSecondsTo`. The sum of the microseconds is unsigned, and converted to
`int`. -/
def addSecondsTo (t : AbsTime) (secs n_us : Int) : AbsTime :=
  setEpoch t.zone (t.epoch + secs) (truncInt (t.us + n_us))

/-- `qore_absolute_time::unaryMinus`. The microseconds are negated as an `unsigned`. -/
def unaryMinus (t : AbsTime) : AbsTime :=
  { t with epoch := -t.epoch, us := (4294967296 - t.us) % 4294967296 }

end AbsTime

/-- `qore_relative_time::unaryMinus`; `none` when an `int` overflows. -/
def RelTime.unaryMinus (t : RelTime) : Option RelTime := do
  let year ← checkedInt (-t.year)
  let month ← checkedInt (-t.month)
  let day ← checkedInt (-t.day)
  let hour ← checkedInt (-t.hour)
  let minute ← checkedInt (-t.minute)
  let second ← checkedInt (-t.second)
  let us ← checkedInt (-t.us)
  return { year, month, day, hour, minute, second, us }

/-- `qore_absolute_time::operator-=`. -/
def AbsTime.sub (t : AbsTime) (dt : RelTime) : Option AbsTime := do
  let dt ← dt.unaryMinus
  t.add dt

/-- A call that changes an absolute time. Microseconds are given as an `int`, a literal as an
`int64`. -/
inductive Op
  | set (zone : Zone) (epoch us : Int) (h : FitsInt us)
  | setDouble (zone : Zone) (f : Double)
  | setLocal (zone : Zone) (epoch us : Int) (h : FitsInt us)
  | setFields (zone : Zone) (year month day hour minute second us : Int) (h : FitsInt us)
  | setTime (hour minute second us : Int) (h : FitsInt us)
  | setLiteral (zone : Zone) (date : Int64) (us : Int) (h : FitsInt us)
  | addSecondsTo (secs us : Int) (h : FitsInt us)
  | add (dt : RelTime)
  | sub (dt : RelTime)
  | unaryMinus

/-- A step of a run; `none` when an `int` overflows. -/
def step (t : AbsTime) : Op → Option (AbsTime × Unit)
  | .set zone epoch us _ => some (.setEpoch zone epoch us, ())
  | .setDouble zone f => (AbsTime.setDouble zone f).map (·, ())
  | .setLocal zone epoch us _ => some (.setLocal zone epoch us, ())
  | .setFields zone year month day hour minute second us _ =>
    (AbsTime.set zone year month day hour minute second us).map (·, ())
  | .setTime hour minute second us _ => (t.setTime hour minute second us).map (·, ())
  | .setLiteral zone date us _ => (AbsTime.setLiteral zone date.toInt us).map (·, ())
  | .addSecondsTo secs us _ => some (t.addSecondsTo secs us, ())
  | .add dt => (t.add dt).map (·, ())
  | .sub dt => (t.sub dt).map (·, ())
  | .unaryMinus => some (t.unaryMinus, ())

end Qore.Date
