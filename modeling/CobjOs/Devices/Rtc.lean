import CobjOs.Framework.Segments
import CobjOs.Kernel.State

/-!
# The calendar of the clock

`rtc_to_epoch` and `epoch_to_rtc` of `src/arch/rtc.c`, with the tables and functions they use.  The
first adds up the days of the years and months before a date, the second takes them off again, in
two loops that are `Segments.locate`.  Reading outside of the table of months has no result, and the
years are counted in 16 bits.  What reads the clock itself (`rtc_read`, `rtc_init`) and the time
since then (`rtc_now_epoch`) is not here.
-/

namespace CobjOs

open Segments

/-- The members of `rtc_time_t`. -/
structure RtcFields where
  seconds : UInt8
  minutes : UInt8
  hours : UInt8
  day : UInt8
  month : UInt8
  year : UInt16
  deriving DecidableEq, Repr

/-- `days_in_month[leap]`. -/
def daysInMonth : Bool → List ℕ
  | false => [31, 28, 31, 30, 31, 30, 31, 31, 30, 31, 30, 31]
  | true => [31, 29, 31, 30, 31, 30, 31, 31, 30, 31, 30, 31]

/-- `is_leap`. -/
def isLeap (year : ℕ) : Bool := (year % 4 == 0 && year % 100 != 0) || year % 400 == 0

/-- `is_leap(year) ? 366 : 365`. -/
def daysInYear (year : ℕ) : ℕ := if isLeap year then 366 else 365

/-- `days_since_epoch_to_year`. -/
def daysSinceEpochToYear (year : UInt16) : ℕ := span daysInYear 1970 (year.toNat - 1970)

/-- The loop of `rtc_to_epoch` over the months before the given one. -/
def addMonths (leap : Bool) (month days : ℕ) : Option ℕ :=
  (List.range' 1 (month - 1)).foldlM
    (fun days m => (daysInMonth leap)[m - 1]?.map fun n => days + n) days

/-- `rtc_to_epoch`.  A day of 0 takes one off the days. -/
def rtcToEpoch (t : RtcFields) : Option ℕ := do
  let days ← addMonths (isLeap t.year.toNat) t.month.toNat (daysSinceEpochToYear t.year)
  let days := u64 (days + t.day.toNat + u64Max)
  some (u64 (days * 86400 + t.hours.toNat * 3600 + t.minutes.toNat * 60 + t.seconds.toNat))

/-- `epoch_to_rtc`. -/
def epochToRtc (epoch : ℕ) : Option RtcFields := do
  let days := epoch / 60 / 60 / 24
  let (year, days) ← locate (fun y => some (daysInYear (y % 2 ^ 16))) (days + 1) 1970 days
  let (month, days) ← locate (fun m => (daysInMonth (isLeap (year % 2 ^ 16)))[m - 1]?) 13 1 days
  some
    { seconds := UInt8.ofNat (epoch % 60)
      minutes := UInt8.ofNat (epoch / 60 % 60)
      hours := UInt8.ofNat (epoch / 60 / 60 % 24)
      day := UInt8.ofNat (days + 1)
      month := UInt8.ofNat month
      year := UInt16.ofNat year }

end CobjOs
