import CobjOs.Devices.Rtc
import CobjOs.Framework.Calendar

/-!
# Dates and seconds

A valid date-time stands for a number of seconds since the start of 1970, `RtcFields.epoch`, which is
stated with the Gregorian calendar and not with the tables of the source.  `rtc_to_epoch` computes
it, `epoch_to_rtc` gets the date-time back from it, and every second before the year 65536 comes from
a valid date-time (`exists_epoch`).  So the two functions undo each other.
-/

namespace CobjOs

open Calendar Option Segments

/-! ## The tables of the source -/

lemma isLeap_iff (y : ℕ) : isLeap y = true ↔ LeapYear y := by
  rw [isLeap, LeapYear, Nat.dvd_iff_mod_eq_zero, Nat.dvd_iff_mod_eq_zero, Nat.dvd_iff_mod_eq_zero]
  simp only [Bool.or_eq_true, Bool.and_eq_true, beq_iff_eq, bne_iff_ne, ne_eq]
  omega

lemma daysInYear_eq (y : ℕ) : daysInYear y = yearLength y := by
  rw [daysInYear, yearLength_eq]
  exact if_congr (isLeap_iff y) rfl rfl

lemma getElem?_daysInMonth {m : ℕ} (y : ℕ) (h : 1 ≤ m ∧ m ≤ 12) :
    (daysInMonth (isLeap y))[m - 1]? = some (monthLength y m) := by
  obtain ⟨hlo, hhi⟩ := h
  have hleap := isLeap_iff y
  cases hy : isLeap y <;> rw [hy] at hleap <;> simp only [monthLength] <;>
    interval_cases m <;> simp_all [daysInMonth]

lemma addMonths_eq {m : ℕ} (y days : ℕ) (h : m ≤ 12) :
    addMonths (isLeap y) m days = some (days + span (monthLength y) 1 (m - 1)) := by
  have hturns : ∀ n ≤ 12, (List.range' 1 n).foldlM (fun days m =>
      (daysInMonth (isLeap y))[m - 1]?.map fun n => days + n) days =
        some (days + span (monthLength y) 1 n) := by
    intro n hn
    induction n with
    | zero => rfl
    | succ n ih =>
      rw [List.range'_concat, List.foldlM_append, ih (by omega), span_succ_last, Nat.one_mul]
      simp only [bind_eq_bind, bind_some, List.foldlM_cons, List.foldlM_nil,
        getElem?_daysInMonth y (by omega : 1 ≤ 1 + n ∧ 1 + n ≤ 12), map_some]
      rw [Nat.add_assoc]
      rfl
  exact hturns (m - 1) (by omega)

/-! ## What a date-time stands for -/

namespace RtcFields

variable {t : RtcFields}

/-- A date of the Gregorian calendar with a time of day. -/
structure Valid (t : RtcFields) : Prop where
  month : 1 ≤ t.month.toNat ∧ t.month.toNat ≤ 12
  day : 1 ≤ t.day.toNat ∧ t.day.toNat ≤ monthLength t.year.toNat t.month.toNat
  hours : t.hours.toNat < 24
  minutes : t.minutes.toNat < 60
  seconds : t.seconds.toNat < 60

/-- The days from the start of 1970 to a date. -/
def dayNumber (t : RtcFields) : ℕ :=
  span yearLength 1970 (t.year.toNat - 1970) +
    (span (monthLength t.year.toNat) 1 (t.month.toNat - 1) + (t.day.toNat - 1))

/-- The seconds from the start of 1970. -/
def epoch (t : RtcFields) : ℕ :=
  t.dayNumber * 86400 + t.hours.toNat * 3600 + t.minutes.toNat * 60 + t.seconds.toNat

lemma dayNumber_lt (hv : t.Valid) : t.dayNumber < 2 ^ 30 := by
  have hyears := span_le yearLength_le 1970 (t.year.toNat - 1970)
  have hmonths := span_le (monthLength_le t.year.toNat) 1 (t.month.toNat - 1)
  have hyear := t.year.toNat_lt
  have hmonth := hv.month.2
  have hday := t.day.toNat_lt
  rw [dayNumber]
  omega

lemma rtcToEpoch_eq (hv : t.Valid) : rtcToEpoch t = some t.epoch := by
  have hyears : daysSinceEpochToYear t.year = span yearLength 1970 (t.year.toNat - 1970) :=
    congrArg (span · _ _) (funext daysInYear_eq)
  have hdays : u64 (daysSinceEpochToYear t.year +
      span (monthLength t.year.toNat) 1 (t.month.toNat - 1) + t.day.toNat + u64Max) =
        t.dayNumber := by
    have hlt := dayNumber_lt hv
    have hday := hv.day.1
    rw [dayNumber] at hlt ⊢
    rw [hyears, u64, u64Max]
    omega
  rw [rtcToEpoch, addMonths_eq _ _ hv.month.2]
  simp only [bind_eq_bind, bind_some, hdays, some.injEq]
  refine Nat.mod_eq_of_lt ?_
  have hlt := dayNumber_lt hv
  have hhours := hv.hours
  have hminutes := hv.minutes
  have hseconds := hv.seconds
  omega

lemma epoch_parts (hv : t.Valid) : t.epoch % 60 = t.seconds.toNat ∧
    t.epoch / 60 % 60 = t.minutes.toNat ∧ t.epoch / 60 / 60 % 24 = t.hours.toNat ∧
    t.epoch / 60 / 60 / 24 = t.dayNumber := by
  have hhours := hv.hours
  have hminutes := hv.minutes
  have hseconds := hv.seconds
  rw [epoch]
  omega

/-- The loops of `epoch_to_rtc` stop at the year and the month. -/
lemma epochToRtc_epoch (hv : t.Valid) (hy : 1970 ≤ t.year.toNat) : epochToRtc t.epoch = some t := by
  obtain ⟨k, hk⟩ := Nat.exists_eq_add_of_le hy
  obtain ⟨j, hj⟩ := Nat.exists_eq_add_of_le hv.month.1
  obtain ⟨hseconds, hminutes, hhours, hdays⟩ := epoch_parts hv
  have hyear := t.year.toNat_lt
  have hwrap : (1970 + k) % 2 ^ 16 = 1970 + k := Nat.mod_eq_of_lt (by omega)
  have hmonth := hv.month
  have hday := hv.day
  rw [hk, hj] at hday
  rw [hj] at hmonth
  have hin : t.day.toNat - 1 < monthLength (1970 + k) (1 + j) := by omega
  have hnumber : t.dayNumber =
      span yearLength 1970 k + (span (monthLength (1970 + k)) 1 j + (t.day.toNat - 1)) := by
    rw [dayNumber, hk, hj, Nat.add_sub_cancel_left, Nat.add_sub_cancel_left]
  have hyears : locate (fun y => some (daysInYear (y % 2 ^ 16))) (t.dayNumber + 1) 1970
      t.dayNumber = some (1970 + k, span (monthLength (1970 + k)) 1 j + (t.day.toNat - 1)) := by
    have hturns := le_span le_yearLength 1970 k
    rw [hnumber]
    refine locate_span (fun y hy => ?_) (lt_span (by omega) hin) (by omega)
    rw [Nat.mod_eq_of_lt (by omega), daysInYear_eq]
  have hmonths : locate (fun m => (daysInMonth (isLeap (1970 + k)))[m - 1]?) 13 1
      (span (monthLength (1970 + k)) 1 j + (t.day.toNat - 1)) = some (1 + j, t.day.toNat - 1) :=
    locate_span (fun m hm => getElem?_daysInMonth _ (by omega)) hin (by omega)
  have hdate : t.day.toNat - 1 + 1 = t.day.toNat := Nat.sub_add_cancel hv.day.1
  rw [epochToRtc]
  simp only [hdays, hyears, hwrap, hmonths, hseconds, hminutes, hhours, hdate, bind_eq_bind,
    bind_some, UInt8.ofNat_toNat]
  rw [← hk, ← hj, UInt8.ofNat_toNat, UInt16.ofNat_toNat]

/-- Every second before the year 65536 is one of a date-time. -/
lemma exists_epoch {e : ℕ} (he : e < span yearLength 1970 (65536 - 1970) * 86400) :
    ∃ t : RtcFields, t.Valid ∧ 1970 ≤ t.year.toNat ∧ t.epoch = e := by
  have hday : e / 86400 < span yearLength 1970 (65536 - 1970) :=
    Nat.div_lt_of_lt_mul (by rwa [Nat.mul_comm])
  obtain ⟨k, hk, r, hr, hdays⟩ := exists_span hday
  obtain ⟨j, hj, d, hd, hrest⟩ := exists_span hr
  have hmonth := monthLength_le (1970 + k) (1 + j)
  let t : RtcFields :=
    ⟨UInt8.ofNat (e % 60), UInt8.ofNat (e / 60 % 60), UInt8.ofNat (e / 3600 % 24),
      UInt8.ofNat (d + 1), UInt8.ofNat (1 + j), UInt16.ofNat (1970 + k)⟩
  have hu8 : ∀ n < 256, (UInt8.ofNat n).toNat = n := fun n hn => UInt8.toNat_ofNat_of_lt' hn
  have hyear' : t.year.toNat = 1970 + k := UInt16.toNat_ofNat_of_lt' (by omega : 1970 + k < 2 ^ 16)
  have hmonth' : t.month.toNat = 1 + j := hu8 _ (by omega)
  have hday' : t.day.toNat = d + 1 := hu8 _ (by omega)
  have hhours' : t.hours.toNat = e / 3600 % 24 := hu8 _ (by omega)
  have hminutes' : t.minutes.toNat = e / 60 % 60 := hu8 _ (by omega)
  have hseconds' : t.seconds.toNat = e % 60 := hu8 _ (by omega)
  refine ⟨t, ⟨by omega, ?_, by omega, by omega, by omega⟩, by omega, ?_⟩
  · rw [hyear', hmonth', hday']
    omega
  · have hnumber : t.dayNumber = e / 86400 := by
      rw [dayNumber, hyear', hmonth', hday', Nat.add_sub_cancel_left, Nat.add_sub_cancel_left,
        Nat.add_sub_cancel, ← hrest, ← hdays]
    rw [epoch, hnumber, hhours', hminutes', hseconds']
    omega

end RtcFields

/-- The two functions undo each other, from the start of 1970 to the end of 65535. -/
theorem calendar_round_trip :
    (∀ e, e < span yearLength 1970 (65536 - 1970) * 86400 →
      ∃ t, epochToRtc e = some t ∧ t.Valid ∧ rtcToEpoch t = some e) ∧
    ∀ t : RtcFields, t.Valid → 1970 ≤ t.year.toNat →
      ∃ e, rtcToEpoch t = some e ∧ epochToRtc e = some t := by
  refine ⟨fun e he => ?_, fun t hv hy => ?_⟩
  · obtain ⟨t, hv, hy, rfl⟩ := RtcFields.exists_epoch he
    exact ⟨t, RtcFields.epochToRtc_epoch hv hy, hv, RtcFields.rtcToEpoch_eq hv⟩
  · exact ⟨t.epoch, RtcFields.rtcToEpoch_eq hv, RtcFields.epochToRtc_epoch hv hy⟩

/-- The last second of a leap day, and the one before the year 65536. -/
theorem calendar_round_trip_leap_day :
    (∃ t, epochToRtc 951868799 = some t ∧ t.Valid ∧ rtcToEpoch t = some 951868799) ∧
      ∃ e, rtcToEpoch ⟨59, 59, 23, 31, 12, 65535⟩ = some e ∧
        epochToRtc e = some ⟨59, 59, 23, 31, 12, 65535⟩ := by
  have hyears := le_span le_yearLength 1970 (65536 - 1970)
  refine ⟨calendar_round_trip.1 951868799 (by omega), calendar_round_trip.2 _ ?_ (by decide)⟩
  exact ⟨by decide, by decide, by decide, by decide, by decide⟩

example : epochToRtc 951868799 = some ⟨59, 59, 23, 29, 2, 2000⟩ := by decide +kernel

end CobjOs
