import Punix.Arch.Rtc
import Punix.Kernel.Printf

/-!
The date command (`date.c`). `epoch_to_utc` takes the years and the months off one by one, and
gives back the date that the real time clock has shown.
-/

namespace Punix

open Lib
open Lib.Calendar

/-- `is_leap`. -/
def isLeap (y : Nat) : Bool := (y % 4 = 0 ∧ y % 100 ≠ 0) ∨ y % 400 = 0

/-- `dim`. -/
def dim : List (BitVec 32) := [31, 28, 31, 30, 31, 30, 31, 31, 30, 31, 30, 31]

/-- `days_in_month`. There is no result if `dim` is read outside of its entries. -/
def daysInMonth (y m : Nat) : Option (BitVec 32) := if m = 1 ∧ isLeap y then some 29 else dim[m]?

def yearLength (y : Nat) : BitVec 32 := if isLeap y then 366 else 365

theorem yearLength_pos (y : Nat) : 0 < yearLength y := by
  unfold yearLength
  split
  · decide
  · decide

theorem toNat_sub_lt {t d : BitVec 32} (hd : 0 < d) (h : ¬ t < d) : (t - d).toNat < t.toNat := by
  have hle := BitVec.not_lt.mp h
  have hpos : 0 < d.toNat := BitVec.lt_def.mp hd
  have hnat := BitVec.le_def.mp hle
  rw [BitVec.toNat_sub_of_le hle]
  omega

/-- The first `while (1)`, with the days that are left and the year. -/
def yearLoop (t : BitVec 32) (y : Nat) : BitVec 32 × Nat :=
  let days := yearLength y
  if t < days then (t, y) else yearLoop (t - days) (y + 1)
termination_by t.toNat
decreasing_by exact toNat_sub_lt (yearLength_pos y) ‹_›

theorem daysInMonth_lt {y m : Nat} {d : BitVec 32} (h : daysInMonth y m = some d) : m < 12 := by
  unfold daysInMonth at h
  split at h
  · next hleap =>
      rw [hleap.1]
      decide
  · exact (List.getElem?_eq_some_iff.mp h).1

/-- The second `while (1)`, with the days that are left and the month. -/
def monthLoop (y : Nat) (t : BitVec 32) (m : Nat) : Option (BitVec 32 × Nat) :=
  match h : daysInMonth y m with
  | none => none
  | some d => if t < d then some (t, m) else monthLoop y (t - d) (m + 1)
termination_by 12 - m
decreasing_by
  have hlt := daysInMonth_lt h
  omega

structure Utc where
  year : Nat
  mon : Nat
  mday : Nat
  hour : Nat
  min : Nat
  sec : Nat
  wday : Nat
  printed : List UInt8

/-- `epoch_to_utc`, with what it prints. -/
def epochToUtc (t : BitVec 32) : Option Utc :=
  let sec := t % 60
  let t := t / 60
  let min := t % 60
  let t := t / 60
  let hour := t % 24
  let t := t / 24
  let wday := (t + 4) % 7
  let printed := if 7 ≤ wday then cstr "wday out of range in epoch_to_utc\n" else []
  let (t, y) := yearLoop t 1970
  match monthLoop y t 0 with
  | none => none
  | some (t, m) =>
      some { year := y, mon := m, mday := t.toNat + 1, hour := hour.toNat, min := min.toNat,
             sec := sec.toNat, wday := wday.toNat, printed }

section Loops

variable {y m : Nat} {t : BitVec 32}

theorem isLeap_iff (y : Nat) : isLeap y ↔ Leap y := by
  unfold isLeap Leap
  rw [decide_eq_true_iff]
  omega

theorem toNat_yearLength (y : Nat) : (yearLength y).toNat = yearDays y := by
  unfold yearLength yearDays
  rw [apply_ite BitVec.toNat]
  exact if_congr (isLeap_iff y) rfl rfl

theorem daysInMonth_eq (y : Nat) (hm : m < 12) :
    ∃ d, daysInMonth y m = some d ∧ d.toNat = monthDays y m := by
  have htable : ∀ m < 12, (dim[m]?).map BitVec.toNat = some (monthDays 2001 m) := by
    decide +kernel
  unfold daysInMonth
  split
  · next h =>
      obtain ⟨rfl, hleap⟩ := h
      exact ⟨29, rfl, (if_pos ((isLeap_iff y).mp hleap)).symm⟩
  · next h =>
      obtain ⟨d, hd, heq⟩ := Option.map_eq_some_iff.mp (htable m hm)
      refine ⟨d, hd, heq.trans ?_⟩
      rcases eq_or_ne m 1 with rfl | hne
      · exact (if_neg fun hleap => h ⟨rfl, (isLeap_iff y).mpr hleap⟩).symm
      · interval_cases m
        all_goals first | rfl | exact absurd rfl hne

/-- What is left lies in the year, at the same place. -/
theorem yearLoop_spec (t : BitVec 32) (y : Nat) :
    (yearLoop t y).1.toNat < yearDays (yearLoop t y).2 ∧
      yearStart (yearLoop t y).2 + (yearLoop t y).1.toNat = yearStart y + t.toNat := by
  induction t, y using yearLoop.induct with
  | case1 t y days hlt =>
      rw [yearLoop, if_pos hlt]
      refine ⟨?_, rfl⟩
      rw [← toNat_yearLength]
      exact BitVec.lt_def.mp hlt
  | case2 t y days hge ih =>
      have hle := BitVec.not_lt.mp hge
      have hnat := BitVec.le_def.mp hle
      have hnext : yearStart (y + 1) = yearStart y + yearDays y := Spans.start_succ _ _
      have hlen : days.toNat = yearDays y := toNat_yearLength y
      rw [yearLoop, if_neg hge]
      rw [hnext, BitVec.toNat_sub_of_le hle] at ih
      refine ⟨ih.1, ih.2.trans ?_⟩
      omega

/-- The months of a year do not run out before its days. -/
theorem month_lt (h : monthStart y m + t.toNat < yearDays y) : m < 12 := by
  by_contra hge
  have hlast : monthStart y 12 ≤ monthStart y m := Spans.start_mono (Nat.not_lt.mp hge)
  rw [monthStart_twelve] at hlast
  omega

theorem monthLoop_eq {d : BitVec 32} (h : daysInMonth y m = some d) :
    monthLoop y t m = if t < d then some (t, m) else monthLoop y (t - d) (m + 1) := by
  rw [monthLoop]
  split
  · next hnone => exact absurd (h.symm.trans hnone) (Option.some_ne_none d)
  · next d' hd' =>
      obtain rfl : d = d' := Option.some.inj (h.symm.trans hd')
      rfl

theorem monthLoop_spec (y : Nat) (t : BitVec 32) (m : Nat)
    (h : monthStart y m + t.toNat < yearDays y) :
    ∃ t' m', monthLoop y t m = some (t', m') ∧ m' < 12 ∧ t'.toNat < monthDays y m' ∧
      monthStart y m' + t'.toNat = monthStart y m + t.toNat := by
  induction t, m using monthLoop.induct y with
  | case1 t m hnone =>
      obtain ⟨d, hd, -⟩ := daysInMonth_eq y (month_lt h)
      rw [hnone] at hd
      cases hd
  | case2 t m d hd hlt =>
      have hm := month_lt h
      obtain ⟨d', hd', hlen⟩ := daysInMonth_eq y hm
      obtain rfl : d = d' := Option.some.inj (hd.symm.trans hd')
      refine ⟨t, m, ?_, hm, ?_, rfl⟩
      · rw [monthLoop_eq hd, if_pos hlt]
      · rw [← hlen]
        exact BitVec.lt_def.mp hlt
  | case3 t m d hd hge ih =>
      obtain ⟨d', hd', hlen⟩ := daysInMonth_eq y (month_lt h)
      obtain rfl : d = d' := Option.some.inj (hd.symm.trans hd')
      have hle := BitVec.not_lt.mp hge
      have hnat := BitVec.le_def.mp hle
      have hnext : monthStart y (m + 1) = monthStart y m + monthDays y m := Spans.start_succ _ _
      have hplace : monthStart y (m + 1) + (t - d).toNat = monthStart y m + t.toNat := by
        rw [hnext, BitVec.toNat_sub_of_le hle]
        omega
      obtain ⟨t', m', hloop, hm', hlt, heq⟩ := ih (hplace ▸ h)
      refine ⟨t', m', ?_, hm', hlt, heq.trans hplace⟩
      rw [monthLoop_eq hd, if_neg hge]
      exact hloop

end Loops

/-- The fields of a moment, and nothing printed. -/
structure Utc.Shows (u : Utc) (m : Moment) : Prop where
  year : u.year = m.date.year
  mon : u.mon = m.date.month
  mday : u.mday = m.date.day
  hour : u.hour = m.hour
  min : u.min = m.minute
  sec : u.sec = m.second
  wday : u.wday = m.date.weekday
  printed : u.printed = []

theorem toNat_div_mod (t : BitVec 32) :
    (t % 60).toNat = t.toNat % 60 ∧ (t / 60 % 60).toNat = t.toNat / 60 % 60 ∧
      (t / 60 / 60 % 24).toNat = t.toNat / 3600 % 24 ∧
      (t / 60 / 60 / 24).toNat = t.toNat / 86400 := by
  have hsixty : (60 : BitVec 32).toNat = 60 := rfl
  have hday : (24 : BitVec 32).toNat = 24 := rfl
  simp only [BitVec.toNat_udiv, BitVec.toNat_umod, hsixty, hday, Nat.div_div_eq_div_mul]
  exact ⟨trivial, trivial, trivial, trivial⟩

/-- The days since 1970 and the day of the week. -/
theorem toNat_wday (days : BitVec 32) (h : days.toNat < 50000) :
    ((days + 4) % 7).toNat = (719528 + days.toNat + 6) % 7 := by
  have hfour : (days + 4).toNat = days.toNat + 4 := by
    rw [BitVec.toNat_add]
    exact Nat.mod_eq_of_lt (by change days.toNat + 4 < 2 ^ 32; omega)
  rw [BitVec.toNat_umod, hfour]
  change (days.toNat + 4) % 7 = _
  omega

/-- `epoch_to_utc` finds the moment. -/
theorem epochToUtc_spec (t : BitVec 32) :
    ∃ u m, epochToUtc t = some u ∧ u.Shows m ∧ m.seconds = unixEpoch.seconds + t.toNat := by
  obtain ⟨hsec, hmin, hhour, hdays⟩ := toNat_div_mod t
  have hlt := t.isLt
  have hwday := toNat_wday (t / 60 / 60 / 24) (by omega)
  have hstart : yearStart 1970 = 719528 := yearStart_eq 1970
  obtain ⟨hyear, hplace⟩ := yearLoop_spec (t / 60 / 60 / 24) 1970
  generalize hloop : yearLoop (t / 60 / 60 / 24) 1970 = left at hyear hplace
  obtain ⟨rest, y⟩ := left
  dsimp only at hyear hplace
  have hzero : monthStart y 0 = 0 := rfl
  obtain ⟨day, month, hmonths, hmonth, hday, hsum⟩ := monthLoop_spec y rest 0 (by omega)
  have hprinted : ¬ 7 ≤ (t / 60 / 60 / 24 + 4) % 7 := by
    rw [BitVec.le_def, hwday]
    change ¬ 7 ≤ _
    omega
  let date : Date := { year := y, month, day := day.toNat + 1, month_lt := hmonth,
                       day_pos := Nat.succ_pos _, day_le := hday }
  let moment : Moment := { date, hour := t.toNat / 3600 % 24, minute := t.toNat / 60 % 60,
                           second := t.toNat % 60, hour_lt := Nat.mod_lt _ (by decide),
                           minute_lt := Nat.mod_lt _ (by decide),
                           second_lt := Nat.mod_lt _ (by decide) }
  have hnumber : date.dayNumber = 719528 + t.toNat / 86400 := by
    change yearStart y + (monthStart y month + day.toNat) = _
    omega
  let utc : Utc := { year := y, mon := month, mday := day.toNat + 1,
                     hour := (t / 60 / 60 % 24).toNat, min := (t / 60 % 60).toNat,
                     sec := (t % 60).toNat, wday := ((t / 60 / 60 / 24 + 4) % 7).toNat,
                     printed := [] }
  have hwday : utc.wday = date.weekday := by
    rw [Date.weekday, hnumber, ← hdays]
    exact hwday
  refine ⟨utc, moment, ?_, ⟨rfl, rfl, rfl, hhour, hmin, hsec, hwday, rfl⟩, ?_⟩
  · unfold epochToUtc
    dsimp only
    rw [hloop]
    dsimp only
    rw [hmonths, if_neg hprinted]
  · rw [seconds_unixEpoch, Moment.seconds]
    change date.dayNumber * 86400 + t.toNat / 3600 % 24 * 3600 + t.toNat / 60 % 60 * 60 +
      t.toNat % 60 = _
    rw [hnumber]
    omega

section RoundTrip

variable {cmos : Cmos} {n fuel : Nat} {binary : Bool} {m : Moment}

/-- The moment that the chip shows is the one that `epoch_to_utc` finds, since no other one has
the same seconds. -/
theorem epochToUtc_presents (h : Presents cmos n binary m) (hlow : 2000 ≤ m.date.year)
    (hhigh : m.date.year ≤ 2099) (hfuel : n < fuel) :
    ∃ w u, rtcSecondsSinceEpoch cmos fuel = some w ∧
      w.toNat + unixEpoch.seconds = m.seconds ∧ epochToUtc w = some u ∧ u.Shows m := by
  obtain ⟨w, hw, hseconds⟩ := rtcSeconds_moment hlow hhigh
  obtain ⟨u, m', hu, hshows, heq⟩ := epochToUtc_spec w
  have hsame : m' = m := by
    apply Moment.seconds_injective
    rw [heq, ← hseconds, Nat.add_comm]
  subst hsame
  refine ⟨w, u, ?_, hseconds, hu, hshows⟩
  rw [rtcSecondsSinceEpoch_presents h hlow hhigh hfuel, hw]

/-- A date of the real time clock comes back, without a sum that wraps (its terms are not
negative, and the result is exact); and each number of seconds is a moment. -/
theorem date_roundTrip (h : Presents cmos n binary m) (hlow : 2000 ≤ m.date.year)
    (hhigh : m.date.year ≤ 2099) (hfuel : n < fuel) (t : BitVec 32) :
    (∃ w u, rtcSecondsSinceEpoch cmos fuel = some w ∧
      w.toNat + unixEpoch.seconds = m.seconds ∧ epochToUtc w = some u ∧ u.Shows m) ∧
    ∃ u m', epochToUtc t = some u ∧ u.Shows m' ∧
      m'.seconds = unixEpoch.seconds + t.toNat :=
  ⟨epochToUtc_presents h hlow hhigh hfuel, epochToUtc_spec t⟩

/-- One second before midnight of a leap day. -/
def leapDayMoment : Moment where
  date := { year := 2096, month := 1, day := 29, month_lt := by decide, day_pos := by decide,
            day_le := by decide }
  hour := 23
  minute := 59
  second := 59
  hour_lt := by decide
  minute_lt := by decide
  second_lt := by decide

/-- The chip in its decimal format; the update is over at the second access. -/
def leapDayCmos : Cmos := fun k reg =>
  if reg = 0x0A then if k = 0 then 0xA6 else 0x26
  else if reg = 0x0B then 0x02
  else if reg = 0x09 then 0x96
  else if reg = 0x08 then 0x02
  else if reg = 0x07 then 0x29
  else if reg = 0x04 then 0x23
  else 0x59

theorem date_roundTrip_leapDay :
    (∃ w u, rtcSecondsSinceEpoch leapDayCmos 2 = some w ∧
      w.toNat + unixEpoch.seconds = leapDayMoment.seconds ∧ epochToUtc w = some u ∧
        u.Shows leapDayMoment) ∧
    ∃ u m', epochToUtc 0xFFFFFFFF = some u ∧ u.Shows m' ∧
      m'.seconds = unixEpoch.seconds + (0xFFFFFFFF : BitVec 32).toNat :=
  have hformat : (0x02 : UInt8) &&& 0x04 = 0 := by decide
  have hpresents : Presents leapDayCmos 1 false leapDayMoment := {
    updating := by decide
    updated := by decide
    format := fun _ _ _ => iff_of_true hformat rfl
    second := by decide
    minute := by decide
    hour := by decide
    day := by decide
    month := by decide
    year := by decide }
  date_roundTrip hpresents (by decide) (by decide) (by decide) 0xFFFFFFFF

end RoundTrip

end Punix
