import Mathlib.Tactic

/-!
Spans of different lengths, one behind the other, and the Gregorian calendar, in which the
years and the months of a year are such spans. Days are counted from the first of January of
the year 0, and a date is found from its number in one way.
-/

namespace Punix.Lib

namespace Spans

variable {len : Nat → Nat} {i j r s : Nat}

/-- The beginning of a span. -/
def start (len : Nat → Nat) (i : Nat) : Nat := ∑ k ∈ Finset.range i, len k

theorem start_succ (len : Nat → Nat) (i : Nat) : start len (i + 1) = start len i + len i :=
  Finset.sum_range_succ len i

theorem start_mono (h : i ≤ j) : start len i ≤ start len j := by
  unfold start
  apply Finset.sum_le_sum_of_subset
  exact Finset.range_subset_range.mpr h

/-- A place lies in the span before another one only if it comes before it. -/
theorem start_add_lt (hr : r < len i) (h : i < j) : start len i + r < start len j := by
  have hnext : start len (i + 1) ≤ start len j := start_mono h
  rw [start_succ] at hnext
  omega

/-- A place lies in one span. -/
theorem unique (hr : r < len i) (hs : s < len j) (h : start len i + r = start len j + s) :
    i = j ∧ r = s := by
  rcases Nat.lt_trichotomy i j with hlt | rfl | hlt
  · have hbefore := start_add_lt hr hlt
    omega
  · exact ⟨rfl, Nat.add_left_cancel h⟩
  · have hbefore := start_add_lt hs hlt
    omega

end Spans

namespace Calendar

/-- Every fourth year, but of the hundreds every fourth one. -/
def Leap (y : Nat) : Prop := 4 ∣ y ∧ (100 ∣ y → 400 ∣ y)

instance (y : Nat) : Decidable (Leap y) := inferInstanceAs (Decidable (_ ∧ _))

def yearDays (y : Nat) : Nat := if Leap y then 366 else 365

/-- The months are counted from 0. -/
def monthDays (y m : Nat) : Nat :=
  match m with
  | 1 => if Leap y then 29 else 28
  | 3 | 5 | 8 | 10 => 30
  | _ => 31

/-- The days before a year. -/
def yearStart (y : Nat) : Nat := Spans.start yearDays y

/-- The days of a year before a month. -/
def monthStart (y m : Nat) : Nat := Spans.start (monthDays y) m

structure Date where
  year : Nat
  month : Nat
  day : Nat
  month_lt : month < 12
  day_pos : 0 < day
  day_le : day ≤ monthDays year month

def Date.dayOfYear (d : Date) : Nat := monthStart d.year d.month + (d.day - 1)

def Date.dayNumber (d : Date) : Nat := yearStart d.year + d.dayOfYear

/-- The days of the week from Sunday on. The day 0 is a Saturday. -/
def Date.weekday (d : Date) : Nat := (d.dayNumber + 6) % 7

structure Moment where
  date : Date
  hour : Nat
  minute : Nat
  second : Nat
  hour_lt : hour < 24
  minute_lt : minute < 60
  second_lt : second < 60

def Moment.seconds (m : Moment) : Nat :=
  m.date.dayNumber * 86400 + m.hour * 3600 + m.minute * 60 + m.second

variable {y m : Nat}

theorem yearStart_eq (y : Nat) :
    yearStart y = 365 * y + (y + 3) / 4 - (y + 99) / 100 + (y + 399) / 400 := by
  induction y with
  | zero => rfl
  | succ y ih =>
      rw [yearStart, Spans.start_succ, ← yearStart, ih]
      unfold yearDays
      split
      · next hleap =>
          unfold Leap at hleap
          omega
      · next hleap =>
          unfold Leap at hleap
          omega

theorem monthDays_le (y m : Nat) : monthDays y m ≤ 31 := by
  unfold monthDays
  split
  · split
    · decide
    · decide
  · decide
  · decide
  · decide
  · decide
  · decide

/-- There are two kinds of years. -/
theorem monthStart_congr {y y' : Nat} (h : Leap y ↔ Leap y') (m : Nat) :
    monthStart y m = monthStart y' m := by
  unfold monthStart Spans.start
  apply Finset.sum_congr rfl
  intro k hk
  unfold monthDays
  split
  · exact if_congr h rfl rfl
  · rfl
  · rfl
  · rfl
  · rfl
  · rfl

/-- The months fill the year. -/
theorem monthStart_twelve (y : Nat) : monthStart y 12 = yearDays y := by
  unfold yearDays
  simp only [monthStart, Spans.start, Finset.sum_range_succ, Finset.sum_range_zero, monthDays]
  split
  · rfl
  · rfl

theorem Date.day_lt (d : Date) : d.day - 1 < monthDays d.year d.month := by
  have hpos := d.day_pos
  have hle := d.day_le
  omega

theorem Date.dayOfYear_lt (d : Date) : d.dayOfYear < yearDays d.year := by
  rw [← monthStart_twelve]
  exact Spans.start_add_lt d.day_lt d.month_lt

theorem Date.dayNumber_injective {d e : Date} (h : d.dayNumber = e.dayNumber) : d = e := by
  obtain ⟨year, month, day, hmonth, hpos, hle⟩ := d
  obtain ⟨year', month', day', hmonth', hpos', hle'⟩ := e
  obtain ⟨hyear, hday⟩ := Spans.unique (Date.dayOfYear_lt _) (Date.dayOfYear_lt _) h
  dsimp only at hyear
  subst hyear
  have hspan : Spans.start (monthDays year) month + (day - 1) =
      Spans.start (monthDays year) month' + (day' - 1) := hday
  obtain ⟨rfl, hd⟩ := Spans.unique (by omega) (by omega) hspan
  obtain rfl : day = day' := by omega
  rfl

theorem Moment.seconds_injective {m n : Moment} (h : m.seconds = n.seconds) : m = n := by
  obtain ⟨date, hour, minute, second, hhour, hminute, hsecond⟩ := m
  obtain ⟨date', hour', minute', second', hhour', hminute', hsecond'⟩ := n
  dsimp only [Moment.seconds] at h
  obtain rfl := Date.dayNumber_injective (show date.dayNumber = date'.dayNumber by omega)
  obtain rfl : hour = hour' := by omega
  obtain rfl : minute = minute' := by omega
  obtain rfl : second = second' := by omega
  rfl

end Calendar

end Punix.Lib
