import Punix.Lib.Calendar

/-!
The real time clock (`clock.c`): the registers of the chip as seconds since the beginning of
1970. The chip changes its registers by itself, so that each access sees registers of its own;
while it does so the update flag is set.
-/

namespace Punix

open Lib
open Lib.Calendar

/-- The registers at each access. -/
abbrev Cmos := Nat → UInt8 → UInt8

def bcd (v : UInt8) : UInt8 := (v &&& (0x0F : UInt8)) + (v >>> 4) * 10

/-- `rtc_is_bcd`, as access `k`. -/
def rtcIsBcd (cmos : Cmos) (k : Nat) : Bool := (cmos k 0x0B &&& 0x04) = 0

/-- `rtc_value`, the accesses `k` and `k + 1`. -/
def rtcValue (cmos : Cmos) (k : Nat) (reg : UInt8) : UInt8 :=
  let v := cmos k reg
  if rtcIsBcd cmos (k + 1) then bcd v else v

/-- `while (cmos(0x0A) & 0x80)`, with the number of accesses. -/
def rtcWait (cmos : Cmos) : Nat → Nat → Option Nat
  | 0, _ => none
  | fuel + 1, k => if (cmos k 0x0A &&& 0x80) ≠ 0 then rtcWait cmos fuel (k + 1) else some (k + 1)

/-- `days_before`. -/
def daysBefore : List (BitVec 32) := [0, 31, 59, 90, 120, 151, 181, 212, 243, 273, 304, 334]

/-- What `rtc_seconds_since_epoch` makes of the values. There is no result if `days_before` is
read outside of its entries. -/
def rtcSeconds (sec min hour day mon year : BitVec 32) : Option (BitVec 32) :=
  let y := 2000 + year
  match daysBefore[(mon - 1).toNat]? with
  | none => none
  | some before =>
      let days := (y - 1970) * 365 + (y - 1969) / 4 + before + (day - 1)
      let days := if 2 < mon ∧ y % 4 = 0 ∧ (y % 100 ≠ 0 ∨ y % 400 = 0) then days + 1 else days
      some (days * 86400 + hour * 3600 + min * 60 + sec)

/-- A `uint8_t` as a `uint32_t`. -/
def widen (v : UInt8) : BitVec 32 := v.toBitVec.setWidth 32

/-- `rtc_seconds_since_epoch`. -/
def rtcSecondsSinceEpoch (cmos : Cmos) (fuel : Nat) : Option (BitVec 32) :=
  match rtcWait cmos fuel 0 with
  | none => none
  | some k =>
      let sec := widen (rtcValue cmos k 0x00)
      let min := widen (rtcValue cmos (k + 2) 0x02)
      let hour := widen (rtcValue cmos (k + 4) 0x04)
      let day := widen (rtcValue cmos (k + 6) 0x07)
      let mon := widen (rtcValue cmos (k + 8) 0x08)
      let year := widen (rtcValue cmos (k + 10) 0x09)
      rtcSeconds sec min hour day mon year

/-- A number below 100 as a register holds it. -/
def encode (binary : Bool) (v : Nat) : UInt8 :=
  if binary then UInt8.ofNat v else UInt8.ofNat (v / 10 * 16 + v % 10)

/-- The first `n` accesses see the update flag, and then the chip shows a moment of the years
from 2000 on, in a format that register `0x0B` tells. -/
structure Presents (cmos : Cmos) (n : Nat) (binary : Bool) (m : Moment) : Prop where
  updating : ∀ k < n, (cmos k 0x0A &&& 0x80) ≠ 0
  updated : (cmos n 0x0A &&& 0x80) = 0
  format : ∀ k, n < k → k ≤ n + 12 → ((cmos k 0x0B &&& 0x04) = 0 ↔ binary = false)
  second : cmos (n + 1) 0x00 = encode binary m.second
  minute : cmos (n + 3) 0x02 = encode binary m.minute
  hour : cmos (n + 5) 0x04 = encode binary m.hour
  day : cmos (n + 7) 0x07 = encode binary m.date.day
  month : cmos (n + 9) 0x08 = encode binary (m.date.month + 1)
  year : cmos (n + 11) 0x09 = encode binary (m.date.year - 2000)

/-- The first of January of 1970. -/
def unixEpoch : Moment where
  date := { year := 1970, month := 0, day := 1, month_lt := by decide, day_pos := by decide,
            day_le := by decide }
  hour := 0
  minute := 0
  second := 0
  hour_lt := by decide
  minute_lt := by decide
  second_lt := by decide

theorem seconds_unixEpoch : unixEpoch.seconds = 719528 * 86400 := by
  have hstart : unixEpoch.date.dayNumber = 719528 := by
    rw [Date.dayNumber, yearStart_eq]
    rfl
  rw [Moment.seconds, hstart]
  rfl

section Values

variable {cmos : Cmos} {n k : Nat} {binary : Bool} {m : Moment}

/-- `bcd` takes the two digits apart. -/
theorem bcd_encode : ∀ v < 100, bcd (encode false v) = UInt8.ofNat v := by decide

theorem rtcValue_encode {reg : UInt8} {v : Nat} (hv : v < 100)
    (hformat : (cmos (k + 1) 0x0B &&& 0x04) = 0 ↔ binary = false)
    (hreg : cmos k reg = encode binary v) :
    widen (rtcValue cmos k reg) = BitVec.ofNat 32 v := by
  have hbyte : rtcValue cmos k reg = UInt8.ofNat v := by
    unfold rtcValue rtcIsBcd
    dsimp only
    rw [hreg]
    cases binary with
    | false =>
        rw [if_pos (decide_eq_true (hformat.mpr rfl))]
        exact bcd_encode v hv
    | true =>
        rw [if_neg]
        · rfl
        · intro h
          exact absurd (hformat.mp (of_decide_eq_true h)) (by decide)
  have hsmall : v < 2 ^ 8 := by omega
  apply BitVec.eq_of_toNat_eq
  rw [hbyte, widen, BitVec.toNat_setWidth, BitVec.toNat_ofNat, UInt8.toNat_toBitVec,
    UInt8.toNat_ofNat', Nat.mod_eq_of_lt hsmall]

theorem rtcWait_presents (h : Presents cmos n binary m) {fuel : Nat} (hle : k ≤ n)
    (hfuel : n < k + fuel) : rtcWait cmos fuel k = some (n + 1) := by
  induction fuel generalizing k with
  | zero => omega
  | succ fuel ih =>
      rw [rtcWait]
      rcases hle.lt_or_eq with hlt | rfl
      · rw [if_pos (h.updating k hlt)]
        exact ih hlt (by omega)
      · rw [if_neg (not_not.mpr h.updated)]

/-- The six values. -/
theorem rtcSecondsSinceEpoch_presents (h : Presents cmos n binary m) (hlow : 2000 ≤ m.date.year)
    (hhigh : m.date.year ≤ 2099) {fuel : Nat} (hfuel : n < fuel) :
    rtcSecondsSinceEpoch cmos fuel =
      rtcSeconds (BitVec.ofNat 32 m.second) (BitVec.ofNat 32 m.minute) (BitVec.ofNat 32 m.hour)
        (BitVec.ofNat 32 m.date.day) (BitVec.ofNat 32 (m.date.month + 1))
        (BitVec.ofNat 32 (m.date.year - 2000)) := by
  have hday : m.date.day ≤ 31 := m.date.day_le.trans (monthDays_le _ _)
  have hmonth := m.date.month_lt
  have hhour := m.hour_lt
  have hminute := m.minute_lt
  have hsecond := m.second_lt
  rw [rtcSecondsSinceEpoch, rtcWait_presents h (Nat.zero_le n) (by omega)]
  dsimp only
  rw [rtcValue_encode (by omega) (h.format _ (by omega) (by omega)) h.second,
    rtcValue_encode (by omega) (h.format _ (by omega) (by omega)) h.minute,
    rtcValue_encode (by omega) (h.format _ (by omega) (by omega)) h.hour,
    rtcValue_encode (by omega) (h.format _ (by omega) (by omega)) h.day,
    rtcValue_encode (by omega) (h.format _ (by omega) (by omega)) h.month,
    rtcValue_encode (by omega) (h.format _ (by omega) (by omega)) h.year]

end Values

section Sum

variable {y month : Nat}

/-- The table is that of a year that is no leap year. -/
theorem monthStart_daysBefore (y : Nat) (hmonth : month < 12) :
    ∃ before, daysBefore[month]? = some before ∧ before.toNat ≤ 334 ∧
      monthStart y month = before.toNat + if 2 ≤ month ∧ Leap y then 1 else 0 := by
  have hle : ∀ m < 12, (daysBefore[m]?).all fun before => before.toNat ≤ 334 := by decide +kernel
  have hcommon : ∀ m < 12, (daysBefore[m]?).map BitVec.toNat = some (monthStart 2001 m) := by
    decide +kernel
  have hleap : ∀ m < 12, (daysBefore[m]?).map (fun before =>
      before.toNat + if 2 ≤ m then 1 else 0) = some (monthStart 2000 m) := by decide +kernel
  obtain ⟨before, hbefore⟩ : ∃ before, daysBefore[month]? = some before :=
    ⟨_, List.getElem?_eq_getElem hmonth⟩
  have hsmall := hle month hmonth
  have hcommon := hcommon month hmonth
  have hleap := hleap month hmonth
  rw [hbefore] at hsmall hcommon hleap
  refine ⟨before, hbefore, of_decide_eq_true hsmall, ?_⟩
  rcases Classical.em (Leap y) with hy | hy
  · have hkind : Leap y ↔ Leap 2000 := iff_of_true hy (by decide)
    rw [monthStart_congr hkind, ← Option.some.inj hleap]
    simp only [hy, and_true]
  · have hkind : Leap y ↔ Leap 2001 := iff_of_false hy (by decide)
    rw [monthStart_congr hkind, ← Option.some.inj hcommon, if_neg fun h => hy h.2, Nat.add_zero]

/-- The years from 2000 to 2099 with one leap day in every four years since 1969. -/
theorem yearStart_since (hlow : 2000 ≤ y) (hhigh : y ≤ 2099) :
    yearStart y = 719528 + (y - 1970) * 365 + (y - 1969) / 4 := by
  rw [yearStart_eq]
  omega

/-- The days before the leap day is added. -/
theorem rtcDays_eq {before : BitVec 32} {day : Nat} (hlow : 1970 ≤ y) (hhigh : y < 2 ^ 32)
    (hday : 1 ≤ day) :
    (BitVec.ofNat 32 y - 1970) * 365 + (BitVec.ofNat 32 y - 1969) / 4 + before +
        (BitVec.ofNat 32 day - 1) =
      BitVec.ofNat 32 ((y - 1970) * 365 + (y - 1969) / 4 + before.toNat + (day - 1)) := by
  have hyears : BitVec.ofNat 32 y - 1970 = BitVec.ofNat 32 (y - 1970) :=
    BitVec.ofNat_sub_ofNat_of_le y 1970 (by decide) hlow
  have hsince : BitVec.ofNat 32 y - 1969 = BitVec.ofNat 32 (y - 1969) :=
    BitVec.ofNat_sub_ofNat_of_le y 1969 (by decide) (by omega)
  have hdays : BitVec.ofNat 32 day - 1 = BitVec.ofNat 32 (day - 1) :=
    BitVec.ofNat_sub_ofNat_of_le day 1 (by decide) hday
  have hfourth : BitVec.ofNat 32 (y - 1969) / 4 = BitVec.ofNat 32 ((y - 1969) / 4) := by
    apply BitVec.eq_of_toNat_eq
    have hsmall : y - 1969 < 2 ^ 32 := by omega
    have hquotient : (y - 1969) / 4 < 2 ^ 32 := by omega
    rw [BitVec.toNat_udiv, BitVec.toNat_ofNat, BitVec.toNat_ofNat, Nat.mod_eq_of_lt hsmall,
      Nat.mod_eq_of_lt hquotient]
    rfl
  rw [hyears, hsince, hdays, hfourth, BitVec.ofNat_add, BitVec.ofNat_add, BitVec.ofNat_add,
    BitVec.ofNat_mul, BitVec.ofNat_toNat, BitVec.setWidth_eq]
  rfl

theorem word_mod {n : Nat} (hy : y < 2 ^ 32) (hn : 0 < n) (hn' : n < 2 ^ 32) :
    BitVec.ofNat 32 y % BitVec.ofNat 32 n = 0 ↔ y % n = 0 := by
  have hmod := Nat.mod_lt y hn
  rw [← BitVec.toNat_inj, BitVec.toNat_umod, BitVec.toNat_ofNat, BitVec.toNat_ofNat,
    Nat.mod_eq_of_lt hy, Nat.mod_eq_of_lt hn']
  rfl

/-- The test of the source for the leap day. -/
theorem leapDay_iff (hy : y < 2 ^ 32) (hmonth : month < 12) :
    (2 < BitVec.ofNat 32 (month + 1) ∧ BitVec.ofNat 32 y % 4 = 0 ∧
      (BitVec.ofNat 32 y % 100 ≠ 0 ∨ BitVec.ofNat 32 y % 400 = 0)) ↔ 2 ≤ month ∧ Leap y := by
  have hfour : BitVec.ofNat 32 y % 4 = 0 ↔ y % 4 = 0 := word_mod hy (by decide) (by decide)
  have hhundred : BitVec.ofNat 32 y % 100 = 0 ↔ y % 100 = 0 :=
    word_mod hy (by decide) (by decide)
  have hcycle : BitVec.ofNat 32 y % 400 = 0 ↔ y % 400 = 0 := word_mod hy (by decide) (by decide)
  have hlate : 2 < BitVec.ofNat 32 (month + 1) ↔ 2 < month + 1 := by
    rw [BitVec.lt_def, BitVec.toNat_ofNat, Nat.mod_eq_of_lt (by omega)]
    rfl
  rw [hfour, Ne, hhundred, hcycle, hlate]
  unfold Leap
  omega

theorem rtcSeconds_moment {m : Moment} (hlow : 2000 ≤ m.date.year) (hhigh : m.date.year ≤ 2099) :
    ∃ w, rtcSeconds (BitVec.ofNat 32 m.second) (BitVec.ofNat 32 m.minute) (BitVec.ofNat 32 m.hour)
        (BitVec.ofNat 32 m.date.day) (BitVec.ofNat 32 (m.date.month + 1))
        (BitVec.ofNat 32 (m.date.year - 2000)) = some w ∧
      w.toNat + unixEpoch.seconds = m.seconds := by
  have hday : m.date.day ≤ 31 := m.date.day_le.trans (monthDays_le _ _)
  have hpos := m.date.day_pos
  have hmonth := m.date.month_lt
  have hhour := m.hour_lt
  have hminute := m.minute_lt
  have hsecond := m.second_lt
  obtain ⟨before, htable, hbefore, hstart⟩ := monthStart_daysBefore m.date.year hmonth
  have hyear : 2000 + BitVec.ofNat 32 (m.date.year - 2000) = BitVec.ofNat 32 m.date.year := by
    rw [← Nat.add_sub_cancel' hlow, BitVec.ofNat_add, Nat.add_sub_cancel_left]
    rfl
  have hindex : (BitVec.ofNat 32 (m.date.month + 1) - 1).toNat = m.date.month := by
    have hsub : BitVec.ofNat 32 (m.date.month + 1) - 1 = BitVec.ofNat 32 (m.date.month + 1 - 1) :=
      BitVec.ofNat_sub_ofNat_of_le _ 1 (by decide) (Nat.le_add_left _ _)
    rw [hsub, BitVec.toNat_ofNat, Nat.add_sub_cancel, Nat.mod_eq_of_lt (by omega)]
  have hsum (days : Nat) : BitVec.ofNat 32 days * 86400 + BitVec.ofNat 32 m.hour * 3600 +
      BitVec.ofNat 32 m.minute * 60 + BitVec.ofNat 32 m.second =
        BitVec.ofNat 32 (days * 86400 + m.hour * 3600 + m.minute * 60 + m.second) := by
    rw [BitVec.ofNat_add, BitVec.ofNat_add, BitVec.ofNat_add, BitVec.ofNat_mul, BitVec.ofNat_mul,
      BitVec.ofNat_mul]
    rfl
  unfold rtcSeconds
  dsimp only
  rw [hindex, htable, hyear]
  dsimp only
  rw [rtcDays_eq (by omega) (by omega) hpos]
  refine ⟨_, rfl, ?_⟩
  rw [seconds_unixEpoch, Moment.seconds, Date.dayNumber, Date.dayOfYear,
    yearStart_since hlow hhigh, hstart]
  split
  · next h =>
      have hnext (n : Nat) : BitVec.ofNat 32 n + 1 = BitVec.ofNat 32 (n + 1) := by
        rw [BitVec.ofNat_add]
        rfl
      rw [if_pos ((leapDay_iff (by omega) hmonth).mp h), hnext, hsum, BitVec.toNat_ofNat,
        Nat.mod_eq_of_lt (by omega)]
      omega
  · next h =>
      rw [if_neg fun h' => h ((leapDay_iff (by omega) hmonth).mpr h'), hsum, BitVec.toNat_ofNat,
        Nat.mod_eq_of_lt (by omega)]
      omega

end Sum

end Punix
