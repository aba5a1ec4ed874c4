import Punix.Kernel.Constants
import Punix.Kernel.Division

/-!
`kclock_gettime` (`clock.c`): the time stamp counter as seconds and nanoseconds. A reading is
exact, and of two readings the later one is not the smaller, so that their difference in
nanoseconds (`time.c`) is a number of nanoseconds that have passed.
-/

namespace Punix

def clockRealtime : Int := 0
def clockMonotonic : Int := 1
def clockBoottime : Int := 2

def efault : Int := 14

/-- `struct timespec`, two signed words. -/
structure Timespec where
  tvSec : BitVec 64
  tvNsec : BitVec 64

/-- The variables of `clock.c` that `kclock_gettime` reads. -/
structure Clock where
  bootEpochSec : BitVec 32
  bootTsc : BitVec 64
  tscHz : BitVec 64

/-- `kclock_gettime`, with the time stamp counter at the call and whether `tp` is an address,
and what is stored at `*tp`. -/
def kclockGettime (c : Clock) (clkId : Int) (tp : Bool) (tsc : BitVec 64) :
    Int × Option Timespec :=
  if !tp then (-efault, none)
  else if clkId = clockMonotonic then
    (0, some {
      tvSec := ((udivdi3 tsc c.tscHz).setWidth 32).setWidth 64
      tvNsec := ((udivdi3 (umoddi3 tsc c.tscHz * 1000000000) c.tscHz).setWidth 32).setWidth 64 })
  else if clkId = clockBoottime then
    let delta := tsc - c.bootTsc
    (0, some {
      tvSec := ((udivdi3 delta c.tscHz).setWidth 32).setWidth 64
      tvNsec := ((udivdi3 (umoddi3 delta c.tscHz * 1000000000) c.tscHz).setWidth 32).setWidth 64 })
  else if clkId = clockRealtime then
    let delta := tsc - c.bootTsc
    let sec := udivdi3 delta c.tscHz
    let rem := umoddi3 delta c.tscHz
    let nsec := udivdi3 (rem * 1000000000) c.tscHz
    (0, some {
      tvSec := (c.bootEpochSec + sec.setWidth 32).setWidth 64
      tvNsec := (nsec.setWidth 32).setWidth 64 })
  else (-einval, none)

/-- `ts_to_ns` of `time.c`. -/
def tsToNs (ts : Timespec) : BitVec 64 := ts.tvSec * 1000000000 + ts.tvNsec

def IsClock (clkId : Int) : Prop :=
  clkId = clockMonotonic ∨ clkId = clockBoottime ∨ clkId = clockRealtime

/-- The ticks that a clock counts: all, or those since the boot. -/
def Clock.ticks (c : Clock) (clkId : Int) (tsc : BitVec 64) : Nat :=
  if clkId = clockMonotonic then tsc.toNat else tsc.toNat - c.bootTsc.toNat

/-- The seconds that a clock shows. -/
def Clock.seconds (c : Clock) (clkId : Int) (tsc : BitVec 64) : Nat :=
  (if clkId = clockRealtime then c.bootEpochSec.toNat else 0) +
    c.ticks clkId tsc / c.tscHz.toNat

/-- The nanoseconds that a clock shows. -/
def Clock.nanoseconds (c : Clock) (clkId : Int) (tsc : BitVec 64) : Nat :=
  c.ticks clkId tsc % c.tscHz.toNat * 10 ^ 9 / c.tscHz.toNat

/-- The call stores the seconds and the nanoseconds as they are in the natural numbers, and
nothing wraps on the way. -/
structure ExactReading (c : Clock) (clkId : Int) (tsc : BitVec 64) (ts : Timespec) : Prop where
  call : kclockGettime c clkId true tsc = (0, some ts)
  tvSec : ts.tvSec.toInt = c.seconds clkId tsc
  tvNsec : ts.tvNsec.toInt = c.nanoseconds clkId tsc
  tvNsec_lt : ts.tvNsec.toInt < 10 ^ 9
  product : c.ticks clkId tsc % c.tscHz.toNat * 10 ^ 9 < 2 ^ 64
  division : ∀ n, (divLoop n c.tscHz).lost = false ∧ (remLoop n c.tscHz).lost = false
  toNs : (tsToNs ts).toNat = c.seconds clkId tsc * 10 ^ 9 + c.nanoseconds clkId tsc

/-- Seconds first. -/
def Timespec.Le (a b : Timespec) : Prop :=
  a.tvSec.toInt < b.tvSec.toInt ∨
    a.tvSec.toInt = b.tvSec.toInt ∧ a.tvNsec.toInt ≤ b.tvNsec.toInt

section Scale

variable {a b hz scale : Nat}

theorem scaled_lt (hpos : 0 < hz) (hscale : 0 < scale) (a : Nat) :
    a % hz * scale / hz < scale := by
  apply (Nat.div_lt_iff_lt_mul hpos).mpr
  rw [Nat.mul_comm scale]
  exact Nat.mul_lt_mul_of_pos_right (Nat.mod_lt a hpos) hscale

/-- Across a second the seconds grow, and within one the scaled remainder does. -/
theorem scaled_lex (h : a ≤ b) (hz scale : Nat) :
    a / hz < b / hz ∨ a / hz = b / hz ∧ a % hz * scale / hz ≤ b % hz * scale / hz := by
  rcases (Nat.div_le_div_right h : a / hz ≤ b / hz).lt_or_eq with hlt | heq
  · exact Or.inl hlt
  · right
    have ha := Nat.div_add_mod a hz
    have hb := Nat.div_add_mod b hz
    rw [heq] at ha
    have hmod : a % hz ≤ b % hz := by omega
    exact ⟨heq, Nat.div_le_div_right (Nat.mul_le_mul_right scale hmod)⟩

end Scale

section Words

variable {hz : BitVec 64}

theorem toInt_widened {w : BitVec 32} : (w.setWidth 64).toInt = w.toNat := by
  have hlt := w.isLt
  have hnat : (w.setWidth 64).toNat = w.toNat := BitVec.toNat_setWidth_of_le (by decide)
  rw [BitVec.toInt_eq_toNat_of_lt (by omega), hnat]

theorem ne_zero_of_pos (hpos : 0 < hz.toNat) : hz ≠ 0 := by
  rintro rfl
  exact absurd hpos (by decide)

/-- The quotient, if it fits in 32 bits. -/
theorem toNat_seconds (hpos : 0 < hz.toNat) {n : BitVec 64} (hfit : n.toNat / hz.toNat < 2 ^ 32) :
    ((udivdi3 n hz).setWidth 32).toNat = n.toNat / hz.toNat := by
  rw [udivdi3_eq n (ne_zero_of_pos hpos), BitVec.toNat_setWidth, BitVec.toNat_udiv,
    Nat.mod_eq_of_lt hfit]

/-- The remainder in nanoseconds. -/
theorem toNat_nanoseconds (hpos : 0 < hz.toNat) (hhz : hz.toNat ≤ (2 ^ 64 - 1) / 10 ^ 9)
    (n : BitVec 64) :
    n.toNat % hz.toNat * 10 ^ 9 < 2 ^ 64 ∧
      ((udivdi3 (umoddi3 n hz * 1000000000) hz).setWidth 32).toNat =
        n.toNat % hz.toNat * 10 ^ 9 / hz.toNat := by
  have hmod := Nat.mod_lt n.toNat hpos
  have hproduct : n.toNat % hz.toNat * 10 ^ 9 < 2 ^ 64 := by omega
  have hsmall := scaled_lt hpos (show 0 < 10 ^ 9 by decide) n.toNat
  have hnum : (n % hz * 1000000000).toNat = n.toNat % hz.toNat * 10 ^ 9 := by
    rw [BitVec.toNat_mul, BitVec.toNat_umod]
    exact Nat.mod_eq_of_lt hproduct
  refine ⟨hproduct, ?_⟩
  rw [umoddi3_eq n (ne_zero_of_pos hpos), udivdi3_eq _ (ne_zero_of_pos hpos),
    BitVec.toNat_setWidth, BitVec.toNat_udiv, hnum, Nat.mod_eq_of_lt (by omega)]

end Words

section Reading

variable {c : Clock} {clkId : Int} {tsc : BitVec 64}

/-- The words that are stored, from the ticks. -/
theorem exactReading_of_words {ts : Timespec} {sec nsec : BitVec 32} (hpos : 0 < c.tscHz.toNat)
    (hhz : c.tscHz.toNat ≤ (2 ^ 64 - 1) / 10 ^ 9)
    (hcall : kclockGettime c clkId true tsc =
      (0, some { tvSec := sec.setWidth 64, tvNsec := nsec.setWidth 64 }))
    (hsec : sec.toNat = c.seconds clkId tsc) (hnsec : nsec.toNat = c.nanoseconds clkId tsc)
    (hts : ts = { tvSec := sec.setWidth 64, tvNsec := nsec.setWidth 64 }) :
    ExactReading c clkId tsc ts := by
  have hsmall : c.nanoseconds clkId tsc < 10 ^ 9 := scaled_lt hpos (by decide) _
  have hmod := Nat.mod_lt (c.ticks clkId tsc) hpos
  have hkept (n : BitVec 64) := (copiesReturn_divLoop n (ne_zero_of_pos hpos)).kept
  have hfit := sec.isLt
  have hwide (w : BitVec 32) : (w.setWidth 64).toNat = w.toNat :=
    BitVec.toNat_setWidth_of_le (by decide)
  have hbillion : (1000000000 : BitVec 64).toNat = 10 ^ 9 := rfl
  subst hts
  constructor
  · exact hcall
  · dsimp only
    rw [toInt_widened, hsec]
  · dsimp only
    rw [toInt_widened, hnsec]
  · dsimp only
    rw [toInt_widened, hnsec]
    exact_mod_cast hsmall
  · omega
  · exact fun n => ⟨(hkept n).1, (hkept n).2.1⟩
  · rw [tsToNs, BitVec.toNat_add, BitVec.toNat_mul, hwide, hwide, hbillion, hsec, hnsec]
    omega

/-- The words for the ticks since the boot. -/
theorem toNat_since_boot (hpos : 0 < c.tscHz.toNat)
    (hhz : c.tscHz.toNat ≤ (2 ^ 64 - 1) / 10 ^ 9) (hboot : c.bootTsc ≤ tsc)
    (hfit : (tsc.toNat - c.bootTsc.toNat) / c.tscHz.toNat < 2 ^ 32) :
    ((udivdi3 (tsc - c.bootTsc) c.tscHz).setWidth 32).toNat =
        (tsc.toNat - c.bootTsc.toNat) / c.tscHz.toNat ∧
      ((udivdi3 (umoddi3 (tsc - c.bootTsc) c.tscHz * 1000000000) c.tscHz).setWidth 32).toNat =
        (tsc.toNat - c.bootTsc.toNat) % c.tscHz.toNat * 10 ^ 9 / c.tscHz.toNat := by
  have hdelta := BitVec.toNat_sub_of_le hboot
  rw [← hdelta] at hfit ⊢
  exact ⟨toNat_seconds hpos hfit, (toNat_nanoseconds hpos hhz _).2⟩

/-- One reading. -/
theorem exists_exactReading (hpos : 0 < c.tscHz.toNat)
    (hhz : c.tscHz.toNat ≤ (2 ^ 64 - 1) / 10 ^ 9)
    (hclk : IsClock clkId)
    (hboot : clkId ≠ clockMonotonic → c.bootTsc ≤ tsc) (hfit : c.seconds clkId tsc < 2 ^ 32) :
    ∃ ts, ExactReading c clkId tsc ts := by
  rcases hclk with rfl | rfl | rfl
  · have hsec : tsc.toNat / c.tscHz.toNat < 2 ^ 32 := (Nat.le_add_left _ _).trans_lt hfit
    refine ⟨_, exactReading_of_words hpos hhz rfl ?_ (toNat_nanoseconds hpos hhz tsc).2 rfl⟩
    rw [toNat_seconds hpos hsec]
    exact (Nat.zero_add _).symm
  · obtain ⟨hsec, hnsec⟩ := toNat_since_boot hpos hhz (hboot (by decide))
      ((Nat.le_add_left _ _).trans_lt hfit)
    refine ⟨_, exactReading_of_words hpos hhz rfl ?_ hnsec rfl⟩
    rw [hsec]
    exact (Nat.zero_add _).symm
  · obtain ⟨hsec, hnsec⟩ := toNat_since_boot hpos hhz (hboot (by decide))
      ((Nat.le_add_left _ _).trans_lt hfit)
    refine ⟨_, exactReading_of_words hpos hhz rfl ?_ hnsec rfl⟩
    rw [BitVec.toNat_add, hsec]
    exact Nat.mod_eq_of_lt hfit

theorem Clock.ticks_mono (c : Clock) (clkId : Int) {t t' : BitVec 64} (h : t ≤ t') :
    c.ticks clkId t ≤ c.ticks clkId t' := by
  have hle := BitVec.le_def.mp h
  unfold Clock.ticks
  split
  · exact hle
  · exact Nat.sub_le_sub_right hle _

/-- The later one of two readings is not the smaller, also in nanoseconds. -/
theorem kclockGettime_monotone (c : Clock) (hpos : 0 < c.tscHz.toNat)
    (hhz : c.tscHz.toNat ≤ (2 ^ 64 - 1) / 10 ^ 9) {t t' : BitVec 64} (hle : t ≤ t')
    (hclk : IsClock clkId) (hboot : clkId ≠ clockMonotonic → c.bootTsc ≤ t)
    (hfit : c.seconds clkId t' < 2 ^ 32) :
    ∃ ts ts', ExactReading c clkId t ts ∧ ExactReading c clkId t' ts' ∧ ts.Le ts' ∧
      (tsToNs ts).toNat ≤ (tsToNs ts').toNat := by
  have hticks := scaled_lex (c.ticks_mono clkId hle) c.tscHz.toNat (10 ^ 9)
  have hseconds : c.seconds clkId t ≤ c.seconds clkId t' :=
    Nat.add_le_add_left (Nat.div_le_div_right (c.ticks_mono clkId hle)) _
  obtain ⟨ts, hts⟩ := exists_exactReading hpos hhz hclk hboot (hseconds.trans_lt hfit)
  obtain ⟨ts', hts'⟩ :=
    exists_exactReading hpos hhz hclk (fun hne => BitVec.le_trans (hboot hne) hle) hfit
  have hlex : c.seconds clkId t < c.seconds clkId t' ∨
      c.seconds clkId t = c.seconds clkId t' ∧
        c.nanoseconds clkId t ≤ c.nanoseconds clkId t' := by
    rcases hticks with hlt | ⟨heq, hnsec⟩
    · exact Or.inl (Nat.add_lt_add_left hlt _)
    · right
      constructor
      · unfold Clock.seconds
        rw [heq]
      · exact hnsec
  refine ⟨ts, ts', hts, hts', ?_, ?_⟩
  · unfold Timespec.Le
    rw [hts.tvSec, hts'.tvSec, hts.tvNsec, hts'.tvNsec]
    exact_mod_cast hlex
  · have hnsec : c.nanoseconds clkId t < 10 ^ 9 := scaled_lt hpos (by decide) _
    rw [hts.toNs, hts'.toNs]
    rcases hlex with hlt | ⟨heq, hnano⟩
    · omega
    · omega

/-- The wall clock over the end of a second, with a counter of 3 GHz. -/
theorem kclockGettime_monotone_second :
    ∃ ts ts',
      ExactReading ⟨1767225600, 1000, 3000000000⟩ clockRealtime 3000000999 ts ∧
      ExactReading ⟨1767225600, 1000, 3000000000⟩ clockRealtime 3000001000 ts' ∧ ts.Le ts' ∧
      (tsToNs ts).toNat ≤ (tsToNs ts').toNat :=
  kclockGettime_monotone ⟨1767225600, 1000, 3000000000⟩ (by decide) (by decide) (by decide)
    (Or.inr (Or.inr rfl)) (fun _ => by decide) (by decide)

end Reading

end Punix
