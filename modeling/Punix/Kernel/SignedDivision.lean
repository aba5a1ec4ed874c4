import Punix.Kernel.Division

/-!
The division of signed 64-bit words. The signs are taken off, with the least number as its
own negation, and put back behind the unsigned division.
-/

namespace Punix

/-- `__divdi3` over an unsigned division. -/
def signedDiv (udiv : BitVec 64 → BitVec 64 → BitVec 64) (a b : BitVec 64) : BitVec 64 :=
  let neg := false
  let (a, neg) := if a.slt 0 then (-a, !neg) else (a, neg)
  let (b, neg) := if b.slt 0 then (-b, !neg) else (b, neg)
  let q := udiv a b
  if neg then -q else q

/-- `__moddi3` over an unsigned remainder. -/
def signedMod (umod : BitVec 64 → BitVec 64 → BitVec 64) (a b : BitVec 64) : BitVec 64 :=
  let neg := a.slt 0
  let a := if a.slt 0 then -a else a
  let b := if b.slt 0 then -b else b
  let r := umod a b
  if neg then -r else r

/-- `__divdi3`. -/
def divdi3 (a b : BitVec 64) : BitVec 64 := signedDiv udivdi3 a b

/-- `__moddi3`. -/
def moddi3 (a b : BitVec 64) : BitVec 64 := signedMod umoddi3 a b

/-- `__divmoddi4`, with what is stored in `*rem` if `rem` is not `NULL`. -/
def divmoddi4 (a b : BitVec 64) (rem : Bool) : BitVec 64 × Option (BitVec 64) :=
  let q := divdi3 a b
  (q, if rem then some (a - q * b) else none)

namespace Libc

/-- `__divdi3`. -/
def divdi3 (a b : BitVec 64) : BitVec 64 := signedDiv udivdi3 a b

/-- `__moddi3`. -/
def moddi3 (a b : BitVec 64) : BitVec 64 := signedMod umoddi3 a b

end Libc

section Signs

variable {a b : BitVec 64}

theorem slt_zero (a : BitVec 64) : a.slt 0 = a.msb := BitVec.slt_zero_eq_msb

theorem signedDiv_eq {udiv : BitVec 64 → BitVec 64 → BitVec 64}
    (hudiv : ∀ n d, d ≠ 0 → udiv n d = n / d) (hb : b ≠ 0) : signedDiv udiv a b = a.sdiv b := by
  have hb' : -b ≠ 0 := mt BitVec.neg_eq_zero_iff.mp hb
  unfold signedDiv
  rw [slt_zero, slt_zero, BitVec.sdiv_eq]
  cases a.msb <;> cases b.msb <;> simp [hudiv _ _ hb, hudiv _ _ hb']

theorem signedMod_eq {umod : BitVec 64 → BitVec 64 → BitVec 64}
    (humod : ∀ n d, d ≠ 0 → umod n d = n % d) (hb : b ≠ 0) : signedMod umod a b = a.srem b := by
  have hb' : -b ≠ 0 := mt BitVec.neg_eq_zero_iff.mp hb
  unfold signedMod
  rw [slt_zero, slt_zero, BitVec.srem_eq]
  cases a.msb <;> cases b.msb <;> simp [humod _ _ hb, humod _ _ hb']

end Signs

/-- The quotient is truncated toward zero, and the remainder has the sign of `a`. -/
structure Truncates (a b q r : BitVec 64) : Prop where
  quotient : q.toInt = a.toInt.tdiv b.toInt
  remainder : r.toInt = a.toInt.tmod b.toInt
  eq : a.toInt = q.toInt * b.toInt + r.toInt
  sign : (0 ≤ a.toInt → 0 ≤ r.toInt) ∧ (a.toInt ≤ 0 → r.toInt ≤ 0)
  small : r.toInt.natAbs < b.toInt.natAbs

section Truncation

variable {a b : BitVec 64}

theorem truncates_sdiv (hb : b ≠ 0) (hfit : ¬ (a = BitVec.intMin 64 ∧ b = -1)) :
    Truncates a b (a.sdiv b) (a.srem b) := by
  have hquotient : (a.sdiv b).toInt = a.toInt.tdiv b.toInt :=
    BitVec.toInt_sdiv_of_ne_or_ne a b (not_and_or.mp hfit)
  have hremainder : (a.srem b).toInt = a.toInt.tmod b.toInt := BitVec.toInt_srem a b
  have hne : b.toInt ≠ 0 := fun h => hb (BitVec.toInt_inj.mp h)
  constructor
  · exact hquotient
  · exact hremainder
  · rw [hquotient, hremainder, Int.mul_comm]
    exact (Int.mul_tdiv_add_tmod a.toInt b.toInt).symm
  · rw [hremainder]
    constructor
    · exact fun h => Int.tmod_nonneg _ h
    · intro h
      have hneg := Int.tmod_nonneg b.toInt (Int.neg_nonneg.mpr h)
      rw [Int.neg_tmod] at hneg
      exact Int.neg_nonneg.mp hneg
  · rw [hremainder, Int.natAbs_tmod]
    exact Nat.mod_lt _ (Int.natAbs_pos.mpr hne)

/-- The remainder is what the quotient leaves. -/
theorem sub_mul_of_truncates {q r : BitVec 64} (h : Truncates a b q r) : a - q * b = r := by
  have hword : BitVec.ofInt 64 a.toInt = BitVec.ofInt 64 (q.toInt * b.toInt + r.toInt) :=
    congrArg (BitVec.ofInt 64) h.eq
  rw [BitVec.ofInt_add, BitVec.ofInt_mul, BitVec.ofInt_toInt, BitVec.ofInt_toInt,
    BitVec.ofInt_toInt, BitVec.ofInt_toInt] at hword
  rw [hword, BitVec.add_comm, BitVec.add_sub_cancel]

/-- The least number divided by -1 is the only quotient that does not fit. -/
theorem signedDivision_truncates (a : BitVec 64) {b : BitVec 64} (hb : b ≠ 0)
    (hfit : ¬ (a = BitVec.intMin 64 ∧ b = -1)) :
    Truncates a b (divdi3 a b) (moddi3 a b) ∧
      (∀ rem, divmoddi4 a b rem = (divdi3 a b, if rem then some (moddi3 a b) else none)) ∧
      Libc.divdi3 a b = divdi3 a b ∧ Libc.moddi3 a b = moddi3 a b := by
  have hdiv : divdi3 a b = a.sdiv b := signedDiv_eq (fun n _ hd => udivdi3_eq n hd) hb
  have hmod : moddi3 a b = a.srem b := signedMod_eq (fun n _ hd => umoddi3_eq n hd) hb
  have htruncates := truncates_sdiv hb hfit
  rw [← hdiv, ← hmod] at htruncates
  refine ⟨htruncates, fun rem => ?_, rfl, rfl⟩
  rw [divmoddi4, sub_mul_of_truncates htruncates]

/-- The least number is its own negation. -/
theorem signedDivision_truncates_intMin :
    Truncates (BitVec.intMin 64) 10 (divdi3 (BitVec.intMin 64) 10) (moddi3 (BitVec.intMin 64) 10) ∧
      (∀ rem, divmoddi4 (BitVec.intMin 64) 10 rem = (divdi3 (BitVec.intMin 64) 10,
        if rem then some (moddi3 (BitVec.intMin 64) 10) else none)) ∧
      Libc.divdi3 (BitVec.intMin 64) 10 = divdi3 (BitVec.intMin 64) 10 ∧
      Libc.moddi3 (BitVec.intMin 64) 10 = moddi3 (BitVec.intMin 64) 10 :=
  signedDivision_truncates (BitVec.intMin 64) (by decide) (by decide)

end Truncation

end Punix
