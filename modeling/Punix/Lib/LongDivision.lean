import Mathlib.Tactic

/-!
Long division in base two. The digits of the numerator are taken down from the highest one
on; `Partial` says what the quotient and the remainder are while `k` digits are left.
-/

namespace Punix.Lib

/-- With `k` digits left, the digits that have been taken down are `r` more than a multiple
of the divisor, and the quotient so far is that multiple followed by `k` zeros. -/
structure Partial (n d k q r : Nat) : Prop where
  quotient : ∃ m, q = 2 ^ (k) * m ∧ n / 2 ^ k = m * d + r
  remainder : r < d

namespace Partial

variable {n d k q r : Nat}

theorem start (hd : 0 < d) (hn : n < 2 ^ k) : Partial n d k 0 0 where
  quotient := ⟨0, by simp, by simp [Nat.div_eq_of_lt hn]⟩
  remainder := hd

/-- The next digit. -/
theorem div_pow_succ (n k : Nat) : n / 2 ^ k = 2 * (n / 2 ^ (k + 1)) + n / 2 ^ k % 2 := by
  rw [pow_succ, ← Nat.div_div_eq_div_mul]
  omega

/-- The remainder is no longer than the digits that have been taken down. -/
theorem remainder_le (h : Partial n d k q r) : r ≤ n / 2 ^ k := by
  obtain ⟨m, -, hn⟩ := h.quotient
  rw [hn]
  exact Nat.le_add_left _ _

theorem keep (h : Partial n d (k + 1) q r) (hlt : 2 * r + n / 2 ^ k % 2 < d) :
    Partial n d k q (2 * r + n / 2 ^ k % 2) := by
  obtain ⟨m, hq, hn⟩ := h.quotient
  refine ⟨⟨2 * m, ?_, ?_⟩, hlt⟩
  · rw [hq, pow_succ, Nat.mul_assoc]
  · have hdigit := div_pow_succ n k
    rw [hn] at hdigit
    rw [hdigit, Nat.mul_add, Nat.mul_assoc]
    omega

theorem subtract (h : Partial n d (k + 1) q r) (hle : d ≤ 2 * r + n / 2 ^ k % 2) :
    Partial n d k (q + 2 ^ k) (2 * r + n / 2 ^ k % 2 - d) := by
  obtain ⟨m, hq, hn⟩ := h.quotient
  have hr := h.remainder
  have hbit := Nat.mod_lt (n / 2 ^ k) (show 0 < 2 by decide)
  refine ⟨⟨2 * m + 1, ?_, ?_⟩, by omega⟩
  · rw [hq, pow_succ]
    ring
  · have hdigit := div_pow_succ n k
    rw [hn] at hdigit
    have hprod : (2 * m + 1) * d = 2 * (m * d) + d := by ring
    rw [hdigit, hprod, Nat.mul_add]
    omega

/-- A new digit of the quotient goes to an empty place. -/
theorem or_eq_add (h : Partial n d (k + 1) q r) : q ||| 2 ^ k = q + 2 ^ k := by
  obtain ⟨m, rfl, -⟩ := h.quotient
  have hless : 2 ^ k < 2 ^ (k + 1) := Nat.pow_lt_pow_right (by decide) k.lt_succ_self
  exact (Nat.two_pow_add_eq_or_of_lt hless m).symm

theorem done (h : Partial n d 0 q r) : n = q * d + r ∧ r < d := by
  obtain ⟨m, hq, hn⟩ := h.quotient
  rw [pow_zero, Nat.one_mul] at hq
  rw [pow_zero, Nat.div_one] at hn
  exact ⟨hq ▸ hn, h.remainder⟩

end Partial

end Punix.Lib
