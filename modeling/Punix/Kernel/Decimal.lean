import Punix.Kernel.Kutils

/-!
Numbers in decimal: what `k_itoa` writes is digits only, and `k_atoi` reads the
same number back from them, whatever stands behind them.
-/

namespace Punix

/-- The step of `k_atoi`. -/
def accumulateDigit (v : BitVec 32) (c : UInt8) : BitVec 32 :=
  v * 10 + BitVec.ofNat 32 (c.toNat - 48)

/-- The number that a string of digits stands for. -/
def decimalValue (digits : List UInt8) : Nat :=
  digits.foldl (fun value c => value * 10 + (c.toNat - 48)) 0

/-- What is accumulated is the number modulo `2 ^ 32`. -/
theorem foldl_accumulateDigit (digits : List UInt8) :
    digits.foldl accumulateDigit 0 = BitVec.ofNat 32 (decimalValue digits) := by
  unfold decimalValue
  induction digits using List.reverseRecOn with
  | nil => rfl
  | append_singleton digits c ih =>
      rw [List.foldl_append, List.foldl_append, ih]
      simp only [List.foldl_cons, List.foldl_nil, accumulateDigit]
      rw [BitVec.ofNat_add, BitVec.ofNat_mul]
      rfl

theorem accumulateDigits_append {digits : List UInt8} (h : ∀ c ∈ digits, isDigit c)
    (v : BitVec 32) (rest : List UInt8) :
    accumulateDigits v (digits ++ rest) =
      accumulateDigits (digits.foldl accumulateDigit v) rest := by
  induction digits generalizing v with
  | nil => rfl
  | cons c digits ih =>
      have hc : isDigit c := h c List.mem_cons_self
      rw [List.cons_append, accumulateDigits, if_pos hc,
        ih fun c hmem => h c (List.mem_cons_of_mem _ hmem)]
      rfl

theorem accumulateDigits_of_not_isDigit {rest : List UInt8} (h : ¬ isDigit (rest.headD 0))
    (v : BitVec 32) : accumulateDigits v rest = v := by
  cases rest with
  | nil => rfl
  | cons c rest =>
      rw [List.headD_cons] at h
      rw [accumulateDigits, if_neg h]

/-- The digits in front are read, modulo `2 ^ 32` as an `int`. -/
theorem kAtoi_digits {digits rest : List UInt8} (h : ∀ c ∈ digits, isDigit c)
    (hrest : ¬ isDigit (rest.headD 0)) : kAtoi (digits ++ rest) = asInt (decimalValue digits) := by
  rw [kAtoi, accumulateDigits_append h, accumulateDigits_of_not_isDigit hrest,
    foldl_accumulateDigit]
  rfl

theorem dropWhile_digits {digits rest : List UInt8} (h : ∀ c ∈ digits, isDigit c)
    (hrest : ¬ isDigit (rest.headD 0)) : (digits ++ rest).dropWhile isDigit = rest := by
  rw [List.dropWhile_append_of_pos h]
  cases rest with
  | nil => rfl
  | cons c rest => exact List.dropWhile_cons_of_neg hrest

theorem decDigit_spec {d : Nat} (h : d < 10) : isDigit (decDigit d) ∧ (decDigit d).toNat - 48 = d := by
  interval_cases d <;> decide

theorem isDigit_digitsRev {fuel value : Nat} {c : UInt8}
    (h : c ∈ digitsRev 10 decDigit fuel value) : isDigit c := by
  induction fuel generalizing value with
  | zero => cases h
  | succ fuel ih =>
      rw [digitsRev] at h
      split at h
      · rcases List.mem_cons.mp h with rfl | hmem
        · exact (decDigit_spec (Nat.mod_lt value (by decide))).1
        · exact ih hmem
      · cases h

theorem decimalValue_digitsRev {fuel value : Nat} (h : value < 10 ^ fuel) :
    decimalValue (digitsRev 10 decDigit fuel value).reverse = value := by
  induction fuel generalizing value with
  | zero =>
      obtain rfl : value = 0 := by simpa using h
      rfl
  | succ fuel ih =>
      rw [digitsRev]
      split
      · have hlast := (decDigit_spec (Nat.mod_lt value (by decide))).2
        have hless : value / 10 < 10 ^ fuel := by rw [pow_succ] at h; omega
        have hfront := ih hless
        rw [decimalValue] at hfront
        rw [List.reverse_cons, decimalValue, List.foldl_append, hfront, List.foldl_cons,
          List.foldl_nil, hlast]
        omega
      · obtain rfl : value = 0 := by omega
        rfl

theorem mem_kItoa {value : BitVec 32} {c : UInt8} (h : c ∈ kItoa value) :
    isDigit c ∨ c = minus := by
  unfold kItoa at h
  split_ifs at h
  · left
    rw [List.mem_singleton.mp h]
    rfl
  · rw [List.mem_reverse, List.mem_append, List.mem_singleton] at h
    exact h.imp_left isDigit_digitsRev
  · rw [List.mem_reverse] at h
    exact .inl (isDigit_digitsRev h)

theorem kItoa_ne_nil (value : BitVec 32) : kItoa value ≠ [] := by
  unfold kItoa
  split_ifs with hzero hneg
  · decide
  · simp
  · have hpos : 0 < value.toInt.toNat := by
      have hne : value.toInt ≠ 0 := fun h => hzero (BitVec.toInt_inj.mp h)
      omega
    rw [digitsRev, if_pos hpos]
    simp

section Itoa

variable {n : Nat}

theorem kItoa_pos (hpos : 0 < n) (hn : n < 2 ^ 31) :
    kItoa (BitVec.ofNat 32 n) = (digitsRev 10 decDigit 15 n).reverse := by
  have hnat : (BitVec.ofNat 32 n).toNat = n := by
    rw [BitVec.toNat_ofNat]
    omega
  have hint : (BitVec.ofNat 32 n).toInt = n := by
    rw [BitVec.toInt_eq_toNat_of_lt (by omega), hnat]
  have hne : BitVec.ofNat 32 n ≠ 0 := fun h => by
    rw [h] at hnat
    exact hpos.ne hnat
  rw [kItoa, if_neg hne, hint, if_neg (by omega), Int.toNat_natCast]

theorem isDigit_kItoa (hn : n < 2 ^ 31) {c : UInt8} (h : c ∈ kItoa (BitVec.ofNat 32 n)) :
    isDigit c := by
  rcases Nat.eq_zero_or_pos n with rfl | hpos
  · obtain rfl : c = digitZero := by simpa [kItoa] using h
    rfl
  · rw [kItoa_pos hpos hn, List.mem_reverse] at h
    exact isDigit_digitsRev h

theorem decimalValue_kItoa (hn : n < 2 ^ 31) : decimalValue (kItoa (BitVec.ofNat 32 n)) = n := by
  rcases Nat.eq_zero_or_pos n with rfl | hpos
  · rfl
  · rw [kItoa_pos hpos hn]
    exact decimalValue_digitsRev (hn.trans (by decide))

theorem kAtoi_kItoa (hn : n < 2 ^ 31) {rest : List UInt8} (hrest : ¬ isDigit (rest.headD 0)) :
    kAtoi (kItoa (BitVec.ofNat 32 n) ++ rest) = n := by
  rw [kAtoi_digits (fun c => isDigit_kItoa hn) hrest, decimalValue_kItoa hn]
  exact asInt_of_lt hn

end Itoa

end Punix
