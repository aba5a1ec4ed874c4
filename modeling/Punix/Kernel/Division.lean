import Punix.Lib.Loops
import Punix.Lib.LongDivision

/-!
The division of 64-bit words, which the kernel (`kutils.c`) and the C library (`libc.c`) each
bring along for the compiler. All copies divide bit by bit; the names that begin with `Libc`
are those of the C library.
-/

namespace Punix

open Lib

/-- The variables of the loops, and whether a shift of `r` has lost a bit. -/
structure DivState where
  q : BitVec 64
  r : BitVec 64
  lost : Bool

def DivState.start : DivState where
  q := 0
  r := 0
  lost := false

/-- The body of the loops of `__udivdi3` and `__udivmoddi4`. -/
def divBody (n d : BitVec 64) (i : Nat) (s : DivState) : DivState :=
  let r := (s.r <<< 1) ||| ((n >>> i) &&& 1)
  let lost := s.lost || s.r.msb
  if r ≥ d then { q := s.q ||| ((1 : BitVec 64) <<< i), r := r - d, lost }
  else { q := s.q, r, lost }

/-- The loop of `__umoddi3` has no quotient. -/
structure RemState where
  r : BitVec 64
  lost : Bool

def RemState.start : RemState where
  r := 0
  lost := false

/-- The body of the loop of `__umoddi3`. -/
def remBody (n d : BitVec 64) (i : Nat) (s : RemState) : RemState :=
  let r := (s.r <<< 1) ||| ((n >>> i) &&& 1)
  let lost := s.lost || s.r.msb
  if r ≥ d then { r := r - d, lost } else { r, lost }

/-- `for (int i = 63; i >= 0; i--)`. -/
def divLoop (n d : BitVec 64) : DivState := countDown (divBody n d) 64 .start

def remLoop (n d : BitVec 64) : RemState := countDown (remBody n d) 64 .start

/-- `int i = 63; do … while (i--)`. -/
def divDoLoop (n d : BitVec 64) : DivState := doCountDown (divBody n d) 63 .start

/-- `__udivdi3`. -/
def udivdi3 (n d : BitVec 64) : BitVec 64 := if d = 0 then 0 else (divLoop n d).q

/-- `__umoddi3`. -/
def umoddi3 (n d : BitVec 64) : BitVec 64 := if d = 0 then 0 else (remLoop n d).r

/-- `__udivmoddi4`, with what is stored in `*rem` if `rem` is not `NULL`. -/
def udivmoddi4 (n d : BitVec 64) (rem : Bool) : BitVec 64 × Option (BitVec 64) :=
  if d = 0 then (0, if rem then some 0 else none)
  else ((divLoop n d).q, if rem then some (divLoop n d).r else none)

namespace Libc

/-- `__udivdi3`. -/
def udivdi3 (n d : BitVec 64) : BitVec 64 := if d = 0 then 0 else (divLoop n d).q

/-- `__umoddi3`. -/
def umoddi3 (n d : BitVec 64) : BitVec 64 := if d = 0 then 0 else (remLoop n d).r

/-- `__udivmoddi4`, whose loop tests behind the body. -/
def udivmoddi4 (n d : BitVec 64) (rem : Bool) : BitVec 64 × Option (BitVec 64) :=
  if d = 0 then (0, if rem then some 0 else none)
  else ((divDoLoop n d).q, if rem then some (divDoLoop n d).r else none)

end Libc

/-- The quotient and the remainder. -/
structure DivMod (n d q r : BitVec 64) : Prop where
  eq : n.toNat = q.toNat * d.toNat + r.toNat
  lt : r.toNat < d.toNat

section DivMod

variable {n d q r q' r' : BitVec 64}

theorem DivMod.toNat_quotient (h : DivMod n d q r) : q.toNat = n.toNat / d.toNat := by
  have hpos : 0 < d.toNat := Nat.zero_lt_of_lt h.lt
  rw [h.eq, Nat.mul_comm, Nat.mul_add_div hpos, Nat.div_eq_of_lt h.lt, Nat.add_zero]

theorem DivMod.toNat_remainder (h : DivMod n d q r) : r.toNat = n.toNat % d.toNat := by
  rw [h.eq, Nat.mul_comm, Nat.mul_add_mod, Nat.mod_eq_of_lt h.lt]

theorem DivMod.unique (h : DivMod n d q r) (h' : DivMod n d q' r') : q' = q ∧ r' = r := by
  constructor
  · apply BitVec.eq_of_toNat_eq
    rw [h'.toNat_quotient, h.toNat_quotient]
  · apply BitVec.eq_of_toNat_eq
    rw [h'.toNat_remainder, h.toNat_remainder]

end DivMod

/-- What the loops keep, with `k` rounds left. -/
structure DivState.Inv (n d : BitVec 64) (k : Nat) (s : DivState) : Prop where
  part : Partial n.toNat d.toNat k s.q.toNat s.r.toNat
  kept : s.lost = false

section Loops

variable {n d : BitVec 64}

theorem toNat_bit (n : BitVec 64) (i : Nat) :
    ((n >>> i) &&& 1).toNat = n.toNat / 2 ^ i % 2 := by
  rw [BitVec.toNat_and, BitVec.toNat_ushiftRight, Nat.shiftRight_eq_div_pow]
  exact Nat.and_one_is_mod _

/-- A remainder below `2 ^ 63` is shifted without a loss. -/
theorem toNat_shift_or {r : BitVec 64} (hr : r.toNat < 2 ^ 63) (n : BitVec 64) (i : Nat) :
    ((r <<< 1) ||| ((n >>> i) &&& 1)).toNat = 2 * r.toNat + n.toNat / 2 ^ i % 2 := by
  have hbit := Nat.mod_lt (n.toNat / 2 ^ i) (show 0 < 2 by decide)
  have hshift : (r <<< 1).toNat = 2 ^ 1 * r.toNat := by
    rw [BitVec.toNat_shiftLeft, Nat.shiftLeft_eq]
    omega
  rw [BitVec.toNat_or, toNat_bit, hshift, ← Nat.two_pow_add_eq_or_of_lt hbit, pow_one]

theorem toNat_one_shift {i : Nat} (hi : i < 64) : ((1 : BitVec 64) <<< i).toNat = 2 ^ i := by
  have hlt : 2 ^ i < 2 ^ 64 := Nat.pow_lt_pow_right (by decide) hi
  have hone : (1 : BitVec 64).toNat = 1 := rfl
  rw [BitVec.toNat_shiftLeft, Nat.shiftLeft_eq, hone, Nat.one_mul, Nat.mod_eq_of_lt hlt]

/-- With a bit of the numerator left, the remainder is below `2 ^ 63`. -/
theorem DivState.Inv.remainder_lt {k : Nat} {s : DivState} (h : s.Inv n d (k + 1)) :
    s.r.toNat < 2 ^ 63 := by
  have hle := h.part.remainder_le
  have hhalf : n.toNat / 2 ^ (k + 1) ≤ n.toNat / 2 ^ 1 :=
    Nat.div_le_div_left (Nat.pow_le_pow_right (by decide) (Nat.le_add_left 1 k)) (by decide)
  have hn := n.isLt
  omega

theorem DivState.Inv.step {k : Nat} {s : DivState} (hk : k < 64) (h : s.Inv n d (k + 1)) :
    (divBody n d k s).Inv n d k := by
  have hr := h.remainder_lt
  have hnext := toNat_shift_or hr n k
  have hkept : (s.lost || s.r.msb) = false := by
    rw [h.kept, Bool.false_or, BitVec.msb_eq_false_iff_two_mul_lt]
    omega
  unfold divBody
  dsimp only
  split
  · next hge =>
      have hle : d.toNat ≤ 2 * s.r.toNat + n.toNat / 2 ^ k % 2 := by
        rw [← hnext]
        exact BitVec.le_def.mp hge
      refine ⟨?_, hkept⟩
      dsimp only
      rw [BitVec.toNat_sub_of_le hge, hnext, BitVec.toNat_or, toNat_one_shift hk,
        h.part.or_eq_add]
      exact h.part.subtract hle
  · next hlt =>
      refine ⟨?_, hkept⟩
      dsimp only
      rw [hnext]
      apply h.part.keep
      rw [← hnext]
      exact Nat.not_le.mp fun hle => hlt (BitVec.le_def.mpr hle)

theorem divLoop_inv (n : BitVec 64) (hd : d ≠ 0) : (divLoop n d).Inv n d 0 := by
  have hpos : 0 < d.toNat := Nat.pos_of_ne_zero fun h => hd (BitVec.eq_of_toNat_eq h)
  have hstart : DivState.start.Inv n d 64 := ⟨.start hpos n.isLt, rfl⟩
  unfold divLoop
  exact countDown_rule (DivState.Inv n d) hstart fun k s hk h => h.step hk

/-- The loop without a quotient has the same remainders. -/
def DivState.rem (s : DivState) : RemState where
  r := s.r
  lost := s.lost

theorem rem_divBody (n d : BitVec 64) (i : Nat) (s : DivState) :
    (divBody n d i s).rem = remBody n d i s.rem := by
  unfold divBody remBody DivState.rem
  dsimp only
  split
  · rfl
  · rfl

theorem remLoop_eq (n d : BitVec 64) : remLoop n d = (divLoop n d).rem := by
  unfold remLoop divLoop
  rw [countDown_map DivState.rem (rem_divBody n d)]
  rfl

theorem divDoLoop_eq (n d : BitVec 64) : divDoLoop n d = divLoop n d := doCountDown_eq _ _ _

/-- The calls of all copies return this quotient and this remainder, and no shift of a
remainder loses a bit. -/
structure CopiesReturn (n d q r : BitVec 64) : Prop where
  udivdi3 : udivdi3 n d = q
  umoddi3 : umoddi3 n d = r
  udivmoddi4 : ∀ rem, udivmoddi4 n d rem = (q, if rem then some r else none)
  libcUdivdi3 : Libc.udivdi3 n d = q
  libcUmoddi3 : Libc.umoddi3 n d = r
  libcUdivmoddi4 : ∀ rem, Libc.udivmoddi4 n d rem = (q, if rem then some r else none)
  kept : (divLoop n d).lost = false ∧ (remLoop n d).lost = false ∧ (divDoLoop n d).lost = false

theorem copiesReturn_divLoop (n : BitVec 64) (hd : d ≠ 0) :
    CopiesReturn n d (divLoop n d).q (divLoop n d).r := by
  have hkept := (divLoop_inv n hd).kept
  have hrem : (remLoop n d).r = (divLoop n d).r := by
    rw [remLoop_eq]
    rfl
  constructor
  · exact if_neg hd
  · rw [Punix.umoddi3, if_neg hd, hrem]
  · exact fun rem => if_neg hd
  · exact if_neg hd
  · rw [Libc.umoddi3, if_neg hd, hrem]
  · intro rem
    rw [Libc.udivmoddi4, if_neg hd, divDoLoop_eq]
  · rw [remLoop_eq, divDoLoop_eq]
    exact ⟨hkept, hkept, hkept⟩

theorem divMod_divLoop (n : BitVec 64) (hd : d ≠ 0) :
    DivMod n d (divLoop n d).q (divLoop n d).r := by
  obtain ⟨heq, hlt⟩ := (divLoop_inv n hd).part.done
  exact ⟨heq, hlt⟩

theorem udivdi3_eq (n : BitVec 64) (hd : d ≠ 0) : udivdi3 n d = n / d := by
  apply BitVec.eq_of_toNat_eq
  rw [(copiesReturn_divLoop n hd).udivdi3, BitVec.toNat_udiv]
  exact (divMod_divLoop n hd).toNat_quotient

theorem umoddi3_eq (n : BitVec 64) (hd : d ≠ 0) : umoddi3 n d = n % d := by
  apply BitVec.eq_of_toNat_eq
  rw [(copiesReturn_divLoop n hd).umoddi3, BitVec.toNat_umod]
  exact (divMod_divLoop n hd).toNat_remainder

/-- There is one quotient and one remainder, and all copies find them. -/
theorem division_agrees (n : BitVec 64) {d : BitVec 64} (hd : d ≠ 0) :
    ∃ q r, DivMod n d q r ∧ (∀ q' r', DivMod n d q' r' → q' = q ∧ r' = r) ∧
      CopiesReturn n d q r :=
  ⟨(divLoop n d).q, (divLoop n d).r, divMod_divLoop n hd,
    fun _ _ h => (divMod_divLoop n hd).unique h, copiesReturn_divLoop n hd⟩

/-- The divisor is larger than `2 ^ 63`. -/
theorem division_agrees_large : ∃ q r,
    DivMod 0xFFFFFFFFFFFFFFFF 0x8000000000000001 q r ∧
      (∀ q' r', DivMod 0xFFFFFFFFFFFFFFFF 0x8000000000000001 q' r' → q' = q ∧ r' = r) ∧
      CopiesReturn 0xFFFFFFFFFFFFFFFF 0x8000000000000001 q r :=
  division_agrees 0xFFFFFFFFFFFFFFFF (by decide)

end Loops

end Punix
