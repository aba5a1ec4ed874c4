import Punix.Kernel.PrintfRuns

/-!
Numbers as texts. `udiv64_10` divides exactly, so that `%llu` prints every 64-bit word;
`u64_to_str` writes every 64-bit word that fits, and `k_itoa` every `int` but the least, of
which it writes the sign only. `atoi` of the C library reads back what `k_itoa` writes.
-/

namespace Punix

open Format

def plus : UInt8 := 43

namespace Libc

/-- `udiv64_10`, the copy of the C library. -/
def udiv64_10 (n : BitVec 64) : BitVec 64 × BitVec 32 :=
  let q := (n >>> 1) + (n >>> 2)
  let q := q + (q >>> 4)
  let q := q + (q >>> 8)
  let q := q + (q >>> 16)
  let q := q + (q >>> 32)
  let q := q >>> 3
  let r := (n - q * 10).setWidth 32
  if 10 ≤ r then (q + 1, r - 10) else (q, r)

/-- A blank, a tab or a newline. -/
def isBlank (c : UInt8) : Bool := c = 32 ∨ c = 9 ∨ c = 10

/-- `atoi`. The digits are added up as they are by `k_atoi`. -/
def atoi (s : List UInt8) : BitVec 32 :=
  let s := s.dropWhile isBlank
  if s.head? = some minus then -accumulateDigits 0 s.tail
  else if s.head? = some plus then accumulateDigits 0 s.tail
  else accumulateDigits 0 s

end Libc

/-- The decimal text of a number: a minus sign if it is negative, and digits of which the
first is a zero only if it is the only one. -/
structure Canonical (v : Int) (s : List UInt8) : Prop where
  exists_digits : ∃ digits, s = (if v < 0 then [minus] else []) ++ digits ∧
    (∀ c ∈ digits, isDigit c) ∧ digits ≠ [] ∧
    (digits.head? = some digitZero → digits = [digitZero]) ∧ decimalValue digits = v.natAbs

section Number

variable {n : Nat}

theorem decDigit_ne_zero {d : Nat} (h : d < 10) (hne : d ≠ 0) : decDigit d ≠ digitZero := by
  intro heq
  have hvalue := (decDigit_spec h).2
  rw [heq] at hvalue
  exact hne hvalue.symm

theorem number_eq_digitsRev (n : Nat) :
    number 10 decDigit n = if n = 0 then [digitZero] else (digitsRev 10 decDigit n n).reverse := by
  have hfuel : n < 10 ^ n := Nat.lt_pow_self (by decide)
  rw [← tmpDigits_eq decDigit (by decide) hfuel, tmpDigits]

theorem isDigit_number {c : UInt8} (h : c ∈ number 10 decDigit n) : isDigit c := by
  rw [number_eq_digitsRev] at h
  split at h
  · obtain rfl := List.mem_singleton.mp h
    rfl
  · exact isDigit_digitsRev (List.mem_reverse.mp h)

theorem decimalValue_number (n : Nat) : decimalValue (number 10 decDigit n) = n := by
  rw [number_eq_digitsRev]
  split
  · next hzero =>
      rw [hzero]
      rfl
  · exact decimalValue_digitsRev (Nat.lt_pow_self (by decide))

/-- The last of the digits, lowest first, is not zero. -/
theorem head?_number (hne : n ≠ 0) : (number 10 decDigit n).head? ≠ some digitZero := by
  have hdigits : Nat.digits 10 n ≠ [] := Nat.digits_ne_nil_iff_ne_zero.mpr hne
  have hlast := Nat.getLast_digit_ne_zero 10 hne
  have hsmall := Nat.digits_lt_base (by decide) (List.getLast_mem hdigits)
  rw [number, if_neg hne, List.head?_map, List.head?_reverse, List.getLast?_eq_some_getLast hdigits,
    Option.map_some]
  exact fun h => decDigit_ne_zero hsmall hlast (Option.some.inj h)

theorem canonical_number (v : Int) :
    Canonical v ((if v < 0 then [minus] else []) ++ number 10 decDigit v.natAbs) := by
  refine ⟨number 10 decDigit v.natAbs, rfl, fun c => isDigit_number, number_ne_nil _, ?_,
    decimalValue_number _⟩
  intro hhead
  rcases eq_or_ne v.natAbs 0 with hzero | hne
  · rw [hzero]
    rfl
  · exact absurd hhead (head?_number hne)

end Number

/-- `%llu`. -/
def llu : Directive := .bare .longLong .unsigned

theorem render_llu : render [.directive llu] = cstr "%llu" := by decide

theorem text_llu (ap : VaList) :
    text ap 0 [.directive llu] = number 10 decDigit (ap.longLong 0).toNat := by
  simp [text, Item.text, Directive.text, llu, Directive.bare, Directive.width, decimalValue, field,
    Directive.unsignedArg]

theorem length_tmpDigits64_le (n : BitVec 64) : (tmpDigits64 n).length ≤ 20 := by
  have hn : n.toNat < 10 ^ 20 := n.isLt.trans (by decide)
  rw [tmpDigits64_eq, number]
  split
  · decide
  · rw [List.length_map, List.length_reverse]
    exact (Nat.digits_length_le_iff (by decide) _).mpr hn

/-- A formatter prints a 64-bit word into a buffer that is long enough. -/
theorem vsnprintf_llu (f : Formatter) (upperHex : Bool)
    (hf : f.hex = if upperHex then hexDigitUpper else hexDigit) (ap : VaList) (buf : Nat → UInt8)
    {size : BitVec 32} (hsize : (tmpDigits64 (ap.longLong 0)).length < size.toNat) :
    ∃ p, vsnprintfWith f buf size (cstr "%llu") ap = some p ∧
      p.ret.toInt = (tmpDigits64 (ap.longLong 0)).length ∧
      (∀ i c, (tmpDigits64 (ap.longLong 0))[i]? = some c → p.buf i = c) ∧
      p.buf (tmpDigits64 (ap.longLong 0)).length = 0 := by
  have hshort := length_tmpDigits64_le (ap.longLong 0)
  have htext : text ap 0 [.directive llu] = tmpDigits64 (ap.longLong 0) := by
    rw [text_llu, tmpDigits64_eq]
  have hne : 0 < (tmpDigits64 (ap.longLong 0)).length := by
    rw [tmpDigits64_eq]
    exact List.length_pos_iff.mpr (number_ne_nil _)
  have hpositive : 0 < size := BitVec.lt_def.mpr (Nat.zero_lt_of_lt hsize)
  have hplain : Along (Item.Plain upperHex ap) ap 0 (size.toNat - 1) [.directive llu] :=
    ⟨by omega, trivial, trivial⟩
  have hlen : (text ap 0 [.directive llu]).length < 2 ^ 31 := by
    rw [htext]
    omega
  obtain ⟨p, hp, hok⟩ := (prescribed_iff upperHex hf buf hpositive).mpr
    ⟨hlen, htext ▸ hsize, hplain⟩
  rw [render_llu] at hp
  refine ⟨p, hp, ?_, ?_, ?_⟩
  · rw [hok.ret, htext]
  · intro i c hc
    have hi := (List.getElem?_eq_some_iff.mp hc).1
    rw [← htext] at hc
    exact hok.bytes i (by omega) c hc
  · have hnul := hok.nul
    rwa [htext, Nat.min_eq_left (by omega)] at hnul

/-- The quotient and the remainder are exact in both copies, and `%llu` prints the decimal
text of every word. -/
theorem udiv64_10_exact (n : BitVec 64) :
    ((udiv64_10 n).1.toNat = n.toNat / 10 ∧ (udiv64_10 n).2.toNat = n.toNat % 10) ∧
      ((Libc.udiv64_10 n).1.toNat = n.toNat / 10 ∧ (Libc.udiv64_10 n).2.toNat = n.toNat % 10) ∧
      Canonical n.toNat (tmpDigits64 n) ∧
      ∀ ap buf buf' (size : BitVec 32), ap.longLong 0 = n → (tmpDigits64 n).length < size.toNat →
        ∃ p p', kVsnprintf buf size (cstr "%llu") ap = some p ∧
          vsnprintf buf' size (cstr "%llu") ap = some p' ∧
          ∀ printed ∈ [p, p'], printed.ret.toInt = (tmpDigits64 n).length ∧
            (∀ i c, (tmpDigits64 n)[i]? = some c → printed.buf i = c) ∧
            printed.buf (tmpDigits64 n).length = 0 := by
  refine ⟨udiv64_10_eq n, udiv64_10_eq n, ?_, ?_⟩
  · rw [tmpDigits64_eq]
    exact canonical_number n.toNat
  · rintro ap buf buf' size rfl hsize
    obtain ⟨p, hp, hprinted⟩ := vsnprintf_llu kernelFormatter true rfl ap buf hsize
    obtain ⟨p', hp', hprinted'⟩ := vsnprintf_llu libcFormatter false rfl ap buf' hsize
    refine ⟨p, p', hp, hp', ?_⟩
    intro printed hmem
    rcases List.mem_pair.mp hmem with rfl | rfl
    · exact hprinted
    · exact hprinted'

/-- The text fits if there is a byte left for the NUL. -/
theorem u64ToStr_number {value : BitVec 64} {bufSize : Nat}
    (hfit : (number 10 decDigit value.toNat).length < bufSize) :
    u64ToStr value bufSize = some (number 10 decDigit value.toNat) := by
  have hn : value.toNat < 10 ^ 32 := value.isLt.trans (by decide)
  have hpos : 0 < (number 10 decDigit value.toNat).length :=
    List.length_pos_iff.mpr (number_ne_nil value.toNat)
  rw [u64ToStr, if_neg (by omega)]
  split
  · next hzero =>
      rw [if_neg (by omega), hzero]
      rfl
  · next hne =>
      have hnat : value.toNat ≠ 0 := fun h => hne (BitVec.eq_of_toNat_eq h)
      have htext : number 10 decDigit value.toNat =
          (digitsRev 10 decDigit 32 value.toNat).reverse := by
        rw [← tmpDigits_eq decDigit (by decide) hn, tmpDigits, if_neg hnat]
      rw [htext] at hfit ⊢
      rw [List.take_of_length_le (by omega)]

section Itoa

variable {v w : BitVec 32}

theorem kItoa_eq (hv : v ≠ BitVec.intMin 32) :
    kItoa v = (if v.toInt < 0 then [minus] else []) ++ number 10 decDigit v.toInt.natAbs := by
  have hneg : (-v).toInt = -v.toInt := BitVec.toInt_neg_of_ne_intMin hv
  have hlt := v.isLt
  have hbounds := BitVec.toInt_eq_toNat_cond v
  have habs : v.toInt.natAbs < 10 ^ 15 := by
    split at hbounds
    · omega
    · omega
  have hdigits (hne : v.toInt.natAbs ≠ 0) : number 10 decDigit v.toInt.natAbs =
      (digitsRev 10 decDigit 15 v.toInt.natAbs).reverse := by
    rw [← tmpDigits_eq decDigit (by decide) habs, tmpDigits, if_neg hne]
  unfold kItoa
  split
  · next hzero =>
      rw [hzero]
      rfl
  next hne =>
  have hint : v.toInt ≠ 0 := fun h => hne (BitVec.toInt_inj.mp h)
  split
  · next hlow =>
      have hnat : (-v).toInt.toNat = v.toInt.natAbs := by omega
      rw [hnat, hdigits (by omega), List.reverse_append, List.reverse_singleton]
  · next hhigh =>
      have hnat : v.toInt.toNat = v.toInt.natAbs := by omega
      rw [hnat, hdigits (by omega), List.nil_append]

/-- Of the least `int` nothing but the sign is written. -/
theorem kItoa_intMin : kItoa (BitVec.intMin 32) = [minus] := by decide

theorem not_blank_of_isDigit {c : UInt8} (h : isDigit c) :
    ¬ Libc.isBlank c ∧ c ≠ minus ∧ c ≠ plus := by
  refine ⟨?_, ?_, ?_⟩
  · intro hblank
    rcases of_decide_eq_true hblank with rfl | rfl | rfl
    · exact absurd h (by decide)
    · exact absurd h (by decide)
    · exact absurd h (by decide)
  · rintro rfl
    exact absurd h (by decide)
  · rintro rfl
    exact absurd h (by decide)

/-- `atoi` reads a sign and digits. -/
theorem atoi_digits {digits : List UInt8} (hdigits : ∀ c ∈ digits, isDigit c) (hne : digits ≠ []) :
    Libc.atoi digits = BitVec.ofNat 32 (decimalValue digits) ∧
      Libc.atoi (minus :: digits) = -BitVec.ofNat 32 (decimalValue digits) := by
  have hsum : accumulateDigits 0 digits = BitVec.ofNat 32 (decimalValue digits) := by
    have happend := accumulateDigits_append hdigits 0 []
    rw [List.append_nil] at happend
    rw [happend, accumulateDigits_of_not_isDigit (by decide), foldl_accumulateDigit]
  constructor
  · obtain ⟨c, rest, rfl⟩ := List.exists_cons_of_ne_nil hne
    obtain ⟨hblank, hminus, hplus⟩ := not_blank_of_isDigit (hdigits c List.mem_cons_self)
    unfold Libc.atoi
    rw [List.dropWhile_cons_of_neg hblank]
    dsimp only
    rw [List.head?_cons, if_neg fun h => hminus (Option.some.inj h),
      if_neg fun h => hplus (Option.some.inj h), hsum]
  · unfold Libc.atoi
    rw [List.dropWhile_cons_of_neg (by decide)]
    dsimp only
    rw [List.head?_cons, if_pos rfl, List.tail_cons, hsum]

theorem atoi_kItoa (hv : v ≠ BitVec.intMin 32) : Libc.atoi (kItoa v) = v := by
  obtain ⟨hpos, hneg⟩ :=
    atoi_digits (fun _ => isDigit_number) (number_ne_nil v.toInt.natAbs)
  rw [decimalValue_number] at hpos hneg
  have hword : BitVec.ofInt 32 v.toInt = v := BitVec.ofInt_toInt
  rw [kItoa_eq hv]
  split
  · next hlow =>
      have hint : v.toInt = -(v.toInt.natAbs : Int) := by omega
      rw [hint, BitVec.ofInt_neg, BitVec.ofInt_natCast] at hword
      exact hneg.trans hword
  · next hhigh =>
      have hint : v.toInt = (v.toInt.natAbs : Int) := by omega
      rw [hint, BitVec.ofInt_natCast] at hword
      exact hpos.trans hword

theorem canonical_kItoa (hv : v ≠ BitVec.intMin 32) : Canonical v.toInt (kItoa v) := by
  rw [kItoa_eq hv]
  exact canonical_number v.toInt

/-- A sign is no text. -/
theorem not_canonical_minus (n : Int) : ¬ Canonical n [minus] := by
  rintro ⟨digits, heq, hdigits, hne, -⟩
  have hmem : ∀ c ∈ digits, c = minus := by
    intro c hc
    have hin : c ∈ [minus] := heq ▸ List.mem_append_right _ hc
    exact List.mem_singleton.mp hin
  obtain ⟨c, rest, rfl⟩ := List.exists_cons_of_ne_nil hne
  have hdigit := hdigits c List.mem_cons_self
  rw [hmem c List.mem_cons_self] at hdigit
  exact absurd hdigit (by decide)

theorem kItoa_injective (h : kItoa v = kItoa w) : v = w := by
  rcases eq_or_ne v (BitVec.intMin 32) with rfl | hv
  · rcases eq_or_ne w (BitVec.intMin 32) with rfl | hw
    · rfl
    · have hcanonical := canonical_kItoa hw
      rw [← h, kItoa_intMin] at hcanonical
      exact absurd hcanonical (not_canonical_minus _)
  · rcases eq_or_ne w (BitVec.intMin 32) with rfl | hw
    · have hcanonical := canonical_kItoa hv
      rw [h, kItoa_intMin] at hcanonical
      exact absurd hcanonical (not_canonical_minus _)
    · rw [← atoi_kItoa hv, h, atoi_kItoa hw]

/-- `k_itoa` writes the text of every `int` but the least, and no two texts are the same;
`u64_to_str` writes the text of every 64-bit word that fits. -/
theorem decimalText_iff (v w : BitVec 32) (value : BitVec 64) (bufSize : Nat) :
    (Canonical v.toInt (kItoa v) ∧ Libc.atoi (kItoa v) = v ↔ v ≠ BitVec.intMin 32) ∧
      (kItoa v = kItoa w → v = w) ∧
      ∃ s, Canonical value.toNat s ∧ (s.length < bufSize → u64ToStr value bufSize = some s) := by
  refine ⟨⟨?_, ?_⟩, kItoa_injective, number 10 decDigit value.toNat, ?_, u64ToStr_number⟩
  · rintro ⟨hcanonical, -⟩ rfl
    rw [kItoa_intMin] at hcanonical
    exact not_canonical_minus _ hcanonical
  · exact fun hv => ⟨canonical_kItoa hv, atoi_kItoa hv⟩
  · exact canonical_number value.toNat

/-- The least `int`: a sign, which is read back as 0. -/
theorem kItoa_least : kItoa (-2147483648) = [minus] ∧ Libc.atoi [minus] = 0 ∧
    ¬ (Canonical (-2147483648 : BitVec 32).toInt (kItoa (-2147483648)) ∧
      Libc.atoi (kItoa (-2147483648)) = -2147483648) := by
  refine ⟨by decide, by decide, ?_⟩
  rintro ⟨-, hback⟩
  exact absurd hback (by decide)

end Itoa

end Punix
