import Punix.Kernel.PrintfSpec
import Punix.Kernel.PrintfPuts

/-!
What the formatters put for one item of a format, and the words that they take for it.
-/

namespace Punix

open Format

/-- A step of the estimate, which does not overflow. -/
theorem toNat_add_shift {q : BitVec 64} {k bound : Nat} (h : q.toNat < bound)
    (hbound : bound + bound / 2 ^ k < 2 ^ 64) :
    (q + q >>> k).toNat = q.toNat + q.toNat / 2 ^ k ∧
      q.toNat + q.toNat / 2 ^ k < bound + bound / 2 ^ k := by
  have hdiv : q.toNat / 2 ^ k ≤ bound / 2 ^ k := Nat.div_le_div_right h.le
  rw [BitVec.toNat_add, BitVec.toNat_ushiftRight, Nat.shiftRight_eq_div_pow,
    Nat.mod_eq_of_lt (by omega)]
  exact ⟨rfl, by omega⟩

/-- Three quarters of 16 / 15 of an eighth are a tenth; what the shifts drop is little. -/
theorem estimate_bounds {n a b c d e : Nat} (ha : a = n / 2 + n / 4) (hb : b = a + a / 2 ^ 4)
    (hc : c = b + b / 2 ^ 8) (hd : d = c + c / 2 ^ 16) (he : e = d + d / 2 ^ 32) (hn : n < 2 ^ 64) :
    10 * (e / 2 ^ 3) ≤ n ∧ n < 10 * (e / 2 ^ 3) + 20 := by
  have hdiv (x : Nat) {k : Nat} (hk : 0 < k) : k * (x / k) ≤ x ∧ x < k * (x / k) + k :=
    ⟨Nat.mul_div_le x k, Nat.lt_mul_div_succ x hk⟩
  obtain ⟨h₁, h₁'⟩ := hdiv n (k := 2) (by decide)
  obtain ⟨h₂, h₂'⟩ := hdiv n (k := 4) (by decide)
  obtain ⟨h₃, h₃'⟩ := hdiv a (k := 2 ^ 4) (by decide)
  obtain ⟨h₄, h₄'⟩ := hdiv b (k := 2 ^ 8) (by decide)
  obtain ⟨h₅, h₅'⟩ := hdiv c (k := 2 ^ 16) (by decide)
  obtain ⟨h₆, h₆'⟩ := hdiv d (k := 2 ^ 32) (by decide)
  obtain ⟨h₇, h₇'⟩ := hdiv e (k := 2 ^ 3) (by decide)
  constructor
  · linarith
  · linarith

theorem udiv64_10_estimate (n : BitVec 64) :
    ∃ q, udiv64_10 n = (if 10 ≤ (n - q * 10).setWidth 32
        then (q + 1, (n - q * 10).setWidth 32 - 10) else (q, (n - q * 10).setWidth 32)) ∧
      10 * q.toNat ≤ n.toNat ∧ n.toNat < 10 * q.toNat + 20 := by
  have hn := n.isLt
  have h₀ : ((n >>> 1) + (n >>> 2)).toNat = n.toNat / 2 + n.toNat / 4 := by
    rw [BitVec.toNat_add, BitVec.toNat_ushiftRight, BitVec.toNat_ushiftRight,
      Nat.shiftRight_eq_div_pow, Nat.shiftRight_eq_div_pow]
    omega
  have hbound : ((n >>> 1) + (n >>> 2)).toNat < 12 * 2 ^ 60 := by omega
  unfold udiv64_10
  refine ⟨_, rfl, ?_⟩
  generalize (n >>> 1) + (n >>> 2) = q₀ at h₀ hbound ⊢
  obtain ⟨h₁, h₁'⟩ := toNat_add_shift (k := 4) hbound (by decide)
  obtain ⟨h₂, h₂'⟩ := toNat_add_shift (k := 8) (h₁ ▸ h₁') (by decide)
  obtain ⟨h₃, h₃'⟩ := toNat_add_shift (k := 16) (h₂ ▸ h₂') (by decide)
  obtain ⟨h₄, -⟩ := toNat_add_shift (k := 32) (h₃ ▸ h₃') (by decide)
  rw [BitVec.toNat_ushiftRight, Nat.shiftRight_eq_div_pow]
  exact estimate_bounds h₀ h₁ h₂ h₃ h₄ hn

/-- The estimate is corrected by the remainder. -/
theorem udiv64_10_eq (n : BitVec 64) :
    (udiv64_10 n).1.toNat = n.toNat / 10 ∧ (udiv64_10 n).2.toNat = n.toNat % 10 := by
  obtain ⟨q, hdiv, hle, hlt⟩ := udiv64_10_estimate n
  have hn := n.isLt
  have hmul : (q * 10).toNat = 10 * q.toNat := by
    rw [BitVec.toNat_mul]
    change q.toNat * 10 % 2 ^ 64 = _
    omega
  have hr : ((n - q * 10).setWidth 32).toNat = n.toNat - 10 * q.toNat := by
    rw [BitVec.toNat_setWidth, BitVec.toNat_sub_of_le (BitVec.le_def.mpr (hmul ▸ hle)), hmul]
    omega
  rw [hdiv]
  split
  · next hbig =>
      have hten : 10 ≤ n.toNat - 10 * q.toNat := hr ▸ BitVec.le_def.mp hbig
      rw [BitVec.toNat_add, BitVec.toNat_sub_of_le hbig, hr]
      change (q.toNat + 1) % 2 ^ 64 = _ ∧ _ - 10 = _
      omega
  · next hsmall =>
      have hten : ¬ 10 ≤ n.toNat - 10 * q.toNat := fun h => hsmall (BitVec.le_def.mpr (hr ▸ h))
      rw [hr]
      change q.toNat = _ ∧ _
      omega

theorem digitsRev_eq (digit : Nat → UInt8) {base fuel value : Nat} (hbase : 1 < base)
    (h : value < base ^ fuel) :
    digitsRev base digit fuel value = (base.digits value).map digit := by
  induction fuel generalizing value with
  | zero =>
      obtain rfl : value = 0 := by simpa using h
      simp [digitsRev]
  | succ fuel ih =>
      rw [digitsRev]
      split
      · next hpos =>
          have hless : value / base < base ^ fuel := by
            rw [Nat.div_lt_iff_lt_mul (by omega), ← pow_succ]
            exact h
          rw [ih hless, Nat.digits_def' hbase hpos, List.map_cons]
      · obtain rfl : value = 0 := by omega
        simp

theorem tmpDigits_eq (digit : Nat → UInt8) {base fuel value : Nat} (hbase : 1 < base)
    (h : value < base ^ fuel) : tmpDigits base digit fuel value = number base digit value := by
  rw [tmpDigits, number, digitsRev_eq digit hbase h, List.map_reverse]

theorem number_ne_nil {base : Nat} {digit : Nat → UInt8} (n : Nat) : number base digit n ≠ [] := by
  unfold number
  split
  · exact List.cons_ne_nil _ _
  · next hne =>
      rw [Ne, List.map_eq_nil_iff, List.reverse_eq_nil_iff]
      exact Nat.digits_ne_nil_iff_ne_zero.mpr hne

theorem digitsRev64_eq (fuel : Nat) (uv : BitVec 64) :
    digitsRev64 fuel uv = digitsRev 10 decDigit fuel uv.toNat := by
  induction fuel generalizing uv with
  | zero => rfl
  | succ fuel ih =>
      obtain ⟨hquotient, hrem⟩ := udiv64_10_eq uv
      rw [digitsRev64, digitsRev, ih, hquotient, hrem]
      apply if_congr _ rfl rfl
      rw [gt_iff_lt, Nat.pos_iff_ne_zero, Ne, Ne, ← BitVec.toNat_inj]
      rfl

theorem tmpDigits64_eq (uv : BitVec 64) : tmpDigits64 uv = number 10 decDigit uv.toNat := by
  have hsmall : uv.toNat < 10 ^ 24 := uv.isLt.trans (by decide)
  rw [← tmpDigits_eq decDigit (by decide) hsmall, tmpDigits64, tmpDigits, digitsRev64_eq]
  apply if_congr _ rfl rfl
  rw [← BitVec.toNat_inj]
  rfl

namespace Format

theorem Conv.byte_spec (conv : Conv) : isDigit conv.byte = false ∧ conv.byte ≠ digitZero ∧
    conv.byte ≠ dot ∧ conv.byte ≠ 'l'.toUInt8 ∧ conv.byte ≠ 'z'.toUInt8 := by
  rcases conv with _ | _ | _ | i | _ | upper
  · decide
  · decide
  · decide
  · cases i <;> decide
  · decide
  · cases upper <;> decide

/-- The modifier, and what is behind it. -/
def Directive.rest (d : Directive) (fmt : List UInt8) : List UInt8 :=
  d.length.bytes ++ d.conv.byte :: fmt

theorem Directive.bytes_append (d : Directive) (fmt : List UInt8) :
    d.bytes ++ fmt = (if d.zero then [digitZero] else []) ++ (d.digits ++ d.rest fmt) := by
  simp [bytes, rest]

/-- Neither the width nor a precision goes on with the modifier or the conversion. -/
theorem Directive.head_rest (d : Directive) (fmt : List UInt8) : ∃ c, (d.rest fmt).head? = some c ∧
    isDigit c = false ∧ c ≠ digitZero ∧ c ≠ dot := by
  obtain ⟨hdigit, hzero, hdot, -, -⟩ := d.conv.byte_spec
  rw [rest]
  cases d.length with
  | int => exact ⟨d.conv.byte, rfl, hdigit, hzero, hdot⟩
  | long => exact ⟨_, rfl, by decide, by decide, by decide⟩
  | longLong => exact ⟨_, rfl, by decide, by decide, by decide⟩

theorem Directive.head_digits (d : Directive) (fmt : List UInt8) (hzero : d.zero = false) :
    (d.digits ++ d.rest fmt).head? ≠ some digitZero := by
  have hflag := d.noFlag hzero
  cases hdigits : d.digits with
  | nil =>
      obtain ⟨c, hhead, -, hne, -⟩ := d.head_rest fmt
      rw [List.nil_append, hhead]
      exact fun heq => hne (Option.some.inj heq)
  | cons c digits =>
      rw [hdigits] at hflag
      exact hflag

end Format

def Format.Directive.flags (d : Directive) : PrintFlags where
  zeroPad := d.zero
  width := BitVec.ofNat 32 d.width
  isLongLong := d.length = .longLong

/-- What the formatter makes of a directive. -/
theorem parseFlags_directive (f : Formatter) (d : Directive) (fmt : List UInt8) :
    parseFlags f (d.bytes ++ fmt) = (d.flags, d.conv.byte :: fmt) := by
  obtain ⟨c, hhead, hdigit, -, hdot⟩ := d.head_rest fmt
  obtain ⟨-, -, -, hl, hz⟩ := d.conv.byte_spec
  have hstop : ¬ isDigit ((d.rest fmt).headD 0) := by
    rw [List.headD_eq_head?_getD, hhead]
    simp [hdigit]
  have hzero : ((d.bytes ++ fmt).head? = some digitZero) ↔ d.zero = true := by
    rw [d.bytes_append]
    cases hflag : d.zero with
    | true => simp
    | false => simpa using d.head_digits fmt hflag
  have hwidth : (if (d.bytes ++ fmt).head? = some digitZero then (d.bytes ++ fmt).tail
      else d.bytes ++ fmt) = d.digits ++ d.rest fmt := by
    rw [if_congr hzero rfl rfl, d.bytes_append]
    cases d.zero <;> rfl
  have haccumulate : accumulateDigits 0 (d.digits ++ d.rest fmt) = BitVec.ofNat 32 d.width := by
    rw [accumulateDigits_append d.allDigits, accumulateDigits_of_not_isDigit hstop,
      foldl_accumulateDigit]
    rfl
  have hprecision : ¬ (f.precision ∧ (d.rest fmt).head? = some dot) := by
    rintro ⟨-, heq⟩
    exact hdot (Option.some.inj (hhead.symm.trans heq))
  unfold parseFlags
  dsimp only
  rw [hwidth, haccumulate, dropWhile_digits d.allDigits hstop, if_neg hprecision]
  simp only [hzero]
  cases hlength : d.length with
  | int =>
      have hrest : d.rest fmt = d.conv.byte :: fmt := by
        rw [Directive.rest, hlength]
        rfl
      simp [hrest, hl, hz, Directive.flags, hlength]
  | long =>
      have hrest : d.rest fmt = 'l'.toUInt8 :: d.conv.byte :: fmt := by
        rw [Directive.rest, hlength]
        rfl
      simp [hrest, hl, hz, Directive.flags, hlength]
  | longLong =>
      have hrest : d.rest fmt = 'l'.toUInt8 :: 'l'.toUInt8 :: d.conv.byte :: fmt := by
        rw [Directive.rest, hlength]
        rfl
      simp [hrest, hz, Directive.flags, hlength]

section Items

variable (f : Formatter) (ap : VaList) (i : Nat)

/-- What is put for a directive. -/
def Format.Directive.puts (d : Directive) : List Put :=
  match d.conv with
  | .percent => Put.plain [percent]
  | .char => Put.plain [UInt8.ofNat (ap.words i).toNat]
  | .string => Put.stepping (ap.string i)
  | .signed _ => signedChars d.flags (ap.words i)
  | .unsigned => paddedDigits d.flags (number 10 decDigit (d.unsignedArg ap i))
  | .hex upper =>
      paddedDigits d.flags
        (number 16 (if upper then hexDigitUpper else f.hex) (d.unsignedArg ap i))

/-- The words that are taken for a directive: `%lld` gets one. -/
def Format.Directive.taken (d : Directive) : Nat :=
  match d.conv with
  | .percent => 0
  | .char | .string | .signed _ => 1
  | .unsigned | .hex _ => if d.length = .longLong then 2 else 1

theorem convert_directive (d : Directive) :
    convert f ap i d.flags d.conv.byte = some (d.puts f ap i, d.taken) := by
  unfold convert Directive.puts Directive.taken Directive.unsignedArg
  rcases d.conv with _ | _ | _ | isI | _ | upper
  · rfl
  · rfl
  · rfl
  · cases isI
    · rfl
    · rfl
  · dsimp only
    rw [if_neg (by decide), if_neg (by decide), if_neg (by decide), if_neg (by decide),
      if_pos (by decide)]
    have hword : (ap.words i).toNat < 10 ^ 24 := (ap.words i).isLt.trans (by decide)
    rw [tmpDigits64_eq, tmpDigits_eq decDigit (by decide) hword]
    cases hlength : d.length with
    | longLong => simp [Directive.flags, hlength]
    | int => simp [Directive.flags, hlength]
    | long => simp [Directive.flags, hlength]
  · have hdigit : (if (Conv.hex upper).byte = 'X'.toUInt8 then hexDigitUpper else f.hex) =
        if upper then hexDigitUpper else f.hex := by cases upper <;> rfl
    have hbyte : ((Conv.hex upper).byte = 'x'.toUInt8 ∨ (Conv.hex upper).byte = 'X'.toUInt8) ∧
        (Conv.hex upper).byte ∉ [percent, 'c'.toUInt8, 's'.toUInt8, 'd'.toUInt8, 'i'.toUInt8,
          'u'.toUInt8] := by
      cases upper <;> decide
    have hword : (ap.words i).toNat < 16 ^ 16 := (ap.words i).isLt.trans (by decide)
    have hlongLong : (ap.longLong i).toNat < 16 ^ 16 := (ap.longLong i).isLt
    obtain ⟨hx, hother⟩ := hbyte
    simp only [List.mem_cons, List.not_mem_nil, or_false, not_or] at hother
    obtain ⟨hpercent, hchar, hstring, hd, hi, hu⟩ := hother
    dsimp only
    rw [if_neg hpercent, if_neg hchar, if_neg hstring, if_neg (not_or.mpr ⟨hd, hi⟩), if_neg hu,
      if_pos hx, hdigit, tmpDigits_eq _ (by decide) hword, tmpDigits_eq _ (by decide) hlongLong]
    cases hlength : d.length with
    | longLong => simp [Directive.flags, hlength]
    | int => simp [Directive.flags, hlength]
    | long => simp [Directive.flags, hlength]

end Items

section Loop

variable (f : Formatter) (ap : VaList) (size : BitVec 32)

def Format.Item.puts (i : Nat) : Item → List Put
  | .literal c _ _ => Put.plain [c]
  | .directive d => d.puts f ap i

/-- The characters that are put for an item, as they would follow on each other. -/
def Format.Item.chars (i : Nat) (item : Item) : List UInt8 := (item.puts f ap i).map Put.char

def Format.Item.taken : Item → Nat
  | .literal _ _ _ => 0
  | .directive d => d.taken

def putItem (item : Item) (st : PrintState) : PrintState :=
  { st.placeAll size (item.puts f ap st.taken) with taken := st.taken + item.taken }

/-- The loop, item by item. -/
def putItems : List Item → PrintState → PrintState
  | [], st => st
  | item :: items, st =>
      if st.pos < size - 1 then putItems items (putItem f ap size item st) else st

section Rounds

variable {f ap size} {st : PrintState} {c conv : UInt8} {fmt rest : List UInt8} {fuel n : Nat}
  {flags : PrintFlags} {ps : List Put}

theorem vsnprintfLoop_full (h : ¬ st.pos < size - 1) (c : UInt8) (fmt : List UInt8) :
    vsnprintfLoop f ap size (fuel + 1) (c :: fmt) st = some st := if_pos h

theorem vsnprintfLoop_literal (hroom : st.pos < size - 1) (h : c ≠ percent) :
    vsnprintfLoop f ap size (fuel + 1) (c :: fmt) st =
      vsnprintfLoop f ap size fuel fmt (st.putChar size c) :=
  (if_neg (not_not.mpr hroom)).trans (if_pos h)

/-- A directive whose conversion returns, with the loops of its text. -/
theorem vsnprintfLoop_directive (hroom : st.pos < size - 1) (hne : fmt ≠ [])
    (hflags : parseFlags f fmt = (flags, conv :: rest))
    (hconv : convert f ap st.taken flags conv = some (ps, n)) :
    vsnprintfLoop f ap size (fuel + 1) (percent :: fmt) st =
      vsnprintfLoop f ap size fuel rest
        { st.placeAll size ps with taken := st.taken + n } := by
  rw [vsnprintfLoop, if_neg (not_not.mpr hroom), if_neg (not_not.mpr rfl), if_neg hne, hflags]
  dsimp only
  rw [hconv, Option.bind_eq_bind, Option.bind_some, PrintState.puts_eq (room_pos hroom),
    Option.bind_eq_bind, Option.bind_some]

end Rounds

theorem vsnprintfLoop_render {items : List Item} {fuel : Nat}
    (hfuel : (render items).length ≤ fuel) (st : PrintState) :
    vsnprintfLoop f ap size fuel (render items) st = some (putItems f ap size items st) := by
  induction items generalizing fuel st with
  | nil =>
      cases fuel <;> rfl
  | cons item items ih =>
      have hpos : 0 < item.bytes.length := by
        cases item with
        | literal => exact Nat.one_pos
        | directive d => exact Nat.succ_pos _
      rw [render, List.flatMap_cons, ← render] at hfuel ⊢
      rw [List.length_append] at hfuel
      obtain ⟨fuel, rfl⟩ := Nat.exists_eq_add_one.mpr (show 0 < fuel by omega)
      have hrest : (render items).length ≤ fuel := by omega
      rw [putItems]
      cases item with
      | literal c hpercent hnul =>
          change vsnprintfLoop f ap size (fuel + 1) (c :: render items) st = _
          split
          · next hroom =>
              rw [vsnprintfLoop_literal hroom hpercent]
              exact ih hrest _
          · next hfull => rw [vsnprintfLoop_full hfull]
      | directive d =>
          have hne : d.bytes ++ render items ≠ [] := by simp [Directive.bytes]
          change vsnprintfLoop f ap size (fuel + 1) (percent :: (d.bytes ++ render items)) st = _
          split
          · next hroom =>
              rw [vsnprintfLoop_directive hroom hne (parseFlags_directive f d _)
                (convert_directive f ap st.taken d)]
              exact ih hrest _
          · next hfull => rw [vsnprintfLoop_full hfull]

end Loop

end Punix
