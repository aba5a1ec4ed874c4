import Mathlib.Tactic

/-!
The string helpers of `kutils.c`. A `const char *` is the list of the bytes it
points at; behind the listed bytes comes the terminating NUL. A helper that
returns a pointer into its argument returns the rest of the string from there.
-/

namespace Punix

/-- The bytes of a string literal. -/
def cstr (s : String) : List UInt8 := s.toList.map Char.toUInt8

def slash : UInt8 := 47
def dot : UInt8 := 46
def newline : UInt8 := 10
def minus : UInt8 := 45
def digitZero : UInt8 := 48

/-- The conversion of a `size_t` or `uint32_t` to `int`. -/
def asInt (n : Nat) : Int := (BitVec.ofNat 32 n).toInt

/-- The string that starts at the first byte of an array: everything before the
first NUL. -/
def strBytes (s : List UInt8) : List UInt8 := s.takeWhile (· ≠ 0)

/-- A string held by a `char` array of `n` bytes, without its NUL. -/
structure CharArray (n : Nat) where
  bytes : List UInt8
  noNul : 0 ∉ bytes
  fits : bytes.length < n
deriving DecidableEq

theorem noNul_strBytes (s : List UInt8) : 0 ∉ strBytes s := by
  induction s with
  | nil => simp [strBytes]
  | cons b s ih =>
      by_cases hb : b = 0
      · simp [strBytes, hb]
      · have hne : 0 ≠ b := Ne.symm hb
        simpa [strBytes, hb, hne] using ih

theorem strBytes_eq_self {s : List UInt8} (h : 0 ∉ s) : strBytes s = s := by
  induction s with
  | nil => rfl
  | cons b s ih =>
      have hb : b ≠ 0 := fun heq => h (by simp [heq])
      have hs : 0 ∉ s := fun hmem => h (by simp [hmem])
      simpa [strBytes, hb] using ih hs

/-- `k_strcpy` of a string into a `char[n]`. The source is always an array of
the same size, so that nothing is cut off here. -/
def CharArray.ofBytes (n : Nat) [NeZero n] (s : List UInt8) : CharArray n where
  bytes := (strBytes s).take (n - 1)
  noNul hmem := noNul_strBytes s (List.mem_of_mem_take hmem)
  fits := by
    have := NeZero.pos n
    simp only [List.length_take]
    omega

theorem CharArray.bytes_ofBytes {n : Nat} [NeZero n] {s : List UInt8}
    (h : (strBytes s).length < n) : (CharArray.ofBytes n s).bytes = strBytes s :=
  List.take_of_length_le (by omega)

def kStrlen (s : List UInt8) : Nat := (strBytes s).length

def kStrcmp : List UInt8 → List UInt8 → Int
  | x :: xs, y :: ys =>
      if x ≠ 0 ∧ x = y then kStrcmp xs ys else (x.toNat : Int) - y.toNat
  | x :: _, [] => x.toNat
  | [], y :: _ => -(y.toNat : Int)
  | [], [] => 0

def kStrncmp : Nat → List UInt8 → List UInt8 → Int
  | 0, _, _ => 0
  | n + 1, s1, s2 =>
      let c1 := s1.headD 0
      let c2 := s2.headD 0
      if c1 ≠ c2 ∨ c1 = 0 ∨ c2 = 0 then (c1.toNat : Int) - c2.toNat
      else kStrncmp n s1.tail s2.tail

/-- `k_strncpy(dest + off, src, n)`: the bytes of `src`, then NULs up to `n`. -/
def kStrncpy (dest : List UInt8) (off : Nat) (src : List UInt8) (n : Nat) : List UInt8 :=
  (List.range n).foldl (fun d i => d.set (off + i) ((strBytes src).getD i 0)) dest

/-- `k_memcpy(buf + dst, buf + src, n)` inside one array, byte by byte upwards. -/
def kMemcpyWithin (buf : List UInt8) (dst src n : Nat) : List UInt8 :=
  (List.range n).foldl (fun b i => b.set (dst + i) (b.getD (src + i) 0)) buf

/-- The rest of `s` from the first `c` on. -/
def kStrchr (s : List UInt8) (c : UInt8) : Option (List UInt8) :=
  match (strBytes s).dropWhile (· ≠ c) with
  | [] => if c = 0 then some [] else none
  | rest => some rest

/-- The rest of `s` from the last `c` on. -/
def kStrrchr (s : List UInt8) (c : UInt8) : Option (List UInt8) :=
  (strBytes s).tails.reverse.find? fun rest => rest.head? = some c

/-- The rest of `haystack` from the first occurrence of `needle` on. -/
def kStrstr (haystack needle : List UInt8) : Option (List UInt8) :=
  if needle = [] then some haystack
  else (strBytes haystack).tails.find? fun rest => rest ≠ [] ∧ needle.isPrefixOf rest

def isDigit (c : UInt8) : Bool := 48 ≤ c ∧ c ≤ 57

/-- The decimal accumulation of `k_atoi` and of `proc_path_to_pid`: an `int`
that is multiplied and added to without a range check. -/
def accumulateDigits (v : BitVec 32) : List UInt8 → BitVec 32
  | [] => v
  | c :: rest =>
      if isDigit c then accumulateDigits (v * 10 + BitVec.ofNat 32 (c.toNat - 48)) rest
      else v

def kAtoi (s : List UInt8) : Int := (accumulateDigits 0 s).toInt

/-- The digits of `value`, lowest first, at most `fuel` of them. -/
def digitsRev (base : Nat) (digit : Nat → UInt8) : Nat → Nat → List UInt8
  | 0, _ => []
  | fuel + 1, value =>
      if value > 0 then digit (value % base) :: digitsRev base digit fuel (value / base)
      else []

def decDigit (d : Nat) : UInt8 := digitZero + UInt8.ofNat d

/-- `k_itoa`. The negation of the least `int` is that `int` again, for which the
digit loop does not run. -/
def kItoa (value : BitVec 32) : List UInt8 :=
  if value = 0 then [digitZero]
  else if value.toInt < 0 then
    (digitsRev 10 decDigit 15 (-value).toInt.toNat ++ [minus]).reverse
  else (digitsRev 10 decDigit 15 value.toInt.toNat).reverse

def hexDigit (d : Nat) : UInt8 := (cstr "0123456789abcdef").getD d 0

def kItoaHex (value : BitVec 32) : List UInt8 :=
  if value = 0 then [digitZero] else (digitsRev 16 hexDigit 8 value.toNat).reverse

/-- `u64_to_str` into a buffer of `bufSize` bytes; `none` when it writes nothing. -/
def u64ToStr (value : BitVec 64) (bufSize : Nat) : Option (List UInt8) :=
  if bufSize = 0 then none
  else if value = 0 then if bufSize < 2 then none else some [digitZero]
  else some ((digitsRev 10 decDigit 32 value.toNat).reverse.take (bufSize - 1))

theorem asInt_le (n : Nat) : asInt n ≤ n := by
  have hle : (BitVec.ofNat 32 n).toNat ≤ n := by
    rw [BitVec.toNat_ofNat]
    exact Nat.mod_le _ _
  have htoInt := BitVec.toInt_eq_toNat_cond (BitVec.ofNat 32 n)
  unfold asInt
  split at htoInt <;> omega

theorem asInt_of_lt {n : Nat} (h : n < 2 ^ 31) : asInt n = n := by
  have hmod : (BitVec.ofNat 32 n).toNat = n := by
    rw [BitVec.toNat_ofNat]
    omega
  rw [asInt, BitVec.toInt_eq_toNat_of_lt (by omega), hmod]

theorem asInt_of_ge {n : Nat} (h : 2 ^ 31 ≤ n) (hlt : n < 2 ^ 32) : asInt n = n - 2 ^ 32 := by
  have hmod : (BitVec.ofNat 32 n).toNat = n := by
    rw [BitVec.toNat_ofNat, Nat.mod_eq_of_lt hlt]
  rw [asInt, BitVec.toInt_eq_toNat_cond, hmod, if_neg (by omega)]
  rfl

theorem length_kMemcpyWithin (buf : List UInt8) (dst src n : Nat) :
    (kMemcpyWithin buf dst src n).length = buf.length := by
  unfold kMemcpyWithin
  induction n with
  | zero => rfl
  | succ n ih => simpa [List.range_succ] using ih

theorem length_kStrncpy (dest : List UInt8) (off : Nat) (src : List UInt8) (n : Nat) :
    (kStrncpy dest off src n).length = dest.length := by
  unfold kStrncpy
  induction n with
  | zero => rfl
  | succ n ih => simpa [List.range_succ] using ih

/-- A copy downwards reads every byte before it is overwritten. -/
theorem getElem?_kMemcpyWithin {buf : List UInt8} {dst src n : Nat} (hdown : dst ≤ src)
    (hroom : src + n ≤ buf.length) (j : Nat) :
    (kMemcpyWithin buf dst src n)[j]? =
      if dst ≤ j ∧ j < dst + n then buf[src + (j - dst)]? else buf[j]? := by
  induction n generalizing j with
  | zero =>
      have hempty : ¬ (dst ≤ j ∧ j < dst + 0) := by omega
      rw [if_neg hempty]
      rfl
  | succ n ih =>
      have hstep : kMemcpyWithin buf dst src (n + 1) =
          (kMemcpyWithin buf dst src n).set (dst + n)
            ((kMemcpyWithin buf dst src n).getD (src + n) 0) := by
        simp [kMemcpyWithin, List.range_succ]
      have hread : (kMemcpyWithin buf dst src n).getD (src + n) 0 = buf.getD (src + n) 0 := by
        rw [List.getD_eq_getElem?_getD, ih (by omega), if_neg (by omega),
          ← List.getD_eq_getElem?_getD]
      rw [hstep, hread, List.getElem?_set, ih (by omega), length_kMemcpyWithin]
      rcases eq_or_ne (dst + n) j with rfl | hj
      · have hlt : src + n < buf.length := by omega
        simp [hlt]
        omega
      · rw [if_neg hj]
        congr 1
        simp only [eq_iff_iff]
        omega

theorem take_kMemcpyWithin {buf : List UInt8} {dst src n : Nat} (hdown : dst ≤ src)
    (hroom : src + n ≤ buf.length) :
    (kMemcpyWithin buf dst src n).take (dst + n) = buf.take dst ++ (buf.drop src).take n := by
  apply List.ext_getElem?
  intro j
  rw [List.getElem?_take, getElem?_kMemcpyWithin hdown hroom, List.getElem?_append,
    List.length_take, List.getElem?_take, List.getElem?_take, List.getElem?_drop,
    Nat.min_eq_left (by omega : dst ≤ buf.length)]
  by_cases h1 : j < dst
  · simp [h1, show ¬ dst ≤ j by omega, show j < dst + n by omega]
  · rw [if_neg h1]
    by_cases h2 : j < dst + n
    · rw [if_pos h2, if_pos ⟨by omega, h2⟩, if_pos (by omega)]
    · rw [if_neg h2, if_neg (by omega)]

theorem drop_kMemcpyWithin {buf : List UInt8} {dst src n m : Nat} (hm : dst + n ≤ m) :
    (kMemcpyWithin buf dst src n).drop m = buf.drop m := by
  unfold kMemcpyWithin
  induction n with
  | zero => rfl
  | succ n ih =>
      rw [List.range_succ, List.foldl_append, List.foldl_cons, List.foldl_nil,
        List.drop_set_of_lt (by omega), ih (by omega)]

theorem getElem?_kStrncpy (dest : List UInt8) (off : Nat) (src : List UInt8) (n j : Nat) :
    (kStrncpy dest off src n)[j]? =
      if off ≤ j ∧ j < off + n ∧ j < dest.length then some ((strBytes src).getD (j - off) 0)
      else dest[j]? := by
  induction n with
  | zero =>
      rw [if_neg (by omega)]
      rfl
  | succ n ih =>
      have hstep : kStrncpy dest off src (n + 1) =
          (kStrncpy dest off src n).set (off + n) ((strBytes src).getD n 0) := by
        simp [kStrncpy, List.range_succ]
      rw [hstep, List.getElem?_set, ih, length_kStrncpy]
      rcases eq_or_ne (off + n) j with rfl | hj
      · by_cases hlt : off + n < dest.length
        · simp [hlt]
        · simp [hlt]
      · rw [if_neg hj]
        congr 1
        simp only [eq_iff_iff]
        omega

theorem strBytes_append_nul {s : List UInt8} (h : 0 ∉ s) (rest : List UInt8) :
    strBytes (s ++ 0 :: rest) = s := by
  induction s with
  | nil => rfl
  | cons b s ih =>
      have hb : b ≠ 0 := fun heq => h (by simp [heq])
      have hs : 0 ∉ s := fun hmem => h (by simp [hmem])
      simpa [strBytes, hb] using ih hs

/-- The string in an array is what stands before the first NUL. -/
theorem strBytes_eq {buf s : List UInt8} (htake : buf.take s.length = s)
    (hnul : buf[s.length]? = some 0) (h : 0 ∉ s) : strBytes buf = s := by
  obtain ⟨hlt, hget⟩ := List.getElem?_eq_some_iff.mp hnul
  have hsplit : buf = s ++ 0 :: buf.drop (s.length + 1) := by
    conv_lhs => rw [← List.take_append_drop s.length buf, List.drop_eq_getElem_cons hlt, hget, htake]
  rw [hsplit]
  exact strBytes_append_nul h _

/-- The string in an array ends at a NUL that is stored behind its bytes. -/
theorem strBytes_set_nul {buf : List UInt8} {pos : Nat} (hpos : pos < buf.length)
    (h : 0 ∉ buf.take pos) : strBytes (buf.set pos 0) = buf.take pos := by
  have hlen : (buf.take pos).length = pos := by
    rw [List.length_take]
    omega
  apply strBytes_eq
  · rw [hlen, List.take_set_of_le (Nat.le_refl pos)]
  · simp [hlen, hpos]
  · exact h

/-- A bounded copy behind the first `off` bytes, with the last byte of the array
as its terminator. -/
theorem strBytes_kStrncpy {dest : List UInt8} {off : Nat} (src : List UInt8)
    (hoff : off < dest.length) (h : 0 ∉ dest.take off) :
    strBytes ((kStrncpy dest off src (dest.length - off)).set (dest.length - 1) 0) =
      (dest.take off ++ strBytes src).take (dest.length - 1) := by
  have hlen : ((dest.take off ++ strBytes src).take (dest.length - 1)).length =
      min (dest.length - 1) (off + (strBytes src).length) := by
    simp only [List.length_take, List.length_append]
    omega
  apply strBytes_eq
  · apply List.ext_getElem?
    intro j
    rw [hlen, List.getElem?_take, List.getElem?_take, List.getElem?_append, List.length_take,
      Nat.min_eq_left hoff.le, List.getElem?_take]
    by_cases hj : j < dest.length - 1
    · rw [if_pos hj, List.getElem?_set_ne (by omega), getElem?_kStrncpy]
      by_cases hlow : j < off
      · rw [if_pos (by omega), if_neg (by omega), if_pos hlow, if_pos hlow]
      · rw [if_neg hlow]
        by_cases hin : j - off < (strBytes src).length
        · rw [if_pos (by omega), if_pos (by omega), List.getD_eq_getElem?_getD,
            List.getElem?_eq_getElem hin, Option.getD_some]
        · rw [if_neg (by omega), List.getElem?_eq_none (by omega)]
    · rw [if_neg hj, if_neg (by omega)]
  · rw [hlen]
    rcases Nat.lt_or_ge (off + (strBytes src).length) (dest.length - 1) with hshort | hlong
    · rw [Nat.min_eq_right hshort.le, List.getElem?_set_ne (by omega), getElem?_kStrncpy,
        if_pos (by omega), Nat.add_sub_cancel_left,
        List.getD_eq_getElem?_getD, List.getElem?_eq_none le_rfl]
      rfl
    · rw [Nat.min_eq_left hlong, List.getElem?_set_self (by rw [length_kStrncpy]; omega)]
  · intro hmem
    rcases List.mem_append.mp (List.mem_of_mem_take hmem) with hdest | hsrc
    · exact h hdest
    · exact noNul_strBytes src hsrc

end Punix
