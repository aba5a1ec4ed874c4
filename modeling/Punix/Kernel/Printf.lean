import Punix.Kernel.Kutils

/-!
`k_vsnprintf` of the kernel and `vsnprintf` of the C library, which are two copies of one
formatter. `%f` is not modelled. A format that ends inside a directive makes the formatter
step over the terminating NUL, and has no result here.
-/

namespace Punix

def percent : UInt8 := 37
def space : UInt8 := 32

def hexDigitUpper (d : Nat) : UInt8 := (cstr "0123456789ABCDEF").getD d 0

/-- The quotient, and `*rem`. -/
def udiv64_10 (n : BitVec 64) : BitVec 64 × BitVec 32 :=
  let q := (n >>> 1) + (n >>> 2)
  let q := q + (q >>> 4)
  let q := q + (q >>> 8)
  let q := q + (q >>> 16)
  let q := q + (q >>> 32)
  let q := q >>> 3
  let r := (n - q * 10).setWidth 32
  if 10 ≤ r then (q + 1, r - 10) else (q, r)

/-- A `va_list`: the words on the stack, and the strings that pointers among them point to. -/
structure VaList where
  words : Nat → BitVec 32
  strings : BitVec 32 → List UInt8

namespace VaList

/-- `uint64_t`, low word first. -/
def longLong (ap : VaList) (i : Nat) : BitVec 64 := ap.words (i + 1) ++ ap.words i

/-- `const char *`, with the text for `NULL`. -/
def string (ap : VaList) (i : Nat) : List UInt8 :=
  if ap.words i = 0 then cstr "(null)" else ap.strings (ap.words i)

end VaList

/-- The buffer, `pos`, and the number of words that `va_arg` has taken. -/
structure PrintState where
  buf : Nat → UInt8
  pos : BitVec 32
  taken : Nat

/-- A `PUT_CHAR`. The macro evaluates its argument only where there is room. `steps` tells
whether the argument moves on to the next character, as in `PUT_CHAR(*s++)`. -/
structure Put where
  char : UInt8
  steps : Bool
deriving DecidableEq

namespace Put

def plain (cs : List UInt8) : List Put := cs.map fun c => { char := c, steps := false }

/-- `while (*s) PUT_CHAR(*s++)`. -/
def stepping (cs : List UInt8) : List Put := cs.map fun c => { char := c, steps := true }

end Put

namespace PrintState

/-- `PUT_CHAR(c)`. -/
def putChar (size : BitVec 32) (st : PrintState) (c : UInt8) : PrintState :=
  { st with
    buf := if st.pos < size - 1 then Function.update st.buf st.pos.toNat c else st.buf
    pos := st.pos + 1 }

/-- The rounds of a loop over `PUT_CHAR(*s++)` up to the one that takes the character `c`. In
those before it there is no room, and only `pos` moves on. -/
def putNext (size : BitVec 32) (c : UInt8) : Nat → PrintState → Option PrintState
  | 0, _ => none
  | fuel + 1, st =>
      if st.pos < size - 1 then some (st.putChar size c)
      else putNext size c fuel { st with pos := st.pos + 1 }

/-- There are at most `2 ^ 32` rounds until `pos` has wrapped. -/
def put (size : BitVec 32) (st : PrintState) (p : Put) : Option PrintState :=
  if p.steps then putNext size p.char (2 ^ 32) st else some (st.putChar size p.char)

def puts (size : BitVec 32) (st : PrintState) (ps : List Put) : Option PrintState :=
  ps.foldlM (put size) st

end PrintState

/-- What the two copies do not have in common. -/
structure Formatter where
  /-- The digits of `%x`. -/
  hex : Nat → UInt8
  /-- There is a precision, and `%f`. -/
  precision : Bool
  /-- There is the modifier `z`. -/
  sizeModifier : Bool

/-- What stands between `%` and the conversion. On a 32-bit machine `is_long` is of no
consequence: `long` is as wide as `int`. -/
structure PrintFlags where
  zeroPad : Bool
  width : BitVec 32
  isLongLong : Bool

namespace PrintFlags

/-- The loop over `pad_len`. -/
def pad (flags : PrintFlags) (len : Nat) : List UInt8 :=
  let padLen := if flags.width.toInt > len then (flags.width.toInt - len).toNat else 0
  List.replicate padLen (if flags.zeroPad then digitZero else space)

end PrintFlags

/-- The digits of `value`, at most `fuel` of them, as they are read out of `tmp`. -/
def tmpDigits (base : Nat) (digit : Nat → UInt8) (fuel value : Nat) : List UInt8 :=
  if value = 0 then [digitZero] else (digitsRev base digit fuel value).reverse

/-- The loop that divides with `udiv64_10`. -/
def digitsRev64 : Nat → BitVec 64 → List UInt8
  | 0, _ => []
  | fuel + 1, uv =>
      if uv ≠ 0 then
        (digitZero + UInt8.ofNat (udiv64_10 uv).2.toNat) :: digitsRev64 fuel (udiv64_10 uv).1
      else []

def tmpDigits64 (uv : BitVec 64) : List UInt8 :=
  if uv = 0 then [digitZero] else (digitsRev64 24 uv).reverse

/-- `%d` and `%i`. The least `int` is its own negation. -/
def signedChars (flags : PrintFlags) (v : BitVec 32) : List Put :=
  let negative := v.toInt < 0
  let uv := if negative then -v else v
  let digits := tmpDigits 10 decDigit 16 uv.toNat
  let numLen := digits.length + if negative then 1 else 0
  Put.plain ((if negative then [minus] else []) ++ flags.pad numLen) ++ Put.stepping digits

def paddedDigits (flags : PrintFlags) (digits : List UInt8) : List Put :=
  Put.plain (flags.pad digits.length) ++ Put.stepping digits

def pointerChars (v : BitVec 32) : List UInt8 :=
  digitZero :: 'x'.toUInt8 ::
    (List.range 8).map fun i => hexDigit ((v >>> (4 * (7 - i))).toNat % 16)

/-- What the conversion `conv` puts, and the words that it takes. -/
def convert (f : Formatter) (ap : VaList) (i : Nat) (flags : PrintFlags) (conv : UInt8) :
    Option (List Put × Nat) :=
  if conv = percent then some (Put.plain [percent], 0)
  else if conv = 'c'.toUInt8 then some (Put.plain [UInt8.ofNat (ap.words i).toNat], 1)
  else if conv = 's'.toUInt8 then some (Put.stepping (ap.string i), 1)
  else if conv = 'd'.toUInt8 ∨ conv = 'i'.toUInt8 then some (signedChars flags (ap.words i), 1)
  else if conv = 'u'.toUInt8 then
    if flags.isLongLong then some (paddedDigits flags (tmpDigits64 (ap.longLong i)), 2)
    else some (paddedDigits flags (tmpDigits 10 decDigit 24 (ap.words i).toNat), 1)
  else if conv = 'x'.toUInt8 ∨ conv = 'X'.toUInt8 then
    let digit := if conv = 'X'.toUInt8 then hexDigitUpper else f.hex
    if flags.isLongLong then
      some (paddedDigits flags (tmpDigits 16 digit 16 (ap.longLong i).toNat), 2)
    else some (paddedDigits flags (tmpDigits 16 digit 16 (ap.words i).toNat), 1)
  else if conv = 'p'.toUInt8 then some (Put.plain (pointerChars (ap.words i)), 1)
  else if f.precision ∧ conv = 'f'.toUInt8 then none
  else some (Put.plain [percent, conv], 0)

/-- The flags, and the format from the conversion on. -/
def parseFlags (f : Formatter) (fmt : List UInt8) : PrintFlags × List UInt8 :=
  let zeroPad := fmt.head? = some digitZero
  let fmt := if zeroPad then fmt.tail else fmt
  let width := accumulateDigits 0 fmt
  let fmt := fmt.dropWhile isDigit
  let fmt := if f.precision ∧ fmt.head? = some dot then fmt.tail.dropWhile isDigit else fmt
  let isLong := fmt.head? = some 'l'.toUInt8
  let fmt := if isLong then fmt.tail else fmt
  let isLongLong := isLong ∧ fmt.head? = some 'l'.toUInt8
  let fmt := if isLongLong then fmt.tail else fmt
  let fmt := if f.sizeModifier ∧ fmt.head? = some 'z'.toUInt8 then fmt.tail else fmt
  (⟨zeroPad, width, isLongLong⟩, fmt)

/-- The loop over the format, which is left when the buffer is full. Every iteration takes
at least one byte of the format. -/
def vsnprintfLoop (f : Formatter) (ap : VaList) (size : BitVec 32) :
    Nat → List UInt8 → PrintState → Option PrintState
  | _, [], st => some st
  | 0, _ :: _, _ => none
  | fuel + 1, c :: fmt, st =>
      if ¬ st.pos < size - 1 then some st
      else if c ≠ percent then vsnprintfLoop f ap size fuel fmt (st.putChar size c)
      else if fmt = [] then some st
      else
        match parseFlags f fmt with
        | (_, []) => none
        | (flags, conv :: fmt) => do
            let (cs, n) ← convert f ap st.taken flags conv
            let put ← st.puts size cs
            vsnprintfLoop f ap size fuel fmt { put with taken := st.taken + n }

/-- What a call leaves behind: the buffer, the result, and the words taken. -/
structure Printed where
  buf : Nat → UInt8
  ret : BitVec 32
  taken : Nat

def vsnprintfWith (f : Formatter) (buf : Nat → UInt8) (size : BitVec 32) (fmt : List UInt8)
    (ap : VaList) : Option Printed := do
  let st ← vsnprintfLoop f ap size fmt.length fmt { buf, pos := 0, taken := 0 }
  let buf :=
    if st.pos < size then Function.update st.buf st.pos.toNat 0
    else if 0 < size then Function.update st.buf (size - 1).toNat 0
    else st.buf
  some { buf, ret := st.pos, taken := st.taken }

def kernelFormatter : Formatter where
  hex := hexDigitUpper
  precision := false
  sizeModifier := false

def libcFormatter : Formatter where
  hex := hexDigit
  precision := true
  sizeModifier := true

def kVsnprintf (buf : Nat → UInt8) (size : BitVec 32) (fmt : List UInt8) (ap : VaList) :
    Option Printed :=
  vsnprintfWith kernelFormatter buf size fmt ap

def vsnprintf (buf : Nat → UInt8) (size : BitVec 32) (fmt : List UInt8) (ap : VaList) :
    Option Printed :=
  vsnprintfWith libcFormatter buf size fmt ap

end Punix
