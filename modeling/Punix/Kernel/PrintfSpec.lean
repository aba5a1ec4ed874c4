import Punix.Kernel.Printf
import Punix.Kernel.Decimal

/-!
What the C standard says about the directives `%d %i %u %x %X %c %s %%` with a flag `0`, a
width, and the modifiers `l` and `ll`. Where it leaves a combination open, the flag or the
modifier is taken to have no effect.
-/

namespace Punix

namespace Format

inductive Length where
  | int
  | long
  | longLong
deriving DecidableEq

/-- `%d` and `%i` are `signed`. -/
inductive Conv where
  | percent
  | char
  | string
  | signed (i : Bool)
  | unsigned
  | hex (upper : Bool)
deriving DecidableEq

/-- A directive, as it is written. A width does not begin with a zero, which would be the
flag. -/
structure Directive where
  zero : Bool
  digits : List UInt8
  length : Length
  conv : Conv
  allDigits : ∀ c ∈ digits, isDigit c
  noFlag : zero = false → digits.head? ≠ some digitZero

/-- A directive with no flag and no width. -/
def Directive.bare (length : Length) (conv : Conv) : Directive where
  zero := false
  digits := []
  length := length
  conv := conv
  allDigits _ hc := absurd hc List.not_mem_nil
  noFlag _ := by simp

inductive Item where
  | literal (c : UInt8) (hpercent : c ≠ percent) (hnul : c ≠ 0)
  | directive (d : Directive)

def Length.bytes : Length → List UInt8
  | .int => []
  | .long => cstr "l"
  | .longLong => cstr "ll"

def Conv.byte : Conv → UInt8
  | .percent => Punix.percent
  | .char => 'c'.toUInt8
  | .string => 's'.toUInt8
  | .signed i => if i then 'i'.toUInt8 else 'd'.toUInt8
  | .unsigned => 'u'.toUInt8
  | .hex upper => if upper then 'X'.toUInt8 else 'x'.toUInt8

/-- What stands behind the `%`. -/
def Directive.bytes (d : Directive) : List UInt8 :=
  (if d.zero then [digitZero] else []) ++ d.digits ++ d.length.bytes ++ [d.conv.byte]

def Item.bytes : Item → List UInt8
  | .literal c _ _ => [c]
  | .directive d => percent :: d.bytes

/-- A number in the given base. -/
def number (base : Nat) (digit : Nat → UInt8) (n : Nat) : List UInt8 :=
  if n = 0 then [digitZero] else (base.digits n).reverse.map digit

/-- A sign and digits in a field: zeros go between them, blanks in front. -/
def field (zero : Bool) (width : Nat) (sign digits : List UInt8) : List UInt8 :=
  let pad := width - (sign ++ digits).length
  if zero then sign ++ List.replicate pad digitZero ++ digits
  else List.replicate pad space ++ sign ++ digits

namespace Directive

variable (d : Directive) (ap : VaList) (i : Nat)

def width : Nat := decimalValue d.digits

/-- The words that the arguments take. -/
def words : Nat :=
  match d.conv with
  | .percent => 0
  | .char | .string => 1
  | .signed _ | .unsigned | .hex _ => if d.length = .longLong then 2 else 1

def signedArg : Int :=
  if d.length = .longLong then (ap.longLong i).toInt else (ap.words i).toInt

def unsignedArg : Nat :=
  if d.length = .longLong then (ap.longLong i).toNat else (ap.words i).toNat

def sign : List UInt8 := if d.signedArg ap i < 0 then [minus] else []

def text : List UInt8 :=
  match d.conv with
  | .percent => [percent]
  | .char => field false d.width [] [UInt8.ofNat (ap.words i).toNat]
  | .string => field false d.width [] (ap.string i)
  | .signed _ =>
      field d.zero d.width (d.sign ap i) (number 10 decDigit (d.signedArg ap i).natAbs)
  | .unsigned => field d.zero d.width [] (number 10 decDigit (d.unsignedArg ap i))
  | .hex upper =>
      field d.zero d.width []
        (number 16 (if upper then hexDigitUpper else hexDigit) (d.unsignedArg ap i))

end Directive

namespace Item

def words : Item → Nat
  | .literal _ _ _ => 0
  | .directive d => d.words

def text (ap : VaList) (i : Nat) : Item → List UInt8
  | .literal c _ _ => [c]
  | .directive d => d.text ap i

end Item

/-- The format string. -/
def render (items : List Item) : List UInt8 := items.flatMap Item.bytes

def totalWords (items : List Item) : Nat := (items.map Item.words).sum

/-- The untruncated text, with the arguments from the word `i` on. -/
def text (ap : VaList) : Nat → List Item → List UInt8
  | _, [] => []
  | i, item :: items => item.text ap i ++ text ap (i + item.words) items

end Format

open Format

/-- The call has done what the standard says. -/
structure Prescribed (ap : VaList) (size : BitVec 32) (items : List Item) (p : Printed) :
    Prop where
  taken : p.taken = totalWords items
  ret : p.ret.toInt = (text ap 0 items).length
  bytes : ∀ n, n < size.toNat - 1 → ∀ c, (text ap 0 items)[n]? = some c → p.buf n = c
  nul : p.buf (min (text ap 0 items).length (size.toNat - 1)) = 0

end Punix
