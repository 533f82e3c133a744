import PeanoCalculus.Json.Basic

/-! # Numbers

    The numbers that matter here are counts: digits without sign, point or exponent.  They are words
    of 64 bits.  Other numbers are only ever passed over, but where a value is taken in whole they
    must denote something, and what they denote is a double.

    A numeral is taken as a word times a power of ten.  The word has the leading digits, as many as
    fit; a digit of the whole part that does not fit counts for the power, and one of the fraction
    for nothing.  The word and the power are then rounded to doubles on their own, and their product
    must not round beyond the largest double.  All of this is done in natural numbers. -/

namespace PeanoCalculus

/-- The number that decimal digits write. -/
def decimalValue (digits : List Char) : Nat :=
  Nat.ofDigitChars 10 digits 0

namespace Numeral

/-- The natural number that a numeral writes without sign, point or exponent. -/
def natural? (n : Numeral) : Option Nat :=
  if n.negative || n.fraction.isSome || n.exponent.isSome then none
  else some (decimalValue n.whole)

/-- The digits, read one by one after a number, that still fit a word of 64 bits with it: the number
    they lead to, and the digits that are left. -/
def fillWord : Nat → List Char → Nat × List Char
  | n, [] => (n, [])
  | n, c :: cs =>
    let next := 10 * n + (c.toNat - '0'.toNat)
    if next < UInt64.size then fillWord next cs else (n, c :: cs)

/-- The written exponent. -/
def exponentValue (n : Numeral) : Int :=
  match n.exponent with
  | none => 0
  | some (negative, digits) =>
    if negative then -(decimalValue digits : Int) else decimalValue digits

/-- The magnitude of a numeral as a word and a power of ten. -/
def wordAndScale (n : Numeral) : Nat × Int :=
  let fraction := n.fraction.getD []
  let (leading, dropped) := fillWord 0 n.whole
  let (word, ignored) := fillWord leading fraction
  (word, n.exponentValue + dropped.length - (fraction.length - ignored.length : Nat))

/-- The double nearest to a natural number: 53 binary digits are kept, and a number halfway between
    two doubles goes to the one whose last digit is even. -/
def nearestDouble (n : Nat) : Nat :=
  let unit := 1 <<< (n.log2 + 1 - 53)
  let kept := n / unit
  let rest := n % unit
  if 2 * rest < unit ∨ (2 * rest = unit ∧ kept % 2 = 0) then kept * unit else (kept + 1) * unit

/-- The least magnitude that rounds beyond the largest double. -/
def doubleLimit : Nat :=
  1 <<< 1024 - 1 <<< 970

/-- The largest power of ten that is a double. -/
def maxScale : Int := 308

/-- The numeral denotes a double.  A negative power only makes the word smaller. -/
def isFinite (n : Numeral) : Bool :=
  let (word, scale) := n.wordAndScale
  word == 0 || scale < 0 ||
    (scale ≤ maxScale &&
      nearestDouble word * nearestDouble (Nat.pow 10 scale.toNat) < doubleLimit)

end Numeral

namespace Json

/-- The number value with a given count. -/
def ofNat (n : Nat) : Json :=
  .number { whole := Nat.toDigits 10 n }

/-- The count that a number value denotes. -/
def word? : Json → Option Nat
  | .number n => n.natural?.filter (· < UInt64.size)
  | _ => none

end Json

end PeanoCalculus
