import ActorScript.Number

/-!
# Numbers as exact rationals

A finite number is `± significand · 2 ^ exponent` with natural `significand` below
`2 ^ 53`. This module reads the two off the word and goes back: `nearest` rounds any
non-negative rational to the number closest to it, a tie to the even significand.
Conversions whose outcome has to be right in every bit (integers, decimals, floors,
distances) go through these two and natural arithmetic.
-/

namespace ActorScript.Number

/-- `2 ^ 52`: the number of fractions, and the bit that the word of a normal number leaves
out. -/
def hiddenBit : Nat := 0x10000000000000

/-- The exponent field of the word: 0 for zero and subnormal numbers, 2047 for what is not
finite. -/
def exponentField (a : Number) : Nat := a.bits.toNat / hiddenBit % 2048

/-- The fraction field of the word. -/
def fractionField (a : Number) : Nat := a.bits.toNat % hiddenBit

/-- The integer significand of a finite number. -/
def significand (a : Number) : Nat :=
  if a.exponentField = 0 then a.fractionField else hiddenBit + a.fractionField

/-- The power of two that a unit of the significand stands for. -/
def exponent (a : Number) : Int := (max a.exponentField 1 : Nat) - 1075

/-- The number with the given sign and magnitude word. -/
def ofMagnitude (negative : Bool) (word : Nat) : Number :=
  ⟨UInt64.ofNat (word + if negative then 0x8000000000000000 else 0)⟩

/-- The magnitude word of infinity, above those of all finite numbers. -/
def infinityWord : Nat := 2047 * hiddenBit

/-- The quotient of two natural numbers rounded to nearest, a tie to the even one. -/
def roundDiv (num den : Nat) : Nat :=
  let q := num / den
  let r := num % den
  if 2 * r < den then q else if den < 2 * r then q + 1 else q + q % 2

/-- The greatest `e` with `2 ^ e ≤ num / den`, for positive operands. -/
def log2Ratio (num den : Nat) : Int :=
  let e : Int := (num.log2 : Int) - den.log2
  if num <<< (-e).toNat < den <<< e.toNat then e - 1 else e

/--
The number nearest to `± num / den`. The significand is rounded at the unit that the
magnitude asks for, or at the unit of the subnormal numbers if that is coarser; one that
rounds up to the next power of two carries into the exponent field, and what has no finite
word is infinite.
-/
def nearest (negative : Bool) (num den : Nat) : Number :=
  if num = 0 then ofMagnitude negative 0
  else
    let unit := max (log2Ratio num den - 52) (-1074)
    let m := roundDiv (num <<< (-unit).toNat) (den <<< unit.toNat)
    ofMagnitude negative (min (m + (unit + 1074).toNat * hiddenBit) infinityWord)

/-- The number nearest to an integer. -/
def ofInt (i : Int) : Number := nearest (i < 0) i.natAbs 1

/-- The greatest integer that is at most a finite number. -/
def floor? (a : Number) : Option Int :=
  if a.isFinite then
    let s : Int := if a.negative then -a.significand else a.significand
    some (s * (1 <<< a.exponent.toNat : Nat) / (1 <<< (-a.exponent).toNat : Nat))
  else none

/--
The square root of `num · 4 ^ e`, rounded once. The root is taken with at least 55 bits;
if it is not exact, a further bit places it strictly between two candidates for rounding.
-/
def nearestSqrt (num : Nat) (e : Int) : Number :=
  let shift := 56 - num.log2 / 2
  let scaled := num <<< (2 * shift)
  let root := scaled.sqrt
  let m := 2 * root + if root * root = scaled then 0 else 1
  let power := e - shift - 1
  nearest false (m <<< power.toNat) (1 <<< (-power).toNat)

/--
The Euclidean length of the vector `(a, b)`, rounded once and with no overflow or
underflow on the way. An infinite component makes the length infinite, whatever the other
one is.
-/
def hypot (a b : Number) : Number :=
  if a.isFinite && b.isFinite then
    let e := min a.exponent b.exponent
    let x := a.significand <<< (a.exponent - e).toNat
    let y := b.significand <<< (b.exponent - e).toNat
    nearestSqrt (x * x + y * y) e
  else if !a.isFinite && !a.isNaN || !b.isFinite && !b.isNaN then infinity
  else nan

end ActorScript.Number
