import ActorScript.Number.Exact

/-!
# Decimal text of numbers

A number is written with the fewest decimal digits that read back as the same number, and
among those with the digits nearest to it. The notation is always positional: no exponent,
no trailing zeros after the point, and no point in a whole number.

The search is exact. The reals that round to `m · 2 ^ e` form an interval around it, ends
included if `m` is even. On the grid of the decimals with `n` leading digits it is enough
to look at the two neighbours of the number; the first `n` with a neighbour inside the
interval gives the answer.
-/

namespace ActorScript

/-- The decimal number `digits · 10 ^ exponent`. -/
structure Decimal where
  digits : Nat
  exponent : Int
deriving DecidableEq

namespace Decimal

/-- Ten to a power; one if the power is negative. -/
def tenTo (power : Int) : Nat := Nat.pow 10 power.toNat

/-! ## Reading back -/

/-- The number nearest to `± d`. A magnitude far outside the range of numbers is not
worked out. -/
def toNumber (negative : Bool) (d : Decimal) : Number :=
  let size : Int := (Nat.toDigits 10 d.digits).length + d.exponent
  if d.digits = 0 || size < -400 then Number.ofMagnitude negative 0
  else if 400 < size then Number.ofMagnitude negative Number.infinityWord
  else Number.nearest negative (d.digits * tenTo d.exponent) (tenTo (-d.exponent))

/-! ## Shortest digits -/

/-- How many digits stand before the point in `num / den`; not positive if zeros follow
it. -/
def pointPosition (num den : Nat) : Int :=
  if den ≤ num then (Nat.toDigits 10 (num / den)).length
  else 1 - ((Nat.toDigits 10 ((den - 1) / num)).length : Int)

/-- A positive number as four times its numerator, with the ends of its rounding
interval. -/
structure Interval where
  value : Nat
  low : Nat
  high : Nat
  /-- The common denominator of the three. -/
  den : Nat
  /-- Whether the ends round to the number too. -/
  closed : Bool

/-- The reals that round to a positive finite number. Below a power of two the gap is half
as wide. -/
def Interval.ofNumber (a : Number) : Interval :=
  let m := a.significand
  let scale := 1 <<< a.exponent.toNat
  let below := if a.fractionField = 0 && 1 < a.exponentField then 1 else 2
  { value := 4 * m * scale
    low := (4 * m - below) * scale
    high := (4 * m + 2) * scale
    den := 4 <<< (-a.exponent).toNat
    closed := m % 2 == 0 }

/-- Whether `num / den` lies in the interval. -/
def Interval.contains (i : Interval) (num den : Nat) : Bool :=
  if i.closed then i.low * den ≤ num * i.den && num * i.den ≤ i.high * den
  else i.low * den < num * i.den && num * i.den < i.high * den

/-- The nearest neighbour of the value on the grid `10 ^ exponent`, if it lies in the
interval. -/
def Interval.onGrid (i : Interval) (exponent : Int) : Option Decimal :=
  let up := tenTo exponent
  let down := tenTo (-exponent)
  let d := i.value * down / (i.den * up)
  let lower := i.contains (d * up) down
  let upper := i.contains ((d + 1) * up) down
  if lower && upper then
    -- nearer to `d` means that twice the distance to `d` is less than one on the grid
    if 2 * (i.value * down) < (2 * d + 1) * (i.den * up) then some ⟨d, exponent⟩
    else some ⟨d + 1, exponent⟩
  else if lower then some ⟨d, exponent⟩
  else if upper then some ⟨d + 1, exponent⟩
  else none

/-- Takes a last zero off the digits. -/
def trim (d : Decimal) : Decimal :=
  if d.digits % 10 = 0 then ⟨d.digits / 10, d.exponent + 1⟩ else d

/-- The shortest decimal that reads back as a positive finite number; 17 digits always
do. -/
def shortest (a : Number) : Decimal :=
  let i := Interval.ofNumber a
  let point := pointPosition i.value i.den
  let found := (List.range 17).findSome? fun n => i.onGrid (point - (n + 1 : Nat))
  (found.getD ⟨0, 0⟩).trim

/-! ## Notation -/

/-- Positional notation. -/
def positional (d : Decimal) : String :=
  let ds := Nat.toDigits 10 d.digits
  let point : Int := ds.length + d.exponent
  if 0 ≤ d.exponent then String.ofList (ds ++ List.replicate d.exponent.toNat '0')
  else if 0 < point then String.ofList (ds.take point.toNat ++ '.' :: ds.drop point.toNat)
  else String.ofList ('0' :: '.' :: (List.replicate (-point).toNat '0' ++ ds))

end Decimal

/-- The text of a number. A not-a-number shows no sign; the sign of zero is shown. -/
def Number.text (a : Number) : String :=
  if a.isNaN then "NaN"
  else
    let magnitude :=
      if !a.isFinite then "inf"
      else if a.significand = 0 then "0"
      else (Decimal.shortest a).positional
    if a.negative then "-" ++ magnitude else magnitude

end ActorScript
