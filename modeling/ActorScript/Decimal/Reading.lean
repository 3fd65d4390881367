import ActorScript.Decimal

/-!
# Reading numbers

Two notations are read. A whole number is a run of digits, with an optional plus sign
before it. A number has an optional sign, digits with an optional point among them or at
either end, and an optional exponent; `inf`, `infinity` and `nan` are spelled in any case.
There are no blanks and no separators, and the number is the one nearest to what is
written.
-/

namespace ActorScript

namespace Numeral

/-- The value of a run of digits, of which there has to be one. -/
def digits? (cs : List Char) : Option Nat :=
  if cs.isEmpty || !cs.all Char.isDigit then none
  else some (cs.foldl (fun n c => 10 * n + (c.toNat - '0'.toNat)) 0)

/-- A whole number below a limit. -/
def whole? (limit : Nat) (s : String) : Option Nat :=
  let cs := match s.toList with
    | '+' :: cs => cs
    | cs => cs
  (digits? cs).filter (· < limit)

/-- Takes off a sign; says whether it was a minus. -/
def takeSign : List Char → Bool × List Char
  | '+' :: cs => (false, cs)
  | '-' :: cs => (true, cs)
  | cs => (false, cs)

/-- The exponent at the end of a number; nothing stands for zero. -/
def exponent? : List Char → Option Int
  | [] => some 0
  | c :: cs =>
      if c = 'e' ∨ c = 'E' then
        let (negative, cs) := takeSign cs
        (digits? cs).map fun n => if negative then -(n : Int) else n
      else none

/-- The fraction after a point, and what comes after it. -/
def takeFraction : List Char → List Char × List Char
  | '.' :: cs => cs.span Char.isDigit
  | cs => ([], cs)

/-- Digits, with a point or without, and an exponent. -/
def decimal? (cs : List Char) : Option Decimal := do
  let (whole, cs) := cs.span Char.isDigit
  let (fraction, cs) := takeFraction cs
  let digits ← digits? (whole ++ fraction)
  let exponent ← exponent? cs
  return ⟨digits, exponent - fraction.length⟩

/-- A number. -/
def number? (s : String) : Option Number :=
  let (negative, cs) := takeSign s.toList
  let signed (n : Number) : Number := if negative then -n else n
  let word := String.ofList (cs.map Char.toLower)
  if word = "inf" ∨ word = "infinity" then some (signed .infinity)
  else if word = "nan" then some (signed .nan)
  else (decimal? cs).map (·.toNumber negative)

end Numeral

end ActorScript
