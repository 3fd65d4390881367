/-!
# Numbers

The numbers of a script are IEEE 754 binary64 data, held as their words.

Arithmetic and comparison are those of `Float`. The word is kept beside them for one
reason: the order that sorts the candidates of a loop (`orderKey`) tells a negative
not-a-number from a positive one, and `Float` does not. The rules for the sign are

* negation turns the sign of everything, a not-a-number included;
* an operand that is not a number is passed on as it is, the left one first;
* an invalid operation on numbers, such as `∞ - ∞`, gives `invalid`, whose sign is
  negative.

`Number` has decidable equality of words. Equality in the language is `Number.equal`: it
takes the two zeros for one value and holds of no not-a-number.
-/

namespace ActorScript

/-- A binary64 datum, as its word. -/
structure Number where
  bits : UInt64
deriving DecidableEq, Inhabited

namespace Number

/-- The datum as a `Float`; every not-a-number becomes the one that `Float` has. -/
def toFloat (a : Number) : Float := Float.ofBits a.bits

/-- The word of a `Float`. -/
def ofFloat (x : Float) : Number := ⟨x.toBits⟩

/-- Positive zero. -/
def zero : Number := ⟨0⟩

def one : Number := ⟨0x3FF0000000000000⟩

/-- Positive infinity. -/
def infinity : Number := ⟨0x7FF0000000000000⟩

/-- The positive not-a-number. -/
def nan : Number := ⟨0x7FF8000000000000⟩

/-- The outcome of an invalid operation: the negative not-a-number. -/
def invalid : Number := ⟨0xFFF8000000000000⟩

def isNaN (a : Number) : Bool := a.toFloat.isNaN

def isFinite (a : Number) : Bool := a.toFloat.isFinite

/-- Whether the sign bit is set. -/
def negative (a : Number) : Bool := 0x8000000000000000 ≤ a.bits

/-! ## Arithmetic -/

/-- The outcome of an operation whose operands are numbers. -/
def ofResult (x : Float) : Number := if x.isNaN then invalid else ofFloat x

/-- Lifts an operation of `Float`, passing on operands that are not numbers. -/
def lift₂ (op : Float → Float → Float) (a b : Number) : Number :=
  if a.isNaN then a
  else if b.isNaN then b
  else ofResult (op a.toFloat b.toFloat)

instance : Add Number := ⟨lift₂ (· + ·)⟩
instance : Sub Number := ⟨lift₂ (· - ·)⟩
instance : Mul Number := ⟨lift₂ (· * ·)⟩
instance : Div Number := ⟨lift₂ (· / ·)⟩

instance : Neg Number := ⟨fun a => ⟨a.bits ^^^ 0x8000000000000000⟩⟩

/-- The square root; of a negative number it is `invalid`. -/
def sqrt (a : Number) : Number := if a.isNaN then a else ofResult a.toFloat.sqrt

/-! ## Comparison -/

instance : LT Number := ⟨fun a b => a.toFloat < b.toFloat⟩
instance : LE Number := ⟨fun a b => a.toFloat ≤ b.toFloat⟩

instance (a b : Number) : Decidable (a < b) :=
  inferInstanceAs (Decidable (a.toFloat < b.toFloat))
instance (a b : Number) : Decidable (a ≤ b) :=
  inferInstanceAs (Decidable (a.toFloat ≤ b.toFloat))

/-- Equality of values: `0` and `-0` are equal, a not-a-number differs from everything. -/
def equal (a b : Number) : Bool := a.toFloat == b.toFloat

/-- The lesser of two numbers; an operand that is not a number counts as absent. -/
def minNum (a b : Number) : Number :=
  if a.isNaN then b else if b.isNaN then a else if a < b then a else b

/-- The greater of two numbers; an operand that is not a number counts as absent. -/
def maxNum (a b : Number) : Number :=
  if a.isNaN then b else if b.isNaN then a else if b < a then a else b

/--
Position of a datum in the total order of all words: negative not-a-numbers, then from
negative to positive infinity with `-0` before `0`, then positive not-a-numbers.
-/
def orderKey (a : Number) : Int :=
  if a.negative then 0x7FFFFFFFFFFFFFFF - (a.bits.toNat : Int) else a.bits.toNat

end Number

end ActorScript
