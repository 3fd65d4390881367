import ActorScript.Decimal
import ActorScript.Vocabulary

/-!
# Values

Every expression reduces to one of five sorts of values, and every global variable is
declared with one of the five types.
-/

namespace ActorScript

/-- The handle of an actor. It stays the actor's own after the actor is gone. -/
abbrev ActorId := Nat

/-- A position in the tile grid. -/
structure Tile where
  x : Int
  y : Int
deriving DecidableEq, Inhabited

namespace Tile

/-- Whether `s` stands before `t` or at its place when tiles are read row by row. -/
def rowMajorLE (s t : Tile) : Bool := s.y < t.y || s.y == t.y && s.x ≤ t.x

def text (t : Tile) : String := "tile(" ++ toString t.x ++ ", " ++ toString t.y ++ ")"

end Tile

inductive ValueType where
  | number
  | boolean
  | direction
  | object
  | tile
deriving DecidableEq

def ValueType.word : ValueType → String
  | number => "number"
  | boolean => "boolean"
  | direction => "direction"
  | object => "object"
  | tile => "tile"

/-- A value. An object is a reference to an actor, possibly null. -/
inductive Value where
  | number (n : Number)
  | boolean (b : Bool)
  | direction (d : Direction)
  | object (id : Option ActorId)
  | tile (t : Tile)
deriving DecidableEq

/-- What a variable of the type holds before it is written. -/
def ValueType.initial : ValueType → Value
  | number => .number .zero
  | boolean => .boolean false
  | direction => .direction .right
  | object => .object none
  | tile => .tile ⟨0, 0⟩

namespace Value

def type : Value → ValueType
  | number _ => .number
  | boolean _ => .boolean
  | direction _ => .direction
  | object _ => .object
  | tile _ => .tile

def number? : Value → Option Number
  | number n => some n
  | _ => none

def boolean? : Value → Option Bool
  | boolean b => some b
  | _ => none

def direction? : Value → Option Direction
  | direction d => some d
  | _ => none

/-- The reference held by an object; the null reference is `some none`. -/
def object? : Value → Option (Option ActorId)
  | object id => some id
  | _ => none

def tile? : Value → Option Tile
  | tile t => some t
  | _ => none

/-- Equality in the language: numbers by their values, everything else by identity. -/
def equal : Value → Value → Bool
  | number a, number b => a.equal b
  | v, w => v == w

/-- The text that `print` writes. -/
def text : Value → String
  | number n => n.text
  | boolean b => if b then "true" else "false"
  | direction d => d.word
  | object (some id) => "object#" ++ toString id
  | object none => "null"
  | tile t => t.text

end Value

end ActorScript
