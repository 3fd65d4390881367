import ActorScript.Evaluation.Operators
import ActorScript.Generator
import ActorScript.Globals
import ActorScript.World

/-!
# Evaluation of expressions

Evaluation reads the variables and the world and changes neither. Only the random
generator moves on, and a fault gives it up with everything else: whoever asked still
holds the generator from before, so that a second try draws the same numbers.
-/

namespace ActorScript

/--
An evaluation takes a generator to a value and the generator that is left, or to a fault.
How far the generator had come when the fault came up is not kept: nobody asks for it,
since `attempt`, the one place where evaluations are run, goes back to the generator from
before. There is no outcome at all if a position in the tree points nowhere.
-/
abbrev Evaluation := StateT Generator (ExceptT Fault Option)

/-- What an expression can see. -/
structure Scope (W : Type) where
  tree : Tree
  globals : Globals
  world : W
  subject : ActorId
  /-- A variable that is taken to have a value, whatever the global variables hold. -/
  overlay : Option (Name × Value) := none

/-! ## Expected types -/

/-- The part of a value that an operation needs, or the fault that the value is of another
type. -/
def Value.expect {α : Type} (v : Value) (part? : Value → Option α) (type : ValueType)
    (context : String) : Except Fault α :=
  match part? v with
  | some a => .ok a
  | none => .error (.typeMismatch context type v.type)

namespace Value

def expectNumber (v : Value) (context : String) : Except Fault Number :=
  v.expect number? .number context

def expectBoolean (v : Value) (context : String) : Except Fault Bool :=
  v.expect boolean? .boolean context

def expectDirection (v : Value) (context : String) : Except Fault Direction :=
  v.expect direction? .direction context

def expectObject (v : Value) (context : String) : Except Fault (Option ActorId) :=
  v.expect object? .object context

def expectTile (v : Value) (context : String) : Except Fault Tile :=
  v.expect tile? .tile context

end Value

/-- The answer of an actor to a question. -/
def Property.of (a : Actor) : Property → Value
  | .x => .number a.x
  | .y => .number a.y
  | .width => .number a.width
  | .height => .number a.height
  | .hitPoints => .number a.hitPoints
  | .isAlive => .boolean a.alive
  | .isMoving => .boolean a.moving
  | .isJumping => .boolean a.jumping
  | .isDucking => .boolean a.ducking
  | .isOnGround => .boolean a.onGround
  | .facing => .direction a.facing

/-- The row or column that a coordinate falls into. It has to fit into 32 bits with
sign. -/
def tileCoordinate (v : Number) : Except Fault Int :=
  match v.floor? with
  | some i =>
      if -0x80000000 ≤ i ∧ i < 0x80000000 then .ok i
      else .error (.invalidArgument "tile_at" v)
  | none => .error (.invalidArgument "tile_at" v)

/-- A random number below a bound that has to be positive and finite. -/
def randomBelow (bound : Number) : Evaluation Number :=
  if h : Generator.IsBound bound then modifyGet (·.below bound h)
  else throw (.invalidArgument "random" bound)

namespace Scope

variable {W : Type} [World W]

/-- The value of a variable. -/
def lookup (s : Scope W) (name : Name) : Except Fault Value :=
  match s.overlay.filter (·.1 == name) with
  | some (_, value) => .ok value
  | none =>
      match s.globals.get? name with
      | some value => .ok value
      | none => .error (.undefinedVariable (s.tree.names.lookup name))

/-- What a reference answers to a question. An actor that is gone is no longer alive. -/
def ask (s : Scope W) (property : Property) : Option ActorId → Except Fault Value
  | none => .error (.nullReference property.word)
  | some id =>
      match World.actor? s.world id with
      | some actor => .ok (property.of actor)
      | none =>
          if property = .isAlive then .ok (.boolean false) else .error (.missingObject id)

/-- Whether a reference is to an actor of a kind. -/
def isKind (s : Scope W) (kind : ActorKind) : Option ActorId → Except Fault Value
  | none => .error (.nullReference "is_kind")
  | some id =>
      match World.actor? s.world id with
      | some actor => .ok (.boolean (actor.kind == kind))
      | none => .error (.missingObject id)

/-- The closest actor to the subject in a direction. -/
def nearest (s : Scope W) (direction : Direction) (kind : Option ActorKind) :
    Except Fault Value :=
  match World.actor? s.world s.subject with
  | some _ => .ok (.object (World.nearest? s.world s.subject direction kind))
  | none => .error (.missingObject s.subject)

/--
The value of an expression that is nested no deeper than `depth`. Operands are evaluated
from left to right, all of them, before the expression looks at any.
-/
def evaluateWithin (s : Scope W) : Nat → ExprId → Evaluation Value
  | 0, _ => liftM (none : Option Value)
  | depth + 1, id => do
      match ← s.tree.expr? id with
      | .number n => return .number n
      | .boolean b => return .boolean b
      | .direction d => return .direction d
      | .null => return .object none
      | .var name => s.lookup name
      | .self => return .object (some s.subject)
      | .binary op left right =>
          let l ← s.evaluateWithin depth left
          let r ← s.evaluateWithin depth right
          op.apply l r
      | .unary op operand =>
          let v ← s.evaluateWithin depth operand
          op.apply v
      | .random max =>
          let v ← s.evaluateWithin depth max
          return .number (← randomBelow (← v.expectNumber "random"))
      | .property property object =>
          let v ← s.evaluateWithin depth object
          s.ask property (← v.expectObject property.word)
      | .isKind object kind =>
          let v ← s.evaluateWithin depth object
          s.isKind kind (← v.expectObject "is_kind")
      | .tileAt x y =>
          let v ← s.evaluateWithin depth x
          let px ← v.expectNumber "tile_at"
          let w ← s.evaluateWithin depth y
          let py ← w.expectNumber "tile_at"
          let column ← tileCoordinate px
          let row ← tileCoordinate py
          return .tile ⟨column, row⟩
      | .tileCoord tile axis =>
          let v ← s.evaluateWithin depth tile
          let t ← v.expectTile "tile coordinate"
          return .number (.ofInt (match axis with | .x => t.x | .y => t.y))
      | .tileIs tile tileClass =>
          let v ← s.evaluateWithin depth tile
          let t ← v.expectTile "tile_is"
          return .boolean (World.tileClass? s.world t == some tileClass)
      | .nearest direction kind =>
          let v ← s.evaluateWithin depth direction
          s.nearest (← v.expectDirection "nearest") kind

/-- The value of an expression. No chain of operands without repetition is longer than the
table. -/
def evaluate (s : Scope W) (id : ExprId) : Evaluation Value :=
  s.evaluateWithin s.tree.exprs.size id

/-- The truth value of a condition. -/
def condition (s : Scope W) (context : String) (id : ExprId) : Evaluation Bool := do
  (← s.evaluate id).expectBoolean context

/-- The time that a wait takes. It has to be finite. -/
def duration (s : Scope W) (id : ExprId) : Evaluation Number := do
  let time ← (← s.evaluate id).expectNumber "wait"
  if time.isFinite then return time else throw (.invalidArgument "wait" time)

/-- An action with its direction worked out. -/
def command (s : Scope W) (action : Action ExprId) : Evaluation Command :=
  action.mapM fun id => do (← s.evaluate id).expectDirection "start_move"

end Scope

end ActorScript
