import ActorScript.Fault

/-!
# Operators

Both operands are values when an operator is applied, so `and` and `or` never leave one of
them unevaluated. `==` and `!=` compare values of one type, whichever it is.
-/

namespace ActorScript

/-- An operator on two numbers, if it is one. -/
def BinaryOp.onNumbers (a b : Number) : BinaryOp → Option (Except Fault Value)
  | .add => some (.ok (.number (a + b)))
  | .sub => some (.ok (.number (a - b)))
  | .mul => some (.ok (.number (a * b)))
  | .div =>
      some (if b.equal .zero then .error .divisionByZero else .ok (.number (a / b)))
  | .lt => some (.ok (.boolean (a < b)))
  | .le => some (.ok (.boolean (a ≤ b)))
  | .gt => some (.ok (.boolean (b < a)))
  | .ge => some (.ok (.boolean (b ≤ a)))
  | .eq | .ne | .and | .or => none

/-- An operator on two truth values, if it is one. -/
def BinaryOp.onBooleans (a b : Bool) : BinaryOp → Option Value
  | .and => some (.boolean (a && b))
  | .or => some (.boolean (a || b))
  | _ => none

def BinaryOp.apply (op : BinaryOp) (left right : Value) : Except Fault Value :=
  let mismatch := Fault.binaryTypeMismatch op left.type right.type
  match op, left, right with
  | .eq, _, _ =>
      if left.type = right.type then .ok (.boolean (left.equal right))
      else .error mismatch
  | .ne, _, _ =>
      if left.type = right.type then .ok (.boolean (!left.equal right))
      else .error mismatch
  | _, .number a, .number b => (op.onNumbers a b).getD (.error mismatch)
  | _, .boolean a, .boolean b => (op.onBooleans a b).elim (.error mismatch) .ok
  | _, _, _ => .error mismatch

def UnaryOp.apply (op : UnaryOp) (operand : Value) : Except Fault Value :=
  match op, operand with
  | .not, .boolean b => .ok (.boolean !b)
  | .neg, .number n => .ok (.number (-n))
  | .sqrt, .number n =>
      if n < .zero then .error (.invalidArgument "sqrt" n) else .ok (.number n.sqrt)
  | _, _ => .error (.unaryTypeMismatch op operand.type)

end ActorScript
