import ActorScript.Tree

/-!
# Faults

What can go wrong while a script runs.

A *transient* fault means that the world or the data do not suit a statement at the
moment: the statement is dropped without effect and tried again in the next tick. A
*fatal* fault means that the script itself is wrong, and stops it for good.
-/

namespace ActorScript

inductive Fault where
  | divisionByZero
  /-- A number outside the domain of an operation. -/
  | invalidArgument (operation : String) (value : Number)
  /-- A value of the wrong type where an operation expects another. -/
  | typeMismatch (context : String) (expected got : ValueType)
  | binaryTypeMismatch (op : BinaryOp) (left right : ValueType)
  | unaryTypeMismatch (op : UnaryOp) (operand : ValueType)
  | undefinedVariable (name : String)
  /-- A question about an actor, asked of the null reference. -/
  | nullReference (query : String)
  /-- A question about an actor that is gone. -/
  | missingObject (id : ActorId)
  | undeclaredTarget (name : String)
  | assignTypeMismatch (name : String) (declared got : ValueType)
  /-- The variable of a loop over the world is not declared with the type of its
  candidates. -/
  | loopVariable (name : String) (expected : ValueType) (declared : Option ValueType)
  | leaveOutsideLoop
deriving DecidableEq

namespace Fault

/-- Whether the fault stops the script for good. -/
def isFatal : Fault → Bool
  | undeclaredTarget _ | assignTypeMismatch .. | loopVariable ..
  | leaveOutsideLoop => true
  | _ => false

def message : Fault → String
  | divisionByZero => "division by zero"
  | invalidArgument operation value =>
      "invalid argument to " ++ operation ++ ": " ++ value.text
  | typeMismatch context expected got =>
      context ++ " expects a " ++ expected.word ++ ", got " ++ got.word
  | binaryTypeMismatch op left right =>
      "operator `" ++ op.symbol ++ "` cannot be applied to " ++ left.word ++
        " and " ++ right.word
  | unaryTypeMismatch op operand =>
      "operator `" ++ op.symbol ++ "` cannot be applied to " ++ operand.word
  | undefinedVariable name => "undefined variable: " ++ name
  | nullReference query => query ++ " of a null object"
  | missingObject id => "object#" ++ toString id ++ " is no longer in the world"
  | undeclaredTarget name => "cannot assign to undeclared variable: " ++ name
  | assignTypeMismatch name declared got =>
      "cannot assign " ++ got.word ++ " to " ++ name ++ ", declared as " ++ declared.word
  | loopVariable name expected declared =>
      "loop variable " ++ name ++ " must be declared as " ++ expected.word
        ++ match declared with
          | some type => ", found " ++ type.word
          | none => ""
  | leaveOutsideLoop => "break outside of a loop"

end Fault

end ActorScript
