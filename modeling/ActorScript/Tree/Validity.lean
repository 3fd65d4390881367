import ActorScript.Tree

/-!
# Validity of trees

`Tree.validate` decides once, before a script runs, that every position used by it points
somewhere, that the statements reached from the root form a tree in which children stand
before their parents, and that every `leaveLoop` has a loop around it. Types of values are
not looked at: they are the business of the run.

The first defect found is reported. The declarations come first, then the expressions by
position, then the statements in the order of a walk that takes the children of a
statement from the last to the first.
-/

namespace ActorScript

/-- Why a tree cannot be run. -/
inductive TreeError where
  | missingRoot
  | missingStmt (id : StmtId)
  | missingExpr (id : ExprId)
  /-- The slice of a sequence leaves the list table. -/
  | missingBody (id : StmtId)
  | lateStmt (parent child : StmtId)
  | lateExpr (parent child : ExprId)
  | sharedStmt (id : StmtId)
  /-- There is no loop around a `leaveLoop`. -/
  | strayLeave (id : StmtId)
  | duplicateGlobal (name : String)
deriving DecidableEq

namespace TreeError

private def stmtText (id : StmtId) : String := "StmtId(" ++ toString id ++ ")"

private def exprText (id : ExprId) : String := "ExprId(" ++ toString id ++ ")"

private def lateText (parent child : String) : String :=
  child ++ " is referenced by " ++ parent ++ " but was allocated after it"

def message : TreeError → String
  | missingRoot => "program has no root statement"
  | missingStmt id => "statement " ++ stmtText id ++ " does not exist"
  | missingExpr id => "expression " ++ exprText id ++ " does not exist"
  | missingBody id =>
      "sequence body of " ++ stmtText id ++ " points outside the statement list table"
  | lateStmt parent child => lateText (stmtText parent) (stmtText child)
  | lateExpr parent child => lateText (exprText parent) (exprText child)
  | sharedStmt id => "statement " ++ stmtText id ++ " has more than one parent"
  | strayLeave id => "`break` at " ++ stmtText id ++ " is not inside a loop"
  | duplicateGlobal name => "global `" ++ name ++ "` is declared more than once"

end TreeError

namespace Tree

/-- No name is declared twice. -/
def checkGlobals (t : Tree) : List Name → List Name → Except TreeError Unit
  | _, [] => .ok ()
  | seen, name :: rest =>
      if seen.contains name then .error (.duplicateGlobal (t.names.lookup name))
      else t.checkGlobals (name :: seen) rest

/-- An operand exists and stands before the expression that uses it. -/
def checkOperand (t : Tree) (parent child : ExprId) : Except TreeError Unit :=
  if t.exprs.size ≤ child then .error (.missingExpr child)
  else if parent ≤ child then .error (.lateExpr parent child)
  else .ok ()

/-- The operands of all expressions, in use or not, exist and stand before them. -/
def checkExprs (t : Tree) : Except TreeError Unit :=
  t.exprs.toList.zipIdx.forM fun (e, id) => e.operands.forM (t.checkOperand id)

/-- What a statement uses itself is there. -/
def checkStmt (t : Tree) (inLoop : Bool) (id : StmtId) (s : Stmt) :
    Except TreeError Unit := do
  match s with
  | .sequence body => if (t.slice? body).isNone then .error (.missingBody id)
  | .leaveLoop => if !inLoop then .error (.strayLeave id)
  | _ => pure ()
  s.operands.forM fun e => if t.exprs.size ≤ e then .error (.missingExpr e) else .ok ()

/-- A child exists and stands before its parent. -/
def checkChild (t : Tree) (parent child : StmtId) : Except TreeError Unit :=
  if t.stmts.size ≤ child then .error (.missingStmt child)
  else if parent ≤ child then .error (.lateStmt parent child)
  else .ok ()

/--
Walks the statements under `id`, of which all positions are below the bound, and returns
those visited, the latest first. The bound falls with every step down, since children
stand before their parents.
-/
def walk (t : Tree) : Nat → Bool → List StmtId → StmtId → Except TreeError (List StmtId)
  | 0, _, _, id => .error (.missingStmt id)
  | bound + 1, inLoop, visited, id => do
      if visited.contains id then .error (.sharedStmt id)
      let some s := t.stmt? id | .error (.missingStmt id)
      t.checkStmt inLoop id s
      let children := (t.childrenOf? s).getD []
      children.forM (t.checkChild id)
      children.reverse.foldlM (t.walk bound (inLoop || s.isLoop)) (id :: visited)

/-- The root of a tree that can be run, or the first defect. -/
def validate (t : Tree) : Except TreeError StmtId := do
  let some root := t.root | .error .missingRoot
  t.checkGlobals [] (t.globals.toList.map Prod.fst)
  t.checkExprs
  let _ ← t.walk t.stmts.size false [] root
  return root

end Tree

end ActorScript
