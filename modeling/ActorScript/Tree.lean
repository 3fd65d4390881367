import ActorScript.Names
import ActorScript.Value

/-!
# Script trees

A script is stored flat. Expressions and statements sit in two tables and refer to each
other by position; the bodies of sequences sit in a third table, which a sequence reads a
slice of. Nothing here stops a position from pointing nowhere: whether a tree can be run
is decided by `Tree.validate`, and every access is an `Option`.
-/

namespace ActorScript

/-- Position of an expression. -/
abbrev ExprId := Nat

/-- Position of a statement. -/
abbrev StmtId := Nat

/-- What can be asked about an actor. -/
inductive Property where
  | x
  | y
  | width
  | height
  | hitPoints
  | isAlive
  | isMoving
  | isJumping
  | isDucking
  | isOnGround
  | facing
deriving DecidableEq

def Property.word : Property → String
  | x => "x"
  | y => "y"
  | width => "width"
  | height => "height"
  | hitPoints => "hit_points"
  | isAlive => "is_alive"
  | isMoving => "is_moving"
  | isJumping => "is_jumping"
  | isDucking => "is_ducking"
  | isOnGround => "is_on_ground"
  | facing => "facing"

inductive BinaryOp where
  | add
  | sub
  | mul
  | div
  | eq
  | ne
  | lt
  | le
  | gt
  | ge
  | and
  | or
deriving DecidableEq

namespace BinaryOp

def symbol : BinaryOp → String
  | add => "+"
  | sub => "-"
  | mul => "*"
  | div => "/"
  | eq => "=="
  | ne => "!="
  | lt => "<"
  | le => "<="
  | gt => ">"
  | ge => ">="
  | and => "and"
  | or => "or"

/-- Whether the operator compares numbers by size. -/
def isOrdering : BinaryOp → Bool
  | lt | le | gt | ge => true
  | _ => false

end BinaryOp

inductive UnaryOp where
  | not
  | neg
  | sqrt
deriving DecidableEq

def UnaryOp.symbol : UnaryOp → String
  | not => "not"
  | neg => "-"
  | sqrt => "sqrt"

inductive Expr where
  | number (n : Number)
  | boolean (b : Bool)
  | direction (d : Direction)
  /-- The null reference. -/
  | null
  | var (name : Name)
  /-- The actor that the script drives. -/
  | self
  | binary (op : BinaryOp) (left right : ExprId)
  | unary (op : UnaryOp) (operand : ExprId)
  /-- A random number from zero up to, but not including, `max`. -/
  | random (max : ExprId)
  | property (property : Property) (object : ExprId)
  | isKind (object : ExprId) (kind : ActorKind)
  /-- The tile that holds the point `(x, y)`. -/
  | tileAt (x y : ExprId)
  | tileCoord (tile : ExprId) (axis : Axis)
  | tileIs (tile : ExprId) (tileClass : TileClass)
  /-- The closest actor, of the kind if one is given, that lies in a direction; null if
  none does. -/
  | nearest (direction : ExprId) (kind : Option ActorKind)
deriving DecidableEq

/-- The operands of an expression, in the order of evaluation. -/
def Expr.operands : Expr → List ExprId
  | number _ | boolean _ | direction _ | null | var _ | self => []
  | binary _ left right => [left, right]
  | tileAt x y => [x, y]
  | unary _ e | random e | property _ e | isKind e _ => [e]
  | tileCoord e _ | tileIs e _ | nearest e _ => [e]

inductive SortOrder where
  | ascending
  | descending
deriving DecidableEq

/-- The number by which a loop sorts its candidates. -/
structure SortKey where
  expr : ExprId
  order : SortOrder
deriving DecidableEq

/-- A stretch of the list table. -/
structure Slice where
  start : Nat
  length : Nat
deriving DecidableEq

inductive Stmt where
  | sequence (body : Slice)
  | assign (target : Name) (value : ExprId)
  | conditional (cond : ExprId) (thenBranch : StmtId) (elseBranch : Option StmtId)
  | while (cond : ExprId) (body : StmtId)
  | forEach (var : Name) (selector : Selector) (filter : Option ExprId)
      (sort : Option SortKey)
      (body : StmtId)
  | wait (duration : ExprId)
  /-- Ends the nearest loop around it. -/
  | leaveLoop
  | print (value : ExprId)
  | skip
  | act (action : Action ExprId)
deriving DecidableEq

namespace Stmt

/-- Whether a `leaveLoop` in the body ends this statement. -/
def isLoop : Stmt → Bool
  | .while .. | forEach .. => true
  | _ => false

def label : Stmt → String
  | sequence _ => "sequence"
  | assign .. => "assign"
  | conditional .. => "if"
  | .while .. => "while"
  | forEach .. => "for_each"
  | wait _ => "wait"
  | leaveLoop => "break"
  | print _ => "print"
  | skip => "skip"
  | act _ => "action"

/-- The expressions that a statement evaluates itself. -/
def operands : Stmt → List ExprId
  | sequence _ | leaveLoop | skip => []
  | assign _ e | conditional e _ _ | .while e _ | wait e | print e => [e]
  | forEach _ _ filter sort _ => filter.toList ++ (sort.map SortKey.expr).toList
  | act action => action.direction?.toList

end Stmt

/-- A script: its names, tables, declarations and first statement. -/
structure Tree where
  names : Names := {}
  exprs : Array Expr := #[]
  stmts : Array Stmt := #[]
  /-- The bodies of all sequences, one after the other. -/
  lists : Array StmtId := #[]
  /-- The declared variables, in the order of their declarations. -/
  globals : Array (Name × ValueType) := #[]
  root : Option StmtId := none
deriving Inhabited

namespace Tree

/-! ## Reading -/

def expr? (t : Tree) (id : ExprId) : Option Expr := t.exprs[id]?

def stmt? (t : Tree) (id : StmtId) : Option Stmt := t.stmts[id]?

/-- The statements of a slice, if it lies in the table. -/
def slice? (t : Tree) (s : Slice) : Option (List StmtId) :=
  if s.start + s.length ≤ t.lists.size then
    some (t.lists.extract s.start (s.start + s.length)).toList
  else none

/-- The statements directly under a statement, in the order in which they run. -/
def childrenOf? (t : Tree) : Stmt → Option (List StmtId)
  | .sequence body => t.slice? body
  | .conditional _ thenBranch elseBranch => some (thenBranch :: elseBranch.toList)
  | .while _ body => some [body]
  | .forEach _ _ _ _ body => some [body]
  | _ => some []

def children? (t : Tree) (id : StmtId) : Option (List StmtId) :=
  t.stmt? id >>= t.childrenOf?

/--
A statement and everything under it, with at most `depth` statements on a path. There is
no answer if some position points nowhere or a path is longer.
-/
def subtreeWithin? (t : Tree) : Nat → StmtId → Option (List StmtId)
  | 0, _ => none
  | depth + 1, id => do
      let children ← t.children? id
      let below ← children.mapM (t.subtreeWithin? depth)
      return id :: below.flatten

/-- A statement and everything under it. No path without repetition is longer than the
table. -/
def subtree? (t : Tree) (id : StmtId) : Option (List StmtId) :=
  t.subtreeWithin? t.stmts.size id

/-- What `spine?` looks at, with at most `depth` statements on a path. -/
def spineWithin? (t : Tree) : Nat → StmtId → Option (List StmtId)
  | 0, _ => none
  | depth + 1, id => do
      match ← t.stmt? id with
      | .sequence body =>
          let children ← t.slice? body
          let below ← children.mapM (t.spineWithin? depth)
          return id :: below.flatten
      | _ => return [id]

/-- A statement and what is reached from it through sequences alone. -/
def spine? (t : Tree) (id : StmtId) : Option (List StmtId) :=
  t.spineWithin? t.stmts.size id

/-! ## Building -/

/-- Steps in the construction of a tree. -/
abbrev Builder := StateM Tree

def intern (s : String) : Builder Name :=
  modifyGet fun t => let (name, names) := t.names.intern s; (name, { t with names })

/-- Declares a variable. A second declaration of a name is kept, for validation to
find. -/
def declare (s : String) (type : ValueType) : Builder Name := do
  let name ← intern s
  modifyGet fun t => (name, { t with globals := t.globals.push (name, type) })

def addExpr (e : Expr) : Builder ExprId :=
  modifyGet fun t => (t.exprs.size, { t with exprs := t.exprs.push e })

def addStmt (s : Stmt) : Builder StmtId :=
  modifyGet fun t => (t.stmts.size, { t with stmts := t.stmts.push s })

/-- Adds a variable read. -/
def addVar (s : String) : Builder ExprId := do addExpr (.var (← intern s))

/-- Adds an assignment. -/
def addAssign (s : String) (value : ExprId) : Builder StmtId := do
  addStmt (.assign (← intern s) value)

/-- Adds a body to the list table and a sequence over it. -/
def addSequence (body : List StmtId) : Builder StmtId := do
  let start ← modifyGet fun t =>
    (t.lists.size, { t with lists := t.lists ++ body.toArray })
  addStmt (.sequence ⟨start, body.length⟩)

def setRoot (id : StmtId) : Builder Unit := modify fun t => { t with root := some id }

/-- The tree that a construction makes. -/
def build (b : Builder Unit) : Tree := (b.run {}).2

end Tree

end ActorScript
