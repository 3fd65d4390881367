import ActorScript.Tree

/-!
# Progress

The tree of a script never changes. How far a run has come is kept in a table beside it,
one entry per statement: whether the statement still has work to do (it is *armed*), and
what it has to remember until it goes on (its *frame*). Between two ticks the armed
entries mark the path from the root to the statement that runs next, and what comes after
it.
-/

namespace ActorScript

/-- Whether a loop is about to start a round or in the middle of one. -/
inductive Phase where
  | fresh
  | continuing
deriving DecidableEq

/-- What a statement remembers. -/
inductive Frame where
  | fresh
  /-- The branch that a condition chose, if there is one. -/
  | branch (choice : Option StmtId)
  | while (phase : Phase)
  /-- The candidates of a loop over the world, and the one at hand. -/
  | forEach (candidates : List Value) (index : Nat) (phase : Phase)
  /-- The time still to be waited. -/
  | wait (owed : Number)
deriving DecidableEq

/-- The entry of a statement. -/
structure Node where
  armed : Bool := false
  frame : Frame := .fresh
deriving DecidableEq, Inhabited

/-- The table, by position of the statements. -/
structure Progress where
  nodes : Array Node
deriving DecidableEq, Inhabited

namespace Progress

/-- The entry of a statement with nothing to do. -/
def idleNode : Node := {}

/-- A table for so many statements, none of which has anything to do. -/
def idle (size : Nat) : Progress := ⟨Array.replicate size idleNode⟩

def isArmed (p : Progress) (id : StmtId) : Bool := p.nodes[id]?.any Node.armed

def frame (p : Progress) (id : StmtId) : Frame :=
  (p.nodes[id]?.map Node.frame).getD .fresh

/-- Replaces an entry of the table. -/
def setNode? (p : Progress) (id : StmtId) (node : Node) : Option Progress :=
  if id < p.nodes.size then some ⟨p.nodes.setIfInBounds id node⟩ else none

/-- Replaces the frame of a statement. -/
def setFrame? (p : Progress) (id : StmtId) (frame : Frame) : Option Progress := do
  p.setNode? id { (← p.nodes[id]?) with frame }

/-- Marks one statement as done. -/
def finish? (p : Progress) (id : StmtId) : Option Progress := p.setNode? id idleNode

/-- Marks a statement as having work to do. -/
def mark? (p : Progress) (id : StmtId) : Option Progress := do
  p.setNode? id { (← p.nodes[id]?) with armed := true }

/-- Marks a statement and everything under it as done. -/
def disarm? (p : Progress) (t : Tree) (id : StmtId) : Option Progress := do
  (← t.subtree? id).foldlM finish? p

/--
Makes a statement ready to run from its start. Everything under it is reset; what is
reached through sequences alone is armed along with it, and other statements arm theirs
when they choose to run them.
-/
def arm? (p : Progress) (t : Tree) (id : StmtId) : Option Progress := do
  (← t.spine? id).foldlM mark? (← p.disarm? t id)

/-- The armed statements, by position. -/
def armed (p : Progress) : List StmtId := (List.range p.nodes.size).filter p.isArmed

/-- The statements that remember something, by position. -/
def frames (p : Progress) : List (StmtId × Frame) :=
  ((List.range p.nodes.size).map fun id => (id, p.frame id)).filter (·.2 != .fresh)

end Progress

end ActorScript
