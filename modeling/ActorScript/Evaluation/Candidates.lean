import ActorScript.Evaluation

/-!
# Candidates of a loop over the world

A loop over the world works out its candidates once, when it starts: it takes what the
world enumerates, keeps what passes the filter, and sorts the rest by the key. The filter
and the key see each candidate through the overlay of their scope, so no variable is
written until the first candidate is visited. Sorting is stable in either direction.
-/

namespace ActorScript

/-- The type of the candidates. -/
def Selector.candidateType (selector : Selector) : ValueType :=
  if selector.yieldsTiles then .tile else .object

/-- The candidates as the world lists them; tiles are put row by row. -/
def Selector.enumerate {W : Type} [World W] (w : W) : Selector → List Value
  | .actors kind => (World.actors w kind).map fun id => .object (some id)
  | .tiles => ((World.tiles w).mergeSort Tile.rowMajorLE).map .tile

/-- Whether the first of two keys may stand before the second. -/
def SortOrder.le (order : SortOrder) (a b : Number) : Bool :=
  match order with
  | .ascending => a.orderKey ≤ b.orderKey
  | .descending => b.orderKey ≤ a.orderKey

namespace Scope

variable {W : Type} [World W]

/-- The scope in which a loop looks at one candidate. -/
def withCandidate (s : Scope W) (var : Name) (candidate : Value) : Scope W :=
  { s with overlay := some (var, candidate) }

/-- The candidates that pass a filter. -/
def keep (s : Scope W) (var : Name) (filter : ExprId) (candidates : List Value) :
    Evaluation (List Value) := do
  let verdicts ← candidates.mapM fun c =>
    (s.withCandidate var c).condition "for each filter" filter
  return ((candidates.zip verdicts).filter Prod.snd).map Prod.fst

/-- The candidates in the order of a key. -/
def arrange (s : Scope W) (var : Name) (key : SortKey) (candidates : List Value) :
    Evaluation (List Value) := do
  let keys ← candidates.mapM fun c => do
    let value ← (s.withCandidate var c).evaluate key.expr
    (value.expectNumber "for each sort key" : Except Fault _)
  return ((keys.zip candidates).mergeSort fun a b => key.order.le a.1 b.1).map Prod.snd

/-- The candidates of a loop, in the order in which it visits them. -/
def candidates (s : Scope W) (var : Name) (selector : Selector) (filter : Option ExprId)
    (sort : Option SortKey) : Evaluation (List Value) := do
  let expected := selector.candidateType
  let declared := s.globals.type? var
  if declared ≠ some expected then
    throw (.loopVariable (s.tree.names.lookup var) expected declared)
  let enumerated := selector.enumerate s.world
  let kept ← match filter with
    | some filter => s.keep var filter enumerated
    | none => pure enumerated
  match sort with
  | some key => s.arrange var key kept
  | none => pure kept

end Scope

end ActorScript
