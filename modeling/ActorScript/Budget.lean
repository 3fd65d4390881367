import ActorScript.Number

/-!
# Budgets

A tick comes with an amount of work. Every step of a statement costs one whole unit, and
is refused if less is left. Waiting takes the amount as time and spends any part of it.
-/

namespace ActorScript

structure Budget where
  remaining : Number := .zero
  /-- Whether something was refused for want of budget. -/
  exhausted : Bool := false
deriving DecidableEq, Inhabited

namespace Budget

/-- The budget of a new tick. Only a positive amount grants anything. -/
def grant (amount : Number) : Budget :=
  { remaining := if .zero < amount then amount else .zero }

/-- Whether a whole step can be paid for. -/
def canStep (b : Budget) : Bool := .one ≤ b.remaining

/-- Whether there is any time left. -/
def hasTime (b : Budget) : Bool := .zero < b.remaining

/-- The budget after something was refused. -/
def refuse (b : Budget) : Budget := { b with exhausted := true }

/-- Takes off the price of a step. -/
def payStep (b : Budget) : Budget := { b with remaining := b.remaining - .one }

/-- Spends as much of a time as is left; returns the time spent. -/
def spend (b : Budget) (time : Number) : Number × Budget :=
  let spent := (time.minNum b.remaining).maxNum .zero
  (spent, { b with remaining := b.remaining - spent })

end Budget

end ActorScript
