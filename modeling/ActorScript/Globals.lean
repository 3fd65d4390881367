import ActorScript.Keyed
import ActorScript.Names
import ActorScript.Value

/-!
# Global variables

Every variable is declared with a type and starts with the initial value of that type. A
write of another type, or to a name without declaration, is refused and changes nothing.
-/

namespace ActorScript

/-- A declared variable. -/
structure Slot where
  type : ValueType
  value : Value
deriving DecidableEq

/-- Why a write is refused. -/
inductive AssignRefusal where
  | undeclared
  | wrongType (declared : ValueType)
deriving DecidableEq

/-- The variables of a script, each name once, by ascending name. -/
structure Globals where
  slots : List (Name × Slot) := []
deriving DecidableEq, Inhabited

namespace Globals

/-- Adds a variable with the initial value of its type. -/
def declare (g : Globals) (name : Name) (type : ValueType) : Globals :=
  ⟨Keyed.insert name ⟨type, type.initial⟩ g.slots⟩

/-- The declared variables; of two declarations of a name the later one counts. -/
def ofDeclarations (declarations : List (Name × ValueType)) : Globals :=
  declarations.foldl (fun g (name, type) => g.declare name type) {}

def slot? (g : Globals) (name : Name) : Option Slot := g.slots.lookup name

def get? (g : Globals) (name : Name) : Option Value := (g.slot? name).map Slot.value

def type? (g : Globals) (name : Name) : Option ValueType := (g.slot? name).map Slot.type

/-- Writes a variable. -/
def assign (g : Globals) (name : Name) (value : Value) : Except AssignRefusal Globals :=
  match g.slot? name with
  | none => .error .undeclared
  | some slot =>
      if slot.type = value.type then .ok ⟨Keyed.insert name { slot with value } g.slots⟩
      else .error (.wrongType slot.type)

/-- All variables with their values, by ascending name. -/
def toList (g : Globals) : List (Name × Value) :=
  g.slots.map fun (name, slot) => (name, slot.value)

end Globals

end ActorScript
