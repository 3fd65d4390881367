import ActorScript.Machine
import ActorScript.Tree.Validity

/-!
# Programs

A program is a valid script bound to the actor that it drives. It runs in ticks:
`Program.advance?` gives it a budget and lets it run until it is done, has to stop for
want of budget, or faults. A fatal fault halts it for good; after a transient fault it
goes on at the same statement in the next tick.
-/

namespace ActorScript

structure Program where
  tree : Tree
  root : StmtId
  memory : Memory
  /-- The fault that halted the program. -/
  fault : Option Fault := none
  /-- The latest transient fault. -/
  lastTransient : Option Fault := none

/-- What a tick makes of a program and its world. -/
structure Tick (W : Type) where
  program : Program
  world : W
  /-- What the program did, in order. -/
  events : List Event

namespace Program

/-- The seed of a program that is given none. -/
def defaultSeed : UInt64 := 0xCAFE00

/-- How a program is set up. -/
structure Settings where
  seed : UInt64 := defaultSeed
  /-- Whether to keep counts. -/
  tallied : Bool := false
  sink : Sink := .buffer

/-- A program at its start: its tree is valid, and the root is armed. -/
def start (t : Tree) (subject : ActorId) (settings : Settings := {}) :
    Except TreeError Program := do
  let root ← t.validate
  let m := Memory.initial t subject settings.seed
  let some m := m.arm? t root | .error (.missingStmt root)
  return {
    tree := t
    root
    memory := {
      m with
      output := { sink := settings.sink }
      tally := if settings.tallied then some {} else none } }

/-- Whether a fatal fault has stopped the program. -/
def isHalted (p : Program) : Bool := p.memory.halted

/-- Whether the root is done. -/
def isFinished (p : Program) : Bool := !p.memory.progress.isArmed p.root

/-- Stops a program for good. -/
def halt (p : Program) (fault : Fault) : Program :=
  { p with memory := p.memory.halt, fault := some fault }

/-- A program after a run, of which it takes over the memory. -/
def settle (p : Program) (outcome : Except Fault Flow) (m : Memory) : Program :=
  let p := { p with memory := m }
  match outcome with
  | .ok .completed => p
  | .ok .suspended => { p with memory := m.countSuspension }
  | .ok (.leaving _) => p.halt .leaveOutsideLoop
  | .error fault =>
      if fault.isFatal then p.halt fault
      else { p with memory := m.countTransientFault, lastTransient := some fault }

/--
Runs a program for one tick, in at most `limit` small steps of the machine. A program that
is done or halted ignores it.
-/
def advance? {W : Type} [World W] (limit : Nat) (p : Program) (w : W) (budget : Number) :
    Option (Tick W) :=
  if p.isHalted || p.isFinished then some ⟨p, w, []⟩
  else do
    let m := (p.memory.replenish budget).countTick
    let ending ← Machine.execute? p.tree limit p.root m w
    return ⟨p.settle ending.outcome ending.memory, ending.world, ending.events⟩

/-- A limit on the steps of a tick that no tick lives to see. -/
def ample : Nat := 0x4000000000000000

/-! ## Looking at programs -/

/-- The value of a variable. -/
def global? (p : Program) (name : Name) : Option Value := p.memory.globals.get? name

/-- The value of the variable with a name in the script. -/
def globalNamed? (p : Program) (s : String) : Option Value :=
  p.tree.names.get? s >>= p.global?

/-- All variables with their values, in the order in which their names came up. -/
def globals (p : Program) : List (String × Value) :=
  p.memory.globals.toList.map fun (name, value) => (p.tree.names.lookup name, value)

end Program

end ActorScript
