import ActorScript.Budget
import ActorScript.Generator
import ActorScript.Globals
import ActorScript.Output
import ActorScript.Progress
import ActorScript.Tally

/-!
# Memory

Everything that changes while a script runs, the world apart.
-/

namespace ActorScript

structure Memory where
  /-- The actor that the script drives. -/
  subject : ActorId
  generator : Generator
  globals : Globals := {}
  progress : Progress
  output : Output := {}
  budget : Budget := {}
  /-- The loops around the statement at work, the innermost first. -/
  loops : List StmtId := []
  /-- Counts, if they are wanted. -/
  tally : Option Tally := none
  /-- Set by a fatal fault. -/
  halted : Bool := false

namespace Memory

/-- The memory of a script that is about to start, with nothing armed. -/
def initial (t : Tree) (subject : ActorId) (seed : UInt64) : Memory :=
  { subject
    generator := .ofSeed seed
    globals := .ofDeclarations t.globals.toList
    progress := .idle t.stmts.size }

/-- Opens a tick. What is left of the budget of the last one is lost. -/
def replenish (m : Memory) (amount : Number) : Memory :=
  { m with budget := .grant amount, loops := [] }

/-- Notes that something was refused for want of budget. -/
def refuse (m : Memory) : Memory := { m with budget := m.budget.refuse }

/-- Pays for a step. -/
def payStep (m : Memory) : Memory :=
  { m with budget := m.budget.payStep, tally := m.tally.map Tally.countStep }

def pushLoop (m : Memory) (id : StmtId) : Memory := { m with loops := id :: m.loops }

def popLoop (m : Memory) : Memory := { m with loops := m.loops.tail }

def countTick (m : Memory) : Memory := { m with tally := m.tally.map Tally.countTick }

def countSuspension (m : Memory) : Memory :=
  { m with tally := m.tally.map Tally.countSuspension }

def countTransientFault (m : Memory) : Memory :=
  { m with tally := m.tally.map Tally.countTransientFault }

def countLine (m : Memory) : Memory := { m with tally := m.tally.map Tally.countLine }

/-- Prints a line and counts it. -/
def println (m : Memory) (line : String) : Memory :=
  { m with output := m.output.println line }.countLine

def halt (m : Memory) : Memory := { m with halted := true }

def setFrame? (m : Memory) (id : StmtId) (frame : Frame) : Option Memory :=
  (m.progress.setFrame? id frame).map fun progress => { m with progress }

def finish? (m : Memory) (id : StmtId) : Option Memory :=
  (m.progress.finish? id).map fun progress => { m with progress }

def arm? (m : Memory) (t : Tree) (id : StmtId) : Option Memory :=
  (m.progress.arm? t id).map fun progress => { m with progress }

def disarm? (m : Memory) (t : Tree) (id : StmtId) : Option Memory :=
  (m.progress.disarm? t id).map fun progress => { m with progress }

end Memory

end ActorScript
