import ActorScript.Evaluation.Candidates
import ActorScript.Memory

/-!
# The machine that runs statements

A run walks down the tree from a statement to the armed statements under it, one small
`step` at a time. Its configuration is a point of control, a stack of tasks that wait for
a statement to be left, the memory and the world.

All that has to outlive the run is in the memory; the stack is only the way back. A run
that stops for want of budget unwinds its stack, and the next one finds its way down again
by the armed entries and the frames.

Every step that does something follows one order: see that a whole unit of budget is left,
evaluate, pay, and act. A step that is refused or that faults has done nothing.
-/

namespace ActorScript

/-- How far a statement got. -/
inductive Flow where
  /-- It is done, and no longer armed. -/
  | completed
  /-- The budget does not suffice; it stays armed. -/
  | suspended
  /-- A `leaveLoop` is on its way out to the loop. -/
  | leaving (loop : StmtId)
deriving DecidableEq

/-- What a run did in a step that made a difference. -/
inductive Event where
  | decided (id : StmtId) (holds : Bool)
  | assigned (id : StmtId) (target : Name) (value : Value)
  | printed (id : StmtId) (value : Value)
  | commanded (id : StmtId) (command : Command)
  | left (id loop : StmtId)
  | listed (id : StmtId) (candidates : List Value)
  | visited (id : StmtId) (candidate : Value)
  | waited (id : StmtId)
deriving DecidableEq

namespace Machine

/-- What the machine is about to do. -/
inductive Control where
  /-- Come to a statement from above. -/
  | enter (id : StmtId)
  /-- Go on with a loop at the head of a round. -/
  | iterate (id : StmtId)
  /-- Leave a statement. -/
  | leave (flow : Flow)
  /-- Leave a statement that faulted. -/
  | raise (fault : Fault)
deriving DecidableEq

/-- What waits for a statement to be left. -/
inductive Task where
  /-- The rest of a sequence. -/
  | sequence (id : StmtId) (rest : List StmtId)
  /-- The branch of a conditional. -/
  | branch (id : StmtId)
  /-- A round of a loop. -/
  | round (id : StmtId)
deriving DecidableEq

structure Config (W : Type) where
  control : Control
  stack : List Task := []
  memory : Memory
  world : W

/-- A configuration after a step, and what the step did. -/
abbrev Move (W : Type) := Config W × Option Event

namespace Config

variable {W : Type}

/-- The outcome of a run that is over. -/
def outcome? (c : Config W) : Option (Except Fault Flow) :=
  match c.stack, c.control with
  | [], .leave flow => some (.ok flow)
  | [], .raise fault => some (.error fault)
  | _, _ => none

/-- Moves on without having done anything. -/
def goTo (c : Config W) (control : Control) : Config W := { c with control }

/-- Moves on and leaves a task behind. -/
def goInto (c : Config W) (task : Task) (control : Control) : Config W :=
  { c with control, stack := task :: c.stack }

/-- Stops for want of budget. -/
def suspend (c : Config W) : Config W :=
  { c with control := .leave .suspended, memory := c.memory.refuse }

/-- Marks a statement as done and leaves it. -/
def complete? (c : Config W) (id : StmtId) : Option (Config W) :=
  (c.memory.finish? id).map fun memory => { c with control := .leave .completed, memory }

/-- Marks a statement and everything under it as done and leaves it. -/
def completeAll? (c : Config W) (t : Tree) (id : StmtId) : Option (Config W) :=
  (c.memory.disarm? t id).map fun memory =>
    { c with control := .leave .completed, memory }

def payStep (c : Config W) : Config W := { c with memory := c.memory.payStep }

/-- What expressions can see. -/
def scope (c : Config W) (t : Tree) : Scope W :=
  { tree := t
    globals := c.memory.globals
    world := c.world
    subject := c.memory.subject }

/-- Starts a round of a loop: its body runs with the loop as the innermost one. -/
def startRound (c : Config W) (id body : StmtId) : Config W :=
  { c with
    control := .enter body
    stack := .round id :: c.stack
    memory := c.memory.pushLoop id }

/-- Enters the branch that was chosen, or leaves the conditional if there is none. -/
def enterBranch? (c : Config W) (id : StmtId) : Option StmtId → Option (Config W)
  | some branch => some (c.goInto (.branch id) (.enter branch))
  | none => c.complete? id

/--
Tries what a statement does next: if the budget allows it, the evaluation is carried out,
and `proceed` goes on with its result and the generator it left. A fault gives up the
generator along with the evaluation.
-/
def attempt {α : Type} (c : Config W) (allowed : Bool) (evaluation : Evaluation α)
    (proceed : α → Config W → Option (Move W)) : Option (Move W) :=
  if allowed then do
    match ← (evaluation.run c.memory.generator).run with
    | .ok (a, generator) => proceed a { c with memory := { c.memory with generator } }
    | .error fault => some (c.goTo (.raise fault), none)
  else some (c.suspend, none)

/-- Writes a variable; a refusal is a fault. -/
def write (c : Config W) (t : Tree) (target : Name) (value : Value) :
    Except Fault (Config W) :=
  match c.memory.globals.assign target value with
  | .ok globals => .ok { c with memory := { c.memory with globals } }
  | .error .undeclared => .error (.undeclaredTarget (t.names.lookup target))
  | .error (.wrongType declared) =>
      .error (.assignTypeMismatch (t.names.lookup target) declared value.type)

/-- Takes as much of the time owed off the budget as is left of it. -/
def countDown? (c : Config W) (id : StmtId) (owed : Number) : Option (Move W) := do
  let (spent, budget) := c.memory.budget.spend owed
  let c := { c with memory := { c.memory with budget } }
  let left := owed - spent
  if left ≤ .zero then
    return (← c.complete? id, some (.waited id))
  else
    let memory ← c.memory.setFrame? id (.wait left)
    return ({ c with memory }.suspend, none)

variable [World W]

/-- Comes to an armed statement. -/
def visit? (c : Config W) (t : Tree) (id : StmtId) : Stmt → Option (Move W)
  | .sequence body => do
      let children ← t.slice? body
      return (c.goInto (.sequence id children) (.leave .completed), none)
  | .assign target value =>
      c.attempt c.memory.budget.canStep ((c.scope t).evaluate value) fun v c =>
        match c.write t target v with
        | .ok c => do return (← c.payStep.complete? id, some (.assigned id target v))
        | .error fault => some (c.goTo (.raise fault), none)
  | .conditional cond thenBranch elseBranch =>
      match c.memory.progress.frame id with
      | .branch choice => do return (← c.enterBranch? id choice, none)
      | _ =>
          c.attempt c.memory.budget.canStep ((c.scope t).condition "if condition" cond)
            fun holds c => do
              let choice := if holds then some thenBranch else elseBranch
              let memory ← match choice with
                | some branch => c.memory.payStep.arm? t branch
                | none => some c.memory.payStep
              let memory ← memory.setFrame? id (.branch choice)
              return (← { c with memory }.enterBranch? id choice,
                some (.decided id holds))
  | .while .. => some (c.goTo (.iterate id), none)
  | .forEach var selector filter sort _ =>
      match c.memory.progress.frame id with
      | .forEach .. => some (c.goTo (.iterate id), none)
      | _ =>
          c.attempt c.memory.budget.canStep
            ((c.scope t).candidates var selector filter sort)
            fun candidates c => do
              let memory ← c.memory.payStep.setFrame? id (.forEach candidates 0 .fresh)
              return ({ c with memory }.goTo (.iterate id), some (.listed id candidates))
  | .wait duration =>
      match c.memory.progress.frame id with
      | .wait owed => c.countDown? id owed
      | _ =>
          c.attempt c.memory.budget.hasTime ((c.scope t).duration duration) fun time c =>
            c.countDown? id (time.maxNum .zero)
  | .leaveLoop =>
      if c.memory.budget.canStep then
        match c.memory.loops with
        | loop :: _ => do
            let c ← c.payStep.complete? id
            return (c.goTo (.leave (.leaving loop)), some (.left id loop))
        | [] => some (c.goTo (.raise .leaveOutsideLoop), none)
      else some (c.suspend, none)
  | .print value =>
      c.attempt c.memory.budget.canStep ((c.scope t).evaluate value) fun v c => do
        let memory := c.memory.payStep.println v.text
        return (← { c with memory }.complete? id, some (.printed id v))
  | .skip => do return (← c.complete? id, none)
  | .act action =>
      c.attempt c.memory.budget.canStep ((c.scope t).command action) fun command c => do
        let (_, world) := World.command c.world c.memory.subject command
        return (← { c.payStep with world }.complete? id, some (.commanded id command))

/-- Goes on with a loop: checks the condition, visits the next candidate or goes into the
body. -/
def iterate? (c : Config W) (t : Tree) (id : StmtId) : Stmt → Option (Move W)
  | .while cond body =>
      match c.memory.progress.frame id with
      | .while .continuing => some (c.startRound id body, none)
      | _ =>
          c.attempt c.memory.budget.canStep ((c.scope t).condition "while condition" cond)
            fun holds c => do
              let c := c.payStep
              if holds then
                let memory ← c.memory.arm? t body
                let memory ← memory.setFrame? id (.while .continuing)
                return ({ c with memory }.goTo (.iterate id), some (.decided id true))
              else
                return (← c.completeAll? t id, some (.decided id false))
  | .forEach var _ _ _ body =>
      match c.memory.progress.frame id with
      | .forEach candidates index phase =>
          match candidates[index]? with
          | none => do return (← c.completeAll? t id, none)
          | some candidate =>
              match phase with
              | .continuing => some (c.startRound id body, none)
              | .fresh =>
                  if c.memory.budget.canStep then
                    match c.write t var candidate with
                    | .error fault => some (c.goTo (.raise fault), none)
                    | .ok c => do
                        let memory ← c.memory.payStep.arm? t body
                        let memory ← memory.setFrame? id
                          (.forEach candidates index .continuing)
                        return ({ c with memory }.goTo (.iterate id),
                          some (.visited id candidate))
                  else some (c.suspend, none)
      | _ => some (c.goTo (.leave .completed), none)
  | _ => none

/-- The frame of a loop after a round that was completed. -/
def nextRound : Stmt → Frame → Frame
  | .while .., _ => .while .fresh
  | _, .forEach candidates index _ => .forEach candidates (index + 1) .fresh
  | _, frame => frame

/-- Goes on with the task on top of the stack, which is off it already. -/
def resume? (c : Config W) (t : Tree) : Task → Flow → Option (Config W)
  | .sequence id rest, .completed =>
      match rest with
      | [] => c.complete? id
      | child :: rest => some (c.goInto (.sequence id rest) (.enter child))
  | .branch id, .completed => c.complete? id
  | .round id, .completed => do
      let memory := c.memory.popLoop
      let memory ← memory.setFrame? id
        (nextRound (← t.stmt? id) (memory.progress.frame id))
      return { c with memory }.goTo (.iterate id)
  | .round id, .leaving loop =>
      let c := { c with memory := c.memory.popLoop }
      if loop = id then c.completeAll? t id else some c
  | .round _, .suspended => some { c with memory := c.memory.popLoop }
  | _, _ => some c

/-- Passes a fault on past the task on top of the stack, which is off it already. -/
def passFault (c : Config W) : Task → Config W
  | .round _ => { c with memory := c.memory.popLoop }
  | _ => c

/--
One step. There is no next configuration if a position in the tree points nowhere; a run
that is over stays where it is.
-/
def step? (t : Tree) (c : Config W) : Option (Move W) :=
  match c.control, c.stack with
  | .enter id, _ =>
      if c.memory.progress.isArmed id then do c.visit? t id (← t.stmt? id)
      else some (c.goTo (.leave .completed), none)
  | .iterate id, _ => do c.iterate? t id (← t.stmt? id)
  | .leave flow, task :: stack => do return (← { c with stack }.resume? t task flow, none)
  | .raise _, task :: stack => some ({ c with stack }.passFault task, none)
  | _, [] => some (c, none)

end Config

/-- What is left of a run that is over. -/
structure Ending (W : Type) where
  outcome : Except Fault Flow
  memory : Memory
  world : W
  /-- What the run did, in order. -/
  events : List Event

variable {W : Type} [World W]

/-- Takes steps until the run is over, unless that takes more than the limit. -/
def runWithin? (t : Tree) : Nat → List Event → Config W → Option (Ending W)
  | 0, _, _ => none
  | limit + 1, done, c =>
      match c.outcome? with
      | some outcome => some ⟨outcome, c.memory, c.world, done.reverse⟩
      | none => do
          let (next, event) ← c.step? t
          runWithin? t limit (event.toList ++ done) next

/-- Runs a statement until it completes, has to stop, or faults. -/
def execute? (t : Tree) (limit : Nat) (id : StmtId) (m : Memory) (w : W) :
    Option (Ending W) :=
  runWithin? t limit [] { control := .enter id, memory := m, world := w }

end Machine

end ActorScript
