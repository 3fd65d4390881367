import ActorScript.Machine
import ActorScript.Proofs.Table

/-!
# The machine by rules

`Config.step?` is one function over all statements, frames and tasks.  Here it
is taken apart into rules, sorted by what they have to do with the budget:

* `Quiet` — moves that neither look at the budget nor leave an event: the way
  down to the statement at hand, and the way back;
* `Deed` — moves that are paid for with a step, each with its event;
* `Faulty` — points at which a step that is paid for would fault;
* the moves of a `wait`, which takes time instead of steps.

`step?_eq_some_iff` says that the rules are all of the machine.  Proofs about
runs go by cases over the rules and do not open `step?` again.
-/

namespace ActorScript

/-- The evaluation has the value `a` and leaves the generator `g'`. -/
def Evaluation.Yields {α : Type} (ev : Evaluation α) (g : Generator) (a : α)
    (g' : Generator) : Prop :=
  (ev.run g).run = some (.ok (a, g'))

/-- The evaluation faults, and no generator is left of it. -/
def Evaluation.Fails {α : Type} (ev : Evaluation α) (g : Generator) (f : Fault) : Prop :=
  (ev.run g).run = some (.error f)

namespace Machine

/-- The loop whose round a task stands for. -/
def Task.loop? : Task → Option StmtId
  | .round id => some id
  | _ => none

namespace Config

variable {W : Type}

/-- The run has come to a statement that has work to do. -/
structure At (t : Tree) (c : Config W) (id : StmtId) (s : Stmt) : Prop where
  control : c.control = .enter id
  armed : c.memory.progress.isArmed id = true
  stmt : t.stmt? id = some s

/-- The run goes on with a loop at the head of a round. -/
structure AtHead (t : Tree) (c : Config W) (id : StmtId) (s : Stmt) : Prop where
  control : c.control = .iterate id
  stmt : t.stmt? id = some s

/-- Leaves a task behind and takes its loop off the loops at work. -/
def unwound (c : Config W) (task : Task) (stack : List Task) : Config W :=
  { c with
    stack
    memory := { c.memory with
      loops := if task.loop?.isSome then c.memory.loops.tail else c.memory.loops } }

/-- Leaves a statement whose entry in the table is now that of `p`. -/
def done (c : Config W) (p : Progress) : Config W :=
  { c with control := .leave .completed, memory := { c.memory with progress := p } }

/-- Goes on with a loop, on another table. -/
def again (c : Config W) (id : StmtId) (p : Progress) : Config W :=
  { c with control := .iterate id, memory := { c.memory with progress := p } }

/-- The configuration with the generator that an evaluation left. -/
def drawn (c : Config W) (g : Generator) : Config W :=
  { c with memory := { c.memory with generator := g } }

/-- The configuration after a write to the variables. -/
def written (c : Config W) (globals : Globals) : Config W :=
  { c with memory := { c.memory with globals } }

/-- The configuration after some time has been spent. -/
def spent (c : Config W) (owed : Number) : Config W :=
  { c with memory := { c.memory with budget := (c.memory.budget.spend owed).2 } }

/-- The time that is still owed after some of it has been spent. -/
def left (c : Config W) (owed : Number) : Number :=
  owed - (c.memory.budget.spend owed).1

@[simp] theorem drawn_progress (c : Config W) (g : Generator) :
    (c.drawn g).memory.progress = c.memory.progress := rfl

@[simp] theorem drawn_globals (c : Config W) (g : Generator) :
    (c.drawn g).memory.globals = c.memory.globals := rfl

@[simp] theorem drawn_left (c : Config W) (g : Generator) (owed : Number) :
    (c.drawn g).left owed = c.left owed := rfl

/-! ## The parts of a step -/

/-- The fault of a refused write. -/
def refusal (t : Tree) (target : Name) (v : Value) : AssignRefusal → Fault
  | .undeclared => .undeclaredTarget (t.names.lookup target)
  | .wrongType declared => .assignTypeMismatch (t.names.lookup target) declared v.type

/-- What an attempt comes to: a refusal, a fault, or the move after it. -/
theorem attempt_eq_some {α : Type} {c c' : Config W} {e : Option Event} {allowed : Bool}
    {ev : Evaluation α} {proceed : α → Config W → Option (Move W)}
    (h : c.attempt allowed ev proceed = some (c', e)) :
    (allowed = false ∧ c' = c.suspend ∧ e = none) ∨
    (allowed = true ∧ ∃ f, ev.Fails c.memory.generator f ∧
      c' = c.goTo (.raise f) ∧ e = none) ∨
    (allowed = true ∧ ∃ a g, ev.Yields c.memory.generator a g ∧
      proceed a (c.drawn g) = some (c', e)) := by
  unfold attempt at h
  cases allowed with
  | false =>
      cases h
      exact .inl ⟨rfl, rfl, rfl⟩
  | true =>
      simp only [↓reduceIte, Option.bind_eq_bind, Option.bind_eq_some_iff] at h
      obtain ⟨outcome, hrun, h⟩ := h
      cases outcome with
      | error f =>
          cases h
          exact .inr (.inl ⟨rfl, f, hrun, rfl, rfl⟩)
      | ok result => exact .inr (.inr ⟨rfl, result.1, result.2, hrun, h⟩)

/-- An attempt that is allowed and whose evaluation succeeds goes on. -/
theorem attempt_of_yields {α : Type} {c : Config W} {allowed : Bool} {ev : Evaluation α}
    {proceed : α → Config W → Option (Move W)} {a : α} {g : Generator}
    (hb : allowed = true) (hv : ev.Yields c.memory.generator a g) :
    c.attempt allowed ev proceed = proceed a (c.drawn g) := by
  unfold Evaluation.Yields at hv
  simp [attempt, hb, hv, drawn]

theorem attempt_of_fails {α : Type} {c : Config W} {allowed : Bool} {ev : Evaluation α}
    {proceed : α → Config W → Option (Move W)} {f : Fault}
    (hb : allowed = true) (hv : ev.Fails c.memory.generator f) :
    c.attempt allowed ev proceed = some (c.goTo (.raise f), none) := by
  unfold Evaluation.Fails at hv
  simp [attempt, hb, hv]

theorem attempt_of_refused {α : Type} {c : Config W} {allowed : Bool} {ev : Evaluation α}
    {proceed : α → Config W → Option (Move W)} (hb : allowed = false) :
    c.attempt allowed ev proceed = some (c.suspend, none) := by
  simp [attempt, hb]

/-- What a write comes to. -/
theorem write_eq {c : Config W} {t : Tree} {target : Name} {v : Value} :
    c.write t target v =
      match c.memory.globals.assign target v with
      | .ok globals => .ok (c.written globals)
      | .error r => .error (refusal t target v r) := by
  unfold write
  cases c.memory.globals.assign target v with
  | ok globals => rfl
  | error r => cases r <;> rfl

theorem complete?_eq {c : Config W} {id : StmtId} :
    c.complete? id = (c.memory.progress.finish? id).map c.done := by
  unfold complete? Memory.finish?
  cases c.memory.progress.finish? id <;> rfl

theorem completeAll?_eq {c : Config W} {t : Tree} {id : StmtId} :
    c.completeAll? t id = (c.memory.progress.disarm? t id).map c.done := by
  unfold completeAll? Memory.disarm?
  cases c.memory.progress.disarm? t id <;> rfl

/-- What a countdown comes to. -/
theorem countDown?_eq {c : Config W} {id : StmtId} {owed : Number} :
    c.countDown? id owed =
      if c.left owed ≤ .zero then
        (c.memory.progress.finish? id).map fun p =>
          ((c.spent owed).done p, some (.waited id))
      else
        (c.memory.progress.setFrame? id (.wait (c.left owed))).map fun p =>
          (((c.spent owed).done p).suspend, none) := by
  have hopen : c.countDown? id owed =
      if c.left owed ≤ .zero then
        ((c.spent owed).complete? id).bind fun c => some (c, some (.waited id))
      else
        ((c.spent owed).memory.setFrame? id (.wait (c.left owed))).bind fun m =>
          some ({ c.spent owed with memory := m }.suspend, none) := rfl
  rw [hopen, complete?_eq]
  unfold Memory.setFrame?
  split
  · cases hp : c.memory.progress.finish? id <;> simp [spent, hp]
  · cases hp : c.memory.progress.setFrame? id (.wait (c.left owed)) with
    | none => simp [spent, hp]
    | some p => simp [spent, hp, done, suspend]

/-! ## The rules -/

/-- A task passes on every flow but the ones that it waits for. -/
inductive Passes : Task → Flow → Prop
  | suspended (task : Task) : Passes task .suspended
  | sequence (id : StmtId) (rest : List StmtId) (loop : StmtId) :
      Passes (.sequence id rest) (.leaving loop)
  | branch (id loop : StmtId) : Passes (.branch id) (.leaving loop)
  | round {id loop : StmtId} (h : loop ≠ id) : Passes (.round id) (.leaving loop)

/-- Moves that neither look at the budget nor leave an event. -/
inductive Quiet (t : Tree) : Config W → Config W → Prop
  | pass {c : Config W} {id : StmtId} (hc : c.control = .enter id)
      (ha : c.memory.progress.isArmed id = false) :
      Quiet t c (c.goTo (.leave .completed))
  | sequence {c : Config W} {id : StmtId} {body : Slice} {cs : List StmtId}
      (h : c.At t id (.sequence body)) (hcs : t.slice? body = some cs) :
      Quiet t c (c.goInto (.sequence id cs) (.leave .completed))
  | branch {c : Config W} {id b : StmtId} {cond : ExprId} {th : StmtId}
      {el : Option StmtId} (h : c.At t id (.conditional cond th el))
      (hf : c.memory.progress.frame id = .branch (some b)) :
      Quiet t c (c.goInto (.branch id) (.enter b))
  | noBranch {c : Config W} {id : StmtId} {cond : ExprId} {th : StmtId}
      {el : Option StmtId} {p : Progress} (h : c.At t id (.conditional cond th el))
      (hf : c.memory.progress.frame id = .branch none)
      (hp : c.memory.progress.finish? id = some p) :
      Quiet t c (c.done p)
  | while {c : Config W} {id : StmtId} {cond : ExprId} {body : StmtId}
      (h : c.At t id (.while cond body)) :
      Quiet t c (c.goTo (.iterate id))
  | forEach {c : Config W} {id : StmtId} {var : Name} {sel : Selector}
      {filter : Option ExprId} {sort : Option SortKey} {body : StmtId}
      {candidates : List Value} {index : Nat} {phase : Phase}
      (h : c.At t id (.forEach var sel filter sort body))
      (hf : c.memory.progress.frame id = .forEach candidates index phase) :
      Quiet t c (c.goTo (.iterate id))
  | skip {c : Config W} {id : StmtId} {p : Progress} (h : c.At t id .skip)
      (hp : c.memory.progress.finish? id = some p) :
      Quiet t c (c.done p)
  | whileRound {c : Config W} {id : StmtId} {cond : ExprId} {body : StmtId}
      (h : c.AtHead t id (.while cond body))
      (hf : c.memory.progress.frame id = .while .continuing) :
      Quiet t c (c.startRound id body)
  | forEachRound {c : Config W} {id : StmtId} {var : Name} {sel : Selector}
      {filter : Option ExprId} {sort : Option SortKey} {body : StmtId}
      {candidates : List Value} {index : Nat} {candidate : Value}
      (h : c.AtHead t id (.forEach var sel filter sort body))
      (hf : c.memory.progress.frame id = .forEach candidates index .continuing)
      (hi : candidates[index]? = some candidate) :
      Quiet t c (c.startRound id body)
  | exhausted {c : Config W} {id : StmtId} {var : Name} {sel : Selector}
      {filter : Option ExprId} {sort : Option SortKey} {body : StmtId}
      {candidates : List Value} {index : Nat} {phase : Phase} {p : Progress}
      (h : c.AtHead t id (.forEach var sel filter sort body))
      (hf : c.memory.progress.frame id = .forEach candidates index phase)
      (hi : candidates[index]? = none)
      (hp : c.memory.progress.disarm? t id = some p) :
      Quiet t c (c.done p)
  | unlisted {c : Config W} {id : StmtId} {var : Name} {sel : Selector}
      {filter : Option ExprId} {sort : Option SortKey} {body : StmtId}
      (h : c.AtHead t id (.forEach var sel filter sort body))
      (hf : ∀ candidates index phase,
        c.memory.progress.frame id ≠ .forEach candidates index phase) :
      Quiet t c (c.goTo (.leave .completed))
  | next {c : Config W} {id child : StmtId} {rest : List StmtId} {k : List Task}
      (hc : c.control = .leave .completed)
      (hk : c.stack = .sequence id (child :: rest) :: k) :
      Quiet t c { c with control := .enter child, stack := .sequence id rest :: k }
  | sequenceEnd {c : Config W} {id : StmtId} {k : List Task} {p : Progress}
      (hc : c.control = .leave .completed) (hk : c.stack = .sequence id [] :: k)
      (hp : c.memory.progress.finish? id = some p) :
      Quiet t c ((c.unwound (.sequence id []) k).done p)
  | branchEnd {c : Config W} {id : StmtId} {k : List Task} {p : Progress}
      (hc : c.control = .leave .completed) (hk : c.stack = .branch id :: k)
      (hp : c.memory.progress.finish? id = some p) :
      Quiet t c ((c.unwound (.branch id) k).done p)
  | roundEnd {c : Config W} {id : StmtId} {s : Stmt} {k : List Task} {p : Progress}
      (hc : c.control = .leave .completed) (hk : c.stack = .round id :: k)
      (hs : t.stmt? id = some s)
      (hp : c.memory.progress.setFrame? id
        (nextRound s (c.memory.progress.frame id)) = some p) :
      Quiet t c ((c.unwound (.round id) k).again id p)
  | broken {c : Config W} {id : StmtId} {k : List Task} {p : Progress}
      (hc : c.control = .leave (.leaving id)) (hk : c.stack = .round id :: k)
      (hp : c.memory.progress.disarm? t id = some p) :
      Quiet t c ((c.unwound (.round id) k).done p)
  | unwind {c : Config W} {flow : Flow} {task : Task} {k : List Task}
      (hc : c.control = .leave flow) (hk : c.stack = task :: k)
      (h : Passes task flow) :
      Quiet t c (c.unwound task k)
  | passFault {c : Config W} {f : Fault} {task : Task} {k : List Task}
      (hc : c.control = .raise f) (hk : c.stack = task :: k) :
      Quiet t c (c.unwound task k)
  | ended {c : Config W} {outcome : Except Fault Flow} (h : c.outcome? = some outcome) :
      Quiet t c c

/-- Points at which the machine has to pay for a step to go on. -/
inductive Costs (t : Tree) (c : Config W) : Prop
  | assign {id : StmtId} {target : Name} {value : ExprId}
      (h : c.At t id (.assign target value))
  | print {id : StmtId} {value : ExprId} (h : c.At t id (.print value))
  | act {id : StmtId} {action : Action ExprId} (h : c.At t id (.act action))
  | leaveLoop {id : StmtId} (h : c.At t id .leaveLoop)
  | choose {id : StmtId} {cond : ExprId} {th : StmtId} {el : Option StmtId}
      (h : c.At t id (.conditional cond th el))
      (hf : ∀ choice, c.memory.progress.frame id ≠ .branch choice)
  | list {id : StmtId} {var : Name} {sel : Selector} {filter : Option ExprId}
      {sort : Option SortKey} {body : StmtId}
      (h : c.At t id (.forEach var sel filter sort body))
      (hf : ∀ candidates index phase,
        c.memory.progress.frame id ≠ .forEach candidates index phase)
  | check {id : StmtId} {cond : ExprId} {body : StmtId}
      (h : c.AtHead t id (.while cond body))
      (hf : c.memory.progress.frame id ≠ .while .continuing)
  | visit {id : StmtId} {var : Name} {sel : Selector} {filter : Option ExprId}
      {sort : Option SortKey} {body : StmtId} {candidates : List Value} {index : Nat}
      {candidate : Value}
      (h : c.AtHead t id (.forEach var sel filter sort body))
      (hf : c.memory.progress.frame id = .forEach candidates index .fresh)
      (hi : candidates[index]? = some candidate)

section World

variable [World W]

/-- Moves that are paid for with a step, with what they do.  The budget is that
of `c` less the step. -/
inductive Deed (t : Tree) : Config W → Event → Config W → Prop
  | assign {c : Config W} {id : StmtId} {target : Name} {value : ExprId} {v : Value}
      {g : Generator} {globals : Globals} {p : Progress}
      (h : c.At t id (.assign target value))
      (hv : ((c.scope t).evaluate value).Yields c.memory.generator v g)
      (hg : c.memory.globals.assign target v = .ok globals)
      (hp : c.memory.progress.finish? id = some p) :
      Deed t c (.assigned id target v) (((c.drawn g).written globals).payStep.done p)
  | print {c : Config W} {id : StmtId} {value : ExprId} {v : Value} {g : Generator}
      {p : Progress} (h : c.At t id (.print value))
      (hv : ((c.scope t).evaluate value).Yields c.memory.generator v g)
      (hp : c.memory.progress.finish? id = some p) :
      Deed t c (.printed id v)
        ({ c.drawn g with memory := (c.drawn g).memory.payStep.println v.text }.done p)
  | act {c : Config W} {id : StmtId} {action : Action ExprId} {command : Command}
      {g : Generator} {p : Progress} (h : c.At t id (.act action))
      (hv : ((c.scope t).command action).Yields c.memory.generator command g)
      (hp : c.memory.progress.finish? id = some p) :
      Deed t c (.commanded id command)
        ({ (c.drawn g).payStep with
          world := (World.command c.world c.memory.subject command).2 }.done p)
  | leaveLoop {c : Config W} {id loop : StmtId} {ls : List StmtId} {p : Progress}
      (h : c.At t id .leaveLoop) (hl : c.memory.loops = loop :: ls)
      (hp : c.memory.progress.finish? id = some p) :
      Deed t c (.left id loop) ((c.payStep.done p).goTo (.leave (.leaving loop)))
  | choose {c : Config W} {id b : StmtId} {cond : ExprId} {th : StmtId}
      {el : Option StmtId} {holds : Bool} {g : Generator} {p₁ p : Progress}
      (h : c.At t id (.conditional cond th el))
      (hf : ∀ choice, c.memory.progress.frame id ≠ .branch choice)
      (hv : ((c.scope t).condition "if condition" cond).Yields c.memory.generator holds g)
      (hb : (if holds then some th else el) = some b)
      (hp₁ : c.memory.progress.arm? t b = some p₁)
      (hp : p₁.setFrame? id (.branch (some b)) = some p) :
      Deed t c (.decided id holds)
        (((c.drawn g).payStep.done p).goInto (.branch id) (.enter b))
  | chooseNone {c : Config W} {id : StmtId} {cond : ExprId} {th : StmtId}
      {el : Option StmtId} {holds : Bool} {g : Generator} {p₁ p : Progress}
      (h : c.At t id (.conditional cond th el))
      (hf : ∀ choice, c.memory.progress.frame id ≠ .branch choice)
      (hv : ((c.scope t).condition "if condition" cond).Yields c.memory.generator holds g)
      (hb : (if holds then some th else el) = none)
      (hp₁ : c.memory.progress.setFrame? id (.branch none) = some p₁)
      (hp : p₁.finish? id = some p) :
      Deed t c (.decided id holds) ((c.drawn g).payStep.done p)
  | list {c : Config W} {id : StmtId} {var : Name} {sel : Selector}
      {filter : Option ExprId} {sort : Option SortKey} {body : StmtId}
      {candidates : List Value} {g : Generator} {p : Progress}
      (h : c.At t id (.forEach var sel filter sort body))
      (hf : ∀ candidates index phase,
        c.memory.progress.frame id ≠ .forEach candidates index phase)
      (hv : ((c.scope t).candidates var sel filter sort).Yields c.memory.generator
        candidates g)
      (hp : c.memory.progress.setFrame? id (.forEach candidates 0 .fresh) = some p) :
      Deed t c (.listed id candidates) ((c.drawn g).payStep.again id p)
  | check {c : Config W} {id : StmtId} {cond : ExprId} {body : StmtId} {g : Generator}
      {p₁ p : Progress} (h : c.AtHead t id (.while cond body))
      (hf : c.memory.progress.frame id ≠ .while .continuing)
      (hv : ((c.scope t).condition "while condition" cond).Yields
        c.memory.generator true g)
      (hp₁ : c.memory.progress.arm? t body = some p₁)
      (hp : p₁.setFrame? id (.while .continuing) = some p) :
      Deed t c (.decided id true) ((c.drawn g).payStep.again id p)
  | stop {c : Config W} {id : StmtId} {cond : ExprId} {body : StmtId} {g : Generator}
      {p : Progress} (h : c.AtHead t id (.while cond body))
      (hf : c.memory.progress.frame id ≠ .while .continuing)
      (hv : ((c.scope t).condition "while condition" cond).Yields
        c.memory.generator false g)
      (hp : c.memory.progress.disarm? t id = some p) :
      Deed t c (.decided id false) ((c.drawn g).payStep.done p)
  | visit {c : Config W} {id : StmtId} {var : Name} {sel : Selector}
      {filter : Option ExprId} {sort : Option SortKey} {body : StmtId}
      {candidates : List Value} {index : Nat} {candidate : Value} {globals : Globals}
      {p₁ p : Progress} (h : c.AtHead t id (.forEach var sel filter sort body))
      (hf : c.memory.progress.frame id = .forEach candidates index .fresh)
      (hi : candidates[index]? = some candidate)
      (hg : c.memory.globals.assign var candidate = .ok globals)
      (hp₁ : c.memory.progress.arm? t body = some p₁)
      (hp : p₁.setFrame? id (.forEach candidates index .continuing) = some p) :
      Deed t c (.visited id candidate) ((c.written globals).payStep.again id p)

/-- Points at which a step that could be paid for faults.  The generator is the
one that the fault leaves: a refused write does not take the draws back. -/
inductive Faulty (t : Tree) (c : Config W) : Fault → Generator → Prop
  | assign {id : StmtId} {target : Name} {value : ExprId} {f : Fault}
      (h : c.At t id (.assign target value))
      (hv : ((c.scope t).evaluate value).Fails c.memory.generator f) :
      Faulty t c f c.memory.generator
  | write {id : StmtId} {target : Name} {value : ExprId} {v : Value} {g : Generator}
      {r : AssignRefusal} (h : c.At t id (.assign target value))
      (hv : ((c.scope t).evaluate value).Yields c.memory.generator v g)
      (hr : c.memory.globals.assign target v = .error r) :
      Faulty t c (refusal t target v r) g
  | print {id : StmtId} {value : ExprId} {f : Fault} (h : c.At t id (.print value))
      (hv : ((c.scope t).evaluate value).Fails c.memory.generator f) :
      Faulty t c f c.memory.generator
  | act {id : StmtId} {action : Action ExprId} {f : Fault} (h : c.At t id (.act action))
      (hv : ((c.scope t).command action).Fails c.memory.generator f) :
      Faulty t c f c.memory.generator
  | leaveLoop {id : StmtId} (h : c.At t id .leaveLoop) (hl : c.memory.loops = []) :
      Faulty t c .leaveOutsideLoop c.memory.generator
  | choose {id : StmtId} {cond : ExprId} {th : StmtId} {el : Option StmtId} {f : Fault}
      (h : c.At t id (.conditional cond th el))
      (hf : ∀ choice, c.memory.progress.frame id ≠ .branch choice)
      (hv : ((c.scope t).condition "if condition" cond).Fails c.memory.generator f) :
      Faulty t c f c.memory.generator
  | list {id : StmtId} {var : Name} {sel : Selector} {filter : Option ExprId}
      {sort : Option SortKey} {body : StmtId} {f : Fault}
      (h : c.At t id (.forEach var sel filter sort body))
      (hf : ∀ candidates index phase,
        c.memory.progress.frame id ≠ .forEach candidates index phase)
      (hv : ((c.scope t).candidates var sel filter sort).Fails c.memory.generator f) :
      Faulty t c f c.memory.generator
  | check {id : StmtId} {cond : ExprId} {body : StmtId} {f : Fault}
      (h : c.AtHead t id (.while cond body))
      (hf : c.memory.progress.frame id ≠ .while .continuing)
      (hv : ((c.scope t).condition "while condition" cond).Fails c.memory.generator f) :
      Faulty t c f c.memory.generator
  | visit {id : StmtId} {var : Name} {sel : Selector} {filter : Option ExprId}
      {sort : Option SortKey} {body : StmtId} {candidates : List Value} {index : Nat}
      {candidate : Value} {r : AssignRefusal}
      (h : c.AtHead t id (.forEach var sel filter sort body))
      (hf : c.memory.progress.frame id = .forEach candidates index .fresh)
      (hi : candidates[index]? = some candidate)
      (hr : c.memory.globals.assign var candidate = .error r) :
      Faulty t c (refusal t var candidate r) c.memory.generator

/-- A `wait` that has not worked out its time yet. -/
structure Unready (t : Tree) (c : Config W) (id : StmtId) (duration : ExprId) : Prop where
  at_ : c.At t id (.wait duration)
  frame : ∀ owed, c.memory.progress.frame id ≠ .wait owed

/-- The time that the `wait` at hand owes, and the generator after it has been
worked out. -/
inductive Owes (t : Tree) (c : Config W) (id : StmtId) : Number → Generator → Prop
  | first {duration : ExprId} {time : Number} {g : Generator}
      (h : c.Unready t id duration) (hb : c.memory.budget.hasTime = true)
      (hv : ((c.scope t).duration duration).Yields c.memory.generator time g) :
      Owes t c id (time.maxNum .zero) g
  | again {duration : ExprId} {owed : Number} (h : c.At t id (.wait duration))
      (hf : c.memory.progress.frame id = .wait owed) :
      Owes t c id owed c.memory.generator

/-- The moves of the machine. -/
inductive Step (t : Tree) : Config W → Option Event → Config W → Prop
  | quiet {c c' : Config W} (h : Quiet t c c') : Step t c none c'
  | deed {c c' : Config W} {e : Event} (hb : c.memory.budget.canStep = true)
      (h : Deed t c e c') : Step t c (some e) c'
  | faulted {c : Config W} {f : Fault} {g : Generator}
      (hb : c.memory.budget.canStep = true) (h : Faulty t c f g) :
      Step t c none ((c.drawn g).goTo (.raise f))
  | refused {c : Config W} (hb : c.memory.budget.canStep = false) (h : Costs t c) :
      Step t c none c.suspend
  | waitRefused {c : Config W} {id : StmtId} {duration : ExprId}
      (hb : c.memory.budget.hasTime = false) (h : c.Unready t id duration) :
      Step t c none c.suspend
  | waitFaulted {c : Config W} {id : StmtId} {duration : ExprId} {f : Fault}
      (hb : c.memory.budget.hasTime = true) (h : c.Unready t id duration)
      (hv : ((c.scope t).duration duration).Fails c.memory.generator f) :
      Step t c none (c.goTo (.raise f))
  | waited {c : Config W} {id : StmtId} {owed : Number} {g : Generator} {p : Progress}
      (h : c.Owes t id owed g) (hl : c.left owed ≤ .zero)
      (hp : c.memory.progress.finish? id = some p) :
      Step t c (some (.waited id)) (((c.drawn g).spent owed).done p)
  | waiting {c : Config W} {id : StmtId} {owed : Number} {g : Generator} {p : Progress}
      (h : c.Owes t id owed g) (hl : ¬ c.left owed ≤ .zero)
      (hp : c.memory.progress.setFrame? id (.wait (c.left owed)) = some p) :
      Step t c none (((c.drawn g).spent owed).done p).suspend

/-! ## The rules are the machine -/

section Steps

variable {t : Tree} {c c' : Config W} {e : Option Event} {id : StmtId}

omit [World W] in
/-- A leaf is completed with its own entry marked as done. -/
private theorem of_complete? {e' : Option Event}
    (h : (do return (← c.complete? id, e')) = some (c', e)) :
    ∃ p, c.memory.progress.finish? id = some p ∧ c' = c.done p ∧ e = e' := by
  simp only [complete?_eq, Option.pure_def, Option.bind_eq_bind, Option.bind_eq_some_iff,
    Option.map_eq_some_iff, Option.some.injEq, Prod.mk.injEq] at h
  obtain ⟨_, ⟨p, hp, rfl⟩, rfl, rfl⟩ := h
  exact ⟨p, hp, rfl, rfl⟩

omit [World W] in
/-- A loop is completed with all of its entries cleared. -/
private theorem of_completeAll? {e' : Option Event}
    (h : (do return (← c.completeAll? t id, e')) = some (c', e)) :
    ∃ p, c.memory.progress.disarm? t id = some p ∧ c' = c.done p ∧ e = e' := by
  simp only [completeAll?_eq, Option.pure_def, Option.bind_eq_bind,
    Option.bind_eq_some_iff, Option.map_eq_some_iff, Option.some.injEq,
    Prod.mk.injEq] at h
  obtain ⟨_, ⟨p, hp, rfl⟩, rfl, rfl⟩ := h
  exact ⟨p, hp, rfl, rfl⟩

private theorem step_of_countDown {owed : Number} {g : Generator}
    (ho : c.Owes t id owed g) (h : (c.drawn g).countDown? id owed = some (c', e)) :
    Step t c e c' := by
  rw [countDown?_eq] at h
  split at h
  · rename_i hl
    simp only [Option.map_eq_some_iff, Prod.mk.injEq] at h
    obtain ⟨p, hp, rfl, rfl⟩ := h
    exact .waited ho hl hp
  · rename_i hl
    simp only [Option.map_eq_some_iff, Prod.mk.injEq] at h
    obtain ⟨p, hp, rfl, rfl⟩ := h
    exact .waiting ho hl hp

private theorem step_of_assign {target : Name} {value : ExprId}
    (hat : c.At t id (.assign target value))
    (h : c.visit? t id (.assign target value) = some (c', e)) : Step t c e c' := by
  simp only [visit?] at h
  rcases attempt_eq_some h with ⟨hb, rfl, rfl⟩ | ⟨hb, f, hv, rfl, rfl⟩ | ⟨hb, v, g, hv, h⟩
  · exact .refused hb (.assign hat)
  · exact .faulted hb (.assign hat hv)
  · rw [write_eq] at h
    cases hg : (c.drawn g).memory.globals.assign target v with
    | error r =>
        rw [hg] at h
        cases h
        exact .faulted hb (.write hat hv hg)
    | ok globals =>
        rw [hg] at h
        obtain ⟨p, hp, rfl, rfl⟩ := of_complete? h
        exact .deed hb (.assign hat hv hg hp)

private theorem step_of_conditional {cond : ExprId} {th : StmtId} {el : Option StmtId}
    (hat : c.At t id (.conditional cond th el))
    (h : c.visit? t id (.conditional cond th el) = some (c', e)) : Step t c e c' := by
  simp only [visit?] at h
  split at h
  · rename_i choice hf
    simp only [Option.pure_def, Option.bind_eq_bind, Option.bind_eq_some_iff,
      Option.some.injEq, Prod.mk.injEq] at h
    obtain ⟨_, h, rfl, rfl⟩ := h
    cases choice with
    | some b =>
        cases h
        exact .quiet (.branch hat hf)
    | none =>
        rw [enterBranch?, complete?_eq, Option.map_eq_some_iff] at h
        obtain ⟨p, hp, rfl⟩ := h
        exact .quiet (.noBranch hat hf hp)
  · rename_i hf
    have hf : ∀ choice, c.memory.progress.frame id ≠ .branch choice :=
      fun choice hc => hf choice hc
    rcases attempt_eq_some h with
      ⟨hb, rfl, rfl⟩ | ⟨hb, f, hv, rfl, rfl⟩ | ⟨hb, holds, g, hv, h⟩
    · exact .refused hb (.choose hat hf)
    · exact .faulted hb (.choose hat hf hv)
    · cases hchoice : (if holds then some th else el) with
      | some b =>
          simp only [hchoice, Memory.arm?, Memory.setFrame?, enterBranch?,
            Option.pure_def, Option.bind_eq_bind, Option.bind_eq_some_iff,
            Option.map_eq_some_iff, Option.some.injEq, Prod.mk.injEq] at h
          obtain ⟨_, ⟨p₁, hp₁, rfl⟩, _, ⟨p, hp, rfl⟩, _, rfl, rfl, rfl⟩ := h
          exact .deed hb (.choose hat hf hv hchoice hp₁ hp)
      | none =>
          simp only [hchoice, Memory.setFrame?, enterBranch?, complete?_eq,
            Option.pure_def, Option.bind_eq_bind, Option.bind_eq_some_iff,
            Option.map_eq_some_iff, Option.some.injEq, Prod.mk.injEq] at h
          obtain ⟨_, rfl, _, ⟨p₁, hp₁, rfl⟩, _, ⟨p, hp, rfl⟩, rfl, rfl⟩ := h
          exact .deed hb (.chooseNone hat hf hv hchoice hp₁ hp)

private theorem step_of_forEach {var : Name} {sel : Selector} {filter : Option ExprId}
    {sort : Option SortKey} {body : StmtId}
    (hat : c.At t id (.forEach var sel filter sort body))
    (h : c.visit? t id (.forEach var sel filter sort body) = some (c', e)) :
    Step t c e c' := by
  simp only [visit?] at h
  split at h
  · rename_i hf
    cases h
    exact .quiet (.forEach hat hf)
  · rename_i hf
    have hf : ∀ candidates index phase,
        c.memory.progress.frame id ≠ .forEach candidates index phase :=
      fun candidates index phase hc => hf candidates index phase hc
    rcases attempt_eq_some h with
      ⟨hb, rfl, rfl⟩ | ⟨hb, f, hv, rfl, rfl⟩ | ⟨hb, candidates, g, hv, h⟩
    · exact .refused hb (.list hat hf)
    · exact .faulted hb (.list hat hf hv)
    · simp only [Memory.setFrame?, Option.pure_def, Option.bind_eq_bind,
        Option.bind_eq_some_iff, Option.map_eq_some_iff, Option.some.injEq,
        Prod.mk.injEq] at h
      obtain ⟨_, ⟨p, hp, rfl⟩, rfl, rfl⟩ := h
      exact .deed hb (.list hat hf hv hp)

private theorem step_of_wait {duration : ExprId}
    (hat : c.At t id (.wait duration))
    (h : c.visit? t id (.wait duration) = some (c', e)) : Step t c e c' := by
  simp only [visit?] at h
  split at h
  · rename_i owed hf
    exact step_of_countDown (.again hat hf) h
  · rename_i hf
    have hu : c.Unready t id duration := ⟨hat, fun owed hc => hf owed hc⟩
    rcases attempt_eq_some h with
      ⟨hb, rfl, rfl⟩ | ⟨hb, f, hv, rfl, rfl⟩ | ⟨hb, time, g, hv, h⟩
    · exact .waitRefused hb hu
    · exact .waitFaulted hb hu hv
    · exact step_of_countDown (.first hu hb hv) h

private theorem step_of_leaveLoop (hat : c.At t id .leaveLoop)
    (h : c.visit? t id .leaveLoop = some (c', e)) : Step t c e c' := by
  simp only [visit?] at h
  split at h
  · rename_i hb
    split at h
    · rename_i loop ls hl
      simp only [complete?_eq, Option.pure_def, Option.bind_eq_bind,
        Option.bind_eq_some_iff, Option.map_eq_some_iff, Option.some.injEq,
        Prod.mk.injEq] at h
      obtain ⟨_, ⟨p, hp, rfl⟩, rfl, rfl⟩ := h
      exact .deed hb (.leaveLoop hat hl hp)
    · rename_i hl
      cases h
      exact .faulted hb (.leaveLoop hat hl)
  · rename_i hb
    cases h
    exact .refused (by simpa using hb) (.leaveLoop hat)

private theorem step_of_visit {s : Stmt} (hat : c.At t id s)
    (h : c.visit? t id s = some (c', e)) : Step t c e c' := by
  cases s with
  | sequence body =>
      simp only [visit?, Option.pure_def, Option.bind_eq_bind, Option.bind_eq_some_iff,
        Option.some.injEq, Prod.mk.injEq] at h
      obtain ⟨cs, hcs, rfl, rfl⟩ := h
      exact .quiet (.sequence hat hcs)
  | assign => exact step_of_assign hat h
  | conditional => exact step_of_conditional hat h
  | «while» cond body =>
      cases h
      exact .quiet (.while hat)
  | forEach => exact step_of_forEach hat h
  | wait => exact step_of_wait hat h
  | leaveLoop => exact step_of_leaveLoop hat h
  | print value =>
      simp only [visit?] at h
      rcases attempt_eq_some h with ⟨hb, rfl, rfl⟩ | ⟨hb, f, hv, rfl, rfl⟩
        | ⟨hb, v, g, hv, h⟩
      · exact .refused hb (.print hat)
      · exact .faulted hb (.print hat hv)
      · obtain ⟨p, hp, rfl, rfl⟩ := of_complete? h
        exact .deed hb (.print hat hv hp)
  | skip =>
      obtain ⟨p, hp, rfl, rfl⟩ := of_complete? h
      exact .quiet (.skip hat hp)
  | act action =>
      simp only [visit?] at h
      rcases attempt_eq_some h with
        ⟨hb, rfl, rfl⟩ | ⟨hb, f, hv, rfl, rfl⟩ | ⟨hb, command, g, hv, h⟩
      · exact .refused hb (.act hat)
      · exact .faulted hb (.act hat hv)
      · obtain ⟨p, hp, rfl, rfl⟩ := of_complete? h
        exact .deed hb (.act hat hv hp)

private theorem step_of_whileHead {cond : ExprId} {body : StmtId}
    (hat : c.AtHead t id (.while cond body))
    (h : c.iterate? t id (.while cond body) = some (c', e)) : Step t c e c' := by
  simp only [iterate?] at h
  split at h
  · rename_i hf
    cases h
    exact .quiet (.whileRound hat hf)
  · rename_i hf
    have hf : c.memory.progress.frame id ≠ .while .continuing := fun hc => hf hc
    rcases attempt_eq_some h with
      ⟨hb, rfl, rfl⟩ | ⟨hb, f, hv, rfl, rfl⟩ | ⟨hb, holds, g, hv, h⟩
    · exact .refused hb (.check hat hf)
    · exact .faulted hb (.check hat hf hv)
    · cases holds with
      | true =>
          simp only [↓reduceIte, Memory.arm?, Memory.setFrame?, Option.pure_def,
            Option.bind_eq_bind, Option.bind_eq_some_iff, Option.map_eq_some_iff,
            Option.some.injEq, Prod.mk.injEq] at h
          obtain ⟨_, ⟨p₁, hp₁, rfl⟩, _, ⟨p, hp, rfl⟩, rfl, rfl⟩ := h
          exact .deed hb (.check hat hf hv hp₁ hp)
      | false =>
          obtain ⟨p, hp, rfl, rfl⟩ := of_completeAll? h
          exact .deed hb (.stop hat hf hv hp)

private theorem step_of_forEachHead {var : Name} {sel : Selector} {filter : Option ExprId}
    {sort : Option SortKey} {body : StmtId}
    (hat : c.AtHead t id (.forEach var sel filter sort body))
    (h : c.iterate? t id (.forEach var sel filter sort body) = some (c', e)) :
    Step t c e c' := by
  simp only [iterate?] at h
  split at h
  · rename_i candidates index phase hf
    split at h
    · rename_i hi
      obtain ⟨p, hp, rfl, rfl⟩ := of_completeAll? h
      exact .quiet (.exhausted hat hf hi hp)
    · rename_i candidate hi
      cases phase with
      | continuing =>
          cases h
          exact .quiet (.forEachRound hat hf hi)
      | fresh =>
          simp only [write_eq] at h
          split at h
          · rename_i hb
            cases hg : c.memory.globals.assign var candidate with
            | error r =>
                rw [hg] at h
                cases h
                exact .faulted hb (.visit hat hf hi hg)
            | ok globals =>
                simp only [hg, Memory.arm?, Memory.setFrame?, Option.pure_def,
                  Option.bind_eq_bind, Option.bind_eq_some_iff,
                  Option.map_eq_some_iff, Option.some.injEq, Prod.mk.injEq] at h
                obtain ⟨_, ⟨p₁, hp₁, rfl⟩, _, ⟨p, hp, rfl⟩, rfl, rfl⟩ := h
                exact .deed hb (.visit hat hf hi hg hp₁ hp)
          · rename_i hb
            cases h
            exact .refused (by simpa using hb) (.visit hat hf hi)
  · rename_i hf
    cases h
    exact .quiet (.unlisted hat fun candidates index phase hc =>
      hf candidates index phase hc)

private theorem step_of_iterate {s : Stmt} (hat : c.AtHead t id s)
    (h : c.iterate? t id s = some (c', e)) : Step t c e c' := by
  cases s with
  | «while» => exact step_of_whileHead hat h
  | forEach => exact step_of_forEachHead hat h
  | sequence | assign | conditional | wait | leaveLoop | print | skip | act =>
      simp [iterate?] at h

end Steps

omit [World W] in
private theorem quiet_of_resume {t : Tree} {c c' : Config W} {flow : Flow} {task : Task}
    {k : List Task} (hc : c.control = .leave flow) (hk : c.stack = task :: k)
    (h : { c with stack := k }.resume? t task flow = some c') : Quiet t c c' := by
  cases flow with
  | completed =>
      cases task with
      | sequence id rest =>
          cases rest with
          | nil =>
              simp only [resume?, complete?_eq, Option.map_eq_some_iff] at h
              obtain ⟨p, hp, rfl⟩ := h
              exact .sequenceEnd hc hk hp
          | cons child rest =>
              cases h
              exact .next hc hk
      | branch id =>
          simp only [resume?, complete?_eq, Option.map_eq_some_iff] at h
          obtain ⟨p, hp, rfl⟩ := h
          exact .branchEnd hc hk hp
      | round id =>
          simp only [resume?, Memory.setFrame?, Option.pure_def, Option.bind_eq_bind,
            Option.bind_eq_some_iff, Option.map_eq_some_iff, Option.some.injEq] at h
          obtain ⟨s, hs, _, ⟨p, hp, rfl⟩, rfl⟩ := h
          exact .roundEnd hc hk hs hp
  | suspended =>
      have hpass : c' = c.unwound task k := by
        cases task <;> cases h <;> rfl
      rw [hpass]
      exact .unwind hc hk (.suspended task)
  | leaving loop =>
      cases task with
      | sequence id rest =>
          cases h
          exact .unwind hc hk (.sequence id rest loop)
      | branch id =>
          cases h
          exact .unwind hc hk (.branch id loop)
      | round id =>
          simp only [resume?] at h
          split at h
          · rename_i heq
            subst heq
            simp only [completeAll?_eq, Option.map_eq_some_iff] at h
            obtain ⟨p, hp, rfl⟩ := h
            exact .broken hc hk hp
          · rename_i hne
            cases h
            exact .unwind hc hk (.round hne)

private theorem step_of_step? {t : Tree} {c c' : Config W} {e : Option Event}
    (h : c.step? t = some (c', e)) : Step t c e c' := by
  unfold step? at h
  split at h
  · rename_i id k hc
    split at h
    · rename_i ha
      simp only [Option.bind_eq_bind, Option.bind_eq_some_iff] at h
      obtain ⟨s, hs, h⟩ := h
      exact step_of_visit ⟨hc, ha, hs⟩ h
    · rename_i ha
      cases h
      exact .quiet (.pass hc (by simpa using ha))
  · rename_i id k hc
    simp only [Option.bind_eq_bind, Option.bind_eq_some_iff] at h
    obtain ⟨s, hs, h⟩ := h
    exact step_of_iterate ⟨hc, hs⟩ h
  · rename_i flow task k hc hk
    simp only [Option.pure_def, Option.bind_eq_bind, Option.bind_eq_some_iff,
      Option.some.injEq, Prod.mk.injEq] at h
    obtain ⟨_, h, rfl, rfl⟩ := h
    exact .quiet (quiet_of_resume hc hk h)
  · rename_i f task k hc hk
    cases h
    have hpass : { c with stack := k }.passFault task = c.unwound task k := by
      cases task <;> rfl
    rw [hpass]
    exact .quiet (.passFault hc hk)
  · rename_i hk hne hni
    cases h
    cases hc : c.control with
    | enter id => exact absurd hc (hne id)
    | iterate id => exact absurd hc (hni id)
    | leave flow =>
        have ho : c.outcome? = some (.ok flow) := by simp [outcome?, hc, hk]
        exact .quiet (.ended ho)
    | raise f =>
        have ho : c.outcome? = some (.error f) := by simp [outcome?, hc, hk]
        exact .quiet (.ended ho)

theorem At.step?_eq {t : Tree} {c : Config W} {id : StmtId} {s : Stmt} (h : c.At t id s) :
    c.step? t = c.visit? t id s := by
  simp [step?, h.control, h.armed, h.stmt]

theorem AtHead.step?_eq {t : Tree} {c : Config W} {id : StmtId} {s : Stmt}
    (h : c.AtHead t id s) : c.step? t = c.iterate? t id s := by
  simp [step?, h.control, h.stmt]

private theorem step?_of_quiet {t : Tree} {c c' : Config W} (h : Quiet t c c') :
    c.step? t = some (c', none) := by
  cases h with
  | pass hc ha => simp [step?, hc, ha]
  | sequence h hcs => simp [h.step?_eq, visit?, hcs]
  | branch h hf => simp [h.step?_eq, visit?, hf, enterBranch?]
  | noBranch h hf hp => simp [h.step?_eq, visit?, hf, enterBranch?, complete?_eq, hp]
  | «while» h => simp [h.step?_eq, visit?]
  | forEach h hf => simp [h.step?_eq, visit?, hf]
  | skip h hp => simp [h.step?_eq, visit?, complete?_eq, hp]
  | whileRound h hf => simp [h.step?_eq, iterate?, hf]
  | forEachRound h hf hi => simp [h.step?_eq, iterate?, hf, hi]
  | exhausted h hf hi hp => simp [h.step?_eq, iterate?, hf, hi, completeAll?_eq, hp]
  | unlisted h hf =>
      rw [h.step?_eq, iterate?]
      split
      · exact absurd ‹_› (hf _ _ _)
      · rfl
  | next hc hk => simp [step?, hc, hk, resume?, goInto]
  | sequenceEnd hc hk hp =>
      simp [step?, hc, hk, resume?, complete?_eq, hp, unwound, Task.loop?, done]
  | branchEnd hc hk hp =>
      simp [step?, hc, hk, resume?, complete?_eq, hp, unwound, Task.loop?, done]
  | roundEnd hc hk hs hp =>
      simp [step?, hc, hk, hs, resume?, Memory.popLoop, Memory.setFrame?, hp, unwound,
        Task.loop?, again, goTo]
  | broken hc hk hp =>
      simp [step?, hc, hk, resume?, Memory.popLoop, completeAll?_eq, hp, unwound,
        Task.loop?, done]
  | unwind hc hk h =>
      cases h with
      | suspended =>
          rename_i task _
          cases task <;> simp [step?, hc, hk, resume?, Memory.popLoop,
            unwound, Task.loop?]
      | sequence => simp [step?, hc, hk, resume?, unwound, Task.loop?]
      | branch => simp [step?, hc, hk, resume?, unwound, Task.loop?]
      | round hne =>
          simp [step?, hc, hk, resume?, Memory.popLoop, unwound, Task.loop?, hne]
  | passFault hc hk =>
      rename_i task _
      cases task <;> simp [step?, hc, hk, passFault, Memory.popLoop, unwound, Task.loop?]
  | ended h =>
      unfold outcome? at h
      split at h
      · simp [step?, *]
      · simp [step?, *]
      · cases h

private theorem step?_of_deed {t : Tree} {c c' : Config W} {e : Event}
    (hb : c.memory.budget.canStep = true) (h : Deed t c e c') :
    c.step? t = some (c', some e) := by
  cases h with
  | assign h hv hg hp =>
      rw [h.step?_eq, visit?, attempt_of_yields hb hv]
      simp only [write_eq, drawn_globals, hg, complete?_eq]
      simp [payStep, Memory.payStep, written, drawn, hp]
  | print h hv hp =>
      rw [h.step?_eq, visit?, attempt_of_yields hb hv]
      simp [complete?_eq, Memory.println, Memory.countLine, Memory.payStep, drawn, hp]
  | act h hv hp =>
      rw [h.step?_eq, visit?, attempt_of_yields hb hv]
      simp [complete?_eq, payStep, Memory.payStep, drawn, hp]
  | leaveLoop h hl hp =>
      rw [h.step?_eq]
      simp [visit?, hb, hl, complete?_eq, payStep, Memory.payStep, hp]
  | choose h hf hv hchoice hp₁ hp =>
      rw [h.step?_eq, visit?]
      split
      · exact absurd ‹_› (hf _)
      rw [attempt_of_yields hb hv]
      simp [hchoice, Memory.arm?, Memory.setFrame?, Memory.payStep, drawn, hp₁, hp,
        enterBranch?, goInto, done, payStep]
  | chooseNone h hf hv hchoice hp₁ hp =>
      rw [h.step?_eq, visit?]
      split
      · exact absurd ‹_› (hf _)
      rw [attempt_of_yields hb hv]
      simp [hchoice, Memory.setFrame?, Memory.payStep, drawn, hp₁, hp, enterBranch?,
        complete?_eq, done, payStep]
  | list h hf hv hp =>
      rw [h.step?_eq, visit?]
      split
      · exact absurd ‹_› (hf _ _ _)
      rw [attempt_of_yields hb hv]
      simp [Memory.setFrame?, Memory.payStep, drawn, hp, goTo, again, payStep]
  | check h hf hv hp₁ hp =>
      rw [h.step?_eq, iterate?]
      split
      · exact absurd ‹_› hf
      rw [attempt_of_yields hb hv]
      simp [Memory.arm?, Memory.setFrame?, Memory.payStep, drawn, hp₁, hp, goTo, again,
        payStep]
  | stop h hf hv hp =>
      rw [h.step?_eq, iterate?]
      split
      · exact absurd ‹_› hf
      rw [attempt_of_yields hb hv]
      simp [completeAll?_eq, Memory.payStep, drawn, hp, payStep]
  | visit h hf hi hg hp₁ hp =>
      rw [h.step?_eq]
      simp [iterate?, hf, hi, hb, write_eq, hg, written, Memory.arm?, Memory.setFrame?,
        Memory.payStep, hp₁, hp, goTo, again, payStep]

private theorem step?_of_faulty {t : Tree} {c : Config W} {f : Fault} {g : Generator}
    (hb : c.memory.budget.canStep = true) (h : Faulty t c f g) :
    c.step? t = some ((c.drawn g).goTo (.raise f), none) := by
  cases h with
  | assign h hv | print h hv | act h hv =>
      rw [h.step?_eq, visit?, attempt_of_fails hb hv]
      rfl
  | write h hv hr =>
      rw [h.step?_eq, visit?, attempt_of_yields hb hv]
      simp only [write_eq, drawn_globals, hr]
  | leaveLoop h hl =>
      rw [h.step?_eq]
      simp only [visit?, hb, ↓reduceIte, hl]
      rfl
  | choose h hf hv =>
      rw [h.step?_eq, visit?]
      split
      · exact absurd ‹_› (hf _)
      rw [attempt_of_fails hb hv]
      rfl
  | list h hf hv =>
      rw [h.step?_eq, visit?]
      split
      · exact absurd ‹_› (hf _ _ _)
      rw [attempt_of_fails hb hv]
      rfl
  | check h hf hv =>
      rw [h.step?_eq, iterate?]
      split
      · exact absurd ‹_› hf
      rw [attempt_of_fails hb hv]
      rfl
  | visit h hf hi hr =>
      rw [h.step?_eq]
      simp [iterate?, hf, hi, hb, write_eq, hr, drawn]

private theorem step?_of_costs {t : Tree} {c : Config W}
    (hb : c.memory.budget.canStep = false) (h : Costs t c) :
    c.step? t = some (c.suspend, none) := by
  cases h with
  | assign h | print h | act h => rw [h.step?_eq, visit?, attempt_of_refused hb]
  | leaveLoop h =>
      rw [h.step?_eq]
      simp [visit?, hb]
  | choose h hf =>
      rw [h.step?_eq, visit?]
      split
      · exact absurd ‹_› (hf _)
      rw [attempt_of_refused hb]
  | list h hf =>
      rw [h.step?_eq, visit?]
      split
      · exact absurd ‹_› (hf _ _ _)
      rw [attempt_of_refused hb]
  | check h hf =>
      rw [h.step?_eq, iterate?]
      split
      · exact absurd ‹_› hf
      rw [attempt_of_refused hb]
  | visit h hf hi =>
      rw [h.step?_eq]
      simp [iterate?, hf, hi, hb]

/-- A `wait` without a time of its own works it out first. -/
theorem Unready.step?_eq {t : Tree} {c : Config W} {id : StmtId}
    {duration : ExprId} (h : c.Unready t id duration) :
    c.step? t = c.attempt c.memory.budget.hasTime ((c.scope t).duration duration)
      fun time c => c.countDown? id (time.maxNum .zero) := by
  rw [h.at_.step?_eq, visit?]
  split
  · exact absurd ‹_› (h.frame _)
  · rfl

/-- A `wait` that owes some time takes as much of it as is left. -/
theorem Owes.step?_eq {t : Tree} {c : Config W} {id : StmtId} {owed : Number}
    {g : Generator} (h : c.Owes t id owed g) :
    c.step? t = (c.drawn g).countDown? id owed := by
  cases h with
  | first h hb hv => rw [h.step?_eq, attempt_of_yields hb hv]
  | again h hf =>
      rw [h.step?_eq]
      simp [visit?, hf, drawn]

/-- **The rules are the machine.** -/
theorem step?_eq_some_iff {t : Tree} {c c' : Config W} {e : Option Event} :
    c.step? t = some (c', e) ↔ Step t c e c' := by
  constructor
  · exact step_of_step?
  · intro h
    cases h with
    | quiet h => exact step?_of_quiet h
    | deed hb h => exact step?_of_deed hb h
    | faulted hb h => exact step?_of_faulty hb h
    | refused hb h => exact step?_of_costs hb h
    | waitRefused hb h => rw [h.step?_eq, attempt_of_refused hb]
    | waitFaulted hb h hv => rw [h.step?_eq, attempt_of_fails hb hv]
    | waited h hl hp =>
        rw [h.step?_eq, countDown?_eq, drawn_left, if_pos hl, drawn_progress, hp]
        rfl
    | waiting h hl hp =>
        rw [h.step?_eq, countDown?_eq, drawn_left, if_neg hl, drawn_progress, hp]
        rfl

/-- The next configuration is determined. -/
theorem Step.unique {t : Tree} {c c₁ c₂ : Config W} {e₁ e₂ : Option Event}
    (h₁ : Step t c e₁ c₁) (h₂ : Step t c e₂ c₂) : c₁ = c₂ ∧ e₁ = e₂ := by
  rw [← step?_eq_some_iff] at h₁ h₂
  rw [h₁] at h₂
  cases h₂
  exact ⟨rfl, rfl⟩

end World

end Config

end Machine

end ActorScript
