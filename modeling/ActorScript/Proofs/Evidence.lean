import ActorScript.Proofs.Run

/-!
# What events are evidence of

A step leaves at most one event.  Apart from the table, the variables, the budget and the
generator, this event tells all that the step has done: the line that went to the output,
the command that was given to the actor, and what the tally has to count.  So it is for a
run and all of its events.

## Main results

* `Config.Step.attested`, `Run.attested` — output, world and tally after a step and after
  a run, read off the events.
-/

namespace ActorScript

/-! ## Lines and commands -/

/-- The text that was printed in a step, if there was one. -/
def Event.line? : Event → Option String
  | .printed _ value => some value.text
  | _ => none

/-- The texts that were printed in the course of a run, in order. -/
def printed (es : List Event) : List String := es.filterMap Event.line?

@[simp] theorem printed_append (es es' : List Event) :
    printed (es ++ es') = printed es ++ printed es' := List.filterMap_append

/-- The command that was given in a step, if there was one. -/
def Event.command? : Event → Option Command
  | .commanded _ command => some command
  | _ => none

/-- The commands that were given in the course of a run, in order. -/
def commands (es : List Event) : List Command := es.filterMap Event.command?

@[simp] theorem commands_append (es es' : List Event) :
    commands (es ++ es') = commands es ++ commands es' := List.filterMap_append

/-- The world after an actor has been given some commands. -/
def World.commandAll {W : Type} [World W] (subject : ActorId) (w : W)
    (cs : List Command) : W :=
  cs.foldl (fun w c => (World.command w subject c).2) w

@[simp] theorem World.commandAll_append {W : Type} [World W] (subject : ActorId) (w : W)
    (cs cs' : List Command) :
    commandAll subject w (cs ++ cs') = commandAll subject (commandAll subject w cs) cs' :=
  List.foldl_append

/-! ## Events by kind -/

/-- Whether an event is paid for with a step. -/
def Event.isPaid : Event → Bool
  | .waited _ => false
  | _ => true

/-- What an event is about. -/
inductive Event.Kind where
  /-- The condition of a conditional or of a loop has been checked. -/
  | condition
  | assignment
  | print
  | action
  /-- A loop is left. -/
  | leaving
  /-- The candidates of a loop over the world have been listed. -/
  | listing
  /-- A candidate has been written to the variable of its loop. -/
  | visit
  | waiting
deriving DecidableEq

def Event.kind : Event → Kind
  | .decided .. => .condition
  | .assigned .. => .assignment
  | .printed .. => .print
  | .commanded .. => .action
  | .left .. => .leaving
  | .listed .. => .listing
  | .visited .. => .visit
  | .waited .. => .waiting

/-- How many events are of a kind. -/
def countOf (kind : Event.Kind) (es : List Event) : Nat :=
  es.countP fun e => e.kind = kind

theorem countOf_append (kind : Event.Kind) (es es' : List Event) :
    countOf kind (es ++ es') = countOf kind es + countOf kind es' := List.countP_append

/-- A tally with some events in it. -/
def Tally.record (y : Tally) (es : List Event) : Tally :=
  { y with
    steps := y.steps + es.countP Event.isPaid
    lines := y.lines + countOf .print es }

theorem Tally.record_append (y : Tally) (es es' : List Event) :
    y.record (es ++ es') = (y.record es).record es' := by
  simp only [record, List.countP_append, countOf_append, Nat.add_assoc]

/-! ## Steps and runs -/

namespace Machine

variable {W : Type} [World W] {t : Tree} {c c₁ c' : Config W} {es es' : List Event}

/-- The events `es` account for the way from `c` to `c'`: the lines went to the output,
the commands to the actor, and both with all that was paid for into the tally.  The actor
is the same, and to halt takes more than a step. -/
structure Attested (es : List Event) (c c' : Config W) : Prop where
  subject : c'.memory.subject = c.memory.subject
  world : c'.world = World.commandAll c.memory.subject c.world (commands es)
  output : c'.memory.output = (printed es).foldl Output.println c.memory.output
  tally : c'.memory.tally = c.memory.tally.map (Tally.record · es)
  halted : c'.memory.halted = c.memory.halted

theorem Attested.refl (c : Config W) : Attested [] c c :=
  ⟨rfl, rfl, rfl, (Option.map_id' ..).symm, rfl⟩

theorem Attested.trans (h : Attested es c c₁) (h' : Attested es' c₁ c') :
    Attested (es ++ es') c c' where
  subject := h'.subject.trans h.subject
  world := by rw [h'.world, h.subject, h.world, commands_append, World.commandAll_append]
  output := by rw [h'.output, h.output, printed_append, List.foldl_append]
  tally := by
    rw [h'.tally, h.tally, Option.map_map]
    simp only [Function.comp_def, Tally.record_append]
  halted := h'.halted.trans h.halted

/-- **The event of a step tells what it has done.** -/
theorem Config.Step.attested {e : Option Event} (h : Step t c e c') :
    Attested e.toList c c' := by
  have hnothing : c.memory.tally = c.memory.tally.map (Tally.record · []) :=
    (Option.map_id' ..).symm
  cases h with
  | quiet h => cases h <;> exact ⟨rfl, rfl, rfl, hnothing, rfl⟩
  | deed _ h =>
      cases h with
      | print =>
          refine ⟨rfl, rfl, rfl, ?_, rfl⟩
          show (c.memory.tally.map Tally.countStep).map Tally.countLine = _
          rw [Option.map_map]
          rfl
      | assign | act | leaveLoop | choose | chooseNone | list | check | stop | visit =>
          exact ⟨rfl, rfl, rfl, rfl, rfl⟩
  | faulted | refused | waitRefused | waitFaulted | waited | waiting =>
      exact ⟨rfl, rfl, rfl, hnothing, rfl⟩

/-- **The events of a run tell what it has done.** -/
theorem Run.attested {ms : List (Transition W)} (h : Run t c ms c') :
    Attested (events ms) c c' := by
  induction h with
  | refl c => exact .refl c
  | step _ hstep _ ih => exact hstep.attested.trans ih

/-- The tally counts what is paid for. -/
theorem Attested.steps_eq (h : Attested es c c') :
    c'.memory.tally.map Tally.steps =
      c.memory.tally.map fun y => y.steps + es.countP Event.isPaid := by
  rw [h.tally, Option.map_map]
  rfl

end Machine

end ActorScript
