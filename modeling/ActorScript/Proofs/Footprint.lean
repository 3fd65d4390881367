import ActorScript.Proofs.Frames

/-!
# What a script does to the world

A script looks at the world as it likes, but there is one way for it to change anything:
the commands that it gives to its own actor.  So the world after a tick is the world
before it after these commands, one after the other, whatever else the script has done;
and all that is left is to say what a command does to a grid world.

## Main results

* `Config.Step.heeded` — commands come from `act` statements, and nothing else changes a
  world.
* `GridWorld.obeyed_commandAll` — commands change the log, and of the actor that they are
  given to what it is about.
* `world_changed_by_commands` — the same for the ticks of the programs that a start leads
  to.
-/

namespace ActorScript

namespace Machine

open Config

variable {W : Type} [World W] {t : Tree} {c c' : Config W} {e : Option Event}

/-! ## Steps and runs -/

/-- How a step has to do with the world: commands are those of the `act` statements that
it completes, and without a command the world stays as it is. -/
structure Transition.Heeded (t : Tree) (subject : ActorId) (m : Transition W) : Prop where
  commanded : ∀ {id command}, m.event = some (.commanded id command) →
    ∃ action g, m.before.At t id (.act action) ∧
      ((m.before.scope t).command action).Yields m.before.memory.generator command g ∧
      m.after.control = .leave .completed ∧
      m.after.world = (World.command m.before.world subject command).2
  completed : ∀ {id action}, m.before.At t id (.act action) →
    m.after.control = .leave .completed → ∃ command,
      m.event = some (.commanded id command)
  still : (∀ id command, m.event ≠ some (.commanded id command)) →
    m.after.world = m.before.world

/-- An `act` statement that is completed has given its command. -/
private theorem Config.Step.of_act {id : StmtId} {action : Action ExprId}
    (h : Step t c e c') (hat : c.At t id (.act action))
    (hdone : c'.control = .leave .completed) :
    ∃ command, e = some (.commanded id command) := by
  have hvisit := step?_eq_some_iff.mpr h
  rw [hat.step?_eq, visit?] at hvisit
  rcases attempt_eq_some hvisit with ⟨-, rfl, -⟩ | ⟨-, f, -, rfl, -⟩
    | ⟨-, command, g, -, hgo⟩
  · cases hdone
  · cases hdone
  · obtain ⟨c₁, -, hpair⟩ := Option.bind_eq_some_iff.mp hgo
    cases hpair
    exact ⟨command, rfl⟩

theorem Config.Step.heeded (h : Step t c e c') :
    Transition.Heeded t c.memory.subject ⟨c, e, c'⟩ where
  commanded he := by
    subst he
    cases h with
    | deed _ h =>
        cases h with
        | act hat hv => exact ⟨_, _, hat, hv, rfl, rfl⟩
  completed hat hdone := h.of_act hat hdone
  still hnone := by
    have hworld := h.attested.world
    have hcommands : commands e.toList = [] := by
      cases e with
      | none => rfl
      | some e =>
          cases e with
          | commanded id command => exact absurd rfl (hnone id command)
          | decided | assigned | printed | left | listed | visited | waited => rfl
    rw [hcommands] at hworld
    exact hworld

theorem Run.heeded {ms : List (Transition W)} (h : Run t c ms c') :
    ∀ m ∈ ms, m.Heeded t c.memory.subject := by
  intro m hm
  obtain ⟨⟨done, hdone⟩, hstep⟩ := h.of_mem hm
  rw [← hdone.attested.subject]
  exact hstep.heeded

end Machine

/-! ## Grid worlds -/

/-- The two actors are of one kind and build, and stand at one place. -/
structure Actor.SameBody (a b : Actor) : Prop where
  kind : b.kind = a.kind
  x : b.x = a.x
  y : b.y = a.y
  width : b.width = a.width
  height : b.height = a.height
  hitPoints : b.hitPoints = a.hitPoints
  alive : b.alive = a.alive

namespace GridWorld

/-- An actor after some commands, of which it carries out those that its kind can. -/
def obeyAll (cs : List Command) (a : Actor) : Actor :=
  (cs.filter (supports a.kind)).foldl (fun a c => obey c a) a

theorem sameBody_obey (c : Command) (a : Actor) : a.SameBody (obey c a) := by
  cases c <;> exact ⟨rfl, rfl, rfl, rfl, rfl, rfl, rfl⟩

theorem sameBody_foldl (cs : List Command) :
    ∀ a : Actor, a.SameBody (cs.foldl (fun a c => obey c a) a) := by
  induction cs with
  | nil =>
      intro a
      exact ⟨rfl, rfl, rfl, rfl, rfl, rfl, rfl⟩
  | cons c cs ih =>
      intro a
      have hc := sameBody_obey c a
      have hcs := ih (obey c a)
      exact ⟨hcs.kind.trans hc.kind, hcs.x.trans hc.x, hcs.y.trans hc.y,
        hcs.width.trans hc.width, hcs.height.trans hc.height,
        hcs.hitPoints.trans hc.hitPoints, hcs.alive.trans hc.alive⟩

theorem obeyAll_append (cs cs' : List Command) (a : Actor) :
    obeyAll (cs ++ cs') a = obeyAll cs' (obeyAll cs a) := by
  have hkind : (obeyAll cs a).kind = a.kind := (sameBody_foldl _ a).kind
  unfold obeyAll at hkind ⊢
  rw [List.filter_append, List.foldl_append, hkind]

theorem find?_update (w : GridWorld) (id : ActorId) (f : Actor → Actor) (i : ActorId) :
    (w.update id f).find? i = (w.find? i).map fun a => if i = id then f a else a := by
  show (w.population.map _).lookup i = (w.population.lookup i).map _
  induction w.population with
  | nil => rfl
  | cons entry rest ih =>
      obtain ⟨j, a⟩ := entry
      rw [List.map_cons, List.lookup_cons, List.lookup_cons]
      by_cases h : i = j
      · subst h
        simp only [beq_self_eq_true, Option.map_some]
      · simp only [beq_false_of_ne h]
        exact ih

/-- What becomes of a world in which `subject` has been given the commands `cs`. -/
structure Obeyed (subject : ActorId) (cs : List Command) (w w' : GridWorld) : Prop where
  width : w'.width = w.width
  height : w'.height = w.height
  cells : w'.cells = w.cells
  nextId : w'.nextId = w.nextId
  handles : w'.population.map Prod.fst = w.population.map Prod.fst
  others : ∀ i, i ≠ subject → w'.find? i = w.find? i
  log : w'.log.toList = w.log.toList ++ cs.map fun c => (subject, c)
  actor : ∀ a, w.find? subject = some a →
    w'.find? subject = some (obeyAll cs a) ∧ a.SameBody (obeyAll cs a)
  missing : w.find? subject = none → w' = { w with log := w'.log }

theorem obeyed_nil (subject : ActorId) (w : GridWorld) : Obeyed subject [] w w where
  width := rfl
  height := rfl
  cells := rfl
  nextId := rfl
  handles := rfl
  others _ _ := rfl
  log := (List.append_nil _).symm
  actor a ha := ⟨ha, sameBody_foldl [] a⟩
  missing _ := rfl

theorem Obeyed.trans {subject : ActorId} {cs cs' : List Command} {w w₁ w' : GridWorld}
    (h : Obeyed subject cs w w₁) (h' : Obeyed subject cs' w₁ w') :
    Obeyed subject (cs ++ cs') w w' where
  width := h'.width.trans h.width
  height := h'.height.trans h.height
  cells := h'.cells.trans h.cells
  nextId := h'.nextId.trans h.nextId
  handles := h'.handles.trans h.handles
  others i hi := (h'.others i hi).trans (h.others i hi)
  log := by rw [h'.log, h.log, List.map_append, List.append_assoc]
  actor a ha := by
    refine ⟨?_, sameBody_foldl _ a⟩
    rw [obeyAll_append]
    exact (h'.actor _ (h.actor a ha).1).1
  missing hnone := by
    have h₁ := h.missing hnone
    have hnone₁ : w₁.find? subject = none := by
      rw [h₁]
      exact hnone
    have h₂ := h'.missing hnone₁
    rw [h₁] at h₂
    exact h₂

/-- The world in which a command has been put on record. -/
private def recorded (w : GridWorld) (subject : ActorId) (c : Command) : GridWorld :=
  { w with log := w.log.push (subject, c) }

private theorem log_recorded (w : GridWorld) (subject : ActorId) (c : Command) :
    (w.recorded subject c).log.toList = w.log.toList ++ [c].map fun c => (subject, c) :=
  Array.toList_push

/-- A command that nobody carries out. -/
private theorem obeyed_recorded {subject : ActorId} {c : Command} {w : GridWorld}
    (h : ∀ a, w.find? subject = some a → supports a.kind c = false) :
    Obeyed subject [c] w (w.recorded subject c) := by
  refine ⟨rfl, rfl, rfl, rfl, rfl, fun _ _ => rfl, log_recorded .., ?_, fun _ => rfl⟩
  intro a ha
  have hsame : obeyAll [c] a = a := by
    simp [obeyAll, h a ha]
  rw [hsame]
  exact ⟨ha, sameBody_foldl [] a⟩

/-- A command that the actor carries out. -/
private theorem obeyed_update {subject : ActorId} {c : Command}
    {w : GridWorld} {a : Actor} (ha : w.find? subject = some a)
    (h : supports a.kind c = true) :
    Obeyed subject [c] w ((w.recorded subject c).update subject (obey c)) := by
  have hfind : ∀ i, ((w.recorded subject c).update subject (obey c)).find? i =
      (w.find? i).map fun a => if i = subject then obey c a else a :=
    find?_update _ subject (obey c)
  refine ⟨rfl, rfl, rfl, rfl, ?_, ?_, log_recorded .., ?_, ?_⟩
  · show (w.population.map _).map Prod.fst = _
    rw [List.map_map]
    rfl
  · intro i hi
    rw [hfind]
    simp only [hi, if_false, Option.map_id']
  · intro b hb
    cases ha.symm.trans hb
    have hobey : obeyAll [c] a = obey c a := by
      simp [obeyAll, h]
    rw [hfind, hobey, ha, Option.map_some, if_pos rfl]
    exact ⟨rfl, sameBody_obey c a⟩
  · intro hnone
    cases ha.symm.trans hnone

/-- **One command.** -/
theorem obeyed_command (subject : ActorId) (c : Command) (w : GridWorld) :
    Obeyed subject [c] w (w.command subject c).2 := by
  unfold command
  dsimp only
  -- the record makes no difference to who is found
  split
  · rename_i hnone
    apply obeyed_recorded
    intro a ha
    cases ha.symm.trans hnone
  · rename_i a ha
    by_cases h : supports a.kind c = true
    · rw [if_pos h]
      exact obeyed_update ha h
    · rw [if_neg h]
      apply obeyed_recorded
      intro b hb
      cases ha.symm.trans hb
      exact Bool.eq_false_iff.mpr h

/-- **Any number of commands.** -/
theorem obeyed_commandAll (subject : ActorId) (cs : List Command) :
    ∀ w : GridWorld, Obeyed subject cs w (World.commandAll subject w cs) := by
  induction cs with
  | nil => exact obeyed_nil subject
  | cons c cs ih =>
      intro w
      exact (obeyed_command subject c w).trans (ih _)

end GridWorld

/-! ## Ticks -/

namespace Program

open Machine Machine.Config

variable {W : Type} [World W] {ok : Nat → Program → W → Number → Prop} {t : Tree}
  {p q : Program} {es : List Event} {subject : ActorId} {settings : Settings}

/-- A script keeps to its actor. -/
theorem subject_of_ticks (hstart : start t subject settings = .ok p)
    (h : Ticks ok p es q) :
    q.memory.subject = subject := by
  have hkept : Kept W t p.root fun m => m.subject = subject :=
    { opening := fun _ hm => hm
      step := fun _ hc hstep => hstep.attested.subject.trans hc
      settle := fun _ _ hm => hm }
  refine hkept.ticks (started_of_start hstart) ?_ h
  obtain ⟨root, progress, -, -, rfl⟩ := start_eq_ok_iff.mp hstart
  rfl

/--
**A script touches the world by commands to its own actor only.**  Whatever its state and
its budget, a tick in a grid world leaves the grid, the handles and all other actors as
they are.  The log grows by the commands of the `act` statements that the tick completes,
in that order; the actor carries out those that its kind can, and keeps its kind, its
place, its build, its hit points and its life; and if the actor is gone, the log is all
that changes.  No other step of the tick changes the world.
-/
theorem world_changed_by_commands {limit : Nat} {w : GridWorld} {budget : Number}
    {k : Tick GridWorld} (hstart : start t subject settings = .ok p)
    (h : Reached W p es q) (hk : q.advance? limit w budget = some k) :
    GridWorld.Obeyed subject (commands k.events) w k.world ∧
      k.events = events (q.moves limit w budget) ∧
      ∀ m ∈ q.moves limit w budget, m.Heeded t subject := by
  have hsubject := subject_of_ticks hstart h
  rcases (settled_of_ticks (started_of_start hstart) h).run_of_tick hk with
    ⟨-, hmoves, rfl⟩ | ⟨-, -, outcome, c', hrun, -, rfl⟩
  · rw [hmoves]
    exact ⟨GridWorld.obeyed_nil subject w, rfl, fun m hm => by cases hm⟩
  · have hopening : (q.opening w budget).memory.subject = subject := hsubject
    have hworld := hrun.attested.world
    have hheeded := hrun.heeded
    rw [hopening] at hworld hheeded
    refine ⟨?_, rfl, hheeded⟩
    show GridWorld.Obeyed subject _ w c'.world
    rw [hworld]
    exact GridWorld.obeyed_commandAll subject _ w

/--
```text
start move left
start duck
start jump
```
-/
def lively : Tree where
  exprs := #[.direction .left]
  stmts := #[.act (.startMove 0), .act .startDuck, .act .startJump, .sequence ⟨0, 3⟩]
  lists := #[0, 1, 2]
  root := some 3

/-- A player and an enemy. -/
def arena : GridWorld :=
  (((GridWorld.empty 4 1).spawn { kind := .player, x := .ofInt 2, y := .zero }).2.spawn
    { kind := .enemy, x := .ofInt 3, y := .zero }).2

/-- An enemy moves and jumps, but does not duck; all three commands are on record. -/
theorem world_changed_by_commands_lively :
    ∃ p k, start lively 2 = .ok p ∧ p.advance? 100 arena (.ofInt 3) = some k ∧
      commands k.events = [.startMove .left, .startDuck, .startJump] ∧
      k.world.log.toList = [(2, .startMove .left), (2, .startDuck), (2, .startJump)] ∧
      k.world.find? 1 = arena.find? 1 ∧
      k.world.find? 2 = some
        { kind := .enemy, x := .ofInt 3, y := .zero, moving := true, facing := .left,
          jumping := true, onGround := false } := by
  have hrun : (start lively 2).toOption.map (fun p =>
      (p.advance? 100 arena (.ofInt 3)).map fun k => commands k.events) =
      some (some [.startMove .left, .startDuck, .startJump]) := by
    decide +kernel
  obtain ⟨p, hstart, htick⟩ := exists_of_start hrun
  obtain ⟨k, hk, hcommands⟩ := Option.map_eq_some_iff.mp htick
  obtain ⟨hobeyed, -⟩ :=
    world_changed_by_commands (W := GridWorld) hstart .start hk
  rw [hcommands] at hobeyed
  refine ⟨p, k, hstart, hk, hcommands, hobeyed.log, hobeyed.others 1 (by decide), ?_⟩
  exact (hobeyed.actor { kind := .enemy, x := .ofInt 3, y := .zero } rfl).1

end Program

end ActorScript
