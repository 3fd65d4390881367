import ActorScript.Proofs.Core
import ActorScript.Proofs.Draws
import ActorScript.Proofs.InBounds
import ActorScript.Proofs.Printing

/-!
# Watching a script does not change it

Counts and output are written by the same moves that pay and act, and they are never
read.  So two programs over one script that differ in nothing else go in lockstep:
move by move, they do the same.  A generator may differ as well if nothing draws from
it.

A configuration and its twin are one configuration, with the counts, the output and
the generator replaced (`Config.watched`).

## Main results

* `Config.Step.twin` — the twin of a configuration makes the twin of its move.
* `twin_of_runWithin?`, `Twins.advance?`, `Twins.takeTurns?` — the same for runs, for
  ticks, and for ticks with changes of the world in between.
* `observers_irrelevant` — programs that differ in their settings agree after every
  tick.
-/

namespace ActorScript

/-- The generators are the same, unless they are free to differ. -/
def Generator.Tied (free : Prop) (g g' : Generator) : Prop := free ∨ g = g'

namespace Generator.Tied

variable {free : Prop} {g g₁ g' : Generator} {α : Type} {ev : Evaluation α}

theorem symm (h : Tied free g g') : Tied free g' g := h.imp_right Eq.symm

/-- Where the generators may differ, an evaluation must not draw. -/
theorem yields {a : α} (h : Tied free g g') (hsteady : free → ev.Steady)
    (hy : ev.Yields g a g₁) : ∃ g₁', ev.Yields g' a g₁' ∧ Tied free g₁ g₁' := by
  rcases h with hfree | rfl
  · exact ⟨g', ((hsteady hfree).of_yields hy).2 g', .inl hfree⟩
  · exact ⟨g₁, hy, .inr rfl⟩

theorem fails {f : Fault} (h : Tied free g g') (hsteady : free → ev.Steady)
    (hf : ev.Fails g f) : ev.Fails g' f := by
  rcases h with hfree | rfl
  · exact (hsteady hfree).of_fails hf g'
  · exact hf

end Generator.Tied

open Generator (Tied)

/-- The memory with other counts, another output and another generator. -/
def Memory.watched (m : Memory) (k : Option Tally) (o : Output) (g : Generator) :
    Memory :=
  { m with tally := k, output := o, generator := g }

namespace Machine

variable {W : Type} {t : Tree} {root : StmtId} {free : Prop} {c c' : Config W}
  {g : Generator} {k : Option Tally} {o : Output}

/-- The twin of a configuration. -/
def Config.watched (c : Config W) (k : Option Tally) (o : Output) (g : Generator) :
    Config W :=
  { c with memory := c.memory.watched k o g }

namespace Config

variable [World W]

/-- **Deeds** are done by the twin as well. -/
theorem Deed.twin {e : Event} (hc : c.Sound t root) (hfree : free → t.Drawless root)
    (hg : Tied free c.memory.generator g) (h : Deed t c e c') :
    ∃ k' o' g', Deed t (c.watched k o g) e (c'.watched k' o' g') ∧
      Tied free c'.memory.generator g' := by
  cases h with
  | assign hat hv hw hp =>
      obtain ⟨g', hv', hg'⟩ := hg.yields
        (fun hf => (hfree hf).evaluate_steady (hc.of_at hat).1.under hat.stmt
          (.head _) rfl) hv
      exact ⟨_, _, g', Deed.assign (c := c.watched k o g) hat.recast hv' hw hp, hg'⟩
  | print hat hv hp =>
      obtain ⟨g', hv', hg'⟩ := hg.yields
        (fun hf => (hfree hf).evaluate_steady (hc.of_at hat).1.under hat.stmt
          (.head _) rfl) hv
      exact ⟨_, _, g', Deed.print (c := c.watched k o g) hat.recast hv' hp, hg'⟩
  | act hat hv hp =>
      obtain ⟨g', hv', hg'⟩ := hg.yields
        (fun hf => (hfree hf).command_steady (hc.of_at hat).1.under hat.stmt rfl) hv
      exact ⟨_, _, g', Deed.act (c := c.watched k o g) hat.recast hv' hp, hg'⟩
  | leaveLoop hat hl hp =>
      exact ⟨_, _, g, Deed.leaveLoop (c := c.watched k o g) hat.recast hl hp, hg⟩
  | choose hat hframe hv hb hp₁ hp =>
      obtain ⟨g', hv', hg'⟩ := hg.yields
        (fun hf => (hfree hf).condition_steady (hc.of_at hat).1.under hat.stmt
          (.head _) rfl _) hv
      exact ⟨_, _, g', Deed.choose (c := c.watched k o g) hat.recast hframe hv'
        hb hp₁ hp, hg'⟩
  | chooseNone hat hframe hv hb hp₁ hp =>
      obtain ⟨g', hv', hg'⟩ := hg.yields
        (fun hf => (hfree hf).condition_steady (hc.of_at hat).1.under hat.stmt
          (.head _) rfl _) hv
      exact ⟨_, _, g', Deed.chooseNone (c := c.watched k o g) hat.recast hframe hv'
        hb hp₁ hp, hg'⟩
  | list hat hframe hv hp =>
      obtain ⟨g', hv', hg'⟩ := hg.yields
        (fun hf => (hfree hf).candidates_steady (hc.of_at hat).1.under hat.stmt rfl) hv
      exact ⟨_, _, g', Deed.list (c := c.watched k o g) hat.recast hframe hv' hp, hg'⟩
  | check hat hframe hv hp₁ hp =>
      obtain ⟨g', hv', hg'⟩ := hg.yields (fun hf =>
        (hfree hf).condition_steady (hc.of_atHead hat).1.under hat.stmt
          (.head _) rfl _) hv
      exact ⟨_, _, g', Deed.check (c := c.watched k o g) hat.recast hframe
        hv' hp₁ hp, hg'⟩
  | stop hat hframe hv hp =>
      obtain ⟨g', hv', hg'⟩ := hg.yields (fun hf =>
        (hfree hf).condition_steady (hc.of_atHead hat).1.under hat.stmt
          (.head _) rfl _) hv
      exact ⟨_, _, g', Deed.stop (c := c.watched k o g) hat.recast hframe hv' hp, hg'⟩
  | visit hat hframe hi hw hp₁ hp =>
      exact ⟨_, _, g, Deed.visit (c := c.watched k o g) hat.recast hframe hi
        hw hp₁ hp, hg⟩

/-- What faults here faults there. -/
theorem Faulty.twin {f : Fault} {g₁ : Generator} (hc : c.Sound t root)
    (hfree : free → t.Drawless root) (hg : Tied free c.memory.generator g)
    (h : Faulty t c f g₁) :
    ∃ g', Faulty t (c.watched k o g) f g' ∧ Tied free g₁ g' := by
  cases h with
  | assign hat hv =>
      have hv' := hg.fails
        (fun hf => (hfree hf).evaluate_steady (hc.of_at hat).1.under hat.stmt
          (.head _) rfl) hv
      exact ⟨g, Faulty.assign (c := c.watched k o g) hat.recast hv', hg⟩
  | write hat hv hr =>
      obtain ⟨g', hv', hg'⟩ := hg.yields
        (fun hf => (hfree hf).evaluate_steady (hc.of_at hat).1.under hat.stmt
          (.head _) rfl) hv
      exact ⟨g', Faulty.write (c := c.watched k o g) hat.recast hv' hr, hg'⟩
  | print hat hv =>
      have hv' := hg.fails
        (fun hf => (hfree hf).evaluate_steady (hc.of_at hat).1.under hat.stmt
          (.head _) rfl) hv
      exact ⟨g, Faulty.print (c := c.watched k o g) hat.recast hv', hg⟩
  | act hat hv =>
      have hv' := hg.fails
        (fun hf => (hfree hf).command_steady (hc.of_at hat).1.under hat.stmt rfl) hv
      exact ⟨g, Faulty.act (c := c.watched k o g) hat.recast hv', hg⟩
  | leaveLoop hat hl =>
      exact ⟨g, Faulty.leaveLoop (c := c.watched k o g) hat.recast hl, hg⟩
  | choose hat hframe hv =>
      have hv' := hg.fails
        (fun hf => (hfree hf).condition_steady (hc.of_at hat).1.under hat.stmt
          (.head _) rfl _) hv
      exact ⟨g, Faulty.choose (c := c.watched k o g) hat.recast hframe hv', hg⟩
  | list hat hframe hv =>
      have hv' := hg.fails
        (fun hf => (hfree hf).candidates_steady (hc.of_at hat).1.under hat.stmt rfl) hv
      exact ⟨g, Faulty.list (c := c.watched k o g) hat.recast hframe hv', hg⟩
  | check hat hframe hv =>
      have hv' := hg.fails (fun hf =>
        (hfree hf).condition_steady (hc.of_atHead hat).1.under hat.stmt
          (.head _) rfl _) hv
      exact ⟨g, Faulty.check (c := c.watched k o g) hat.recast hframe hv', hg⟩
  | visit hat hframe hi hr =>
      exact ⟨g, Faulty.visit (c := c.watched k o g) hat.recast hframe hi hr, hg⟩

/-- The twin of a `wait` owes the same time. -/
theorem Owes.twin {id : StmtId} {owed : Number} {g₁ : Generator} (hc : c.Sound t root)
    (hfree : free → t.Drawless root) (hg : Tied free c.memory.generator g)
    (h : c.Owes t id owed g₁) : ∃ g', (c.watched k o g).Owes t id owed g' ∧
      Tied free g₁ g' := by
  cases h with
  | first h hb hv =>
      obtain ⟨g', hv', hg'⟩ := hg.yields (fun hf =>
        (hfree hf).duration_steady (hc.of_at h.at_).1.under h.at_.stmt (.head _) rfl) hv
      exact ⟨g', Owes.first (c := c.watched k o g) h.recast hb hv', hg'⟩
  | again hat hframe => exact ⟨g, Owes.again (c := c.watched k o g) hat.recast hframe, hg⟩

/-- **Lockstep.**  The twin of a configuration makes the twin of its move. -/
theorem Step.twin {e : Option Event} (hc : c.Sound t root)
    (hfree : free → t.Drawless root) (hg : Tied free c.memory.generator g)
    (h : Step t c e c') :
    ∃ k' o' g', Step t (c.watched k o g) e (c'.watched k' o' g') ∧
      Tied free c'.memory.generator g' := by
  cases h with
  | quiet h =>
      obtain ⟨hbudget, -, hgenerator⟩ := h.keeps
      have hmove : Quiet t (c.watched k o g) (c'.recast c.memory.budget k o g) := h.recast
      rw [← hbudget] at hmove
      exact ⟨k, o, g, .quiet hmove, hgenerator ▸ hg⟩
  | deed hb h =>
      obtain ⟨k', o', g', hdeed, hg'⟩ := h.twin hc hfree hg
      exact ⟨k', o', g', .deed hb hdeed, hg'⟩
  | faulted hb h =>
      obtain ⟨g', hfaulty, hg'⟩ := h.twin hc hfree hg
      exact ⟨k, o, g', .faulted hb hfaulty, hg'⟩
  | refused hb h =>
      exact ⟨k, o, g, Step.refused (c := c.watched k o g) hb h.recast, hg⟩
  | waitRefused hb h =>
      exact ⟨k, o, g, Step.waitRefused (c := c.watched k o g) hb h.recast, hg⟩
  | waitFaulted hb h hv =>
      have hv' := hg.fails (fun hf =>
        (hfree hf).duration_steady (hc.of_at h.at_).1.under h.at_.stmt (.head _) rfl) hv
      exact ⟨k, o, g, Step.waitFaulted (c := c.watched k o g) hb h.recast hv', hg⟩
  | waited h hl hp =>
      obtain ⟨g', howes, hg'⟩ := h.twin hc hfree hg
      exact ⟨k, o, g', .waited howes hl hp, hg'⟩
  | waiting h hl hp =>
      obtain ⟨g', howes, hg'⟩ := h.twin hc hfree hg
      exact ⟨k, o, g', .waiting howes hl hp, hg'⟩

end Config

variable [World W]

/-- Runs go in lockstep, within the same limit. -/
theorem twin_of_runWithin? (ht : t.Proper root) (hfree : free → t.Drawless root)
    {limit : Nat} {done : List Event} {ending : Ending W} (hc : c.Sound t root)
    (hg : Tied free c.memory.generator g) (h : runWithin? t limit done c = some ending) :
    ∃ k' o' g', runWithin? t limit done (c.watched k o g) =
        some { ending with memory := ending.memory.watched k' o' g' } ∧
      Tied free ending.memory.generator g' := by
  induction limit generalizing c k o g done with
  | zero => cases h
  | succ limit ih =>
      unfold runWithin? at h ⊢
      rw [show (c.watched k o g).outcome? = c.outcome? from rfl]
      cases ho : c.outcome? with
      | some outcome =>
          rw [ho] at h
          cases h
          exact ⟨k, o, g, rfl, hg⟩
      | none =>
          simp only [ho, Option.bind_eq_bind, Option.bind_eq_some_iff] at h
          obtain ⟨⟨next, event⟩, hstep, h⟩ := h
          have hmove := Config.step?_eq_some_iff.mp hstep
          obtain ⟨k₁, o₁, g₁, htwin, hg₁⟩ := hmove.twin (k := k) (o := o) hc hfree hg
          simp only [Config.step?_eq_some_iff.mpr htwin, Option.bind_eq_bind,
            Option.bind_some]
          exact ih (hc.step ht hmove) hg₁ h

end Machine

namespace Program

open Machine

variable {W : Type} {t : Tree} {root : StmtId} {free : Prop} {p p' : Program}

/-- The program with other counts, another output and another generator. -/
def watched (p : Program) (k : Option Tally) (o : Output) (g : Generator) : Program :=
  { p with memory := p.memory.watched k o g }

/-- The programs differ in their counts and in their output, and in their generators where
these are free to differ. -/
def Twins (free : Prop) (p p' : Program) : Prop :=
  ∃ k o g, p' = p.watched k o g ∧ Tied free p.memory.generator g

theorem Twins.symm (h : Twins free p p') : Twins free p' p := by
  obtain ⟨k, o, g, rfl, hg⟩ := h
  exact ⟨p.memory.tally, p.memory.output, p.memory.generator, rfl, hg.symm⟩

/-- Programs over one script are twins at their start. -/
theorem twins_of_start {subject : ActorId} {settings settings' : Settings}
    (h : start t subject settings = .ok p) (h' : start t subject settings' = .ok p')
    (hseed : free ∨ settings.seed = settings'.seed) : Twins free p p' := by
  obtain ⟨root, progress, hroot, hprogress, rfl⟩ := start_eq_ok_iff.mp h
  obtain ⟨root', progress', hroot', hprogress', rfl⟩ := start_eq_ok_iff.mp h'
  cases hroot.symm.trans hroot'
  cases hprogress.symm.trans hprogress'
  exact ⟨_, _, _, rfl, hseed.imp_right (congrArg Generator.ofSeed)⟩

/-- What a run comes to is settled in the same way. -/
theorem settle_watched (p : Program) (k k₁ : Option Tally) (o o₁ : Output)
    (g g₁ : Generator) (outcome : Except Fault Flow) (m : Memory) :
    ∃ k₂, (p.watched k o g).settle outcome (m.watched k₁ o₁ g₁) =
      (p.settle outcome m).watched k₂ o₁ g₁ := by
  unfold settle
  split
  · exact ⟨k₁, rfl⟩
  · exact ⟨k₁.map Tally.countSuspension, rfl⟩
  · exact ⟨k₁, rfl⟩
  · split
    · exact ⟨k₁, rfl⟩
    · exact ⟨k₁.map Tally.countTransientFault, rfl⟩

theorem settle_generator (p : Program) (outcome : Except Fault Flow) (m : Memory) :
    (p.settle outcome m).memory.generator = m.generator := by
  obtain ⟨tally, halted, h⟩ := p.settle_memory outcome m
  rw [h]

variable [World W]

/-- Ticks go in lockstep. -/
theorem Twins.advance? {limit : Nat} {w : W} {budget : Number} {tick : Tick W}
    (h : Twins free p p') (ht : t.Proper root) (hfree : free → t.Drawless root)
    (hp : Settled t root p) (hk : p.advance? limit w budget = some tick) :
    ∃ q', p'.advance? limit w budget = some ⟨q', tick.world, tick.events⟩ ∧
      Twins free tick.program q' := by
  obtain ⟨k, o, g, rfl, hg⟩ := h
  unfold Program.advance? at hk ⊢
  rw [show ((p.watched k o g).isHalted || (p.watched k o g).isFinished) =
    (p.isHalted || p.isFinished) from rfl]
  cases hover : p.isHalted || p.isFinished with
  | true =>
      rw [hover] at hk
      cases hk
      exact ⟨_, rfl, k, o, g, rfl, hg⟩
  | false =>
      simp only [hover, Bool.false_eq_true, ↓reduceIte, Option.pure_def,
        Option.bind_eq_bind, Option.bind_eq_some_iff, Option.some.injEq] at hk ⊢
      obtain ⟨ending, hrun, rfl⟩ := hk
      rw [hp.tree] at hrun
      obtain ⟨k₁, o₁, g₁, htwin, hg₁⟩ :=
        twin_of_runWithin? (k := k.map Tally.countTick) (o := o)
        ht hfree (sound_opening hp hover w budget) hg hrun
      obtain ⟨k₂, hsettle⟩ := p.settle_watched k k₁ o o₁ g g₁ ending.outcome ending.memory
      rw [← p.settle_generator ending.outcome ending.memory] at hg₁
      refine ⟨(p.watched k o g).settle ending.outcome (ending.memory.watched k₁ o₁ g₁),
        ⟨{ ending with memory := ending.memory.watched k₁ o₁ g₁ }, ?_, rfl⟩, k₂,
        o₁, g₁, hsettle, hg₁⟩
      rw [show (p.watched k o g).tree = t from hp.tree]
      exact htwin

/-! ## Ticks with changes in between -/

/-- What comes before a tick from outside: a change of the world, and a budget. -/
structure Turn (W : Type) where
  change : W → W
  budget : Number

/-- Ticks one after the other, each after a change of the world.  The events are those of
all ticks. -/
def takeTurns? (limit : Nat) : List (Turn W) → Program → W → Option (Tick W)
  | [], p, w => some ⟨p, w, []⟩
  | turn :: turns, p, w => do
      let first ← p.advance? limit (turn.change w) turn.budget
      let last ← takeTurns? limit turns first.program first.world
      return { last with events := first.events ++ last.events }

/-- What two programs over one script have in common after some ticks, however they are
watched. -/
structure Indistinct (sink sink' : Sink) (a b : Tick W) : Prop where
  globals : a.program.memory.globals = b.program.memory.globals
  progress : a.program.memory.progress = b.program.memory.progress
  isHalted : a.program.isHalted = b.program.isHalted
  isFinished : a.program.isFinished = b.program.isFinished
  fault : a.program.fault = b.program.fault
  lastTransient : a.program.lastTransient = b.program.lastTransient
  world : a.world = b.world
  events : a.events = b.events
  /-- The lines that the one has printed, the other has printed as well. -/
  output : a.program.memory.output = (printed a.events).foldl .println { sink } ∧
    b.program.memory.output = (printed a.events).foldl .println { sink := sink' }

/-- Turns go in lockstep. -/
theorem Twins.takeTurns? {limit : Nat} {turns : List (Turn W)} {w : W} {last : Tick W}
    (h : Twins free p p') (ht : t.Proper root) (hfree : free → t.Drawless root)
    (hp : Settled t root p) (hlast : takeTurns? limit turns p w = some last) :
    ∃ q', Program.takeTurns? limit turns p' w = some ⟨q', last.world, last.events⟩ ∧
      Twins free last.program q' := by
  induction turns generalizing p p' w last with
  | nil =>
      cases hlast
      exact ⟨p', rfl, h⟩
  | cons turn turns ih =>
      simp only [Program.takeTurns?, Option.pure_def, Option.bind_eq_bind,
        Option.bind_eq_some_iff, Option.some.injEq] at hlast ⊢
      obtain ⟨first, hfirst, last, hlast, rfl⟩ := hlast
      obtain ⟨q', hfirst', htwins⟩ := h.advance? ht hfree hp hfirst
      obtain ⟨r', hlast', htwins'⟩ := ih htwins (hp.tick ht hfirst) hlast
      exact ⟨r', ⟨_, hfirst', _, hlast', rfl⟩, htwins'⟩

/-- Turns are ticks. -/
theorem reached_of_takeTurns? {limit : Nat} {turns : List (Turn W)} {w : W} {q : Program}
    {es : List Event} {last : Tick W} (h : Reached W p es q)
    (hlast : takeTurns? limit turns q w = some last) :
    Reached W p (es ++ last.events) last.program := by
  induction turns generalizing q w es last with
  | nil =>
      cases hlast
      rw [List.append_nil]
      exact h
  | cons turn turns ih =>
      simp only [takeTurns?, Option.pure_def, Option.bind_eq_bind,
        Option.bind_eq_some_iff, Option.some.injEq] at hlast
      obtain ⟨first, hfirst, last, hlast, rfl⟩ := hlast
      rw [← List.append_assoc]
      exact ih (.tick h trivial hfirst) hlast

/-- What is printed goes to the output that the program was started with. -/
theorem output_of_takeTurns? {subject : ActorId} {settings : Settings} {limit : Nat}
    {turns : List (Turn W)} {w : W} {last : Tick W}
    (hstart : start t subject settings = .ok p)
    (h : takeTurns? limit turns p w = some last) :
    last.program.memory.output =
      (printed last.events).foldl .println { sink := settings.sink } := by
  have hempty : p.memory.output = { sink := settings.sink } := by
    obtain ⟨root, progress, -, -, rfl⟩ := start_eq_ok_iff.mp hstart
    rfl
  have houtput := output_of_ticks (reached_of_takeTurns? .start h)
  rw [List.nil_append, hempty] at houtput
  exact houtput

/-- Twins come to the same, or neither comes to an end within the limit. -/
theorem Twins.rel {subject : ActorId} {settings settings' : Settings}
    {R : Tick W → Tick W → Prop} (h : Twins free p p')
    (hstart : start t subject settings = .ok p)
    (hstart' : start t subject settings' = .ok p') (hfree : free → t.Drawless p.root)
    (hR : ∀ a b, Indistinct settings.sink settings'.sink a b →
      Tied free a.program.memory.generator b.program.memory.generator → R a b)
    (limit : Nat) (turns : List (Turn W)) (w : W) :
    Option.Rel R (Program.takeTurns? limit turns p w)
      (Program.takeTurns? limit turns p' w) := by
  have hp := started_of_start hstart
  have hp' := started_of_start hstart'
  cases hlast : Program.takeTurns? limit turns p w with
  | some a =>
      obtain ⟨q', hlast', k, o, g, rfl, hg⟩ :=
        h.takeTurns? hp.proper hfree hp.settled hlast
      have houtput := output_of_takeTurns? hstart hlast
      have houtput' := output_of_takeTurns? hstart' hlast'
      rw [hlast']
      exact .some (hR _ _ ⟨rfl, rfl, rfl, rfl, rfl, rfl, rfl, rfl, houtput, houtput'⟩ hg)
  | none =>
      cases hlast' : Program.takeTurns? limit turns p' w with
      | none => exact .none
      | some b =>
          have hroot : p'.root = p.root := by
            obtain ⟨k, o, g, rfl, -⟩ := h
            rfl
          rw [← hroot] at hfree
          obtain ⟨q, hq, -⟩ := h.symm.takeTurns? hp'.proper hfree hp'.settled hlast'
          cases hlast.symm.trans hq

/--
**Observers do not change behaviour.**  Start a script twice, with or without counts and
with any two outputs, and give both programs the same budgets, in worlds that are equal at
the start and are changed from outside in the same ways.  From the same seed they agree
after every tick in all that matters, and they have printed the same lines.  If no
expression under the root draws a random number, they do so from any two seeds, but for
their generators.
-/
theorem observers_irrelevant {subject : ActorId} {settings settings' : Settings}
    (hstart : start t subject settings = .ok p)
    (hstart' : start t subject settings' = .ok p') (limit : Nat)
    (turns : List (Turn W)) (w : W) :
    (settings.seed = settings'.seed →
      Option.Rel (fun a b => Indistinct settings.sink settings'.sink a b ∧
          a.program.memory.generator = b.program.memory.generator)
        (takeTurns? limit turns p w) (takeTurns? limit turns p' w)) ∧
    (t.Drawless p.root →
      Option.Rel (Indistinct settings.sink settings'.sink)
        (takeTurns? limit turns p w) (takeTurns? limit turns p' w)) := by
  constructor
  · intro hseed
    have htwins : Twins False p p' := twins_of_start hstart hstart' (.inr hseed)
    refine htwins.rel hstart hstart' nofun (fun a b hab hg => ?_) limit turns w
    exact ⟨hab, hg.resolve_left not_false⟩
  · intro hdrawless
    have htwins : Twins True p p' := twins_of_start hstart hstart' (.inl trivial)
    exact htwins.rel hstart hstart' (fun _ => hdrawless)
      (fun a b hab _ => hab) limit turns w

omit [World W] in
/-- Where the first of two programs comes to its end, the second does. -/
private theorem exists_of_rel {R : Tick W → Tick W → Prop} {a : Tick W}
    {b? : Option (Tick W)} (h : Option.Rel R (some a) b?) : ∃ b, b? = some b ∧ R a b := by
  cases h with
  | some hab => exact ⟨_, rfl, hab⟩

theorem drawless_restless {root : StmtId} : restless.Drawless root := by
  intro id s _ _ e _ j max _
  match j with
  | 0 => simp [Tree.expr?, restless]
  | 1 => simp [Tree.expr?, restless]
  | j + 2 => simp [Tree.expr?, restless]

/-- A program with counts and a buffer, one with neither, and one from another seed: in
two ticks of four units each prints one line. -/
theorem observers_irrelevant_restless :
    ∃ p p' p'' a b c,
      start restless 1 { tallied := true } = .ok p ∧
      start restless 1 { sink := .silent } = .ok p' ∧
      start restless 1 { seed := 7, sink := .log } = .ok p'' ∧
      takeTurns? 100 [⟨id, .ofInt 4⟩, ⟨id, .ofInt 4⟩] p (GridWorld.empty 1 1) = some a ∧
      takeTurns? 100 [⟨id, .ofInt 4⟩, ⟨id, .ofInt 4⟩] p' (GridWorld.empty 1 1) = some b ∧
      takeTurns? 100 [⟨id, .ofInt 4⟩, ⟨id, .ofInt 4⟩] p'' (GridWorld.empty 1 1) = some c ∧
      Indistinct .buffer .silent a b ∧
      a.program.memory.generator = b.program.memory.generator ∧
      Indistinct .buffer .log a c ∧ printed a.events = ["3"] := by
  have hrun : (start restless 1 { tallied := true }).toOption.map (fun p =>
      (takeTurns? 100 [⟨id, .ofInt 4⟩, ⟨id, .ofInt 4⟩] p (GridWorld.empty 1 1)).map
          fun a =>
        a.events) =
      some (some [.decided 4 true, .decided 1 true, .waited 0,
        .printed 2 (.number (.ofInt 3)), .decided 4 true, .decided 1 true]) := by
    decide +kernel
  obtain ⟨p, hstart, hturns⟩ := exists_of_start hrun
  obtain ⟨a, ha, hevents⟩ := Option.map_eq_some_iff.mp hturns
  obtain ⟨p', hstart', -⟩ := exists_start (validate_of_start hstart) 1 { sink := .silent }
  obtain ⟨p'', hstart'', -⟩ :=
    exists_start (validate_of_start hstart) 1 { seed := 7, sink := .log }
  have hsame := (observers_irrelevant hstart hstart' 100 [⟨id, .ofInt 4⟩, ⟨id, .ofInt 4⟩]
    (GridWorld.empty 1 1)).1 rfl
  have hother :=
    (observers_irrelevant hstart hstart'' 100 [⟨id, .ofInt 4⟩, ⟨id, .ofInt 4⟩]
    (GridWorld.empty 1 1)).2 drawless_restless
  rw [ha] at hsame hother
  obtain ⟨b, hb, hab, hgenerator⟩ := exists_of_rel hsame
  obtain ⟨c, hc, hac⟩ := exists_of_rel hother
  refine ⟨p, p', p'', a, b, c, hstart, hstart', hstart'', ha, hb, hc, hab,
    hgenerator, hac, ?_⟩
  rw [hevents]
  decide +kernel

end Program

end ActorScript
