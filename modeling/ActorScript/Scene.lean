import ActorScript.GridWorld
import ActorScript.Options

/-!
# Scenes

A scene is a script together with a world and the actor that it drives. It is played tick
by tick: the program runs with the budget of a tick, then one unit of time passes in the
world.
-/

namespace ActorScript

structure Scene where
  tree : Tree
  world : GridWorld
  subject : ActorId

/-- A scene that has been played. -/
structure Performance where
  ticks : Nat
  program : Program
  world : GridWorld

namespace Performance

/-- Plays at most so many ticks more, until the program is done or halted. -/
def continue? (limit : Nat) (budget : Number) : Nat → Performance → Option Performance
  | 0, s => some s
  | ticks + 1, s =>
      if s.program.isFinished || s.program.isHalted then some s
      else do
        let tick ← s.program.advance? limit s.world budget
        continue? limit budget ticks ⟨s.ticks + 1, tick.program, tick.world.step .one⟩

end Performance

namespace Scene

/-- The start of a scene. -/
def begin (scene : Scene) (options : Options) (sink : Sink) :
    Except TreeError Performance := do
  let program ← Program.start scene.tree scene.subject
    { seed := options.seed, tallied := options.profile, sink }
  return ⟨0, program, scene.world⟩

/-- Plays a scene, with at most `limit` small steps of the machine in a tick. -/
def play (limit : Nat) (scene : Scene) (options : Options) (sink : Sink) :
    Except TreeError (Option Performance) := do
  return (← scene.begin options sink).continue? limit options.budget options.ticks

end Scene

end ActorScript
