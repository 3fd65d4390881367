import ActorScript.Keyed
import ActorScript.World

/-!
# Grid worlds

A small world held in memory: actors by handle, a rectangular grid of tiles, and the
record of all commands received. Actors of a kind obey the commands that
`GridWorld.supports` allows; `step` moves those that walk.
-/

namespace ActorScript

structure GridWorld where
  /-- The actors, by ascending handle. -/
  population : List (ActorId × Actor) := []
  /-- The handle of the next actor. Handles are never used twice. -/
  nextId : ActorId := 1
  width : Nat
  height : Nat
  /-- The classes of the tiles, row by row. -/
  cells : Array TileClass
  /-- Every command received, in order. -/
  log : Array (ActorId × Command) := #[]

namespace GridWorld

/-- The most cells a grid has. -/
def maxCells : Nat := 0x7FFFFFFF

/-- A world of empty tiles without actors. A negative side counts as zero. -/
def empty (width height : Int) : GridWorld :=
  { width := width.toNat
    height := height.toNat
    cells := Array.replicate (min (width.toNat * height.toNat) maxCells) .empty }

/-! ## Actors -/

def find? (w : GridWorld) (id : ActorId) : Option Actor := w.population.lookup id

/-- Adds an actor under the next handle. -/
def spawn (w : GridWorld) (actor : Actor) : ActorId × GridWorld :=
  (w.nextId,
    { w with
      nextId := w.nextId + 1
      population := Keyed.insert w.nextId actor w.population })

/-- Takes an actor away for good; `none` if there is no such actor. -/
def remove? (w : GridWorld) (id : ActorId) : Option GridWorld :=
  (w.find? id).map fun _ => { w with population := w.population.filter (·.1 != id) }

/-- Changes the actor with a handle and no other. -/
def update (w : GridWorld) (id : ActorId) (f : Actor → Actor) : GridWorld :=
  { w with population := w.population.map fun (i, a) => (i, if i = id then f a else a) }

/-- Changes an actor; `none` if there is no such actor. -/
def modify? (w : GridWorld) (id : ActorId) (f : Actor → Actor) : Option GridWorld :=
  (w.find? id).map fun _ => w.update id f

/-! ## Tiles -/

/-- The place of a tile among the cells. -/
def cellIndex? (w : GridWorld) (t : Tile) : Option Nat :=
  if 0 ≤ t.x ∧ t.x < w.width ∧ 0 ≤ t.y ∧ t.y < w.height then
    some (t.y * w.width + t.x).toNat
  else none

/-- Sets the class of a tile; `none` outside the grid. -/
def setTile? (w : GridWorld) (t : Tile) (c : TileClass) : Option GridWorld :=
  (w.cellIndex? t).map fun i => { w with cells := w.cells.setIfInBounds i c }

def tileClass? (w : GridWorld) (t : Tile) : Option TileClass := do
  w.cells[← w.cellIndex? t]?

/-- All tiles, row by row. -/
def tiles (w : GridWorld) : List Tile :=
  (List.range w.height).flatMap fun (y : Nat) =>
    (List.range w.width).map fun (x : Nat) => ⟨x, y⟩

/-! ## Motion -/

/-- What becomes of an actor in `dt` units of time: if it walks, it covers that
distance. -/
def walk (dt : Number) (a : Actor) : Actor :=
  if a.moving then
    match a.facing with
    | .left => { a with x := a.x - dt }
    | .right => { a with x := a.x + dt }
    | .up | .down => a
  else a

/-- Lets `dt` units of time pass. -/
def step (w : GridWorld) (dt : Number) : GridWorld :=
  { w with population := w.population.map fun (i, a) => (i, walk dt a) }

/-- Whether actors of a kind can carry out a command. -/
def supports (kind : ActorKind) : Command → Bool
  | .startMove direction => direction.isHorizontal && kind != .plant && kind != .pickup
  | .stopMove => kind != .plant && kind != .pickup
  | .startJump | .stopJump => kind != .hazard && kind != .plant
  | .startDuck | .stopDuck => kind == .player

/-- An actor after it has carried out a command. -/
def obey : Command → Actor → Actor
  | .startMove direction, a => { a with moving := true, facing := direction }
  | .stopMove, a => { a with moving := false }
  | .startJump, a => { a with jumping := true, onGround := false }
  | .stopJump, a => { a with jumping := false, onGround := true }
  | .startDuck, a => { a with ducking := true }
  | .stopDuck, a => { a with ducking := false }

/-- Records a command and has the actor carry it out if it is there and can. -/
def command (w : GridWorld) (subject : ActorId) (c : Command) :
    CommandOutcome × GridWorld :=
  let w := { w with log := w.log.push (subject, c) }
  match w.find? subject with
  | none => (.missing, w)
  | some actor =>
      if supports actor.kind c then (.applied, w.update subject (obey c))
      else (.unsupported, w)

instance : World GridWorld where
  actor? := find?
  actors w kind :=
    (w.population.filter fun (_, a) => kind.all (a.kind == ·)).map Prod.fst
  tiles := tiles
  tileClass? := tileClass?
  command := command

end GridWorld

end ActorScript
