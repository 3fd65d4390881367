import ActorScript.Number.Exact
import ActorScript.Value

/-!
# Worlds

A script does not own the world that its actor lives in. It looks at actors and tiles and
commands its own actor, all through `World`. Every operation has to put up with handles of
actors that are gone.
-/

namespace ActorScript

/-- What can be seen of an actor. -/
structure Actor where
  kind : ActorKind
  x : Number
  y : Number
  width : Number := .one
  height : Number := .one
  hitPoints : Number := .one
  alive : Bool := true
  moving : Bool := false
  jumping : Bool := false
  ducking : Bool := false
  onGround : Bool := true
  facing : Direction := .right
deriving DecidableEq

/-- What became of a command. -/
inductive CommandOutcome where
  | applied
  /-- Actors of this kind cannot do it. -/
  | unsupported
  /-- The actor is gone. -/
  | missing
deriving DecidableEq

namespace World

/-- Whether the offset `(dx, dy)` points strictly into a direction. -/
def ahead (dx dy : Number) : Direction → Bool
  | .left => dx < .zero
  | .right => .zero < dx
  | .up => dy < .zero
  | .down => .zero < dy

/--
The distance from `origin` to the actor `id`, if it is another one that is there and lies
in the direction. How far an offset reaches is for `hypot` to say.
-/
def distanceAhead? (hypot : Number → Number → Number) (find? : ActorId → Option Actor)
    (start : ActorId) (origin : Actor) (direction : Direction) (id : ActorId) :
    Option Number :=
  if id = start then none
  else do
    let other ← find? id
    let dx := other.x - origin.x
    let dy := other.y - origin.y
    if ahead dx dy direction then some (hypot dx dy) else none

/-- Keeps the better of the best so far and a newcomer; the newcomer has to be strictly
closer. -/
def closer (best : Option (Number × ActorId)) (distance : Number) (id : ActorId) :
    Option (Number × ActorId) :=
  match best with
  | none => some (distance, id)
  | some (d, _) => if distance < d then some (distance, id) else best

/--
The closest to `start` of the listed actors that lie strictly in a direction. Of actors at
the same distance the first one listed is taken.
-/
def closestAhead? (hypot : Number → Number → Number) (find? : ActorId → Option Actor)
    (listed : List ActorId) (start : ActorId) (direction : Direction) :
    Option ActorId := do
  let origin ← find? start
  let consider (best : Option (Number × ActorId)) (id : ActorId) :=
    match distanceAhead? hypot find? start origin direction id with
    | some distance => closer best distance id
    | none => best
  (listed.foldl consider none).map Prod.snd

end World

/-- The questions and commands that a world answers. -/
class World (W : Type) where
  actor? : W → ActorId → Option Actor
  /-- The handles of all actors, or of all of one kind, in the order of the world. -/
  actors : W → Option ActorKind → List ActorId
  tiles : W → List Tile
  /-- The class of a tile; there is none outside the map. -/
  tileClass? : W → Tile → Option TileClass
  command : W → ActorId → Command → CommandOutcome × W
  /--
  The closest actor to another one that lies strictly in a direction. A world goes through
  all that it lists, and measures by `Number.hypot`, unless it has a way of its own.
  -/
  nearest? (w : W) (start : ActorId) (direction : Direction) (kind : Option ActorKind) :
      Option ActorId :=
    World.closestAhead? Number.hypot (actor? w) (actors w kind) start direction

/-- What `nearest?` is in a world that has no way of its own, if `hypot` is the
measure. -/
def World.nearestBy? {W : Type} [World W] (hypot : Number → Number → Number) (w : W)
    (start : ActorId) (direction : Direction) (kind : Option ActorKind) :
    Option ActorId :=
  closestAhead? hypot (actor? w) (actors w kind) start direction

end ActorScript
