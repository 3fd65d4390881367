import ActorScript.GridWorld

/-!
# Grid worlds with lists of their own

A world is free to enumerate its tiles and actors as it likes: out of order, twice, or
with handles of actors that are gone. `ListedWorld` is a grid world that enumerates given
lists instead of what it holds.
-/

namespace ActorScript

structure ListedWorld where
  grid : GridWorld
  /-- Enumerated instead of the tiles of the grid. -/
  tileList : Option (List Tile) := none
  /-- Enumerated instead of the actors of the grid. -/
  actorList : Option (List ActorId) := none

namespace ListedWorld

/-- A listed handle counts as of the kind if its actor is, or if there is no actor. -/
def mayBe (w : ListedWorld) (kind : ActorKind) (id : ActorId) : Bool :=
  (w.grid.find? id).all (·.kind == kind)

def actors (w : ListedWorld) (kind : Option ActorKind) : List ActorId :=
  match w.actorList, kind with
  | none, _ => World.actors w.grid kind
  | some ids, none => ids
  | some ids, some kind => ids.filter (w.mayBe kind)

instance : World ListedWorld where
  actor? w id := w.grid.find? id
  actors := actors
  tiles w := w.tileList.getD w.grid.tiles
  tileClass? w t := w.grid.tileClass? t
  command w subject c :=
    let (outcome, grid) := w.grid.command subject c
    (outcome, { w with grid })

end ListedWorld

end ActorScript
