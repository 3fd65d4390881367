/-!
# Vocabulary

The closed word lists that scripts and worlds share: directions, kinds of actors, classes
of tiles, and the commands an actor can be given.
-/

namespace ActorScript

/-- A direction on the screen: `y` grows downwards. -/
inductive Direction where
  | left
  | right
  | up
  | down
deriving DecidableEq

namespace Direction

def word : Direction → String
  | left => "left"
  | right => "right"
  | up => "up"
  | down => "down"

/-- Whether the direction runs along the x axis. -/
def isHorizontal : Direction → Bool
  | left | right => true
  | up | down => false

end Direction

/-- The kinds of actors. -/
inductive ActorKind where
  | player
  | enemy
  | hazard
  | plant
  | pickup
deriving DecidableEq

namespace ActorKind

def word : ActorKind → String
  | player => "player"
  | enemy => "enemy"
  | hazard => "hazard"
  | plant => "plant"
  | pickup => "pickup"

/-- Whether there is at most one actor of the kind at a time. -/
def isSingleton : ActorKind → Bool
  | player => true
  | _ => false

end ActorKind

/-- The classes of terrain. -/
inductive TileClass where
  | empty
  | solid
  | platform
  | hazard
  | ladder
deriving DecidableEq

def TileClass.word : TileClass → String
  | empty => "empty"
  | solid => "solid"
  | platform => "platform"
  | hazard => "hazard"
  | ladder => "ladder"

/-- The axes of a tile position. -/
inductive Axis where
  | x
  | y
deriving DecidableEq

/-- Where a loop over the world takes its candidates from. -/
inductive Selector where
  /-- All actors, or all of one kind. -/
  | actors (kind : Option ActorKind)
  /-- All tiles, row by row. -/
  | tiles
deriving DecidableEq

/-- Whether the candidates are tiles. -/
def Selector.yieldsTiles : Selector → Bool
  | actors _ => false
  | tiles => true

/--
What an actor can be told to do. `δ` stands for the direction of a move: an expression in
a script, a direction once it is a command.
-/
inductive Action (δ : Type) where
  | startMove (direction : δ)
  | stopMove
  | startJump
  | stopJump
  | startDuck
  | stopDuck
deriving DecidableEq

namespace Action

/-- The action with its direction worked out by `f`. -/
def mapM {m : Type → Type} [Monad m] {δ ε : Type} (f : δ → m ε) : Action δ → m (Action ε)
  | startMove direction => startMove <$> f direction
  | stopMove => pure stopMove
  | startJump => pure startJump
  | stopJump => pure stopJump
  | startDuck => pure startDuck
  | stopDuck => pure stopDuck

/-- The direction of a move. -/
def direction? {δ : Type} : Action δ → Option δ
  | startMove direction => some direction
  | _ => none

def word {δ : Type} : Action δ → String
  | startMove _ => "start_move"
  | stopMove => "stop_move"
  | startJump => "start_jump"
  | stopJump => "stop_jump"
  | startDuck => "start_duck"
  | stopDuck => "stop_duck"

end Action

/-- An action ready to be carried out. -/
abbrev Command := Action Direction

end ActorScript
