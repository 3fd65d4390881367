import ActorScript.Scene

/-!
# Demos

The scenes that come with the command line.
-/

namespace ActorScript

/-- A scene with a name. -/
structure Demo where
  name : String
  summary : String
  scene : Scene

namespace Demo

open ActorScript.Tree

/-- A world with one player in it, who is the subject. -/
def solo (width height : Int) (x y : Int) : ActorId × GridWorld :=
  (GridWorld.empty width height).spawn { kind := .player, x := .ofInt x, y := .ofInt y }

/-- A scene of the subject that `solo` puts into its world, with changes made to the
world. -/
def soloScene (width height x y : Int) (furnish : GridWorld → GridWorld)
    (script : Builder Unit) :
    Scene :=
  let (subject, world) := solo width height x y
  { tree := build script, world := furnish world, subject }

/--
```text
while laps < 3 {
  start_move(right); wait 2; stop_move; print x(self)
  start_move(left);  wait 2; stop_move; print x(self)
  laps := laps + 1
}
```
-/
def patrol : Demo where
  name := "patrol"
  summary := "walk right and back three times, printing the turning points"
  scene := soloScene 16 8 4 6 id do
    let _ ← declare "laps" .number
    let me ← addExpr .self
    let x ← addExpr (.property .x me)
    let two ← addExpr (.number (.ofInt 2))
    let leg (direction : Direction) : Builder (List StmtId) := do
      let d ← addExpr (.direction direction)
      let go ← addStmt (.act (.startMove d))
      let wait ← addStmt (.wait two)
      let halt ← addStmt (.act .stopMove)
      let print ← addStmt (.print x)
      return [go, wait, halt, print]
    let out ← leg .right
    let back ← leg .left
    let laps ← addVar "laps"
    let one ← addExpr (.number .one)
    let next ← addExpr (.binary .add laps one)
    let count ← addAssign "laps" next
    let body ← addSequence (out ++ back ++ [count])
    let three ← addExpr (.number (.ofInt 3))
    let cond ← addExpr (.binary .lt laps three)
    setRoot (← addStmt (.while cond body))

/-- An actor with all that is not given left at its usual value. -/
def plainActor (kind : ActorKind) (x y : Int) : Actor :=
  { kind, x := .ofInt x, y := .ofInt y }

/--
```text
for each e in enemies where is_alive(e) sort by x(e) descending {
  print x(e); count := count + 1
}
print count
```
-/
def census : Demo where
  name := "census"
  summary := "list living enemies from right to left, then count them"
  scene :=
    let others :=
      [12, 3, 27, 8].map (plainActor .enemy · 2) ++
        [{ plainActor .enemy 20 2 with alive := false }, plainActor .plant 5 2]
    soloScene 32 4 0 2 (others.foldl fun w a => (w.spawn a).2) do
      let var ← declare "e" .object
      let _ ← declare "count" .number
      let e ← addVar "e"
      let alive ← addExpr (.property .isAlive e)
      let x ← addExpr (.property .x e)
      let count ← addVar "count"
      let one ← addExpr (.number .one)
      let next ← addExpr (.binary .add count one)
      let print ← addStmt (.print x)
      let bump ← addAssign "count" next
      let body ← addSequence [print, bump]
      let key : SortKey := ⟨x, .descending⟩
      let survey ← addStmt
        (.forEach var (.actors (some .enemy)) (some alive) (some key) body)
      let total ← addStmt (.print count)
      setRoot (← addSequence [survey, total])

/--
```text
for each t in tiles where tile_is(t, solid) { print t }
```
-/
def tiles : Demo where
  name := "tiles"
  summary := "print every solid tile in row-major order"
  scene :=
    let terrain : List (Tile × TileClass) :=
      (List.range 6).map (fun x => (⟨x, 2⟩, .solid)) ++
        [(⟨4, 1⟩, .solid), (⟨1, 1⟩, .ladder)]
    soloScene 6 3 0 0 (terrain.foldl fun w (t, c) => (w.setTile? t c).getD w) do
      let var ← declare "t" .tile
      let t ← addVar "t"
      let solid ← addExpr (.tileIs t .solid)
      let body ← addStmt (.print t)
      setRoot (← addStmt (.forEach var .tiles (some solid) none body))

/--
```text
while rolls < 5 { print random(6); wait 1; rolls := rolls + 1 }
```
-/
def dice : Demo where
  name := "dice"
  summary := "roll five dice, one per time unit (depends on --seed)"
  scene := soloScene 1 1 0 0 id do
    let _ ← declare "rolls" .number
    let six ← addExpr (.number (.ofInt 6))
    let roll ← addExpr (.random six)
    let print ← addStmt (.print roll)
    let one ← addExpr (.number .one)
    let wait ← addStmt (.wait one)
    let rolls ← addVar "rolls"
    let next ← addExpr (.binary .add rolls one)
    let bump ← addAssign "rolls" next
    let body ← addSequence [print, wait, bump]
    let five ← addExpr (.number (.ofInt 5))
    let cond ← addExpr (.binary .lt rolls five)
    setRoot (← addStmt (.while cond body))

/--
```text
print 1; n := true; print 2
```
-/
def broken : Demo where
  name := "broken"
  summary := "store a boolean in a number variable and halt"
  scene := soloScene 1 1 0 0 id do
    let _ ← declare "n" .number
    let one ← addExpr (.number .one)
    let two ← addExpr (.number (.ofInt 2))
    let yes ← addExpr (.boolean true)
    let before ← addStmt (.print one)
    let bad ← addAssign "n" yes
    let after ← addStmt (.print two)
    setRoot (← addSequence [before, bad, after])

/-- All demos, in the order in which they are listed. -/
def all : List Demo := [patrol, census, tiles, dice, broken]

def find? (name : String) : Option Demo := all.find? (·.name = name)

end Demo

end ActorScript
