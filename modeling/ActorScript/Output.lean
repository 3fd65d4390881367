/-!
# Output

Where the lines go that a script prints. A buffer keeps them to be read back; a console
shows them once the outermost layer gets hold of them; a log and silence leave nothing to
be seen here.
-/

namespace ActorScript

/-- The kinds of destinations. -/
inductive Sink where
  | buffer
  | console
  | log
  | silent
deriving DecidableEq, Inhabited

structure Output where
  sink : Sink := .buffer
  /-- The lines printed, each with a line feed, if the sink is one that takes them up. -/
  text : String := ""
deriving DecidableEq, Inhabited

namespace Output

/-- Prints a line. -/
def println (o : Output) (message : String) : Output :=
  match o.sink with
  | .buffer | .console => { o with text := o.text ++ message ++ "\n" }
  | .log | .silent => o

/-- What a buffer holds; other sinks hold nothing. -/
def captured (o : Output) : String :=
  match o.sink with
  | .buffer => o.text
  | .console | .log | .silent => ""

/-- What a console shows. -/
def shown (o : Output) : String :=
  match o.sink with
  | .console => o.text
  | .buffer | .log | .silent => ""

/-- Empties a buffer. -/
def clear (o : Output) : Output :=
  match o.sink with
  | .buffer => { o with text := "" }
  | .console | .log | .silent => o

/-- Drops one carriage return from the end of a line, which is held back to front. -/
def dropReturn : List Char → List Char
  | '\r' :: line => line
  | line => line

/-- Splits a text after each line feed. The first argument is the line read so far, back
to front. -/
def splitLines : List Char → List Char → List (List Char)
  | [], [] => []
  | line, [] => [line.reverse]
  | line, '\n' :: rest => (dropReturn line).reverse :: splitLines [] rest
  | line, c :: rest => splitLines (c :: line) rest

/--
The lines that a buffer holds. A line ends with a line feed, which a carriage return may
come before; nothing after the last line feed is no line.
-/
def lines (o : Output) : List String :=
  (splitLines [] o.captured.toList).map String.ofList

end Output

end ActorScript
