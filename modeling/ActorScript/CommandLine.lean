import ActorScript.Scene.Demos

/-!
# The command line

What the program writes and how it exits, for the arguments it is given.
-/

namespace ActorScript

/-- What a call of the program leaves behind. -/
structure Response where
  code : Nat := 0
  stdout : String := ""
  stderr : String := ""

namespace CommandLine

/-- Lines of text, each with its line feed. -/
def block (lines : List String) : String := String.join (lines.map (· ++ "\n"))

def defaults : Options := { demo := "" }

def usage : String := block [
  "Caper - resumable actor scripts",
  "",
  "Usage: caper <command> [options]",
  "",
  "Commands:",
  "  run <demo>    Run a demo tick by tick",
  "  list          List the bundled demos",
  "  help          Show this message",
  "",
  "Run options:",
  "  --ticks=N     Stop after N ticks (default: " ++ toString defaults.ticks ++ ")",
  "  --budget=B    Budget per tick (default: " ++ defaults.budget.text ++ ")",
  "  --seed=S      Seed for random()",
  "  --profile     Print execution counters when the run ends",
  "",
  "Set RUST_LOG (e.g. RUST_LOG=caper_eval=debug) for execution traces."]

/-- Fills a word up with blanks. -/
def padRight (width : Nat) (s : String) : String :=
  s ++ String.ofList (List.replicate (width - s.length) ' ')

def listing : String :=
  block ("Available demos:" :: Demo.all.map fun d =>
    "  " ++ padRight 10 d.name ++ " " ++ d.summary)

def failure (lines : List String) : Response := { code := 1, stderr := block lines }

/-- What is said about a scene that has been played. -/
def report (s : Performance) : Response :=
  let counts := match s.program.memory.tally with
    | some tally => ["", tally.text]
    | none => []
  let after := " after " ++ toString s.ticks ++ " tick(s)"
  let verdict := match s.program.fault with
    | some fault => "halted" ++ after ++ ": " ++ fault.message
    | none =>
        if s.program.isFinished then "finished" ++ after else "still running" ++ after
  { code := if s.program.fault.isSome then 1 else 0
    stdout := s.program.memory.output.shown
    stderr := block (counts ++ [verdict]) }

/-- Runs a demo. -/
def runDemo (options : Options) : Response :=
  match Demo.find? options.demo with
  | none =>
      { failure ["error: unknown demo '" ++ options.demo ++ "'", ""] with
          stdout := listing }
  | some demo =>
      match demo.scene.play Program.ample options .console with
      | .error e =>
          failure
            ["error: demo '" ++ demo.name ++ "' is not a valid program: " ++ e.message]
      | .ok none => failure ["error: demo '" ++ demo.name ++ "' does not come to an end"]
      | .ok (some s) => report s

/-- The answer to the arguments. -/
def run : List String → Response
  | [] => { stdout := usage }
  | "run" :: arguments =>
      match Options.parse arguments with
      | .ok options => runDemo options
      | .error e =>
          failure ["error: " ++ e.message,
            "Usage: caper run <demo> [--ticks=N] [--budget=B] [--seed=S] [--profile]"]
  | "list" :: _ => { stdout := listing }
  | "help" :: _ | "--help" :: _ | "-h" :: _ => { stdout := usage }
  | other :: _ => { failure ["Unknown command: " ++ other, ""] with stdout := usage }

end CommandLine

end ActorScript
