import ActorScript.Decimal.Reading
import ActorScript.Program

/-!
# Options of a run

What can be chosen for the run of a demo on the command line. Options may stand before or
after the name of the demo; of an option given twice the last one counts.
-/

namespace ActorScript

structure Options where
  demo : String
  /-- The most ticks that are run. -/
  ticks : Nat := 200
  /-- The budget of each tick. -/
  budget : Number := .ofInt 4
  seed : UInt64 := Program.defaultSeed
  /-- Whether to keep counts. -/
  profile : Bool := false

/-- What is wrong with the arguments. -/
inductive OptionError where
  | missingDemo
  | unknownFlag (flag : String)
  | unexpectedArgument (argument : String)
  | invalidValue (flag value : String)
deriving DecidableEq

def OptionError.message : OptionError → String
  | missingDemo => "missing demo name"
  | unknownFlag flag => "unknown option '" ++ flag ++ "'"
  | unexpectedArgument argument => "unexpected argument '" ++ argument ++ "'"
  | invalidValue flag value => "invalid value '" ++ value ++ "' for " ++ flag

namespace Options

/-- Options as far as they have been read. The name of the demo may be still to come. -/
structure Draft where
  demo? : Option String := none
  options : Options := { demo := "" }

/-- What follows a flag and an equals sign. -/
def valueOf? (flag argument : String) : Option String :=
  let head := (flag ++ "=").toList
  if head.isPrefixOf argument.toList
    then some (String.ofList (argument.toList.drop head.length))
  else none

/-- A value that can be read, or the complaint that it cannot. -/
def readValue {α : Type} (flag value : String) (read? : String → Option α) :
    Except OptionError α :=
  match read? value with
  | some a => .ok a
  | none => .error (.invalidValue flag value)

/-- A budget has to be finite and must not be below zero. -/
def budget? (value : String) : Option Number :=
  (Numeral.number? value).filter fun b => b.isFinite && !decide (b < .zero)

/-- Reads one argument. -/
def Draft.read (d : Draft) (argument : String) : Except OptionError Draft :=
  if let some value := valueOf? "--ticks" argument then do
    let ticks ← readValue "--ticks" value (Numeral.whole? 0x100000000)
    return { d with options := { d.options with ticks } }
  else if let some value := valueOf? "--budget" argument then do
    let budget ← readValue "--budget" value budget?
    return { d with options := { d.options with budget } }
  else if let some value := valueOf? "--seed" argument then do
    let seed ← readValue "--seed" value (Numeral.whole? 0x10000000000000000)
    return { d with options := { d.options with seed := UInt64.ofNat seed } }
  else if argument = "--profile" then
    .ok { d with options := { d.options with profile := true } }
  else if argument.toList.head? = some '-' then .error (.unknownFlag argument)
  else if d.demo?.isNone then .ok { d with demo? := some argument }
  else .error (.unexpectedArgument argument)

/-- Reads the arguments, from the left. -/
def parse (arguments : List String) : Except OptionError Options := do
  let d ← arguments.foldlM Draft.read {}
  match d.demo? with
  | some demo => return { d.options with demo }
  | none => .error .missingDemo

end Options

end ActorScript
