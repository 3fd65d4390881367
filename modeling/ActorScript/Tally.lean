/-!
# Tallies

Counts of what a script did, for those who want to know what it costs.  They are exact;
what is shown of them are counters of 64 bits, which start again from zero when they are
full.
-/

namespace ActorScript

structure Tally where
  /-- Ticks in which the script ran. -/
  ticks : Nat := 0
  /-- Steps paid for. -/
  steps : Nat := 0
  /-- Ticks that ended before the script did. -/
  suspensions : Nat := 0
  /-- Ticks that ended with a transient fault. -/
  transientFaults : Nat := 0
  /-- Lines printed. -/
  lines : Nat := 0
deriving DecidableEq, Inhabited

/-- The counts of a tally modulo `2 ^ 64`. -/
structure Counters where
  ticks : UInt64
  steps : UInt64
  suspensions : UInt64
  transientFaults : UInt64
  lines : UInt64
deriving DecidableEq

namespace Tally

def countTick (t : Tally) : Tally := { t with ticks := t.ticks + 1 }

def countStep (t : Tally) : Tally := { t with steps := t.steps + 1 }

def countSuspension (t : Tally) : Tally := { t with suspensions := t.suspensions + 1 }

def countTransientFault (t : Tally) : Tally :=
  { t with transientFaults := t.transientFaults + 1 }

def countLine (t : Tally) : Tally := { t with lines := t.lines + 1 }

def counters (t : Tally) : Counters where
  ticks := .ofNat t.ticks
  steps := .ofNat t.steps
  suspensions := .ofNat t.suspensions
  transientFaults := .ofNat t.transientFaults
  lines := .ofNat t.lines

def text (t : Tally) : String :=
  "ticks:            " ++ toString t.counters.ticks ++ "\n" ++
  "steps:            " ++ toString t.counters.steps ++ "\n" ++
  "suspensions:      " ++ toString t.counters.suspensions ++ "\n" ++
  "transient faults: " ++ toString t.counters.transientFaults ++ "\n" ++
  "lines printed:    " ++ toString t.counters.lines

end Tally

end ActorScript
