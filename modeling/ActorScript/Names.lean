/-!
# Names

Variables are known by number.  `Names` gives numbers to strings in the order in which
they come, and finds its way in both directions: from a string to its number and back.
The empty string is always the first.
-/

namespace ActorScript

/-- The number of a name. -/
abbrev Name := Nat

namespace Name

/-- The number of the empty string. -/
def empty : Name := 0

/-- The greatest number of a name: numbers have 32 bits. -/
def greatest : Name := 0xFFFFFFFF

end Name

/-- The strings with a number. -/
structure Names where
  /-- The strings, each at its number. -/
  strings : Array String := #[""]
  /-- The number of each string. -/
  numbers : List (String × Name) := [("", Name.empty)]
deriving DecidableEq, Inhabited

namespace Names

/-- The number of a string, if it has one. -/
def get? (names : Names) (s : String) : Option Name := names.numbers.lookup s

/-- The number of a string, which is given the next one if it has none. -/
def intern (names : Names) (s : String) : Name × Names :=
  match names.get? s with
  | some name => (name, names)
  | none =>
      let name := min names.strings.size Name.greatest
      (name, { strings := names.strings.push s, numbers := (s, name) :: names.numbers })

/-- The string of a name; the empty string for a number not given out. -/
def lookup (names : Names) (name : Name) : String :=
  names.strings.getD (if name < names.strings.size then name else Name.empty) ""

def size (names : Names) : Nat := names.strings.size

def isEmpty (names : Names) : Bool := names.strings.isEmpty

/-- The names after strings have been given numbers one after the other. -/
def ofList (strings : List String) : Names :=
  strings.foldl (fun names s => (names.intern s).2) {}

end Names

end ActorScript
