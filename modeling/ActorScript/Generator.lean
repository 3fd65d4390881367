import ActorScript.Number

/-!
# The random generator

Random numbers are taken from the keystream of ChaCha with twelve rounds, two 32-bit words
at a time. The key comes from a 64-bit seed by a linear congruential sequence with
permuted output. A generator is a plain value: to go back to an earlier point of the
stream is to use an earlier one.
-/

namespace ActorScript

/-- The position in a keystream. -/
structure Generator where
  key : Vector UInt32 8
  /-- The number of blocks worked out so far. -/
  blocks : Nat := 0
  /-- What is left of the last of them. -/
  pending : List UInt64 := []
deriving DecidableEq, Inhabited

namespace Generator

/-! ## Seeding -/

def rotateRight (word : UInt32) (n : UInt32) : UInt32 := word >>> n ||| word <<< (32 - n)

/-- One step of the sequence that spreads the seed over the key. -/
def nextSeed (state : UInt64) : UInt64 :=
  state * 6364136223846793005 + 11634580027462260723

/-- The key word that a state of that sequence gives. -/
def seedWord (state : UInt64) : UInt32 :=
  rotateRight (((state >>> 18) ^^^ state) >>> 27).toUInt32 (state >>> 59).toUInt32

/-- The first `n` states after a seed. -/
def seedStates : Nat → UInt64 → List UInt64
  | 0, _ => []
  | n + 1, state => let next := nextSeed state; next :: seedStates n next

def ofSeed (seed : UInt64) : Generator :=
  let words := (seedStates 8 seed).map seedWord
  { key := Vector.ofFn fun i => words[i]?.getD 0 }

/-! ## The keystream -/

abbrev Block := Vector UInt32 16

def rotateLeft (word : UInt32) (n : UInt32) : UInt32 := word <<< n ||| word >>> (32 - n)

/-- Adds, mixes and turns: one quarter of a quarter round. -/
def mix (a b d : Fin 16) (n : UInt32) (s : Block) : Block :=
  let s := s.set a (s[a] + s[b])
  s.set d (rotateLeft (s[d] ^^^ s[a]) n)

def quarterRound (a b c d : Fin 16) (s : Block) : Block :=
  s |> mix a b d 16 |> mix c d b 12 |> mix a b d 8 |> mix c d b 7

/-- The columns, then the diagonals. -/
def doubleRound (s : Block) : Block :=
  s |> quarterRound 0 4 8 12 |> quarterRound 1 5 9 13 |> quarterRound 2 6 10 14
    |> quarterRound 3 7 11 15 |> quarterRound 0 5 10 15 |> quarterRound 1 6 11 12
    |> quarterRound 2 7 8 13 |> quarterRound 3 4 9 14

/-- The block before mixing: four constants, the key, the 64-bit counter, two zeros. -/
def start (key : Vector UInt32 8) (counter : Nat) : Block :=
  #v[0x61707865, 0x3320646e, 0x79622d32, 0x6b206574,
    key[0], key[1], key[2], key[3], key[4], key[5], key[6], key[7],
    UInt32.ofNat counter, UInt32.ofNat (counter >>> 32), 0, 0]

/-- The block with a number. -/
def block (key : Vector UInt32 8) (counter : Nat) : Block :=
  let s := start key counter
  Vector.zipWith (· + ·) s (Nat.repeat doubleRound 6 s)

/-- Joins words in pairs, the low half first. -/
def pairUp : List UInt32 → List UInt64
  | low :: high :: rest => (low.toUInt64 ||| high.toUInt64 <<< 32) :: pairUp rest
  | _ => []

/-- The next 64 bits of the stream. -/
def next (g : Generator) : UInt64 × Generator :=
  match g.pending with
  | word :: rest => (word, { g with pending := rest })
  | [] =>
      match pairUp (block g.key g.blocks).toList with
      | word :: rest => (word, { g with blocks := g.blocks + 1, pending := rest })
      | [] => (0, { g with blocks := g.blocks + 1 })

/-! ## Numbers -/

/-- A number from zero up to one: 52 bits of the word behind the point. -/
def unit (word : UInt64) : Number :=
  ⟨word >>> 12 ||| 0x3FF0000000000000⟩ - Number.one

/-- What a bound for random numbers has to be. -/
def IsBound (bound : Number) : Prop := bound.isFinite = true ∧ Number.zero < bound

instance (bound : Number) : Decidable (IsBound bound) :=
  inferInstanceAs (Decidable (_ ∧ _))

/--
Draws until the number falls below the bound. That a stream brings such a number at all is
not evident from its definition, so there is an end to it after so many words, and the
number is zero.
-/
def drawBelow (bound : Number) : Nat → Generator → Number × Generator
  | 0, g => (.zero, g)
  | tries + 1, g =>
      let (word, g) := g.next
      let n := unit word * bound
      if n < bound then (n, g) else drawBelow bound tries g

/--
How many words a draw may take. A word is passed over only where rounding takes it up to
the bound, which for the smallest bounds happens half of the time: it would take 4096 such
words in a row to get here. The cut-off stands in for a loop without one, and is there to
make a draw a total function. What is proved about scripts holds for any way to draw a
number below a bound; nothing depends on how it is done here.
-/
def maxTries : Nat := 4096

/-- A random number from zero up to a bound. -/
def below (g : Generator) (bound : Number) (_ : IsBound bound) : Number × Generator :=
  drawBelow bound maxTries g

end Generator

end ActorScript
