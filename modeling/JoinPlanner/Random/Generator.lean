import JoinPlanner.Random.ChaCha
import JoinPlanner.Random.Draw

/-!
# The seeded generator

A random source whose words are the ChaCha12 stream of a key made from a 64-bit seed.
-/

namespace JoinPlanner

/-- A position in the stream of a key: the words left of a block, and the number of the next one. -/
structure Generator where
  key : ChaCha.Key
  counter : UInt64
  pending : List UInt32

namespace Generator

/-- The linear step of the seed, and the word that it yields. -/
def seedStep (state : UInt64) : UInt64 × UInt32 :=
  let state := state * 6364136223846793005 + 11634580027462260723
  let x := (((state >>> 18) ^^^ state) >>> 27).toUInt32
  let turn := (state >>> 59).toUInt32
  (state, x >>> turn ||| x <<< ((32 - turn) % 32))

def seedWords : (n : Nat) → UInt64 → Vector UInt32 n
  | 0, _ => #v[]
  | n + 1, state =>
    let (state, word) := seedStep state
    ((#v[word] ++ seedWords n state).cast (Nat.add_comm 1 n))

def ofSeed (seed : UInt64) : Generator := ⟨seedWords 8 seed, 0, []⟩

def next (g : Generator) : UInt32 × Generator :=
  match g.pending with
  | word :: rest => (word, { g with pending := rest })
  | [] =>
    let block := ChaCha.block g.key g.counter
    (block[0], { g with counter := g.counter + 1, pending := block.toList.drop 1 })

instance : RandomSource Generator := ⟨next⟩

end Generator

end JoinPlanner
