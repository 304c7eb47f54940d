/-!
# Random draws

A random source gives 32-bit words one after the other (`RandomSource`). From them are drawn 64-bit
words, coins, numbers below a bound, members of a list and shuffles; each draw says how many words
it takes, so that a source determines the outcome of all draws.
-/

namespace JoinPlanner

class RandomSource (σ : Type) where
  next : σ → UInt32 × σ

abbrev Draw (σ : Type) := StateM σ

/-- A draw as a part of a larger action. -/
def draw {σ α : Type} {m : Type → Type} [Monad m] (x : Draw σ α) : StateT σ m α :=
  fun source => pure (x.run source)

namespace Draw
variable {σ : Type} [RandomSource σ]

def word : Draw σ UInt32 := RandomSource.next

/-- Two words, the lower half first. -/
def longWord : Draw σ UInt64 := do
  let low ← word
  let high ← word
  return high.toUInt64 <<< 32 ||| low.toUInt64

/-- An event of a chance between 0 and 1; no word is drawn for a certain one. -/
def chance (p : Float) : Draw σ Bool := do
  if p == 1 then return true
  return (← longWord) < (p * 18446744073709551616).toUInt64

def coin : Draw σ Bool := return (← longWord) < 9223372036854775808

/-- The words after which a draw below a bound gives up rejecting. -/
def maxRejections : Nat := 256

/-- A number below `n` from words of `bits` bits: the upper half of the product of `n` and a word. A
word is rejected when the lower half of its product is not below the greatest multiple of `n` by a
power of two that the words hold. -/
def below (bits : Nat) (word : Draw σ Nat) (n : Nat) : Draw σ Nat :=
  go maxRejections
where
  zone : Nat := n <<< (bits - (n.log2 + 1))
  go : Nat → Draw σ Nat
    | 0 => return ((← word) * n) >>> bits
    | attempts + 1 => do
      let product := (← word) * n
      if product % (1 <<< bits) < zone then return product >>> bits else go attempts

def smallBelow (n : Nat) : Draw σ Nat := below 32 (return (← word).toNat) n

def longBelow (n : Nat) : Draw σ Nat := below 64 (return (← longWord).toNat) n

variable {α : Type}

/-- Swaps every entry, from position `n` down to 1, with one at or before it. -/
def shuffleFrom : Nat → Array α → Draw σ (Array α)
  | 0, a => return a
  | n + 1, a => do
    let i ← smallBelow (n + 2)
    shuffleFrom n (a.swapIfInBounds (n + 1) i)

def shuffle (l : List α) : Draw σ (List α) := return (← shuffleFrom (l.length - 1) l.toArray).toList

/-- A member of a list; nothing is drawn for an empty one. -/
def choose? (l : List α) : Draw σ (Option α) := do
  if l.isEmpty then return none
  return l[← smallBelow l.length]?

/-- Swaps two entries at drawn positions, `n` times. -/
def swapTimes : Nat → Array α → Draw σ (Array α)
  | 0, a => return a
  | n + 1, a => do
    let i ← longBelow a.size
    let j ← longBelow a.size
    swapTimes n (a.swapIfInBounds i j)

end Draw

end JoinPlanner
