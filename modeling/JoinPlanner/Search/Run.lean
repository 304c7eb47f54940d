import JoinPlanner.Query
import JoinPlanner.Random.Draw
import JoinPlanner.Search.Beam

/-!
# Randomized search

`Search.run` looks for a cheap candidate: first random seeds and orders, the best of which make the
beam, then perturbations of the beam's entries from the last to the first. It is given an evaluation
of a seed, an order and a threshold, which may answer with an infinite cost once the cost exceeds
the threshold; what a candidate is does not matter to it. A perturbation draws whether to take a new
seed. If the chance that is configured for that is not a number, then there is no such draw, and the
program stops there (`Search.halt`).
-/

namespace JoinPlanner

namespace Draw
variable {σ : Type} [RandomSource σ]

/-- Swaps a share of the positions of an order, at least one pair of two or more. -/
def mess (fraction : Float) (order : List Nat) : Draw σ (List Nat) := do
  if order.length < 2 then return order
  let swaps := (Float.ofNat order.length * fraction).round.toUInt64.toNat
  return (← swapTimes (max 1 swaps) order.toArray).toList

end Draw

/-- An action that draws from a source of type `σ` and evaluates candidates in `m`. -/
abbrev SearchM (σ : Type) (m : Type → Type) := StateT σ m

structure Search (κ : Type) (m : Type → Type) where
  config : SearchConfig
  relations : Nat
  predicates : Nat
  /-- The cost of the candidate of a seed and an order, up to a threshold. -/
  evaluate : UInt64 → List Nat → κ → m κ
  /-- How the program stops at a draw of no chance; it does not come back from that. -/
  stop : m Empty

structure SearchState (κ : Type) where
  beam : List (Candidate κ) := []
  stats : SearchStats := {}
deriving Inhabited

namespace Search
variable {κ σ : Type} {m : Type → Type} [CostNumber κ] [RandomSource σ] [Monad m]
variable (search : Search κ m)

open CostNumber (infinity le)

/-- The size of the beam, which grows with the query. -/
def capacity : Nat :=
  let least := max search.config.minBeam 1
  min (max (2 * search.relations + search.predicates) least) (max search.config.maxBeam least)

/-- The cost above which a trial is of no use: that of the last entry of a full beam. -/
def trialThreshold (beam : List (Candidate κ)) : Option κ :=
  if beam.length ≥ search.capacity then beam.getLast?.map (·.cost) else none

/-- Evaluates a random candidate and keeps it if it is among the best. -/
def trial (s : SearchState κ) : SearchM σ m (SearchState κ) := do
  let seed ← draw Draw.longWord
  let order ← draw (Draw.shuffle (List.range search.predicates))
  let threshold := search.trialThreshold s.beam
  let cost ← search.evaluate seed order (threshold.getD infinity)
  let s := { s with stats.trials := s.stats.trials + 1 }
  if threshold.any (le · cost) then return s
  match Candidate.insertInto ⟨seed, order, cost⟩ s.beam with
  | some (_, beam) => return { s with beam := beam.take search.capacity }
  | none => return s

def trials : (n : Nat) → SearchState κ → SearchM σ m (SearchState κ)
  | 0, s => return s
  | n + 1, s => do trials n (← search.trial s)

def triesAt (rank : Nat) : Nat :=
  max search.config.refineTriesMin (search.config.refineTriesBest / (1 + rank / 4))

/-- The chance of a new seed at a rank; none if what is configured is not a number. -/
def seedChance (rank : Nat) : Option Float :=
  if search.config.seedChangeChance.isNumber then
    let chance := search.config.seedChangeChance.toFloat / Float.ofNat (rank + 1)
    some (if chance < 0 then 0 else if chance > 1 then 1 else chance)
  else none

def halt {α : Type} : SearchM σ m α := Empty.elim <$> StateT.lift search.stop

/-- Whether a perturbation at a rank takes a new seed. -/
def drawFresh (rank : Nat) : SearchM σ m Bool :=
  match search.seedChance rank with
  | some chance => draw (Draw.chance chance)
  | none => search.halt

/-- Evaluates a perturbation of the entry `base` at a rank and keeps it if it is better. The entry
moves to the next rank when the better one is put before it. -/
def perturb (base : Candidate κ) (rank : Nat) (s : SearchState κ) :
    SearchM σ m (Nat × SearchState κ) := do
  let s := { s with stats.refinements := s.stats.refinements + 1 }
  let order ← draw (Draw.mess search.config.messFraction base.order)
  let fresh ← search.drawFresh rank
  let seed ← if fresh then draw Draw.longWord else pure base.seed
  let cost ← search.evaluate seed order base.cost
  if le base.cost cost then return (rank, s)
  match Candidate.insertInto ⟨seed, order, cost⟩ s.beam with
  | some (place, beam) =>
    let stats := { s.stats with improvements := s.stats.improvements + 1 }
    return (if place ≤ rank then rank + 1 else rank, { beam, stats })
  | none => return (rank, s)

/-- Perturbs the entry at a rank up to `tries` times, and gives the rank to which it has moved. -/
def refineEntry : (tries : Nat) → (rank : Nat) → SearchState κ → SearchM σ m (Nat × SearchState κ)
  | 0, rank, s => return (rank, s)
  | tries + 1, rank, s => do
    if s.stats.refinements ≥ search.config.maxRefinementSteps then return (rank, s)
    match s.beam[rank]? with
    | some base =>
      let (rank, s) ← search.perturb base rank s
      refineEntry tries rank s
    | none => return (rank, s)

/-- Refines the entries below a rank, from the last to the first, and cuts the beam after each.
Every entry that it visits either was there before or is an improvement, so `visits` may be bounded
by their number. -/
def refineBelow : (visits : Nat) → (rank : Nat) → SearchState κ → SearchM σ m (SearchState κ)
  | 0, _, s => return s
  | _ + 1, 0, s => return s
  | visits + 1, rank + 1, s => do
    if s.stats.refinements ≥ search.config.maxRefinementSteps then return s
    let (rank, s) ← search.refineEntry (search.triesAt rank) rank s
    refineBelow visits rank { s with beam := s.beam.take (max rank search.config.minBeam) }

def refine (s : SearchState κ) : SearchM σ m (SearchState κ) :=
  search.refineBelow (s.beam.length + search.config.maxRefinementSteps) s.beam.length s

/-- The beam after both phases; its first entry is the best candidate. -/
def run : SearchM σ m (SearchState κ) := do
  let start : SearchState κ := { stats.beamCapacity := search.capacity }
  search.refine (← search.trials (max search.config.seedTrials 1) start)

end Search

end JoinPlanner
