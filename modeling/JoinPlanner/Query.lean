import JoinPlanner.Decimal.Binary
import JoinPlanner.Expr.Basic

/-!
# Queries and the bounds of the search
-/

namespace JoinPlanner

/-- What is to be planned: a tree of joins and aliases, a filter over its rows, and their order. -/
structure Query where
  graph : Option Expr := none
  filter : Option Expr := none
  order : List (SortKey Expr) := []
deriving Inhabited

structure SearchConfig where
  /-- Random candidates priced before the refinement. -/
  seedTrials : Nat := 64
  minBeam : Nat := 8
  maxBeam : Nat := 48
  /-- The share of the positions of a predicate order that one perturbation swaps. -/
  messFraction : Float := 0.012
  /-- Perturbations of the best entry of the beam. -/
  refineTriesBest : Nat := 24
  refineTriesMin : Nat := 2
  /-- The chance of a new seed for the best entry, one in ten; it falls with the rank. -/
  seedChangeChance : FloatBits := ⟨0x3FB999999999999A⟩
  /-- The most candidates priced by the refinement. -/
  maxRefinementSteps : Nat := 4096
  rngSeed : Option UInt64 := none
  sampleFacts : Bool := true
deriving Inhabited

end JoinPlanner
