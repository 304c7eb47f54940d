import JoinPlanner.Cost.Number

/-!
# Costs

The estimate of an operator's rows and of the time to produce them, in row visits.
-/

namespace JoinPlanner

structure Cost (κ : Type) where
  rows : κ
  time : κ
deriving BEq, DecidableEq, Inhabited, Repr

structure CostConfig (κ : Type) where
  indexLookupCost : κ
  scanFactor : κ
  /-- The factor on a join that compares every two rows. -/
  noRelationPenalty : κ
  /-- The share of row pairs that an inequality between two relations keeps. -/
  inequalityJoinFraction : κ
  equiJoinSpreadDivisor : κ
deriving BEq, DecidableEq, Repr

namespace CostConfig
open CostNumber (ofCount)

def standard (κ : Type) [CostNumber κ] : CostConfig κ where
  indexLookupCost := ofCount 2
  scanFactor := ofCount 1
  noRelationPenalty := ofCount 11 / ofCount 10
  inequalityJoinFraction := ofCount 85 / ofCount 100
  equiJoinSpreadDivisor := ofCount 3

end CostConfig

end JoinPlanner
